import PartialResponse.Files.Disk

/-!
# PartialResponse.Files.Faults — a disk with faults

An operation on files can fail although nothing on the disk stands in its way.
Which operations do is settled in advance here, by a list with an entry for each
operation to come. One that fails leaves the disk as it is, but if it was to write
bytes, some of them may have been written. Removing a file does not fail, and the
standard output takes everything.
-/

namespace PartialResponse

/-- Why an operation fails. -/
structure Disk.Fault where
  cause : FileError
  /-- How many bytes are written nevertheless, if the operation was to write any. -/
  written : Nat

/-- A disk, and what comes in the way of the operations to come. Behind the end of the list nothing
does. -/
structure FaultyDisk where
  disk : Disk
  faults : List (Option Disk.Fault)

namespace FaultyDisk

variable {α : Type}

/-- The next operation: what it does without a fault, and what it does with one. -/
def attempt (sound : Disk → α × Disk) (broken : Disk.Fault → Disk → α × Disk) :
    StateM FaultyDisk α :=
  fun before =>
    let (result, disk) := match before.faults with
      | some fault :: _ => broken fault before.disk
      | _ => sound before.disk
    (result, ⟨disk, before.faults.tail⟩)

/-- Fails and does nothing. -/
def refuse (fault : Disk.Fault) (disk : Disk) : Except FileError α × Disk :=
  (.error fault.cause, disk)

/-- Fails behind some of the bytes. -/
def breakOff (write : List UInt8 → Disk → Except FileError Unit × Disk) (bytes : List UInt8)
    (fault : Disk.Fault) (disk : Disk) : Except FileError Unit × Disk :=
  (.error fault.cause, (write (bytes.take fault.written) disk).2)

instance : MonadFiles (StateM FaultyDisk) where
  contents path := attempt (Disk.contents path) refuse
  isThere path := attempt (fun disk => (disk.isThere path, disk)) fun _ disk => (false, disk)
  isDirectory path := attempt (fun disk => (disk.isDirectory path, disk)) fun _ disk => (false, disk)
  makeDirectory path := attempt (Disk.makeDirectory path) refuse
  overwrite path bytes :=
    attempt (Disk.overwrite path bytes) (breakOff (Disk.overwrite path) bytes)
  append path bytes := attempt (Disk.append path bytes) (breakOff (Disk.append path) bytes)
  createTemporary directory := attempt (Disk.createTemporary directory) refuse
  replace source target := attempt (Disk.replace source target) refuse
  remove path := modify fun s => { s with disk := s.disk.remove path }
  output bytes := fun s => ((s.disk.output bytes).1, { s with disk := (s.disk.output bytes).2 })

/-- The standard input, which is there. -/
def pipedInput : StateM FaultyDisk (Option (List UInt8)) := fun before =>
  (some before.disk.takeInput.1, { before with disk := before.disk.takeInput.2 })

/-- An operation does what it does without a fault, or what it does with one. -/
theorem run_attempt (sound : Disk → α × Disk) (broken : Disk.Fault → Disk → α × Disk)
    (before : FaultyDisk) : ∃ faults,
      (attempt sound broken).run before =
        ((sound before.disk).1, ⟨(sound before.disk).2, faults⟩) ∨
      ∃ fault, (attempt sound broken).run before =
        ((broken fault before.disk).1, ⟨(broken fault before.disk).2, faults⟩) := by
  obtain ⟨disk, faults⟩ := before
  refine ⟨faults.tail, ?_⟩
  match faults with
  | [] => exact .inl rfl
  | none :: _ => exact .inl rfl
  | some fault :: _ => exact .inr ⟨fault, rfl⟩

end FaultyDisk

end PartialResponse
