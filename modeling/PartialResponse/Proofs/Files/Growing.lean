import PartialResponse.Files.Faults
import PartialResponse.Proofs.Files.Temporary

/-!
# PartialResponse.Proofs.Files.Growing — directories that are made disturb nothing

Making the directories above a file adds directories where nothing was, and does so
even if it fails on the way. What was there before stays, and the paths that led to
it still do.
-/

namespace PartialResponse

namespace Disk

variable {disk disk' disk'' : Disk} {path : String}

/-- All that stands on the first disk stands on the second one too, and the same is the working
directory. -/
structure Grown (disk disk' : Disk) : Prop where
  here : disk'.here = disk.here
  kept : ∀ {location entry}, disk.find? location = some entry → disk'.find? location = some entry

/-- A disk that nothing is added to. -/
theorem Grown.refl (disk : Disk) : Grown disk disk :=
  ⟨rfl, id⟩

/-- A disk that grows twice. -/
theorem Grown.trans (h : Grown disk disk') (h' : Grown disk' disk'') : Grown disk disk'' :=
  ⟨h'.here.trans h.here, fun hfound => h'.kept (h.kept hfound)⟩

/-- Paths lead where they led, since the directories on the way are still there. -/
theorem Grown.place (h : Grown disk disk') {place : Place} (hleads : disk.place path = .ok place) :
    disk'.place path = .ok place :=
  KeepsDirectories.place ⟨h.here, fun _ => h.kept⟩ hleads

/-- What a path without a last name leads to is a directory. -/
theorem look_known {location : Location} (hleads : disk.place path = .ok (.known location)) :
    disk.look path = .ok (some .directory) := by
  rw [look, hleads]
  rfl

/-- What a path stands for it stands for on a disk that has grown. -/
theorem Grown.look (h : Grown disk disk') {found : Entry} (hthere : disk.look path = .ok (some found)) :
    disk'.look path = .ok (some found) := by
  cases hplaced : disk.place path with
  | error e => simp [Disk.look, hplaced, bind, Except.bind] at hthere
  | ok place =>
    cases place with
    | known location =>
      rw [look_known hplaced] at hthere
      rw [look_known (h.place hplaced), hthere]
    | named directory name =>
      rw [look_named hplaced] at hthere
      rw [look_named (h.place hplaced)]
      split_ifs at hthere ⊢
      rw [Except.ok.injEq] at hthere ⊢
      exact h.kept hthere

/-- What can be opened at a path is what the path stands for; only a directory can have a slash behind
its name. -/
theorem entry_eq_ok_iff {found : Entry} : disk.entry path = .ok found ↔
    disk.look path = .ok (some found) ∧ (found = .directory ∨ Files.endsInSlash path = false) := by
  cases hlooked : disk.look path with
  | error e => simp [entry, hlooked, bind, Except.bind]
  | ok there =>
    cases there with
    | none => simp [entry, hlooked, bind, Except.bind, throw, throwThe, MonadExceptOf.throw]
    | some there =>
      have hopened : disk.entry path = if there = .directory then .ok .directory
          else if Files.endsInSlash path then .error .notDirectory else .ok there := by
        rw [entry, hlooked]
        cases there <;> rfl
      rw [hopened]
      -- a slash behind the name asks for a directory
      by_cases hisDirectory : there = .directory
      · subst hisDirectory
        rw [if_pos rfl, Except.ok.injEq, Except.ok.injEq, Option.some.injEq]
        exact ⟨fun heq => ⟨heq, .inl heq.symm⟩, And.left⟩
      · by_cases hslash : Files.endsInSlash path = true
        · simp only [hisDirectory, if_false, hslash, if_true, reduceCtorEq, false_iff, not_and]
          rintro heq (rfl | hplain)
          · exact hisDirectory (by simpa using heq)
          · cases hplain
        · simp [hisDirectory, hslash]

/-- What can be opened at a path can be opened there on a disk that has grown. -/
theorem Grown.entry (h : Grown disk disk') {found : Entry} (hthere : disk.entry path = .ok found) :
    disk'.entry path = .ok found := by
  rw [entry_eq_ok_iff] at hthere ⊢
  exact ⟨h.look hthere.1, hthere.2⟩

/-- What is put where nothing stands takes nothing away. -/
theorem grown_put {location : Location} (hfree : disk.find? location = none) (entry : Entry) :
    Grown disk (disk.put location entry) := by
  -- the root is always there, so nothing is put in its place
  have hinner : location ≠ [] := by
    rintro rfl
    cases hfree
  refine ⟨rfl, fun {other found} hthere => ?_⟩
  have hapart : other ≠ location := by
    rintro rfl
    simp [hfree] at hthere
  simp [hinner, hapart, hthere]

/-- A directory is made where nothing is. -/
theorem grown_makeDirectory (path : String) (disk : Disk) :
    Grown disk (disk.makeDirectory path).2 := by
  unfold makeDirectory
  cases hplaced : disk.place path with
  | error e => exact .refl disk
  | ok place =>
    cases hlooked : disk.look path with
    | error e => exact .refl disk
    | ok found =>
      cases found with
      | some entry => exact .refl disk
      | none =>
        cases place with
        | known location =>
          -- such a path stands for a directory, so something is there
          rw [look_known hplaced] at hlooked
          cases hlooked
        | named directory name =>
          rw [look_named hplaced] at hlooked
          split_ifs at hlooked
          exact grown_put (by simpa [Place.location] using hlooked) .directory

end Disk

namespace FaultyDisk

variable {α β : Type}

/-- Whatever faults there are, nothing that was there goes. -/
def Grows (action : StateM FaultyDisk α) : Prop :=
  ∀ before : FaultyDisk, before.disk.Grown (action.run before).2.disk

/-- An action that does nothing. -/
theorem grows_pure (a : α) : Grows (pure a) :=
  fun before => .refl before.disk

/-- An action, and another one behind it. -/
theorem grows_bind {action : StateM FaultyDisk α} {next : α → StateM FaultyDisk β}
    (h : Grows action) (hnext : ∀ a, Grows (next a)) : Grows (action >>= next) :=
  fun before => (h before).trans (hnext _ _)

/-- An action that may break, if neither way of it takes anything away. -/
theorem grows_attempt {sound : Disk → α × Disk} {broken : Disk.Fault → Disk → α × Disk}
    (hsound : ∀ disk, Disk.Grown disk (sound disk).2)
    (hbroken : ∀ fault disk, Disk.Grown disk (broken fault disk).2) : Grows (attempt sound broken) := by
  intro before
  obtain ⟨faults, hruns | ⟨fault, hruns⟩⟩ := run_attempt sound broken before
  · rw [hruns]
    exact hsound before.disk
  · rw [hruns]
    exact hbroken fault before.disk

/-- A directory is made, or it is looked whether there is one. -/
theorem grows_ensureDirectory (path : String) :
    Grows (ensureDirectory path : StateM FaultyDisk (Except FileError Unit)) := by
  refine grows_bind (grows_attempt (Disk.grown_makeDirectory path) fun _ => .refl) fun result => ?_
  cases result with
  | ok _ => exact grows_pure _
  | error e => exact grows_bind (grows_attempt .refl fun _ => .refl) fun _ => grows_pure _

/-- The run lemma, by induction on the directories: the ones further on are made before the first is
tried again. -/
theorem grows_ensureAll (paths : List String) :
    Grows (ensureAll paths : StateM FaultyDisk (Except FileError Unit)) := by
  induction paths with
  | nil => exact grows_pure _
  | cons path above ih =>
    rw [ensureAll]
    refine grows_bind (grows_ensureDirectory path) fun result => ?_
    split
    · refine grows_bind ih fun result => ?_
      cases result with
      | ok _ => exact grows_ensureDirectory path
      | error e => exact grows_pure _
    · exact grows_pure _

/-- The directories above a file are made. -/
theorem grows_makeParent (path : String) :
    Grows (makeParent path : StateM FaultyDisk (Except FileError Unit)) :=
  grows_ensureAll _

end FaultyDisk

end PartialResponse
