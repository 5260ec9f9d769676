import Mathlib.Data.List.Infix
import Mathlib.Data.List.TakeWhile
import PartialResponse.Document.File

/-!
# PartialResponse.Proofs.Document.FileNames — what the end of a path tells

The format of a file is told by the end of its whole path, and whether loading
takes it for a compressed one by the ending of its name, which is looked for
behind the last slash. A path that ends in `.json` is that of a JSON file by the
one, and not that of a compressed one by the other. Saving compresses by the end
of the path, which comes to the same as the ending of the name unless the name is
`.gz`: its point starts the name, and so no ending.
-/

namespace PartialResponse

namespace Files

/-- An end of a path without slashes is the end of its last piece. -/
theorem splitOn_of_suffix {text tail : List Char} (hplain : '/' ∉ tail) (h : tail <:+ text) :
    ∃ before stem, text.splitOn '/' = before ++ [stem ++ tail] := by
  obtain ⟨front, rfl⟩ := h
  induction front with
  | nil => exact ⟨[], [], List.splitOn_eq_singleton hplain⟩
  | cons c front ih =>
    obtain ⟨before, stem, heq⟩ := ih
    rw [List.cons_append, List.splitOn_cons_eq_if_modifyHead, heq]
    split
    · exact ⟨[] :: before, stem, rfl⟩
    · cases before with
      | nil => exact ⟨[], c :: stem, rfl⟩
      | cons first before => exact ⟨(c :: first) :: before, stem, rfl⟩

/-- The last piece of a path is its file name if it is a name and not just points. -/
theorem fileName?_of_pieces {path name : String} {before : List String}
    (h : pieces path = before ++ [name]) (hnotEmpty : name ≠ "") (hnotPoint : name ≠ ".")
    (hnotAbove : name ≠ "..") : fileName? path = some name := by
  simp [fileName?, steps, names, h, List.filter_append, hnotEmpty, hnotPoint, hnotAbove]

/-- The last piece of a path is its end. -/
theorem suffix_of_splitOn {text last : List Char} {before : List (List Char)}
    (h : text.splitOn '/' = before ++ [last]) : last <:+ text := by
  induction text generalizing before last with
  | nil =>
    have hone : [] ++ [[]] = before ++ [last] := h
    obtain ⟨-, rfl⟩ := List.append_singleton_inj.mp hone
    exact List.suffix_rfl
  | cons c text ih =>
    obtain ⟨first, more, heq⟩ : ∃ first more, text.splitOn '/' = first ++ [more] :=
      ⟨_, _, (List.dropLast_append_getLast (List.splitOn_ne_nil _ _)).symm⟩
    have hbehind : more <:+ c :: text := (ih heq).trans (List.suffix_cons c text)
    rw [List.splitOn_cons_eq_if_modifyHead, heq] at h
    split at h
    · have hone : ([] :: first) ++ [more] = before ++ [last] := h
      obtain ⟨-, rfl⟩ := List.append_singleton_inj.mp hone
      exact hbehind
    · cases first with
      | nil =>
        -- the text is one piece
        have hjoined : ['/'].intercalate (text.splitOn '/') = text := List.intercalate_splitOn '/'
        rw [heq] at hjoined
        obtain rfl : more = text := by simpa using hjoined
        have hone : [] ++ [c :: more] = before ++ [last] := h
        obtain ⟨-, rfl⟩ := List.append_singleton_inj.mp hone
        exact List.suffix_rfl
      | cons piece first =>
        have hone : ((c :: piece) :: first) ++ [more] = before ++ [last] := h
        obtain ⟨-, rfl⟩ := List.append_singleton_inj.mp hone
        exact hbehind

/-- A text without slashes is the end of a path if it is that of its last piece. -/
theorem suffix_iff_of_pieces {path name : String} {before : List String} {tail : List Char}
    (h : pieces path = before ++ [name]) (hplain : '/' ∉ tail) :
    tail <:+ path.toList ↔ tail <:+ name.toList := by
  obtain ⟨front, last, heq⟩ : ∃ front last, path.toList.splitOn '/' = front ++ [last] :=
    ⟨_, _, (List.dropLast_append_getLast (List.splitOn_ne_nil _ _)).symm⟩
  obtain rfl : String.ofList last = name := by
    rw [pieces, heq, List.map_append] at h
    exact (List.append_singleton_inj.mp h).2
  rw [String.toList_ofList]
  constructor
  · intro hsuffix
    obtain ⟨front', stem, heq'⟩ := splitOn_of_suffix hplain hsuffix
    obtain ⟨-, rfl⟩ := List.append_singleton_inj.mp (heq.symm.trans heq')
    exact List.suffix_append stem tail
  · exact fun hsuffix => hsuffix.trans (suffix_of_splitOn heq)

/-- A path that does not end in a slash has a name behind its last slash. -/
theorem exists_last_piece {path : String} (hnonempty : path ≠ "")
    (hplain : endsInSlash path = false) :
    ∃ before name, pieces path = before ++ [name] ∧ name ≠ "" := by
  obtain ⟨front, c, heq⟩ : ∃ front c, path.toList = front ++ [c] :=
    ⟨_, _, (List.dropLast_append_getLast (by simpa using hnonempty)).symm⟩
  have hnoSlash : '/' ∉ [c] := by
    rw [endsInSlash, heq, List.getLast?_concat] at hplain
    have hother : c ≠ '/' := by simpa using hplain
    simpa using hother.symm
  obtain ⟨before, stem, hsplit⟩ := splitOn_of_suffix hnoSlash (heq ▸ List.suffix_append front [c])
  refine ⟨before.map .ofList, .ofList (stem ++ [c]), ?_, ?_⟩
  · rw [pieces, hsplit, List.map_append]
    rfl
  · intro hempty
    simpa using congrArg String.toList hempty

/-! ## Endings -/

/-- A name that has a point has a last one. -/
theorem exists_last_point {name : List Char} (hpoint : '.' ∈ name) :
    ∃ stem ending, name = stem ++ '.' :: ending ∧ '.' ∉ ending := by
  obtain ⟨behind, front, heq, hnoPoint⟩ := List.eq_append_cons_of_mem (List.mem_reverse.mpr hpoint)
  exact ⟨front.reverse, behind.reverse, by simpa using congrArg List.reverse heq,
    by simpa using hnoPoint⟩

theorem ne_point_of_mem_reverse {text : List Char} (hnoPoint : '.' ∉ text) :
    ∀ c ∈ text.reverse, (c != '.') = true := by
  intro c hmem
  have hne : c ≠ '.' := fun heq => hnoPoint (heq ▸ List.mem_reverse.mp hmem)
  simpa using hne

variable {path name : String} {stem ending : List Char}

/-- What stands behind the last point of a file name is its ending, if something stands in front of
the point. -/
theorem extension?_of_point (h : fileName? path = some name)
    (hsplit : name.toList = stem ++ '.' :: ending) (hnoPoint : '.' ∉ ending) :
    extension? path = if stem.isEmpty then none else some (.ofList ending) := by
  have hbehind : (name.toList.reverse.takeWhile (· != '.')).reverse = ending := by
    rw [hsplit, List.reverse_append, List.reverse_cons, List.append_assoc,
      List.takeWhile_append_of_pos (ne_point_of_mem_reverse hnoPoint)]
    simp
  have hfront : name.toList.take (name.toList.length - ending.length - 1) = stem := by
    have hcount : (stem ++ '.' :: ending).length - ending.length - 1 = stem.length := by
      rw [List.length_append, List.length_cons]
      omega
    rw [hsplit, hcount, List.take_left]
  simp only [extension?, h, Option.bind_eq_bind, Option.bind_some, hbehind, hfront]

theorem extension?_of_noPoint (h : fileName? path = some name) (hnoPoint : '.' ∉ name.toList) :
    extension? path = none := by
  have hbehind : (name.toList.reverse.takeWhile (· != '.')).reverse = name.toList := by
    rw [List.takeWhile_eq_self_iff.mpr (ne_point_of_mem_reverse hnoPoint), List.reverse_reverse]
  simp only [extension?, h, Option.bind_eq_bind, Option.bind_some, hbehind]
  simp

/-- The endings that a file name has. -/
theorem extension?_eq_some_iff (h : fileName? path = some name) (hnoPoint : '.' ∉ ending) :
    extension? path = some (.ofList ending) ↔
      ∃ stem, stem ≠ [] ∧ name.toList = stem ++ '.' :: ending := by
  constructor
  · intro hfound
    by_cases hpoint : '.' ∈ name.toList
    · obtain ⟨stem, last, hsplit, hlastPoint⟩ := exists_last_point hpoint
      rw [extension?_of_point h hsplit hlastPoint] at hfound
      split_ifs at hfound with hbare
      obtain rfl : last = ending := String.ofList_injective (Option.some.inj hfound)
      exact ⟨stem, by simpa using hbare, hsplit⟩
    · rw [extension?_of_noPoint h hpoint] at hfound
      cases hfound
  · rintro ⟨stem, hnonempty, hsplit⟩
    rw [extension?_of_point h hsplit hnoPoint, if_neg (by simpa using hnonempty)]

/-- A path that ends in a point and an ending has that ending, unless the point starts its last
name. -/
theorem extension?_of_suffix (hnonempty : ending ≠ []) (hnoSlash : '/' ∉ ending)
    (hnoPoint : '.' ∉ ending) (h : '.' :: ending <:+ path.toList) :
    extension? path = none ∨ extension? path = some (.ofList ending) := by
  obtain ⟨before, stem, hsplit⟩ := splitOn_of_suffix (by simpa using hnoSlash) h
  -- the name does not end in a point, so it does not consist of points
  have hlast : ending.getLast hnonempty ≠ '.' := fun heq => hnoPoint (heq ▸ List.getLast_mem hnonempty)
  have hnotPoints (points : String) (hallPoints : points.toList.all (· == '.') = true) :
      String.ofList (stem ++ '.' :: ending) ≠ points := by
    intro heq
    apply hlast
    apply eq_of_beq
    apply List.all_eq_true.mp hallPoints
    rw [← heq, String.toList_ofList]
    simp [List.getLast_mem hnonempty]
  have hlastPiece : pieces path =
      before.map .ofList ++ [.ofList (stem ++ '.' :: ending)] := by
    rw [pieces, hsplit, List.map_append]
    rfl
  have hfileName : fileName? path = some (.ofList (stem ++ '.' :: ending)) :=
    fileName?_of_pieces hlastPiece (hnotPoints "" (by decide)) (hnotPoints "." (by decide))
      (hnotPoints ".." (by decide))
  rw [extension?_of_point hfileName String.toList_ofList hnoPoint]
  split
  · exact .inl rfl
  · exact .inr rfl

end Files

/-- A path does not end in two texts of which neither ends in the other. -/
theorem Format.not_endsIn {path : List Char} {ending other : String} (h : endsIn ending path = true)
    (hapart : endsIn ending other.toList = false) (hapart' : endsIn other ending.toList = false) :
    endsIn other path = false := by
  rw [Bool.eq_false_iff]
  intro h'
  obtain hsuffix | hsuffix :=
    List.suffix_or_suffix_of_suffix (List.isSuffixOf_iff_suffix.mp h)
      (List.isSuffixOf_iff_suffix.mp h')
  · rw [endsIn, List.isSuffixOf_iff_suffix.mpr hsuffix] at hapart
    exact absurd hapart (by decide)
  · rw [endsIn, List.isSuffixOf_iff_suffix.mpr hsuffix] at hapart'
    exact absurd hapart' (by decide)

/-- A path that ends in `.json` is that of a JSON file. -/
theorem Format.ofPath_of_json {path : String} (h : endsIn ".json" path.toList = true) :
    ofPath path = .json := by
  have hgz : endsIn ".gz" path.toList = false := not_endsIn h (by decide) (by decide)
  have hjsonl : endsIn ".jsonl" path.toList = false := not_endsIn h (by decide) (by decide)
  have hndjson : endsIn ".ndjson" path.toList = false := not_endsIn h (by decide) (by decide)
  have hyaml : endsIn ".yaml" path.toList = false := not_endsIn h (by decide) (by decide)
  have hyml : endsIn ".yml" path.toList = false := not_endsIn h (by decide) (by decide)
  simp [ofPath, uncompressedPath, hgz, hjsonl, hndjson, hyaml, hyml]

/-- Loading takes no path that ends in `.json` for that of a compressed file. -/
theorem Document.loadsCompressed_of_json {path : String}
    (h : Format.endsIn ".json" path.toList = true) : loadsCompressed path = false := by
  have hsuffix : ['.', 'j', 's', 'o', 'n'] <:+ path.toList := List.isSuffixOf_iff_suffix.mp h
  obtain hnone | hsome := Files.extension?_of_suffix (by decide) (by decide) (by decide) hsuffix
  · rw [loadsCompressed, hnone]
    rfl
  · rw [loadsCompressed, hsome]
    decide

namespace Document

variable {path name : String} {before : List String}

/-- Saving compresses a file if its name ends in `.gz`. -/
theorem savesCompressed_of_pieces (h : Files.pieces path = before ++ [name]) :
    savesCompressed path = Format.endsIn ".gz" name.toList := by
  rw [Bool.eq_iff_iff, savesCompressed, Format.endsIn, Format.endsIn, List.isSuffixOf_iff_suffix,
    List.isSuffixOf_iff_suffix]
  exact Files.suffix_iff_of_pieces h (by decide)

/-- Loading takes a file for a compressed one if its name ends in `.gz` and something stands in
front of that. -/
theorem loadsCompressed_of_fileName (h : Files.fileName? path = some name) :
    loadsCompressed path = (Format.endsIn ".gz" name.toList && name != ".gz") := by
  have hloads : loadsCompressed path = true ↔
      ∃ stem, stem ≠ [] ∧ name.toList = stem ++ ['.', 'g', 'z'] := by
    rw [loadsCompressed, beq_iff_eq]
    show Files.extension? path = some (.ofList ['g', 'z']) ↔ _
    exact Files.extension?_eq_some_iff h (by decide)
  rw [Bool.eq_iff_iff, hloads, Bool.and_eq_true, Format.endsIn, List.isSuffixOf_iff_suffix,
    bne_iff_ne]
  constructor
  · rintro ⟨stem, hnonempty, hsplit⟩
    refine ⟨⟨stem, hsplit.symm⟩, ?_⟩
    rintro rfl
    -- with nothing in front of it, the ending would be the whole name
    have hbare : stem.length + 3 = 3 := by
      simpa using (congrArg List.length hsplit).symm
    exact hnonempty (List.eq_nil_of_length_eq_zero (by omega))
  · rintro ⟨⟨stem, hsplit⟩, hother⟩
    refine ⟨stem, ?_, hsplit.symm⟩
    rintro rfl
    exact hother (String.toList_inj.mp hsplit.symm)

end Document

end PartialResponse
