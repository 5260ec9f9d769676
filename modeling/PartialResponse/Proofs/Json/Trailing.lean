import PartialResponse.Json.Parser
import PartialResponse.Proofs.Json.Tokens

/-!
# PartialResponse.Proofs.Json.Trailing — white space behind a text

White space at the end of a text makes no difference to what the text stands for. No
token takes it in: a reader that meets it at the end of its text reads the same as
without it and passes it on (`Spares`), and behind the last token it is skipped. So
what `parse?` makes of a line does not depend on whether the carriage return in front
of a line feed counts as part of the line.
-/

namespace PartialResponse.Json

variable {α β : Type} {c : Char}

/-- A reader leaves a character at the end of a text alone: it reads the same as without the
character, which stays at the end of what is left. -/
def Spares (c : Char) (read : List Char → Option (α × List Char)) : Prop :=
  ∀ t, read (t ++ [c]) = (read t).map fun (a, rest) => (a, rest ++ [c])

/-- It makes no difference what becomes of what is read. -/
theorem Spares.map {read : List Char → Option (α × List Char)} (h : Spares c read) (f : α → β)
    (t : List Char) :
    ((read (t ++ [c])).map fun (a, rest) => (f a, rest)) =
      ((read t).map fun (a, rest) => (f a, rest)).map fun (b, rest) => (b, rest ++ [c]) := by
  rw [h t, Option.map_map, Option.map_map]
  rfl

/-! ## What a white-space character is not -/

/-- White space does not go on with a number. -/
theorem apart_space (h : isSpace c = true) : Apart [c] := by
  simp only [isSpace, Bool.or_eq_true, beq_iff_eq] at h
  rcases h with ((rfl | rfl) | rfl) | rfl <;> exact apart_cons rfl

/-- White space is no digit. -/
theorem hexValue?_space (h : isSpace c = true) : Text.hexValue? c = none := by
  simp only [isSpace, Bool.or_eq_true, beq_iff_eq] at h
  rcases h with ((rfl | rfl) | rfl) | rfl <;> rfl

/-- A word without white space in front of a text that ends in white space is in front of the text
without it. -/
theorem exists_of_append_space {t rest : List Char} (word : List Char) (h : isSpace c = true)
    (hword : word.any isSpace = false) (heq : t ++ [c] = word ++ rest) :
    ∃ more, t = word ++ more ∧ rest = more ++ [c] := by
  rcases List.append_eq_append_iff.1 heq with ⟨last, hlast, hrest⟩ | ⟨more, hmore, hrest⟩
  · cases last with
    | nil => exact ⟨[], by simpa using hlast.symm, by simpa using hrest.symm⟩
    | cons x last =>
      -- the white space would be a character of the word
      obtain rfl : c = x := (List.cons.inj hrest).1
      simp [hlast, h] at hword
  · exact ⟨more, hmore, hrest⟩

/-- A word that is not in front of a text does not get there when white space comes behind it. -/
theorem not_append_space {t : List Char} (word : List Char) (h : isSpace c = true)
    (hword : word.any isSpace = false) (ht : ∀ more, t = word ++ more → False) (rest : List Char)
    (heq : t ++ [c] = word ++ rest) : False := by
  obtain ⟨more, hmore, -⟩ := exists_of_append_space word h hword heq
  exact ht more hmore

/-! ## Strings -/

/-- Four digits, none of which white space can be. -/
theorem spares_readCodeUnit (h : isSpace c = true) : Spares c readCodeUnit := by
  intro t
  match t with
  | [] => rfl
  | [_] => rfl
  | [_, _] => rfl
  | [x, y, z] => simp [readCodeUnit, Text.hexNumber?, hexValue?_space h]
  | _ :: _ :: _ :: _ :: _ => simp [readCodeUnit, Function.comp_def]

/-- A character by its number, or by two that make a pair. -/
theorem spares_readUnicodeEscape (h : isSpace c = true) : Spares c readUnicodeEscape := by
  intro t
  simp only [readUnicodeEscape, spares_readCodeUnit h t]
  cases readCodeUnit t with
  | none => rfl
  | some p =>
    obtain ⟨first, rest⟩ := p
    simp only [Option.map_some, Option.bind_eq_bind, Option.bind_some]
    split_ifs
    · simp only [Option.map_none]
    · -- the second half of the pair is read behind a backslash and a `u`
      split
      · next rest' heq =>
        obtain ⟨more, rfl, rfl⟩ := exists_of_append_space ['\\', 'u'] h rfl heq
        simp only [List.cons_append, List.nil_append, spares_readCodeUnit h more]
        cases readCodeUnit more with
        | none => simp only [Option.map_none, Option.bind_none]
        | some p =>
          simp only [Option.map_some, Option.bind_some]
          split_ifs
          · simp only [Option.map_some]
          · simp only [Option.map_none]
      -- with white space behind it the text still does not go on with a second half
      · next hpair =>
        split
        · next more => exact absurd rfl (hpair (more ++ [c]))
        · simp only [Option.map_none]
    · simp only [Option.map_some]

/-- An escape sequence, of whatever kind. -/
theorem spares_readEscape (h : isSpace c = true) : Spares c readEscape := by
  intro t
  fun_cases readEscape t with
  | case9 rest => exact spares_readUnicodeEscape h rest
  | case10 t h₁ h₂ h₃ h₄ h₅ h₆ h₇ h₈ h₉ =>
    rw [readEscape.eq_10]
    · rfl
    · exact not_append_space ['"'] h rfl h₁
    · exact not_append_space ['\\'] h rfl h₂
    · exact not_append_space ['/'] h rfl h₃
    · exact not_append_space ['b'] h rfl h₄
    · exact not_append_space ['f'] h rfl h₅
    · exact not_append_space ['n'] h rfl h₆
    · exact not_append_space ['r'] h rfl h₇
    · exact not_append_space ['t'] h rfl h₈
    · exact not_append_space ['u'] h rfl h₉
  | _ => rfl

/-- A string that is not closed is not closed by white space either. -/
theorem spares_readString (h : isSpace c = true) : Spares c readString := by
  intro t
  fun_induction readString t with
  | case1 =>
    simp only [isSpace, Bool.or_eq_true, beq_iff_eq] at h
    -- nothing but white space is left, and no closing quote
    rcases h with ((rfl | rfl) | rfl) | rfl <;> simp [readString]
  | case2 => simp [readString]
  | case3 rest' x after he ih =>
    have hescape := spares_readEscape h rest'
    rw [he] at hescape
    rw [List.cons_append, readString_escape hescape, ih, Option.map_map, Option.map_map]
    rfl
  | case4 rest' he =>
    have hescape := spares_readEscape h rest'
    rw [he] at hescape
    rw [List.cons_append, readString]
    split
    · next heq =>
      rw [hescape] at heq
      cases heq
    · rfl
  | case5 x t hquote hescape hcontrol =>
    rw [List.cons_append, readString, if_pos hcontrol]
    · rfl
    · exact hquote
    · exact hescape
  | case6 x t hquote hescape hcontrol ih =>
    rw [List.cons_append, readString_char hquote hescape hcontrol, ih, Option.map_map,
      Option.map_map]
    rfl

/-! ## Numbers -/

/-- A fraction, or none. -/
theorem spares_readFraction (h : isSpace c = true) : Spares c readFraction := by
  intro t
  fun_cases readFraction t with
  | case1 rest digits hdigits =>
    rw [List.cons_append, readFraction, takeWhile_append_apart (apart_space h)]
    exact if_pos hdigits
  | case2 rest digits hdigits =>
    rw [List.cons_append, readFraction, takeWhile_append_apart (apart_space h),
      dropWhile_append_apart (apart_space h)]
    exact if_neg hdigits
  | case3 t hpoint =>
    rw [readFraction.eq_2]
    · rfl
    · exact not_append_space ['.'] h rfl hpoint

/-- The digits of an exponent. -/
theorem spares_readExponentDigits (h : isSpace c = true) (negative : Bool) :
    Spares c (readExponentDigits negative) := by
  intro t
  unfold readExponentDigits
  rw [takeWhile_append_apart (apart_space h), dropWhile_append_apart (apart_space h)]
  dsimp only
  split
  · rfl
  · rfl

/-- An exponent with its sign. -/
theorem spares_readSignedExponent (h : isSpace c = true) : Spares c readSignedExponent := by
  intro t
  fun_cases readSignedExponent t with
  | case1 rest => exact spares_readExponentDigits h false rest
  | case2 rest => exact spares_readExponentDigits h true rest
  | case3 t hplus hminus =>
    rw [readSignedExponent.eq_3]
    · exact spares_readExponentDigits h false t
    · exact not_append_space ['+'] h rfl hplus
    · exact not_append_space ['-'] h rfl hminus

/-- An exponent, or none. -/
theorem spares_readExponent (h : isSpace c = true) : Spares c readExponent := by
  intro t
  fun_cases readExponent t with
  | case1 rest => exact (spares_readSignedExponent h).map some rest
  | case2 rest => exact (spares_readSignedExponent h).map some rest
  | case3 t hlower hupper =>
    rw [readExponent.eq_3]
    · rfl
    · exact not_append_space ['e'] h rfl hlower
    · exact not_append_space ['E'] h rfl hupper

/-- A number without its sign. -/
theorem spares_readMagnitude (h : isSpace c = true) (negative : Bool) :
    Spares c (readMagnitude negative) := by
  intro t
  unfold readMagnitude
  rw [takeWhile_append_apart (apart_space h), dropWhile_append_apart (apart_space h)]
  dsimp only
  split
  · rfl
  · rw [spares_readFraction h]
    -- each part reads on from where the one in front of it ended
    cases readFraction (t.dropWhile Char.isDigit) with
    | none => rfl
    | some p =>
      obtain ⟨fraction, rest⟩ := p
      simp only [Option.map_some, Option.bind_eq_bind, Option.bind_some,
        spares_readExponent h rest]
      cases readExponent rest with
      | none => rfl
      | some q =>
        obtain ⟨exponent, rest⟩ := q
        simp only [Option.map_some, Option.bind_some]
        cases assemble negative (t.takeWhile Char.isDigit) fraction exponent <;> rfl

/-- A number with its sign. -/
theorem spares_readNumber (h : isSpace c = true) : Spares c readNumber := by
  intro t
  fun_cases readNumber t with
  | case1 rest => exact spares_readMagnitude h true rest
  | case2 t hsign =>
    rw [readNumber.eq_2]
    · exact spares_readMagnitude h false t
    · exact not_append_space ['-'] h rfl hsign

/-! ## Tokens -/

/-- A token of any kind: where none starts, white space makes none start. -/
theorem Token.spares_read (h : isSpace c = true) : Spares c Token.read := by
  intro t
  fun_cases Token.read t with
  | case10 rest =>
    exact (spares_readString h).map (fun cs => scalar (.string (String.ofList cs))) rest
  | case11 t h₁ h₂ h₃ h₄ h₅ h₆ h₇ h₈ h₉ h₁₀ =>
    rw [Token.read.eq_11]
    · exact (spares_readNumber h).map (fun n => scalar (.number n)) t
    · exact not_append_space ['{'] h rfl h₁
    · exact not_append_space ['}'] h rfl h₂
    · exact not_append_space ['['] h rfl h₃
    · exact not_append_space [']'] h rfl h₄
    · exact not_append_space [':'] h rfl h₅
    · exact not_append_space [','] h rfl h₆
    · exact not_append_space ['n', 'u', 'l', 'l'] h rfl h₇
    · exact not_append_space ['t', 'r', 'u', 'e'] h rfl h₈
    · exact not_append_space ['f', 'a', 'l', 's', 'e'] h rfl h₉
    · exact not_append_space ['"'] h rfl h₁₀
  | _ => rfl

/-- White space behind a text adds no token. -/
theorem Token.ofText?_append_space (h : isSpace c = true) (t : List Char) :
    ofText? (t ++ [c]) = ofText? t := by
  -- on the length, since the rest behind a token is not a tail that a list induction knows
  induction hlength : t.length using Nat.strong_induction_on generalizing t with
  | h n ih =>
    rw [ofText?_eq, ofText?_eq t, List.dropWhile_append]
    cases hstart : t.dropWhile isSpace with
    | nil => simp [h]
    | cons x more =>
      have hshorter : (x :: more).length ≤ n := by
        rw [← hstart, ← hlength]
        exact (List.dropWhile_suffix _).length_le
      rw [List.isEmpty_cons, if_neg Bool.false_ne_true, if_neg (by simp), if_neg (by simp),
        spares_read h]
      cases hread : read (x :: more) with
      | none => rfl
      | some p =>
        obtain ⟨token, rest⟩ := p
        have hrest : rest.length < n := (length_read hread).trans_le hshorter
        rw [Option.map_some, Option.bind_some, Option.bind_some]
        dsimp only
        rw [ih rest.length hrest rest rfl]

/-- White space behind a text does not change the value. -/
theorem parse?_append_space (h : isSpace c = true) (t : List Char) :
    parse? (t ++ [c]) = parse? t := by
  rw [parse?, parse?, Token.ofText?_append_space h]

end PartialResponse.Json
