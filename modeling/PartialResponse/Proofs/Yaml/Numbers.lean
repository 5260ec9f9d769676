import PartialResponse.Proofs.Text.Digits
import PartialResponse.Proofs.Yaml.Plain
import PartialResponse.Yaml.Value.Tree

/-!
# PartialResponse.Proofs.Yaml.Numbers — numbers read back

The text of a number is a plain scalar. An integer reads back from it. Whether a
floating-point number does depends on the digits that are found for it.
-/

namespace PartialResponse.Yaml

/-! ## Numbers as plain scalars -/

/-- The characters of numbers. -/
def isNumberChar (x : Char) : Bool :=
  x.isDigit || x == '.' || x == 'e' || x == '-'

/-- Whether a text is a digit and further characters of numbers. -/
def UnsignedText (t : List Char) : Prop :=
  ∃ d more, t = d :: more ∧ d.isDigit = true ∧ ∀ x ∈ more, isNumberChar x = true

/-- Whether a text is such a text, perhaps behind a sign. -/
def NumberText (t : List Char) : Prop :=
  UnsignedText t ∨ ∃ u, t = '-' :: u ∧ UnsignedText u

theorem isNumberChar_of_isDigit {x : Char} (h : x.isDigit = true) : isNumberChar x = true := by
  simp [isNumberChar, h]

/-- A character of numbers can be printed and is neither white space nor a mark inside plain text.
-/
theorem number_char {x : Char} (h : isNumberChar x = true) :
    isPrintable x = true ∧ isBreak x = false ∧ isBlank x = false ∧ x ≠ ':' ∧ x ≠ '#' := by
  simp only [isNumberChar, Bool.or_eq_true, beq_iff_eq] at h
  rcases h with ((h | rfl) | rfl) | rfl
  · have hn := Text.isDigit_iff.1 h
    have hne : ∀ y : Char, y.isDigit = false → x ≠ y := fun y => Text.ne_of_isDigit h
    refine ⟨?_, ?_, ?_, hne _ (by decide), hne _ (by decide)⟩
    · simp only [isPrintable, Bool.or_eq_true, Bool.and_eq_true, decide_eq_true_eq]
      omega
    · simp [isBreak, hne '\n' (by decide), hne '\r' (by decide), hne '\u0085' (by decide),
        hne '\u2028' (by decide), hne '\u2029' (by decide)]
    · simp [isBlank, hne ' ' (by decide), hne '\t' (by decide)]
  all_goals decide

/-- Without colons and number signs nothing in a text is a mark. -/
theorem hasInnerMark_eq_false {t : List Char} (h : ∀ x ∈ t, x ≠ ':' ∧ x ≠ '#') :
    hasInnerMark t = false := by
  induction t with
  | nil => rfl
  | cons x t ih =>
    obtain ⟨hx, ht⟩ := List.forall_mem_cons.1 h
    cases t with
    | nil => simp [hasInnerMark, hx.1]
    | cons y t => simp [hasInnerMark, hx.1, (ht y (by simp)).2, ih ht]

/-- All characters of such a text are characters of numbers. -/
theorem UnsignedText.all {t : List Char} (h : UnsignedText t) : ∀ x ∈ t, isNumberChar x = true := by
  obtain ⟨d, more, rfl, hd, hmore⟩ := h
  exact List.forall_mem_cons.2 ⟨isNumberChar_of_isDigit hd, hmore⟩

/-- A number can be written plain: a minus sign in front has a digit behind it. -/
theorem NumberText.plainText {t : List Char} (h : NumberText t) : PlainText t := by
  have hall : ∀ x ∈ t, isNumberChar x = true := by
    rcases h with h | ⟨u, rfl, h⟩
    · exact h.all
    · exact List.forall_mem_cons.2 ⟨by decide, h.all⟩
  have hne : t ≠ [] := by
    rcases h with ⟨d, more, rfl, -⟩ | ⟨u, rfl, -⟩ <;> simp
  have houter : hasOuterMark t = false := by
    rcases h with ⟨d, more, rfl, hd, -⟩ | ⟨_, rfl, d, more, rfl, hd, -⟩
    all_goals have hd' : ∀ y : Char, y.isDigit = false → d ≠ y := fun y => Text.ne_of_isDigit hd
    · simp [hasOuterMark, hd']
    · have hchar := number_char (isNumberChar_of_isDigit hd)
      simp [hasOuterMark, isBlankOrBreak, hchar.2.1, hchar.2.2.1, hd']
  exact ⟨hne, fun x hx => (number_char (hall x hx)).1, fun x hx => (number_char (hall x hx)).2.1,
    hasInnerMark_eq_false fun x hx => (number_char (hall x hx)).2.2.2, houter,
    fun x hx => (number_char (hall x (List.mem_of_mem_head? hx))).2.2.1,
    fun x hx => (number_char (hall x (List.mem_of_mem_getLast? hx))).2.2.1⟩

/-! ## The texts of numbers -/

/-- The digits of a number. -/
theorem unsignedText_digitText (n : Nat) : UnsignedText (Text.digitText n) := by
  obtain ⟨d, more, hdigits, hd, hmore⟩ := Text.exists_digitText n
  exact ⟨d, more, hdigits, hd, fun x hx => isNumberChar_of_isDigit (hmore x hx)⟩

/-- An exponent is written with characters of numbers. -/
theorem number_exponentText (e : Int) : ∀ x ∈ floatNotation.exponentText e, isNumberChar x = true := by
  have hdigits := (unsignedText_digitText e.natAbs).all
  unfold Binary64.Notation.exponentText
  split
  · exact List.forall_mem_cons.2 ⟨by decide, List.forall_mem_cons.2 ⟨by decide, hdigits⟩⟩
  · exact List.forall_mem_cons.2 ⟨by decide, hdigits⟩

/-- Zeros are characters of numbers. -/
theorem number_zeros (n : Nat) : ∀ x ∈ List.replicate n '0', isNumberChar x = true := by
  intro x hx
  rw [(List.mem_replicate.1 hx).2]
  decide

/-- A decimal starts with a digit in each of its notations. -/
theorem unsignedText_decimalText (d : Binary64.Decimal) : UnsignedText (floatNotation.decimalText d) := by
  obtain ⟨x, more, hdigits, hx, hmore⟩ := Text.exists_digitText d.digits
  have hmore' : ∀ y ∈ more, isNumberChar y = true := fun y hy => isNumberChar_of_isDigit (hmore y hy)
  -- the digits have a first one in every notation but that below one
  unfold Binary64.Notation.decimalText
  rw [hdigits]
  dsimp only
  split
  · split
    · -- a whole number: zeros behind the digits, and a fraction of zero
      have hwhole := List.forall_mem_append.2 ⟨hmore', number_zeros d.exponent.toNat⟩
      exact ⟨x, more ++ List.replicate d.exponent.toNat '0' ++ ['.', '0'], by simp, hx,
        List.forall_mem_append.2 ⟨hwhole, List.forall_mem_cons.2 ⟨by decide, number_zeros 1⟩⟩⟩
    · split
      · next hpoint =>
        -- the point stands behind the first digit or further on
        obtain ⟨n, hn⟩ : ∃ n, ((List.length (x :: more) : Int) + d.exponent).toNat = n + 1 :=
          ⟨_, (Nat.succ_pred_eq_of_pos (by omega)).symm⟩
        refine ⟨x, more.take n ++ '.' :: more.drop n, by rw [hn]; simp, hx, ?_⟩
        rw [List.forall_mem_append, List.forall_mem_cons]
        exact ⟨fun y hy => hmore' y (List.mem_of_mem_take hy), by decide,
          fun y hy => hmore' y (List.mem_of_mem_drop hy)⟩
      · -- below one: zeros in front of the digits
        refine ⟨'0', '.' :: (List.replicate _ '0' ++ x :: more), rfl, by decide, ?_⟩
        rw [List.forall_mem_cons, List.forall_mem_append, List.forall_mem_cons]
        exact ⟨by decide, number_zeros _, isNumberChar_of_isDigit hx, hmore'⟩
  · split
    · next digit hone =>
      obtain ⟨rfl, -⟩ := List.cons.inj hone
      exact ⟨x, _, rfl, hx, number_exponentText _⟩
    · next digit hothers hone =>
      obtain ⟨rfl, rfl⟩ := List.cons.inj hone
      refine ⟨x, '.' :: more ++ floatNotation.exponentText _, rfl, hx, ?_⟩
      rw [List.cons_append, List.forall_mem_cons, List.forall_mem_append]
      exact ⟨by decide, hmore', number_exponentText _⟩
    · next hnone => simp at hnone

/-- A number is written as a digit and further characters of numbers, perhaps behind a sign. -/
theorem numberText_text (n : Number) : NumberText (n.text floatNotation) := by
  have hsign : ∀ {t : List Char} (negative : Bool), UnsignedText t →
      NumberText ((if negative then ['-'] else []) ++ t) := by
    intro t negative ht
    cases negative with
    | false => exact .inl ht
    | true => exact .inr ⟨t, rfl, ht⟩
  cases n with
  | integer value hfits =>
    rw [Number.text, Number.integerText]
    split
    · exact hsign true (unsignedText_digitText value.natAbs)
    · exact hsign false (unsignedText_digitText value.natAbs)
  | float x =>
    rw [Number.text, Binary64.text]
    split
    · refine hsign x.negative ⟨'0', ['.', '0'], rfl, by decide, ?_⟩
      exact List.forall_mem_cons.2 ⟨by decide, List.forall_mem_singleton.2 (by decide)⟩
    · exact hsign x.negative (unsignedText_decimalText (Binary64.shortest x.rank))

/-! ## Integers read back -/

/-- The digits of a number read back. -/
@[simp]
theorem number?_digitText (n : Nat) : Text.number? 10 (Text.digitText n) = some n := by
  have hdigits : ∀ t : List Char, (∀ x ∈ t, x.isDigit = true) →
      (t.mapM fun c => (Text.hexValue? c).filter (· < 10)) = some (t.map fun c => c.toNat - 48) := by
    intro t ht
    induction t with
    | nil => rfl
    | cons x t ih =>
      obtain ⟨hx, ht⟩ := List.forall_mem_cons.1 ht
      have hn := Text.isDigit_iff.1 hx
      have hfits : (some (x.toNat - 48)).filter (· < 10) = some (x.toNat - 48) := by
        rw [Option.filter_some, if_pos (by simpa using by omega)]
      simp [Text.hexValue?_of_isDigit hx, ih ht, hfits]
  have hvalue : Text.value 10 ((Text.digitText n).map fun c => c.toNat - 48) = n := Text.digitValue_digitText n
  have hne : (Text.digitText n).isEmpty = false := by
    simp [Text.digitText]
  rw [Text.number?, hne, hdigits _ (fun x hx => Text.isDigit_of_mem_digitText hx)]
  simp [hvalue]

/-- No digits of a number have a superfluous zero in front. -/
@[simp]
theorem hasLeadingZero_digitText (n : Nat) : Schema.hasLeadingZero (Text.digitText n) = false := by
  obtain ⟨d, more, hdigits, hd, -⟩ := Text.exists_digitText n
  have hsign : d ≠ '-' ∧ d ≠ '+' := ⟨Text.ne_of_isDigit hd (by decide), Text.ne_of_isDigit hd (by decide)⟩
  rcases Nat.eq_zero_or_pos n with rfl | hn
  · rfl
  · have hzero : d ≠ '0' := by simpa [hdigits] using Text.head_digitText hn
    simp [Schema.hasLeadingZero, hdigits, hsign, hzero]

/-- The digits of a number are not taken for those of another base. -/
@[simp]
theorem natural?_digitText (n : Nat) : Schema.natural? (Text.digitText n) = some n := by
  have hread : (if Schema.hasLeadingZero (Text.digitText n) then none else
      Text.number? 10 (Text.digitText n)) = some n := by
    simp
  obtain ⟨d, more, hdigits, -, hmore⟩ := Text.exists_digitText n
  rw [hdigits] at hread ⊢
  unfold Schema.natural?
  split
  all_goals first | exact hread | skip
  all_goals
    next heq =>
    obtain ⟨-, rfl⟩ := List.cons.inj heq
    exact absurd (hmore _ List.mem_cons_self) (by decide)

/-- Whether a number reads back from its text. -/
def ReadsBack (n : Number) : Prop :=
  Schema.resolve (String.ofList (n.text floatNotation)) = .finite (.number n)

instance (n : Number) : Decidable (ReadsBack n) :=
  inferInstanceAs (Decidable (_ = _))

/-- An integer reads back from its text. -/
@[simp]
theorem integer?_integerText (value : Int) : Schema.integer? (Number.integerText value) = some value := by
  unfold Number.integerText
  split
  · next hneg =>
    rw [Schema.integer?, natural?_digitText]
    simp only [Option.map_some, Int.ofNat_eq_natCast, Option.some.injEq]
    omega
  · next hpos =>
    obtain ⟨d, more, hdigits, hd, -⟩ := Text.exists_digitText value.natAbs
    have hnat : (Schema.natural? (Text.digitText value.natAbs)).map Int.ofNat = some value := by
      rw [natural?_digitText]
      simp only [Option.map_some, Int.ofNat_eq_natCast, Option.some.injEq]
      omega
    have hsign : d ≠ '-' ∧ d ≠ '+' := ⟨Text.ne_of_isDigit hd (by decide), Text.ne_of_isDigit hd (by decide)⟩
    rw [hdigits] at hnat ⊢
    simpa [Schema.integer?, hsign] using hnat

/-- Every integer reads back from its text. -/
theorem readsBack_integer (value : Int)
    (hfits : -0x8000000000000000 ≤ value ∧ value < 0x10000000000000000) :
    ReadsBack (.integer value hfits) := by
  have hatom : (Schema.integer? (Number.integerText value)).bind Schema.integerAtom? =
      some (.finite (.number (.integer value hfits))) := by
    simp [integer?_integerText, Schema.integerAtom?, Number.ofInt?, hfits]
  -- no word that means something else starts like a number
  have hwords : ∀ words : List String,
      (words.all fun word => word.toList.head?.all fun x => !x.isDigit && x != '-') = true →
        words.contains (String.ofList (Number.integerText value)) = false := by
    intro words hhead
    by_contra hmem
    have htext := List.all_eq_true.1 hhead _ (List.contains_iff_mem.1 (by simpa using hmem))
    rw [String.toList_ofList, ← Number.text.eq_1 floatNotation value hfits] at htext
    rcases numberText_text (.integer value hfits) with ⟨d, more, hd, hdigit, -⟩ | ⟨u, hu, -⟩
    · simp [hd, hdigit] at htext
    · simp [hu] at htext
  have hnull : Schema.isNull (String.ofList (Number.integerText value)) = false := hwords _ (by decide)
  have hbool : Schema.bool? (String.ofList (Number.integerText value)) = none := by
    rw [Schema.bool?, hwords _ (by decide), hwords _ (by decide)]
    rfl
  rw [ReadsBack, Number.text, Schema.resolve, hnull, hbool, String.toList_ofList, hatom]
  rfl

end PartialResponse.Yaml
