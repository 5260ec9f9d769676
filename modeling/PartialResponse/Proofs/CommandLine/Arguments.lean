import Mathlib.Data.List.Perm.Basic
import Mathlib.Data.List.TakeWhile
import PartialResponse.CommandLine.Arguments

/-!
# PartialResponse.Proofs.CommandLine.Arguments — what a command line says

A command line consists of items: the file to read, options without a value and
options with one, which stands behind an equals sign or is the next argument. The
reader settles an item only when it meets the next one; `Stands` says what a
reader that is between two items has settled in all but name. So what the reader
does is to settle the items in order (`parse_of_spelled`), and if no option
repeats, their order does not matter (`parse_of_perm`).
-/

namespace PartialResponse.CommandLine

/-- What a command line consists of. -/
inductive Item where
  | file (path : String)
  | setting (setting : Setting) (value : String)
  | flag (flag : Flag)
deriving DecidableEq

/-- The long name of an option with a value. -/
def Setting.longName : Setting → String
  | fields => "fields"
  | alwaysInclude => "always-include"
  | output => "output"
  | config => "config"

/-- The long name of an option without a value. -/
def Flag.longName : Flag → String
  | ignoreCase => "ignore-case"
  | ignoreParseErrors => "ignore-parse-errors"
  | compact => "compact"
  | help => "help"
  | version => "version"

/-- Whether an argument cannot be taken for an option. -/
def isPlain (argument : String) : Bool :=
  argument.toList.head? != some '-'

/-- The arguments that say an item. -/
inductive Item.Spells : Item → List String → Prop
  | file {path : String} : isPlain path → Spells (.file path) [path]
  | joined (setting : Setting) (value : String) :
      Spells (.setting setting value) ["--" ++ setting.longName ++ "=" ++ value]
  | apart (setting : Setting) {value : String} : isPlain value →
      Spells (.setting setting value) ["--" ++ setting.longName, value]
  | flag (flag : Flag) : Spells (.flag flag) ["--" ++ flag.longName]

/-- The arguments that say some items in order. The file can stand behind two hyphens at the end; its
path may then start with a hyphen. -/
inductive Spelled : List Item → List String → Prop
  | nil : Spelled [] []
  | behindHyphens (path : String) : Spelled [.file path] ["--", path]
  | cons {item : Item} {items : List Item} {arguments more : List String} :
      item.Spells arguments → Spelled items more → Spelled (item :: items) (arguments ++ more)

/-- Settles an item. There is one file at most, and its path is not empty. -/
def Item.settle (a : Arguments) : Item → Except Stop Arguments
  | .file path =>
    if a.file.isSome then .error (.usage (.unexpected path))
    else if path.isEmpty then .error (.usage (.missingValue fileName))
    else .ok { a with file := some path }
  | .setting s value => settleSetting a value s
  | .flag f => settleFlag a f

/-- A reader between two items, and what the items in front come to: nothing else is pending than
perhaps the last of them. -/
structure Stands (p : Progress) (a : Arguments) : Prop where
  settle_eq : settle p = .ok a
  complete : ∀ setting, p.pending ≠ .setting setting .none

/-- Nothing is pending at the start. -/
theorem stands_nothing (a : Arguments) : Stands ⟨a, .nothing⟩ a :=
  ⟨rfl, nofun⟩

/-- A reader that has met the file to read settles it later. No file stands in front of it. -/
theorem stands_file {a a' : Arguments} {path : String}
    (hsettled : (Item.file path).settle a = .ok a') : a.file = none ∧ Stands ⟨a, .file path⟩ a' := by
  simp only [Item.settle] at hsettled
  split at hsettled
  · cases hsettled
  · next hunset => exact ⟨by simpa using hunset, hsettled, nofun⟩

/-! ## The arguments of an item -/

/-- A long option without a value. -/
theorem take_option (p : Progress) {name : String} (hnoEquals : ∀ c ∈ name.toList, (c != '=') = true) :
    take p ("--" ++ name) = takeNamed p name none := by
  have hargument : ("--" ++ name).toList = '-' :: '-' :: name.toList := by
    rw [String.toList_append]
    rfl
  have hfront : name.toList.takeWhile (· != '=') = name.toList :=
    List.takeWhile_eq_self_iff.mpr hnoEquals
  rw [take, hargument]
  simp [hfront]

/-- A long option with a value behind an equals sign. -/
theorem take_optionWithValue (p : Progress) {name : String}
    (hnoEquals : ∀ c ∈ name.toList, (c != '=') = true) (value : String) :
    take p ("--" ++ name ++ "=" ++ value) = takeNamed p name (some value) := by
  have hargument : ("--" ++ name ++ "=" ++ value).toList =
      '-' :: '-' :: (name.toList ++ '=' :: value.toList) := by
    simp [String.toList_append]
  have hfront : (name.toList ++ '=' :: value.toList).takeWhile (· != '=') = name.toList := by
    rw [List.takeWhile_append_of_pos hnoEquals]
    simp
  rw [take, hargument]
  simp [hfront]

/-- An argument that does not start with a hyphen is no option. -/
theorem take_plain (p : Progress) {argument : String} (hplain : isPlain argument = true) :
    take p argument = takePlain p argument := by
  unfold take
  split
  · next h => simp [isPlain, h] at hplain
  · next h => simp [isPlain, h] at hplain
  · rfl

/-- Arguments are read one after the other, as long as none of them is two hyphens. -/
theorem takeAll_cons {p p' : Progress} {argument : String} (htaken : take p argument = .ok p')
    (hne : argument ≠ "--") (rest : List String) :
    takeAll p (argument :: rest) = takeAll p' rest := by
  rw [takeAll, if_neg hne, htaken]
  rfl

/-- Two hyphens are no plain argument. -/
theorem ne_of_isPlain {argument : String} (hplain : isPlain argument = true) : argument ≠ "--" := by
  rintro rfl
  exact absurd hplain (by decide)

namespace Setting

@[simp]
theorem ofName?_longName (setting : Setting) :
    Choice.ofName? setting.longName = some (.setting setting) := by
  cases setting <;> decide

theorem longName_noEquals (setting : Setting) :
    ∀ c ∈ setting.longName.toList, (c != '=') = true := by
  apply List.all_eq_true.mp
  cases setting <;> decide

theorem longName_ne (setting : Setting) : "--" ++ setting.longName ≠ "--" := by
  cases setting <;> decide

/-- An option with its value is not taken for two hyphens. -/
theorem joined_ne (setting : Setting) (value : String) :
    "--" ++ setting.longName ++ "=" ++ value ≠ "--" := by
  intro heq
  have hequals : '=' ∈ ("--" ++ setting.longName ++ "=" ++ value).toList := by simp
  rw [heq] at hequals
  exact absurd hequals (by decide)

end Setting

namespace Flag

@[simp]
theorem ofName?_longName (flag : Flag) : Choice.ofName? flag.longName = some (.flag flag) := by
  cases flag <;> decide

theorem longName_noEquals (flag : Flag) : ∀ c ∈ flag.longName.toList, (c != '=') = true := by
  apply List.all_eq_true.mp
  cases flag <;> decide

theorem longName_ne (flag : Flag) : "--" ++ flag.longName ≠ "--" := by
  cases flag <;> decide

end Flag

/-! ## Items in order -/

/-- No option with a value touches the file to read. -/
theorem file_settleSetting {a a' : Arguments} {value : String} {setting : Setting}
    (h : settleSetting a value setting = .ok a') : a'.file = a.file := by
  cases setting <;> grind [settleSetting]

namespace Stands

variable {p : Progress} {a a' : Arguments}

/-- As long as there is no file among the items, none is settled or pending. -/
theorem no_file (h : Stands p a) (hnone : a.file = .none) :
    p.settled.file = .none ∧ ∀ path, p.pending ≠ .file path := by
  obtain ⟨settled, pending⟩ := p
  have hsettle := h.settle_eq
  cases pending with
  | nothing =>
    obtain rfl : settled = a := by simpa [settle] using hsettle
    exact ⟨hnone, nofun⟩
  | file path =>
    simp only [settle] at hsettle
    split at hsettle
    · cases hsettle
    · cases hsettle
      cases hnone
  | setting s value =>
    refine ⟨?_, nofun⟩
    cases value with
    | none => exact absurd rfl (h.complete s)
    | some value => exact (file_settleSetting hsettle).symm.trans hnone

/-- An option without a value is settled at once. -/
theorem takeFlag_eq (h : Stands p a) {flag : Flag} (hsettled : settleFlag a flag = .ok a') :
    takeFlag p flag = .ok ⟨a', .nothing⟩ := by
  rw [takeFlag, h.settle_eq]
  show (settleFlag a flag >>= fun b => pure (⟨b, .nothing⟩ : Progress)) = _
  rw [hsettled]
  rfl

/-- An option with its value behind an equals sign is settled at once. -/
theorem takeWithValue_eq (h : Stands p a) {setting : Setting} {value : String}
    (hsettled : settleSetting a value setting = .ok a') :
    takeWithValue p setting value = .ok ⟨a', .nothing⟩ := by
  rw [takeWithValue, h.settle_eq]
  show (settleSetting a value setting >>= fun b => pure (⟨b, .nothing⟩ : Progress)) = _
  rw [hsettled]
  rfl

/-- An option that waits for its value settles what was pending. -/
theorem takeWithoutValue_eq (h : Stands p a) (setting : Setting) :
    takeWithoutValue p setting = .ok ⟨a, .setting setting none⟩ := by
  rw [takeWithoutValue, h.settle_eq]
  rfl

/-- The first file is kept pending. -/
theorem takeFile_eq (h : Stands p a) (hnone : a.file = .none) (path : String) :
    takeFile p path = .ok ⟨a, .file path⟩ := by
  obtain ⟨hsettled, hpending⟩ := h.no_file hnone
  unfold takeFile
  rw [hsettled]
  split
  · next heq => cases heq
  · next heq => exact absurd heq (hpending _)
  · rw [h.settle_eq]
    rfl

/-- A plain argument is the file, as no option waits for a value. -/
theorem takePlain_eq (h : Stands p a) (hnone : a.file = .none) (path : String) :
    takePlain p path = .ok ⟨a, .file path⟩ := by
  unfold takePlain
  split
  · next s heq => exact absurd heq (h.complete s)
  · exact h.takeFile_eq hnone path

/-- The step lemma: a reader between two items reads the arguments of the next one, and is between
two items again. -/
theorem item (h : Stands p a) {item : Item} {arguments : List String}
    (hspells : item.Spells arguments) (hsettled : item.settle a = .ok a') (rest : List String) :
    ∃ p', takeAll p (arguments ++ rest) = takeAll p' rest ∧ Stands p' a' := by
  cases hspells with
  | @file path hplain =>
    obtain ⟨hnone, hstands⟩ := stands_file hsettled
    refine ⟨⟨a, .file path⟩, takeAll_cons ?_ (ne_of_isPlain hplain) rest, hstands⟩
    rw [take_plain p hplain]
    exact h.takePlain_eq hnone path
  | joined setting value =>
    refine ⟨⟨a', .nothing⟩, takeAll_cons ?_ (setting.joined_ne value) rest, stands_nothing a'⟩
    rw [take_optionWithValue p setting.longName_noEquals]
    simp only [takeNamed, setting.ofName?_longName]
    exact h.takeWithValue_eq hsettled
  | @apart setting value hplain =>
    -- the value is pending like a file: it is settled when the next item is met
    refine ⟨⟨a, .setting setting (some value)⟩, ?_, hsettled, nofun⟩
    have hoption : take p ("--" ++ setting.longName) = .ok ⟨a, .setting setting none⟩ := by
      rw [take_option p setting.longName_noEquals]
      simp only [takeNamed, setting.ofName?_longName]
      exact h.takeWithoutValue_eq setting
    have htaken : take ⟨a, .setting setting none⟩ value = .ok ⟨a, .setting setting (some value)⟩ := by
      rw [take_plain _ hplain]
      rfl
    rw [List.cons_append, takeAll_cons hoption setting.longName_ne]
    exact takeAll_cons htaken (ne_of_isPlain hplain) rest
  | flag flag =>
    refine ⟨⟨a', .nothing⟩, takeAll_cons ?_ flag.longName_ne rest, stands_nothing a'⟩
    rw [take_option p flag.longName_noEquals]
    simp only [takeNamed, flag.ofName?_longName]
    exact h.takeFlag_eq hsettled

end Stands

/-- Items are settled if the first one is, and then the others. -/
theorem exists_of_settle_cons {item : Item} {items : List Item} {a c : Arguments}
    (hsettled : (item :: items).foldlM Item.settle a = .ok c) :
    ∃ b, item.settle a = .ok b ∧ items.foldlM Item.settle b = .ok c := by
  rw [List.foldlM_cons] at hsettled
  cases hfirst : item.settle a with
  | error stop =>
    rw [hfirst] at hsettled
    cases hsettled
  | ok b =>
    rw [hfirst] at hsettled
    exact ⟨b, rfl, hsettled⟩

/-- The run lemma, by induction on the items. -/
theorem stands_takeAll {items : List Item} {arguments : List String}
    (hspelled : Spelled items arguments) {p : Progress} {a a' : Arguments} (h : Stands p a)
    (hsettled : items.foldlM Item.settle a = .ok a') :
    ∃ p', takeAll p arguments = .ok p' ∧ Stands p' a' := by
  induction hspelled generalizing p a with
  | nil =>
    obtain rfl : a = a' := by simpa [pure, Except.pure] using hsettled
    exact ⟨p, rfl, h⟩
  | behindHyphens path =>
    obtain ⟨b, hfile, hrest⟩ := exists_of_settle_cons hsettled
    obtain rfl : b = a' := by simpa [pure, Except.pure] using hrest
    -- what stands behind two hyphens is a file, whatever it looks like
    obtain ⟨hnone, hstands⟩ := stands_file hfile
    refine ⟨⟨a, .file path⟩, ?_, hstands⟩
    rw [takeAll, if_pos rfl, takeFiles, h.takeFile_eq hnone]
    rfl
  | cons hspells hspelled ih =>
    obtain ⟨b, hfirst, hrest⟩ := exists_of_settle_cons hsettled
    obtain ⟨p', htaken, h'⟩ := h.item hspells hfirst _
    rw [htaken]
    exact ih h' hrest

/-- **A command line asks for what its items come to in order.** -/
theorem parse_of_spelled {items : List Item} {arguments : List String}
    (hspelled : Spelled items arguments) {a : Arguments}
    (hsettled : items.foldlM Item.settle .empty = .ok a) : Arguments.parse arguments = .ok a := by
  obtain ⟨p, htaken, h⟩ := stands_takeAll hspelled (stands_nothing .empty) hsettled
  rw [Arguments.parse, htaken]
  exact h.settle_eq

/-! ## Items in any order -/

/-- The option that an item is about; the file to read is none. -/
def Item.choice? : Item → Option Choice
  | .file _ => none
  | .setting s _ => some (.setting s)
  | .flag f => some (.flag f)

/-- Items about different options can change places. -/
theorem Item.settle_comm {x y : Item} (hne : x.choice? ≠ y.choice?) {a b c : Arguments}
    (hfirst : x.settle a = .ok b) (hsecond : y.settle b = .ok c) :
    ∃ b', y.settle a = .ok b' ∧ x.settle b' = .ok c := by
  -- each option has a field of its own, and a failure depends on that field only
  cases x with
  | file path =>
    cases y with
    | file path => exact absurd rfl hne
    | setting s value => cases s <;> grind [Item.settle, settleSetting]
    | flag f => cases f <;> grind [Item.settle, settleFlag]
  | setting s value =>
    cases y with
    | file path => cases s <;> grind [Item.settle, settleSetting]
    | setting s' value' =>
      cases s <;> cases s' <;> grind [Item.settle, settleSetting, Item.choice?]
    | flag f => cases s <;> cases f <;> grind [Item.settle, settleSetting, settleFlag]
  | flag f =>
    cases y with
    | file path => cases f <;> grind [Item.settle, settleFlag]
    | setting s value => cases s <;> cases f <;> grind [Item.settle, settleSetting, settleFlag]
    | flag f' => cases f <;> cases f' <;> grind [Item.settle, settleFlag, Item.choice?]

/-- If no option repeats, what items come to does not depend on their order. -/
theorem settle_perm {items items' : List Item} (hperm : items.Perm items')
    (hdistinct : items.Pairwise fun x y => x.choice? ≠ y.choice?) {a c : Arguments}
    (hsettled : items.foldlM Item.settle a = .ok c) : items'.foldlM Item.settle a = .ok c := by
  induction hperm generalizing a with
  | nil => exact hsettled
  | cons x _ ih =>
    obtain ⟨b, hfirst, hrest⟩ := exists_of_settle_cons hsettled
    rw [List.foldlM_cons, hfirst]
    exact ih (List.pairwise_cons.mp hdistinct).2 hrest
  | swap x y items =>
    -- two neighbours change places: what they come to together is the same
    obtain ⟨b₁, hfirst, hrest⟩ := exists_of_settle_cons hsettled
    obtain ⟨b₂, hsecond, hrest⟩ := exists_of_settle_cons hrest
    have hne : y.choice? ≠ x.choice? := (List.pairwise_cons.mp hdistinct).1 x (by simp)
    obtain ⟨b', hfirst', hsecond'⟩ := Item.settle_comm hne hfirst hsecond
    rw [List.foldlM_cons, hfirst']
    show List.foldlM Item.settle b' (y :: items) = _
    rw [List.foldlM_cons, hsecond']
    exact hrest
  | trans hperm _ ih ih' =>
    -- that no option repeats holds of the order in between as well
    exact ih' (hdistinct.perm hperm fun h => h.symm) (ih hdistinct hsettled)

/-- **The order of the items on a command line does not matter.** -/
theorem parse_of_perm {items items' : List Item} (hperm : items.Perm items')
    (hdistinct : items.Pairwise fun x y => x.choice? ≠ y.choice?) {a : Arguments}
    (hsettled : items.foldlM Item.settle .empty = .ok a) {arguments : List String}
    (hspelled : Spelled items' arguments) : Arguments.parse arguments = .ok a :=
  parse_of_spelled hspelled (settle_perm hperm hdistinct hsettled)

end PartialResponse.CommandLine
