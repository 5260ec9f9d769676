import PartialResponse.Proofs.CommandLine.Arguments
import PartialResponse.Proofs.CommandLine.Run
import PartialResponse.Proofs.Http.Formatter
import PartialResponse.Proofs.Json.Values

/-!
# PartialResponse.Proofs.CommandLine.Agreement — the command and the formatter agree

The command decides what a selector text comes to for a document from a file, the
formatter for the body of a response. Each has the rule for malformed text in a
place of its own, and takes the case mode and what is always included from the
configuration in a way of its own. `select_eq` says that the decisions are the
same; `execute_agrees_with_format` says it of the whole command and of responses.
-/

namespace PartialResponse

open Http

namespace CommandLine

/-! ## The two decisions -/

/-- The command decides for a document what the formatter decides for a body, if what is always
included, the case mode and the rule for malformed text are the same. -/
theorem select_eq {a : Arguments} {c : Config} {f : Formatter} {o : Outcome}
    (hasked : Outcome.ofText? a.fields = o) (halways : c.always = .ok f.always)
    (hmode : c.caseMode = f.config.caseMode)
    (hlenient : c.ignoreParseErrors = f.config.ignoreParseErrors) (document : Document) :
    (f.rejects o = true ∧ ∃ cause, select a c document = .error (.selector cause)) ∨
    (f.rejects o = false ∧ select a c document = .ok (document.map fun v => (f.prune o v).1)) := by
  have hwhole : document.map (fun v => v) = document := by
    cases document with
    | single v => rfl
    | stream vs => simp [Document.map]
  simp only [select, halways, hasked, hlenient]
  cases o with
  | absent => exact .inr ⟨rfl, congrArg _ hwhole.symm⟩
  | selected selection => exact .inr ⟨rfl, by rw [hmode]; rfl⟩
  | malformed cause =>
    cases hignored : f.config.ignoreParseErrors with
    | true => exact .inr ⟨by simp [Formatter.rejects, hignored], congrArg _ hwhole.symm⟩
    | false => exact .inl ⟨by simp [Formatter.rejects, hignored, Outcome.isMalformed], cause, rfl⟩

/-! ## Command lines that only read -/

/-- The items of a command line that names a configuration and a document, and perhaps asks for a
selection and for compact output. -/
def readingItems (path configPath : String) (selector : Option String) (compact : Bool) :
    List Item :=
  .file path :: .setting .config configPath ::
    (selector.toList.map (.setting .fields) ++ if compact then [.flag .compact] else [])

/-- What such a command line asks for. -/
def readingArguments (path configPath : String) (selector : Option String) (compact : Bool) :
    Arguments :=
  ⟨some path, selector, false, false, [], compact, none, some configPath⟩

/-- The items can stand in any order. -/
theorem parse_readingItems {path configPath : String} {selector : Option String} {compact : Bool}
    (hpath : path ≠ "") (hconfigPath : configPath ≠ "") {items : List Item}
    (hperm : (readingItems path configPath selector compact).Perm items) {arguments : List String}
    (hspelled : Spelled items arguments) :
    Arguments.parse arguments = .ok (readingArguments path configPath selector compact) := by
  have hdistinct : (readingItems path configPath selector compact).Pairwise
      fun x y => x.choice? ≠ y.choice? := by
    cases selector <;> cases compact <;> simp [readingItems, Item.choice?]
  refine parse_of_perm hperm hdistinct ?_ hspelled
  have hfile : Item.settle .empty (.file path) = .ok { Arguments.empty with file := some path } := by
    simp [Item.settle, Arguments.empty, hpath]
  have hconfig (a : Arguments) (hunset : a.config = none) :
      Item.settle a (.setting .config configPath) = .ok { a with config := some configPath } := by
    simp [Item.settle, settleSetting, hunset, hconfigPath]
  rw [readingItems, List.foldlM_cons, hfile]
  show List.foldlM Item.settle _ (.setting .config configPath :: _) = _
  rw [List.foldlM_cons, hconfig _ rfl]
  cases selector <;> cases compact <;> rfl

/-- All that such a command line adds to the configuration is that the output is compact. -/
theorem layer_readingArguments {path configPath : String} {selector : Option String}
    {compact : Bool} {c : Config} (hcompact : c.compact = true ∨ compact = true) :
    (readingArguments path configPath selector compact).layer c = { c with compact := true } := by
  rcases hcompact with hcompact | hcompact <;> simp [readingArguments, Arguments.layer, hcompact]

/-! ## What is shown and what is sent -/

/-- The command ends, and has shown, what the response says. -/
structure Agrees (report : Report) (shown : List UInt8) (response : Response String) : Prop where
  /-- The command succeeds unless the response is a rejection. -/
  succeeds_iff : report.code = 0 ↔ response.status ≠ .badRequest
  /-- It has shown the body and a line feed. -/
  shown_eq : response.status ≠ .badRequest →
    shown = Text.Utf8.encode (response.body.toList ++ ['\n']) ∧ report.message = none
  /-- A rejection has no body, and the command has shown nothing but a message. -/
  rejected : response.status = .badRequest →
    response.body = "" ∧ shown = [] ∧ report.message ≠ none

theorem agrees_of_rejected (cause : SelectorError) (response : Response Tree) :
    Agrees (RunError.selector cause).report [] response.rejected where
  succeeds_iff := by
    constructor
    · intro hsuccess
      cases hsuccess
    · intro hok
      exact absurd rfl hok
  shown_eq := fun hok => absurd rfl hok
  rejected := fun _ => ⟨rfl, rfl, nofun⟩

theorem agrees_of_written {response : Response Tree} (hok : response.status = .ok) (left : Tree) :
    Agrees ⟨0, none⟩ (Text.Utf8.encode (Json.write .compact 0 left ++ ['\n']))
      (response.withJson (Json.compactText left)) := by
  have hstatus : (response.withJson (Json.compactText left)).status ≠ .badRequest := by
    show response.status ≠ .badRequest
    rw [hok]
    decide
  constructor
  case succeeds_iff => exact ⟨fun _ => hstatus, fun _ => rfl⟩
  case shown_eq =>
    intro _
    refine ⟨?_, rfl⟩
    show Text.Utf8.encode (Json.write .compact 0 left ++ ['\n']) =
      Text.Utf8.encode ((String.ofList (Json.write .compact 0 left)).toList ++ _)
    rw [String.toList_ofList]
  case rejected =>
    intro hbad
    exact absurd hbad hstatus

/-- **The command and the formatter agree.** A command line names, in any order, a file with a JSON
text, a file with a configuration, perhaps a selector text, and perhaps asks for compact output,
which the configuration may do as well. What the command then shows is what a response says that has
the value of the text for its body and is formatted for the same selector text. -/
theorem execute_agrees_with_format {disk : Disk} {path configPath : String}
    {text configText : List Char} {value : Tree} {c : Config}
    (hjson : Format.endsIn ".json" path.toList = true)
    (hfile : disk.entry path = .ok (.file (Text.Utf8.encode text)))
    (hreads : Json.parse? text = some value)
    (hconfigFile : disk.entry configPath = .ok (.file (Text.Utf8.encode configText)))
    (hconfigReads : Config.read? configText = some c) (halways : c.always.isOk = true)
    (selector : Option String) {compact : Bool} (hcompact : c.compact = true ∨ compact = true)
    {items : List Item} (hperm : (readingItems path configPath selector compact).Perm items)
    {arguments : List String} (hspelled : Spelled items arguments)
    (home : Option String) (input : StateM Disk (Option (List UInt8))) (headers : Headers) :
    ∃ f report shown, Formatter.ofConfig c = .ok f ∧
      (execute arguments home input).run disk =
        (report, { disk with shown := disk.shown ++ shown }) ∧
      Agrees report shown (f.format (.ofText? selector) ⟨.ok, headers, value⟩).response := by
  obtain ⟨f, hmade⟩ := Formatter.exists_ofConfig halways
  obtain ⟨hconfig, hfixed⟩ := Formatter.eq_of_ofConfig hmade
  let a := readingArguments path configPath selector compact
  have hparse : Arguments.parse arguments = .ok a :=
    parse_readingItems (Disk.ne_empty_of_entry hfile) (Disk.ne_empty_of_entry hconfigFile) hperm
      hspelled
  have hrun := run_of_files (a := a) rfl hconfigFile (Config.ofFile_encode configPath hconfigReads)
    rfl hfile (Document.ofFile_json hjson hreads) home input
  have hformat : a.outputFormat = .json := Format.ofPath_of_json hjson
  rw [layer_readingArguments hcompact] at hrun
  -- the request is new and the response successful, so the formatter asks for the outcome as well
  have hresponse : (f.format (.ofText? selector) ⟨.ok, headers, value⟩).response =
      (f.formatted (Outcome.ofText? selector) ⟨.ok, headers, value⟩).1 := by
    rw [f.format_engaged ⟨rfl, rfl⟩]
    rfl
  have hdecided := select_eq (a := a) (o := Outcome.ofText? selector) (f := f)
    (c := { c with compact := true }) rfl hfixed (by rw [hconfig]; rfl) (by rw [hconfig])
    (.single value)
  rcases hdecided with ⟨hrejected, cause, hselect⟩ | ⟨haccepted, hselect⟩
  · rw [hselect] at hrun
    refine ⟨f, reportOf (.error (.selector cause)), [], hmade, ?_, ?_⟩
    · rw [List.append_nil]
      exact run_execute hparse hrun
    · rw [hresponse, Formatter.formatted, if_pos hrejected]
      exact agrees_of_rejected cause _
  · have hwrite : (Document.single (f.prune (Outcome.ofText? selector) value).1).write?
        a.outputFormat { c with compact := true } =
          some (Json.write .compact 0 (f.prune (Outcome.ofText? selector) value).1 ++ ['\n']) := by
      rw [hformat, Document.write?_single_json, Config.layout?_of_compact rfl, Option.map_some]
    rw [hselect] at hrun
    refine ⟨f, _, _, hmade, run_execute hparse (hrun.trans (run_writeDocument rfl hwrite)), ?_⟩
    rw [hresponse, Formatter.formatted, if_neg (by simp [haccepted])]
    exact agrees_of_written rfl _

/-- A document with two properties. -/
def pair : Tree :=
  .object [("a", .ofBool true), ("b", .ofString "x")]

theorem restorable_pair : Json.Restorable pair where
  wellFormed := by
    simp [pair, Tree.WellFormed, Tree.WellFormedProperties, Properties.names, Tree.ofBool,
      Tree.ofString]
  depth_le := by decide
  floatsReadBack := by
    intro x hx
    simp [pair, Tree.numbers, Tree.propertyNumbers, Tree.ofBool, Tree.ofString] at hx

/-- The working directory with the document and a configuration. -/
def twoFiles : Disk :=
  (Disk.empty.put (Disk.workplace ++ ["d.json"])
    (.file (Text.Utf8.encode (Json.write .compact 0 pair)))).put
    (Disk.workplace ++ ["c.toml"]) (.file (Text.Utf8.encode "compact=true".toList))

/-- A configuration that asks for compact output. -/
def compactConfig : Config := { Config.default with compact := true }

theorem execute_agrees_with_format_pair :
    ∃ f report shown, Formatter.ofConfig compactConfig = .ok f ∧
      (execute ["--fields=a", "--config", "c.toml", "d.json"] none
        (pure none : StateM Disk (Option (List UInt8)))).run twoFiles =
          (report, { twoFiles with shown := twoFiles.shown ++ shown }) ∧
      Agrees report shown (f.format (.ofText? (some "a")) ⟨.ok, [], pair⟩).response := by
  have hfile : twoFiles.entry "d.json" =
      .ok (.file (Text.Utf8.encode (Json.write .compact 0 pair))) := by decide +kernel
  have hconfigFile : twoFiles.entry "c.toml" =
      .ok (.file (Text.Utf8.encode "compact=true".toList)) := by decide +kernel
  have hreads : Json.parse? (Json.write .compact 0 pair) = some pair :=
    Json.parse?_write restorable_pair .compact
  have hconfigReads : Config.read? "compact=true".toList = some compactConfig := by decide +kernel
  let items : List Item := [.setting .fields "a", .setting .config "c.toml", .file "d.json"]
  have hperm : (readingItems "d.json" "c.toml" (some "a") false).Perm items := by
    simp only [readingItems, items]
    decide
  have hspelled : Spelled items ["--fields=a", "--config", "c.toml", "d.json"] :=
    .cons (.joined .fields "a") (.cons (.apart .config (by decide)) (.cons (.file (by decide)) .nil))
  exact execute_agrees_with_format (by decide) hfile hreads hconfigFile hconfigReads (by decide)
    (some "a") (.inl rfl) hperm hspelled none (pure none) []

end CommandLine

end PartialResponse
