import ApiSurface.Json.Writer
import ApiSurface.Path
import ApiSurface.Report.Page
import ApiSurface.Snapshot.File
import ApiSurface.Text.Integer

/-! The command line: what its words ask for, and the answer. -/

namespace ApiSurface

/-- What a command line asks for. Each command has the path of a snapshot. -/
inductive Command where
  | collect (snapshot entry : String) (depth : Int) (asJson : Bool)
  | references (snapshot name entry : String) (depth : Int) (asJson : Bool)
  | globals (snapshot : String) (asJson : Bool)

/-! ### Words -/

/-- An option that takes a value. -/
inductive ValueOption where
  | entry | depth
deriving DecidableEq

/-- The words of a command so far. -/
structure Words where
  plain : List String := []
  entry : Option String := none
  depth : Option String := none
  asJson : Bool := false

namespace Words

def setValue (w : Words) (o : ValueOption) (value : String) : Words :=
  match o with
  | .entry => { w with entry := some value }
  | .depth => { w with depth := some value }

/-- Read the letters of a word behind a single dash. An option that takes a value takes the
rest of the word, and if nothing is left, the next word. -/
def letters (values : List ValueOption) (w : Words) :
    List Char → Option (Words × Option ValueOption)
  | [] => some (w, none)
  | 'j' :: rest => letters values { w with asJson := true } rest
  | c :: rest => do
    let o ← match c with
      | 'e' => some ValueOption.entry
      | 'd' => some ValueOption.depth
      | _ => none
    if o ∉ values then none
    else if rest.isEmpty then some (w, some o)
    else some (w.setValue o (String.ofList rest), none)

/-- Read a word behind two dashes, which may have a value behind an equals sign. -/
def long (values : List ValueOption) (w : Words) (word : List Char) :
    Option (Words × Option ValueOption) := do
  let name := String.ofList (word.takeWhile (· ≠ '='))
  let value := (word.dropWhile (· ≠ '=')).tail?
  if name = "json" then
    if value.isNone then some ({ w with asJson := true }, none) else none
  else
    let o ← if name = "entry" then some ValueOption.entry
      else if name = "depth" then some ValueOption.depth
      else none
    if o ∉ values then none
    else match value with
      | some v => some (w.setValue o (String.ofList v), none)
      | none => some (w, some o)

/-- Read words. Options and other words come in any order, an option given twice counts the
last time, and two dashes alone end the options. -/
def read (values : List ValueOption) (w : Words) : List String → Option Words
  | [] => some w
  | "--" :: rest => some { w with plain := w.plain ++ rest }
  | word :: rest =>
    let found := match word.toList with
      | '-' :: '-' :: more => long values w more
      | '-' :: c :: more => letters values w (c :: more)
      | _ => some ({ w with plain := w.plain ++ [word] }, none)
    match found, rest with
    | none, _ => none
    | some (w, none), rest => read values w rest
    | some (_, some _), [] => none
    | some (w, some o), value :: rest => read values (w.setValue o value) rest

end Words

namespace Command

/-- The number of levels shown when none is asked for. -/
def defaultDepth : Int := 10

/-- What a command and the words behind it ask for. -/
def ofWords? : List String → Option Command
  | "collect" :: words => do
    let w ← Words.read [.entry, .depth] {} words
    let depth ← (w.depth.map Text.integer?).getD (some defaultDepth)
    match w.plain with
    | [snapshot] => return .collect (Path.normal snapshot) (← w.entry) depth w.asJson
    | _ => none
  | "refs" :: words => do
    let w ← Words.read [.entry, .depth] {} words
    let depth ← (w.depth.map Text.integer?).getD (some defaultDepth)
    match w.plain with
    | [snapshot, name] =>
      return .references (Path.normal snapshot) name (← w.entry) depth w.asJson
    | _ => none
  | "globals" :: words => do
    let w ← Words.read [] {} words
    match w.plain with
    | [snapshot] => return .globals (Path.normal snapshot) w.asJson
    | _ => none
  | _ => none

/-- What a command line asks for. Two dashes alone may stand in front. -/
def parse? : List String → Option Command
  | "--" :: words => ofWords? words
  | words => ofWords? words

/-- The path of the snapshot. -/
def snapshot : Command → String
  | .collect snapshot _ _ _ => snapshot
  | .references snapshot _ _ _ _ => snapshot
  | .globals snapshot _ => snapshot

end Command

/-! ### Answers -/

/-- What a command prints, and the status with which it ends. -/
structure Output where
  status : Nat
  out : String
  err : String

/-- The text of a missing export. -/
def noExport (name : String) : String := "No export named '" ++ name ++ "'"

/-- What a command finds around it: what stands for half of a pair in a text that is read, and
the console on which it prints. -/
structure Host where
  half : Nat → Char := Json.privateHalf
  console : Console := .colourless

namespace Command

/-- Print a document on a line of its own. -/
def printJson (j : Json) : String := j.toLine ++ "\n"

def warningPage (p : Program) (s : Surface) : Page :=
  s.warnings.map fun w => "[yellow]warning:[/] " ++ w.message p

/-- Report a fault of the input. Other faults are passed on. -/
def failure (fault : Fault) (console : Console) : Except Fault Output :=
  match fault.report? with
  | some message => do
    return ⟨1, "", ← Page.print console ["[red]Error:[/red] " ++ message]⟩
  | none => .error fault

def runCollect (p : Program) (s : Surface) (depth : Int) (asJson : Bool) (console : Console) :
    Except Fault Output := do
  let err ← (warningPage p s).print console
  let out ← if asJson then do pure (printJson (← p.surfaceJson (some depth) s))
    else p.surfaceText (some depth) s console
  return ⟨0, out, err⟩

def runReferences (p : Program) (s : Surface) (name : String) (depth : Int) (asJson : Bool)
    (console : Console) : Except Fault Output := do
  let err ← (warningPage p s).print console
  match s.findExport? p (.str name) with
  | none =>
    let out ← if asJson then pure (printJson (.obj [("error", .str (noExport name))]))
      else Page.print console ["No export named '[cyan]" ++ name ++ "[/cyan]'"]
    return ⟨1, out, err⟩
  | some (symbol, e) =>
    let out ← if asJson then do
        pure (printJson (.obj
          [("export", (p.symbol symbol).name),
           ("original", ← p.symbolJson e.terminal),
           ("references", Reference.toJsonAll (some depth) e.references)]))
      else do (← p.referencesPage (some depth) symbol e).print console
    return ⟨0, out, err⟩

def runGlobals (p : Program) (asJson : Bool) (console : Console) : Except Fault Output := do
  let out ← if asJson then do pure (printJson (← p.namesJson p.globalScope))
    else p.globalsPage.print console
  return ⟨0, out, ""⟩

/-- Answer a command, given what is found at the path of its snapshot. -/
def run (c : Command) (content : Snapshot.Content) (host : Host := {}) : Except Fault Output :=
  match Snapshot.read c.snapshot content host.half with
  | .error fault => failure fault host.console
  | .ok p =>
    match c with
    | .collect _ entry depth asJson =>
      match p.surfaceOf (.str entry) with
      | .error fault => failure fault host.console
      | .ok s => runCollect p s depth asJson host.console
    | .references _ name entry depth asJson =>
      match p.surfaceOf (.str entry) with
      | .error fault => failure fault host.console
      | .ok s => runReferences p s name depth asJson host.console
    | .globals _ asJson => runGlobals p asJson host.console

/-- The status of a command line that asks for nothing possible. -/
def usageStatus : Nat := 2

/-- Answer a command line. Words that make no command, and a snapshot that is not a file,
end it at once. -/
def answer (words : List String) (look : String → Snapshot.Content) (host : Host := {}) :
    Except Fault (Option Output) :=
  match parse? words with
  | none => .ok none
  | some c =>
    match look c.snapshot with
    | .bytes bytes => (c.run (.bytes bytes) host).map some
    | _ => .ok none

end Command

end ApiSurface
