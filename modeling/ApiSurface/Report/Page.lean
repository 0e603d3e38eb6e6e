import ApiSurface.Report.View
import ApiSurface.Text.Markup

/-! Surfaces as pages of text. Reference trees are drawn with guides: below a reference
that has a later neighbour a line goes on, and below the last one there is a blank. -/

namespace ApiSurface

/-- A line of a drawn tree. The guides tell for each reference above whether it has a
later neighbour. -/
inductive TreeLine where
  | reference (guides : List Bool) (isLast : Bool) (r : Reference)
  /-- So many references below are not shown. -/
  | more (guides : List Bool) (count : Nat)

namespace TreeLine

def guideText (guides : List Bool) : String :=
  String.join (guides.map fun later => if later then "│  " else "   ")

/-- A line in marked text, behind what stands in front of the whole tree. -/
def text (base : String) : TreeLine → String
  | .reference guides isLast r =>
    let m := r.mention
    let style := if r.isImport then "magenta" else "cyan"
    let index := if m.declarationIndex = 0 then ""
      else " [dim]#" ++ toString m.declarationIndex ++ "[/]"
    base ++ guideText guides ++ (if isLast then "└─" else "├─") ++ " [" ++ style ++ "]" ++
      r.label.shown ++ "[/] [dim]" ++ m.file.name.shown ++ ":" ++ m.node.start.shown ++ "[/]" ++
      index
  | .more guides count =>
    base ++ guideText guides ++ "[dim]… " ++ toString count ++ " more[/]"

end TreeLine

namespace Reference

mutual

def lines (limit : Option Int) (guides : List Bool) (depth : Int) (isLast : Bool) :
    Reference → List TreeLine
  | .mk m rs =>
    let inner := guides ++ [!isLast]
    let deeper :=
      if isLastLevel limit depth then
        if rs.isEmpty then [] else [.more inner (sizeAll rs)]
      else linesAll limit inner (depth + 1) rs
    .reference guides isLast (.mk m rs) :: deeper

def linesAll (limit : Option Int) (guides : List Bool) (depth : Int) :
    List Reference → List TreeLine
  | [] => []
  | r :: rs => lines limit guides depth rs.isEmpty r ++ linesAll limit guides depth rs

end

def draw (limit : Option Int) (base : String) (rs : List Reference) : List String :=
  (linesAll limit [] 0 rs).map (TreeLine.text base)

end Reference

/-- A page: marked texts that are printed one after the other. -/
abbrev Page := List String

namespace Page

/-- What a console writes for a page. -/
def print (console : Console) : Page → Except Fault String
  | [] => .ok ""
  | s :: rest =>
    match console s with
    | some t => do return t ++ (← print console rest)
    | none => .error (.defect .unbalancedMarkup)

end Page

namespace Program

/-- The line of an export: its name, what it stands for if that is something else, and
what kind of thing it is. -/
def exportLine (p : Program) (s : SymbolId) (e : Export) : String :=
  let target := p.symbol e.terminal
  let arrow := if e.terminal ≠ s then " [dim]→ " ++ target.name.shown ++ "[/]" else ""
  let kinds := if target.flagLabels.isEmpty then "symbol"
    else String.intercalate ", " target.flagLabels
  "[bold cyan]" ++ (p.symbol s).name.shown ++ "[/]" ++ arrow ++ " (" ++ kinds ++ ")"

def exportsPage (p : Program) (limit : Option Int) (s : Surface) : Page :=
  let exports := s.exports.entries.flatMap fun e =>
    p.exportLine e.1 e.2 :: Reference.draw limit "  " e.2.references
  ("\n[bold]Exports of [cyan]" ++ s.entry.name.shown ++ "[/cyan][/]\n") ::
    (if s.exports.entries.isEmpty then ["  [dim]No exports found[/]"] else exports)

/-- The page behind the exports: what is passed through, by its sorted names, and counts. -/
def summaryPage (s : Surface) (externals : List Name) : Page :=
  let lines := externals.map fun m => "  export * from \"" ++ m.shown ++ "\""
  (if lines.isEmpty then [] else "\n[green]External modules:[/]" :: lines) ++
    ["\n[dim]Exports: " ++ toString s.exports.size ++ " | Globals: " ++
      toString s.globals.length ++ " | Warnings: " ++ toString s.warnings.length ++ "[/]"]

def surfaceText (p : Program) (limit : Option Int) (s : Surface) (console : Console) :
    Except Fault String := do
  let exports ← (p.exportsPage limit s).print console
  return exports ++ (← (summaryPage s (← sortedNames s.externalModules)).print console)

/-- The page of one export. What it stands for has to be declared in a file. -/
def referencesPage (p : Program) (limit : Option Int) (s : SymbolId) (e : Export) :
    Except Fault Page := do
  let place ← p.location (p.symbol e.terminal)
  let located := (place.map fun l => l.1.shown ++ ":" ++ l.2.shown).getD ""
  return ["\n[bold]References of [cyan]" ++ (p.symbol s).name.shown ++ "[/cyan][/]",
      "[dim]" ++ located ++ "[/]\n"] ++
    (if e.references.isEmpty then ["  [dim]No references[/]"]
      else Reference.draw limit "" e.references) ++
    ["\n[dim]References: " ++ toString (Reference.sizeAll e.references) ++ "[/]"]

def globalsPage (p : Program) : Page :=
  let names := p.globalScope.map fun s => "[cyan]" ++ (p.symbol s).name.shown ++ "[/cyan]"
  if names.isEmpty then ["[dim]No global symbols[/]"]
  else names ++ ["\n[dim]Globals: " ++ toString names.length ++ "[/]"]

end Program

end ApiSurface
