import ApiSurface.Surface

/-! Surfaces as documents. References are shown down to a number of levels. -/

namespace ApiSurface

/-- Whether a reference at a depth is on the last level shown. The top level has depth
zero, and without a limit every level is shown. -/
def isLastLevel (limit : Option Int) (depth : Int) : Bool :=
  match limit with
  | none => false
  | some levels => levels ≤ depth + 1

/-- Whether a depth is that of the last level shown, for any numbers. None stands for values
that cannot be compared. -/
def isLastLevel? (limit depth : Json) : Option Bool :=
  match limit.given? with
  | none => some false
  | some limit => do
    let reached ← (← depth.next?).quantity?
    let levels ← limit.quantity?
    return reached.isOrdered && levels.isOrdered && !reached.below levels

/-- A limit of levels. Null is no limit, and so is a number above all others or no number
at all. None stands for a value that cannot be compared with a depth. -/
def limit? : Json → Option (Option Int)
  | .null => some none
  | .bool b => some (some (if b then 1 else 0))
  | .int n => some (some n)
  | .real (.infinite true) => some (some 0)
  | .real x => some x.ceil?
  | _ => none

/-- The limit that a value sets to references. A value that cannot be compared matters only if
there is a reference. -/
def limitFor (limit : Json) (rs : List Reference) : Except Fault (Option Int) :=
  match limit? limit with
  | some levels => .ok levels
  | none => if rs.isEmpty then .ok none else .error (.defect .wrongShape)

/-- Names in their order. -/
def sortedNames (names : Table Key Name) : Except Fault (List Name) :=
  sortedBy (fun a b => a.value.before? b.value) names.values

/-- A reference as it is shown, without what is below it. -/
structure ReferenceHead where
  name : Json
  isImport : Bool
  declarationIndex : Nat
  file : Name
  start : Json
  depth : Int
  /-- Whether something below is not shown. -/
  truncated : Bool

inductive ReferenceView where
  | mk (head : ReferenceHead) (children : List ReferenceView)

namespace Reference

mutual

/-- A reference at a depth as it is shown within a limit. -/
def view (limit : Option Int) (depth : Int) : Reference → ReferenceView
  | .mk m rs =>
    let last := isLastLevel limit depth
    let head : ReferenceHead :=
      { name := m.node.label, isImport := m.node.kind = .importType
        declarationIndex := m.declarationIndex, file := m.file.name, start := m.node.start
        depth, truncated := last && !rs.isEmpty }
    .mk head (if last then [] else viewAll limit (depth + 1) rs)

def viewAll (limit : Option Int) (depth : Int) : List Reference → List ReferenceView
  | [] => []
  | r :: rs => view limit depth r :: viewAll limit depth rs

end

end Reference

namespace ReferenceView

mutual

def toJson : ReferenceView → Json
  | .mk head children => .obj
    [("name", head.name),
     ("kind", .str (if head.isImport then "import_type" else "identifier")),
     ("declaration_index", .int head.declarationIndex),
     ("file", head.file.value),
     ("start", head.start),
     ("depth", .int head.depth),
     ("truncated", .bool head.truncated),
     ("children", .arr (toJsonAll children))]

def toJsonAll : List ReferenceView → List Json
  | [] => []
  | v :: vs => toJson v :: toJsonAll vs

end

end ReferenceView

/-- References at the top level as they are shown within a limit. -/
def Reference.toJsonAll (limit : Option Int) (rs : List Reference) : Json :=
  .arr (ReferenceView.toJsonAll (Reference.viewAll limit 0 rs))

namespace Program

/-- Where a symbol is first declared. -/
def location (p : Program) (s : Symbol) : Except Fault (Option (Name × Json)) := do
  match ← p.declaration? s with
  | none => return none
  | some d => return some ((← d.sourceFile).name, d.node.start)

def symbolJson (p : Program) (s : SymbolId) : Except Fault Json := do
  let x ← p.symbolOf s
  let place ← p.location x
  return .obj
    [("name", x.name),
     ("flags", .arr (x.flagLabels.map .str)),
     ("declarations", .int x.declarations.length),
     ("file", (place.map fun l => l.1.value).getD .null),
     ("start", (place.map Prod.snd).getD .null)]

/-- The names of symbols. -/
def namesJson (p : Program) (symbols : List SymbolId) : Except Fault Json := do
  return .arr (← symbols.mapM fun s => do return (← p.symbolOf s).name)

def exportJson (p : Program) (limit : Option Int) (s : SymbolId) (e : Export) :
    Except Fault Json := do
  return .obj
    [("export", (p.symbol s).name),
     ("original", ← p.symbolJson e.terminal),
     ("is_alias", .bool (e.terminal ≠ s)),
     ("references", Reference.toJsonAll limit e.references)]

def surfaceJson (p : Program) (limit : Option Int) (s : Surface) : Except Fault Json := do
  let exports ← s.exports.entries.mapM fun e => p.exportJson limit e.1 e.2
  let externals ← sortedNames s.externalModules
  return .obj
    [("entry", s.entry.name.value),
     ("exports", .arr exports),
     ("external_modules", .arr (externals.map Name.value)),
     ("globals", ← p.namesJson s.globals),
     ("warnings", .arr (s.warnings.map fun w => .str (w.message p)))]

end Program

end ApiSurface
