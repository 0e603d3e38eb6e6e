import ApiSurface.Json.Order
import ApiSurface.Module.Boundary
import ApiSurface.Module.Positions
import ApiSurface.Reference
import ApiSurface.Sorting

/-! The surface of a program at an entry file: what it exports, in the order of its
source, what the exports refer to, and what it passes through from libraries. -/

namespace ApiSurface

inductive Warning where
  /-- An export that has declarations and no place in the entry file. -/
  | noPosition (s : SymbolId)
  /-- An export that stands for nothing declared, which is left out. -/
  | noDeclaration (s : SymbolId)
deriving DecidableEq

def Warning.message (p : Program) : Warning → String
  | .noPosition s => "export position not found for " ++ (p.symbol s).name.shown
  | .noDeclaration s => "Symbol " ++ (p.symbol s).name.shown ++ " does not have any declaration"

/-- A pass over a program: the warnings that it has delivered, in order, and how it ends.
What has been delivered stays so if the pass fails. -/
structure Pass (α : Type) where
  delivered : List Warning
  result : Except Fault α

namespace Pass

instance : Monad Pass where
  pure a := ⟨[], .ok a⟩
  bind x f :=
    match x.result with
    | .ok a => ⟨x.delivered ++ (f a).delivered, (f a).result⟩
    | .error e => ⟨x.delivered, .error e⟩

instance : MonadLift (Except Fault) Pass := ⟨fun x => ⟨[], x⟩⟩

def fail {α : Type} (e : Fault) : Pass α := ⟨[], .error e⟩

def warn (w : Warning) : Pass Unit := ⟨[w], .ok ()⟩

/-- What a pass ends with, and the warnings up to there. -/
def outcome {α : Type} (x : Pass α) : Except Fault (α × List Warning) :=
  x.result.map (·, x.delivered)

end Pass

/-- Sort a list whose elements have to have an order. -/
def sortedBy {α : Type} (before : α → α → Option Bool) (l : List α) : Except Fault (List α) :=
  match sortBy? before l with
  | some sorted => .ok sorted
  | none => .error (.defect .wrongShape)

/-- The symbol that an exported symbol stands for in the end, and what it refers to. -/
structure Export where
  terminal : SymbolId
  references : List Reference

structure Surface where
  entry : SourceFile
  externalModules : Table Key Name
  /-- The exports by symbol, in the order of the source. -/
  exports : Table SymbolId Export
  /-- The names of the exports other than the default one. -/
  names : Table Key Name
  globals : List SymbolId
  warnings : List Warning := []

namespace Program

/-! ### Discovery -/

/-- Whether a symbol stands before another one. What has a place comes before what has none,
and two different places may have no order. -/
def placedBefore? (positions : Table SymbolId Json) (a b : SymbolId) : Option Bool :=
  match positions.get? a, positions.get? b with
  | some x, some y => if x.same y then some false else x.before? y
  | some _, none => some true
  | none, _ => some false

def warnUnplaced (p : Program) (positions : Table SymbolId Json) (symbols : List SymbolId) :
    Pass Unit :=
  symbols.forM fun s => do
    if (positions.get? s).isNone then
      if !(← p.symbolOf s).declarations.isEmpty then Pass.warn (.noPosition s)

/-- The exports of a module in the order of its source without the excluded ones. Those of
equal places keep their order. -/
def orderedExports (p : Program) (entry : SymbolId) (excluded : List SymbolId) :
    Pass (List SymbolId) := do
  let symbols := (← p.exportsOf entry).filter (· ∉ excluded)
  let positions ← p.positions entry
  p.warnUnplaced positions symbols
  sortedBy (placedBefore? positions) symbols

/-- The exports of an entry. The shared scope of scripts exports what is visible in it, as it
is. -/
def discovery (p : Program) (file : NodeId) (entry : SymbolId) (excluded : List SymbolId) :
    Pass (List SymbolId) := do
  if (← p.symbolOf entry).isGlobalScope then return p.scope (← p.sourceOf file)
  else p.orderedExports entry excluded

def discover (p : Program) (file : NodeId) (entry : SymbolId) (excluded : List SymbolId) :
    Except Fault (List SymbolId × List Warning) :=
  (p.discovery file entry excluded).outcome

/-! ### Collection -/

def isDeclared (p : Program) (s : SymbolId) : Bool :=
  !(p.symbol (p.terminal s)).declarations.isEmpty

def export? (p : Program) (s : SymbolId) : Except Fault (Option Export) := do
  let terminal ← p.terminalOf s
  if p.isDeclared s then return some ⟨terminal, ← p.references terminal⟩ else return none

/-- The exports of the symbols that stand for something declared, and a warning for each of
the others. -/
def exportAll (p : Program) (symbols : List SymbolId) : Pass (Table SymbolId Export) :=
  symbols.foldlM (fun t s => do
    match ← p.export? s with
    | some e => return t.insert s e
    | none => do
      Pass.warn (.noDeclaration s)
      return t) ∅

/-- The names of symbols, each as it is first written. Default exports are left out. -/
def exportNames (p : Program) (symbols : List SymbolId) : Except Fault (Table Key Name) :=
  (symbols.filter fun s => !(p.symbol s).name.isText defaultName).foldlM (fun t s => do
    let n ← nameOf (p.symbol s).name
    return t.insertNew n.key n) ∅

/-- Collect the surface at an entry file, without its warnings. The names of what is global
have to be known. -/
def collection (p : Program) (file : NodeId) : Pass Surface := do
  match p.symbolAt file with
  | none => Pass.fail (.entry (.noModule (← p.sourceOf file).name))
  | some entry =>
    let boundary ← p.boundary entry
    let exports ← p.exportAll (← p.discovery file entry boundary.symbols)
    let names ← p.exportNames exports.keys
    p.globalScope.forM fun s => do
      let _ ← p.symbolOf s
    return { entry := ← p.sourceOf file, externalModules := boundary.specifiers, exports, names
             globals := p.globalScope }

def collectionOf (p : Program) (file : Json) : Pass Surface := do
  let name ← nameOf file
  match p.fileNamed? name with
  | none => Pass.fail (.entry (.notInProgram name))
  | some f => p.collection f.id

def surface (p : Program) (file : NodeId) : Except Fault Surface :=
  (p.collection file).outcome.map fun (s, warnings) => { s with warnings }

def surfaceOf (p : Program) (file : Json) : Except Fault Surface :=
  (p.collectionOf file).outcome.map fun (s, warnings) => { s with warnings }

end Program

/-! ### Indexes -/

namespace Surface

/-- The exports that stand for each symbol, in the order of the first of them. -/
def exportsByTerminal (s : Surface) : Table SymbolId (List SymbolId) :=
  s.exports.entries.foldl (fun t e =>
    t.insert e.2.terminal ((t.get? e.2.terminal).getD [] ++ [e.1])) ∅

def terminals (s : Surface) : List SymbolId :=
  s.exports.values.foldl (fun l e => addOnce l e.terminal) []

def findExport? (s : Surface) (p : Program) (name : Json) : Option (SymbolId × Export) :=
  s.exports.entries.find? fun e => (p.symbol e.1).name.equals name

end Surface

end ApiSurface
