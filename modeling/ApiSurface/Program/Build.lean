import ApiSurface.Program.Edit

/-! Building a program step by step. A step that fails keeps what it has already
changed. -/

namespace ApiSurface

/-- A building step. -/
abbrev Build := ExceptT Fault (StateM Program)

namespace Build

/-- Run a step on a program. -/
def on {α : Type} (step : Build α) (p : Program) : Except Fault α × Program := step.run p

/-! ### Files and nodes -/

def addFile (name : Json) (options : FileOptions) : Build NodeId := do
  let n ← nameOf name
  modifyGet fun p => p.addFile n options

/-- Make a file outside of the program. -/
def makeFile (name : Json) : Build NodeId := do
  let n ← nameOf name
  modifyGet fun p => p.makeFile n {}

/-- Make a node outside of any file. -/
def makeNode (kind : NodeKind) (start text : Json) : Build NodeId :=
  modifyGet fun p =>
    let (id, p) := p.freshNode
    (id, { p with loose := p.loose ++ [.mk { id, kind, start, text := text.given? } []] })

/-- Add a node below another one, which has to be in a file. It starts where its parent
starts unless said otherwise. -/
def addNode (parent : NodeId) (kind : NodeKind) (start text : Json) : Build NodeId := do
  let above ← (← get).siteOf parent
  let _ ← above.sourceFile
  modifyGet fun p =>
    let (id, p) := p.freshNode
    let node : Node :=
      { id, kind, start := start.given?.getD above.node.start, text := text.given? }
    (id, p.modifyTree parent (Tree.addChild (.mk node [])))

/-- Give a node a specifier. A symbol takes one too. -/
def setSpecifier (e : Entity) (specifier : NodeId) : Build Unit := do
  if e ∈ (← get).symbolIds then modify fun p => p.setSymbolSpecifier e specifier
  else
    let _ ← (← get).siteOf e
    modify fun p => p.modifyTree e (Tree.setSpecifier specifier)

def bind (n : NodeId) (s : SymbolId) : Build Unit := modify fun p => p.bind n s

/-! ### Symbols -/

/-- Make a symbol an alias. -/
def setAliasTarget (s target : SymbolId) : Build Unit := do
  let _ ← (← get).symbolOf s
  modify fun p => p.setAliasTarget s target

def addDeclaration (s : SymbolId) (n : NodeId) : Build Unit := do
  let _ ← (← get).symbolOf s
  modify fun p => p.addDeclaration s n

/-- Make a symbol, which is an alias if it is to be one of something. -/
def addSymbol (name : Json) (flags : List Flag) (declarations : List NodeId) (aliasOf : SymbolId) :
    Build SymbolId := do
  let s ← modifyGet fun p => p.makeSymbol { name, flags, declarations }
  if aliasOf ≠ .nothing then modify fun p => p.setAliasTarget s aliasOf
  return s

/-- Add a declaration and the symbol that it declares. -/
def declare (parent : NodeId) (kind : NodeKind) (name : Json) (flags : List Flag)
    (start : Json) : Build SymbolId := do
  let n ← addNode parent kind start name
  let s ← addSymbol name flags [n] .nothing
  bind n s
  return s

/-- A name if it is set, or else that of a symbol. -/
def nameOr (name : Json) (s : SymbolId) : Build Json := do
  if name.isSet then return name else return (← (← get).symbolOf s).name

/-- Add a mention of a symbol: a node with an identifier below it. -/
def addMention (parent : NodeId) (kind : NodeKind) (target : SymbolId) (name : Json) :
    Build NodeId := do
  let mention ← addNode parent kind .null .null
  if target = .nothing then
    let _ ← addNode mention .identifier .null (if name.isSet then name else .null)
  else
    let identifier ← addNode mention .identifier .null (← nameOr name target)
    bind identifier target
  return mention

/-- Add a type that is imported where it is used. -/
def addImportType (parent : NodeId) (specifier : Json) : Build NodeId := do
  let n ← addNode parent .importType .null (.str ("import(\"" ++ specifier.shown ++ "\")"))
  let _ ← addNode n .stringLiteral .null specifier
  return n

/-! ### Exports -/

/-- The symbol that exports for an owner: a file does through the symbol that it is bound to. -/
def ownerSymbol (owner : Entity) : Build SymbolId := do
  let p ← get
  match p.source? owner, p.bindings.get? owner with
  | none, _ => return owner
  | some _, some s => return s
  | some _, none => throw (.defect .notBound)

/-- Export a symbol under a name, or under its own. -/
def addExport (owner : Entity) (s : SymbolId) (name : Json) : Build SymbolId := do
  let o ← ownerSymbol owner
  let _ ← (← get).symbolOf o
  modify fun p => p.openTable o
  let n ← (← get).exportName s name
  modify fun p => p.addExport o s n
  return s

/-- Re-export a symbol from a file under a name: an alias and the node that makes it. What
leads to no symbol needs a name, and is no alias. -/
def addReexport (file : NodeId) (target : SymbolId) (name start : Json) : Build SymbolId := do
  let exportName ← nameOr name target
  let n ← addNode file .exportSpecifier start exportName
  let s ← addSymbol exportName [] [n] target
  bind n s
  addExport file s exportName

/-- Record a wildcard re-export of a module. -/
def registerWildcard (m : SymbolId) (declaration : NodeId) : Build Unit := do
  let _ ← (← get).symbolOf m
  modify fun p => p.openTable m
  if let some star := (← get).wildcardHolder? m then
    let _ ← (← get).symbolOf star
  modify fun p => p.addWildcard m declaration

/-- Add a wildcard re-export, below a node that is given or else below the file that owns it.
A symbol that stands for the module named may be given, for modules that have no file. -/
def addWildcard (owner : Entity) (specifier start : Json) (parent : NodeId) (target : SymbolId) :
    Build NodeId := do
  let o ← ownerSymbol owner
  let above ← match parent.present?, (← get).source? owner with
    | some n, _ => pure n
    | none, some f => pure f.id
    | none, none => throw (.misuse .parentRequired)
  let declaration ← addNode above .exportDeclaration start .null
  let literal ← addNode declaration .stringLiteral .null specifier
  setSpecifier declaration literal
  if target ≠ .nothing then bind literal target
  registerWildcard o declaration
  return declaration

/-! ### Names -/

/-- Make a symbol visible at the top of a file. -/
def addLocal (file : NodeId) (s : SymbolId) : Build Unit := do
  let f ← (← get).sourceOf file
  modify fun p => p.addLocal f.name s

end Build

end ApiSurface
