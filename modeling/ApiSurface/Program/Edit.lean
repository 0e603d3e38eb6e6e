import ApiSurface.Program.Basic

/-! Changes to a program that always succeed. -/

namespace ApiSurface

/-- What is said about a file when it is added. -/
structure FileOptions where
  isModule : Bool := true
  isExternal : Bool := false
  isDefault : Bool := false
  noDefaultLib : Bool := false

namespace Program

/-! ### Symbols -/

def putSymbol (p : Program) (s : SymbolId) (x : Symbol) : Program :=
  { p with symbols := p.symbols.insert s x }

def modifySymbol (p : Program) (s : SymbolId) (f : Symbol → Symbol) : Program :=
  p.putSymbol s (f (p.symbol s))

/-- Make a symbol that no other has been. -/
def makeSymbol (p : Program) (x : Symbol) : SymbolId × Program :=
  (.made p.nextSymbol, { p with nextSymbol := p.nextSymbol + 1 }.putSymbol (.made p.nextSymbol) x)

def addDeclaration (p : Program) (s : SymbolId) (n : NodeId) : Program :=
  p.modifySymbol s fun x => { x with declarations := x.declarations ++ [n] }

/-- Give a symbol a specifier. -/
def setSymbolSpecifier (p : Program) (s : SymbolId) (specifier : NodeId) : Program :=
  p.modifySymbol s fun x => { x with specifier := some specifier }

/-- Make a symbol an alias of another one, or of nothing. -/
def setAliasTarget (p : Program) (s target : SymbolId) : Program :=
  { p.modifySymbol s fun x => { x with flags := x.flags ++ [.alias] } with
    aliasTargets := p.aliasTargets.insert s target }

/-- The name under which a symbol is exported: the given one if it is set, or else its own. -/
def exportName (p : Program) (s : SymbolId) (name : Json) : Except Fault Name :=
  if name.isSet then nameOf name else do nameOf (← p.symbolOf s).name

/-- Give a symbol an export table if it has none. -/
def openTable (p : Program) (s : SymbolId) : Program :=
  p.modifySymbol s fun x => { x with exports := some (x.exports.getD ∅) }

/-- Export a symbol under a name. A name that is there already keeps its place and its
spelling. -/
def addExport (p : Program) (owner s : SymbolId) (name : Name) : Program :=
  let table := p.tableOf owner
  let written := ((table.get? name.key).map Exported.name).getD name
  p.modifySymbol owner fun x => { x with exports := some (table.insert name.key ⟨written, s⟩) }

/-- Record a wildcard re-export of a module. -/
def addWildcard (p : Program) (owner : SymbolId) (declaration : NodeId) : Program :=
  match p.wildcardHolder? owner with
  | some star => p.addDeclaration star declaration
  | none =>
    let star : Symbol :=
      { name := .str wildcardName, flags := [.exportStar], declarations := [declaration] }
    let table := (p.tableOf owner).insert (.text wildcardName)
      ⟨.ofText wildcardName, .wildcards owner⟩
    (p.putSymbol (.wildcards owner) star).modifySymbol owner
      fun x => { x with exports := some table }

/-! ### Nodes and files -/

def bind (p : Program) (n : NodeId) (s : SymbolId) : Program :=
  { p with bindings := p.bindings.insert n s }

/-- A node identity that no other node has had. -/
def freshNode (p : Program) : NodeId × Program :=
  (.node p.nextNode, { p with nextNode := p.nextNode + 1 })

/-- Change the tree of one node, wherever it stands. -/
def modifyTree (p : Program) (n : NodeId) (f : Tree → Tree) : Program :=
  { p with
    sources := p.sources.map fun file => { file with tree := file.tree.modify n f }
    loose := Tree.modifyAll n f p.loose }

/-- Make a file that is not yet part of the program. -/
def makeFile (p : Program) (name : Name) (options : FileOptions) : NodeId × Program :=
  let (id, p) := p.freshNode
  let file : SourceFile :=
    { name, isModule := options.isModule, noDefaultLib := options.noDefaultLib
      tree := .mk { id, kind := .sourceFile } [] }
  (id, { p with sources := p.sources ++ [file] })

/-- Add a file to the program, in the place of another one of its name if there is
one. A module gets a symbol of its own, and a script stands for the shared scope. -/
def addFile (p : Program) (name : Name) (options : FileOptions) : NodeId × Program :=
  let (id, p) := p.makeFile name options
  let p := { p with
    files := p.files.insert name.key id
    externalFiles := if options.isExternal then name.key :: p.externalFiles else p.externalFiles
    defaultFiles := if options.isDefault then name.key :: p.defaultFiles else p.defaultFiles }
  if options.isModule then
    let symbol : Symbol :=
      { name := .str ("\"" ++ name.shown ++ "\""), flags := [.valueModule], declarations := [id]
        exports := some ∅ }
    (id, (p.putSymbol (.ofFile id) symbol).bind id (.ofFile id))
  else (id, p.bind id .globalThis)

/-! ### Names -/

def addResolution (p : Program) (file specifier : Name) (resolution : Resolution) : Program :=
  { p with resolutions := p.resolutions.insert (file.key, specifier.key) resolution }

def addGlobal (p : Program) (s : SymbolId) : Program := { p with globals := p.globals ++ [s] }

def addLocal (p : Program) (file : Name) (s : SymbolId) : Program :=
  { p with locals := p.locals.insert file.key ((p.locals.get? file.key).getD [] ++ [s]) }

end Program

end ApiSurface
