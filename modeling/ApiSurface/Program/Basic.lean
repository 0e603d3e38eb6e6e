import ApiSurface.Fault
import ApiSurface.Symbol
import ApiSurface.Walk

/-! The program graph: files with their nodes, symbols, and what connects them. The
program answers which symbol a node stands for, what an alias leads to, and which
names are visible. What stands in the place of a symbol or a node is looked up when it is
needed, and it is a fault if it is not one. -/

namespace ApiSurface

/-- A file with its tree. The root of the tree is the file as a node. -/
structure SourceFile where
  name : Name
  isModule : Bool := true
  noDefaultLib : Bool := false
  tree : Tree

def SourceFile.id (f : SourceFile) : NodeId := f.tree.node.id

/-- Where a node stands: its tree, and the file at the root, if it stands in a file. -/
structure Site where
  tree : Tree
  file : Option SourceFile

namespace Site

def node (s : Site) : Node := s.tree.node

/-- The file of a node, which only an attached node has. -/
def sourceFile (s : Site) : Except Fault SourceFile :=
  match s.file with
  | some f => .ok f
  | none => .error (.misuse (.detached s.node.kind s.node.start))

end Site

/-- What a module name written in a file stands for: a file, by any value that may name one,
and whether it belongs to a library, by any value that counts as set or not. -/
structure Resolution where
  fileName : Json
  external : Json := .bool false

/-- A program. Files that were replaced by another one of the same name keep their
nodes and symbols, and so do nodes outside of any file. -/
structure Program where
  nextNode : Nat
  nextSymbol : Nat
  sources : List SourceFile
  loose : List Tree
  symbols : Table SymbolId Symbol
  files : Table Key NodeId
  externalFiles : List Key
  defaultFiles : List Key
  /-- A node may also be bound to nothing. -/
  bindings : Table NodeId SymbolId
  /-- An alias may also lead to nothing. -/
  aliasTargets : Table SymbolId SymbolId
  /-- Resolutions by containing file and module name. -/
  resolutions : Table (Key × Key) Resolution
  locals : Table Key (List SymbolId)
  globals : List SymbolId

namespace Program

/-- The program without files, which has the shared scope and the unknown symbol. -/
def empty : Program where
  nextNode := 0
  nextSymbol := 0
  sources := []
  loose := []
  symbols := (Table.empty.insert .globalThis
    { name := .str globalName, flags := [.valueModule, .namespaceModule] }).insert .unknown
    { name := .str "unknown" }
  files := ∅
  externalFiles := []
  defaultFiles := []
  bindings := ∅
  aliasTargets := ∅
  resolutions := ∅
  locals := ∅
  globals := []

def symbolIds (p : Program) : List SymbolId := p.symbols.keys

/-- A symbol by its identity. What is no symbol of the program is blank. -/
def symbol (p : Program) (s : SymbolId) : Symbol := (p.symbols.get? s).getD { name := .str "" }

/-- A symbol where only a symbol will do. -/
def symbolOf (p : Program) (s : SymbolId) : Except Fault Symbol :=
  match p.symbols.get? s with
  | some x => .ok x
  | none => .error (.defect .wrongEntity)

/-- The export table of a symbol, which is empty if there is none. -/
def tableOf (p : Program) (s : SymbolId) : Table Key Exported := (p.symbol s).exports.getD ∅

/-- The entry of a module that holds its wildcard re-exports. -/
def wildcardHolder? (p : Program) (m : SymbolId) : Option SymbolId :=
  ((p.tableOf m).get? (.text wildcardName)).bind fun e => e.symbol.present?

/-! ### Nodes and files -/

def site? (p : Program) (n : NodeId) : Option Site :=
  (p.sources.findSome? fun f => (Tree.find? [f.tree] n).map fun t => ⟨t, some f⟩).or
    ((Tree.find? p.loose n).map fun t => ⟨t, none⟩)

def siteOf (p : Program) (n : NodeId) : Except Fault Site :=
  match p.site? n with
  | some s => .ok s
  | none => .error (.defect .wrongEntity)

def source? (p : Program) (n : NodeId) : Option SourceFile := p.sources.find? fun f => f.id = n

def sourceOf (p : Program) (n : NodeId) : Except Fault SourceFile :=
  match p.source? n with
  | some f => .ok f
  | none => .error (.defect .wrongEntity)

def fileNamed? (p : Program) (name : Name) : Option SourceFile :=
  (p.files.get? name.key).bind p.source?

/-- The files of the program in the order in which their names came up. -/
def sourceFiles (p : Program) : List SourceFile := p.files.values.filterMap p.source?

def isExternalFile (p : Program) (f : SourceFile) : Bool := f.name.key ∈ p.externalFiles

def isDefaultFile (p : Program) (f : SourceFile) : Bool := f.name.key ∈ p.defaultFiles

/-- Whether a file belongs to a library rather than to the project. -/
def isLibraryFile (p : Program) (f : SourceFile) : Bool := p.isExternalFile f || p.isDefaultFile f

/-- The first declaration of a symbol where it stands. -/
def declaration? (p : Program) (x : Symbol) : Except Fault (Option Site) :=
  match x.declarations with
  | [] => .ok none
  | d :: _ => (p.siteOf d).map some

/-! ### Symbols of nodes -/

def symbolAt (p : Program) (n : NodeId) : Option SymbolId :=
  (p.bindings.get? n).bind Entity.present?

def isAlias (p : Program) (s : SymbolId) : Bool := (p.symbol s).isAlias

/-- Follow a chain of aliases to its end. A chain that comes back to itself or breaks
off ends at the unknown symbol. -/
def followAlias (p : Program) (seen : List SymbolId) (s : SymbolId) : SymbolId :=
  if p.isAlias s then
    if _ : s ∈ p.symbolIds ∧ s ∉ seen then
      match (p.aliasTargets.get? s).bind Entity.present? with
      | some target => p.followAlias (s :: seen) target
      | none => .unknown
    else .unknown
  else s
termination_by unseen p.symbolIds seen
decreasing_by
  rename_i h
  exact unseen_cons_lt h.1 h.2

def terminal (p : Program) (s : SymbolId) : SymbolId := p.followAlias [] s

def terminalOf (p : Program) (s : SymbolId) : Except Fault SymbolId := do
  let _ ← p.symbolOf (p.terminal s)
  return p.terminal s

/-! ### Names -/

/-- The symbols visible at the top of a file: its own, then the global ones that are
not among them, each once. -/
def scope (p : Program) (f : SourceFile) : List SymbolId :=
  p.globals.foldl addOnce ((p.locals.get? f.name.key).getD [])

/-- The symbols of the global scope. It is read at the first file without a default
library, or else at the first script. -/
def globalScope (p : Program) : List SymbolId :=
  match (p.sourceFiles.find? fun f => f.noDefaultLib).or
      (p.sourceFiles.find? fun f => !f.isModule) with
  | some f => p.scope f
  | none => []

end Program

end ApiSurface
