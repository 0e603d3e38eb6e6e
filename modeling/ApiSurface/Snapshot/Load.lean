import ApiSurface.Program.Edit
import ApiSurface.Text.UpperCase

/-! Loading a snapshot: the document in which a compiler describes a program. It lists
symbols, files with their nodes, global names and resolved module names, and refers to
symbols and nodes by keys. Symbols come first, then files, then what connects them. The
first fault ends the loading. -/

namespace ApiSurface.Snapshot

/-- A program on the way, and its nodes by their keys. -/
structure Draft where
  program : Program
  nodes : Table Key NodeId

abbrev Load := StateT Draft (Except Fault)

def fail {α : Type} (why : SnapshotFault) : Load α := throw (.snapshot why)

def edit (f : Program → Program) : Load Unit :=
  modify fun d => { d with program := f d.program }

def create {α : Type} (f : Program → α × Program) : Load α :=
  modifyGet fun d => ((f d.program).1, { d with program := (f d.program).2 })

/-! ### Members of entries -/

/-- The members of an entry, which has to be an object. -/
def entry : Json → Load (List (String × Json))
  | .obj members => return members
  | _ => throw (.defect .wrongShape)

def keyOf (j : Json) : Load Key :=
  match j.key? with
  | some k => return k
  | none => throw (.defect .wrongShape)

/-- A member that an entry has to have. -/
def required (kind : EntryKind) (members : List (String × Json)) (name : String) : Load Json :=
  match Json.member? members name with
  | some j => return j
  | none => fail (.missingMember kind name)

/-- What a member lists. A missing one lists nothing. -/
def listed (members : List (String × Json)) (name : String) : Load (List Json) :=
  match Json.member? members name with
  | none => return []
  | some j =>
    match j.items? with
    | some items => return items
    | none => throw (.defect .wrongShape)

/-- The exports of an entry by name. -/
def exported (members : List (String × Json)) : Load (List (String × Json)) :=
  match Json.member? members "exports" with
  | none => return []
  | some (.obj table) => return table
  | some _ => throw (.defect .tableNotObject)

/-- A member that counts as set or not. -/
def isSet (members : List (String × Json)) (name : String) (missing : Bool) : Bool :=
  ((Json.member? members name).map Json.isSet).getD missing

/-- A member whose null counts as missing. -/
def given? (members : List (String × Json)) (name : String) : Option Json :=
  (Json.member? members name).bind Json.given?

/-- The symbol of a key. -/
def symbolOf (id : Json) : Load SymbolId := do
  let s := Entity.listed (← keyOf id)
  if s ∈ (← get).program.symbolIds then return s else fail (.unknownSymbol id)

/-! ### Symbols -/

def flagsOf (symbol : Json) : List Json → Load (List Flag)
  | [] => return []
  | .str f :: rest => do
    match Flag.ofName? (Text.upperCase f) with
    | some flags => return flags ++ (← flagsOf symbol rest)
    | none => fail (.unknownFlag f symbol)
  | _ :: _ => throw (.defect .flagNotText)

/-- Add the symbol of an entry, without what it is connected to. -/
def addSymbol (j : Json) : Load Unit := do
  let members ← entry j
  let id ← required .symbol members "id"
  let name ← required .symbol members "name"
  let s := Entity.listed (← keyOf id)
  if s ∈ (← get).program.symbolIds then fail (.duplicateSymbol id)
  let flags ← flagsOf name (← listed members "flags")
  edit fun p => p.putSymbol s { name, flags }

/-- Put the symbols of a table into the exports of another one. -/
def addExports (owner : SymbolId) (table : List (String × Json)) : Load Unit :=
  table.forM fun (name, id) => do
    let s ← symbolOf id
    let n ← (← get).program.exportName s (.str name)
    edit fun p => p.addExport owner s n

/-- Connect the symbol of an entry with its declarations, its target and its exports. -/
def linkSymbol (j : Json) : Load Unit := do
  let members ← entry j
  let s := Entity.listed (← keyOf (← required .symbol members "id"))
  (← listed members "declarations").forM fun id => do
    match (← get).nodes.get? (← keyOf id) with
    | some n => edit fun p => p.addDeclaration s n
    | none => fail (.unknownDeclaration ((← get).program.symbol s).name id)
  if let some id := Json.member? members "aliasOf" then
    let target ← symbolOf id
    edit fun p => p.setAliasTarget s target
  addExports s (← exported members)

/-! ### Nodes -/

/-- The file in which nodes stand, and its own node. -/
structure Frame where
  file : Name
  root : NodeId

def kindOf (frame : Frame) (members : List (String × Json)) : Load NodeKind :=
  match Json.member? members "kind" with
  | none => fail (.missingKind frame.file)
  | some j =>
    match j with
    | .str s =>
      match NodeKind.ofLabel? s with
      | some kind => return kind
      | none => fail (.unknownKind j frame.file)
    | _ => fail (.unknownKind j frame.file)

/-- Where a node starts, which is where its parent starts unless it is given. -/
def startOf (parent : Json) (members : List (String × Json)) : Json :=
  (given? members "start").getD parent

/-- Record a node under its key, if it has one. A later node of the same key replaces it. -/
def recordNode (n : NodeId) (members : List (String × Json)) : Load Unit := do
  if let some id := Json.member? members "id" then
    let key ← keyOf id
    modify fun d => { d with nodes := d.nodes.insert key n }

/-- Bind a node to the symbol that a member names, if there is such a member. -/
def bindNode (n : NodeId) (members : List (String × Json)) (name : String) :
    Load (Option SymbolId) :=
  match Json.member? members name with
  | none => return none
  | some id => do
    let s ← symbolOf id
    edit fun p => p.bind n s
    return some s

/-- The literal of the module specifier of a node, which is the last of its children. -/
def literalOf (start : Json) (members : List (String × Json)) : Load (Option Node) :=
  match given? members "moduleSpecifier" with
  | none => return none
  | some text => do
    let id ← create Program.freshNode
    let _ ← bindNode id members "moduleSymbol"
    return some { id, kind := .stringLiteral, start, text := some text }

/-- The symbol that gets the wildcard re-exports below a node: the one that the node stands
for, or else that of the file. -/
def ownerOf (frame : Frame) (above : NodeId) : Load SymbolId := do
  let p := (← get).program
  let nested := if above = frame.root then none else p.symbolAt above
  match nested.or (p.symbolAt frame.root) with
  | some s => return s
  | none => fail (.noOwner frame.file)

mutual

/-- Build the tree of an entry below a node. A wildcard re-export is an export declaration
with a specifier and without children of its own. -/
def node (frame : Frame) (above : NodeId) (parent : Json) : Json → Load Tree
  | .obj members => do
    let kind ← kindOf frame members
    let start := startOf parent members
    let id ← create Program.freshNode
    recordNode id members
    let _ ← bindNode id members "symbol"
    let children ← childrenOf frame id start members
    let text := given? members "text"
    match ← literalOf start members with
    | none => return .mk { id, kind, start, text } children
    | some literal =>
      if kind = .exportDeclaration ∧ children.isEmpty then
        let owner ← ownerOf frame above
        edit fun p => p.addWildcard owner id
      return .mk { id, kind, start, text, specifier := literal.id }
        (children ++ [.mk literal []])
  | _ => throw (.defect .wrongShape)

/-- Build the trees of the member that lists children. -/
def childrenOf (frame : Frame) (above : NodeId) (parent : Json) :
    List (String × Json) → Load (List Tree)
  | [] => return []
  | (name, value) :: rest =>
    if name = "children" then nodesOf frame above parent value
    else childrenOf frame above parent rest

/-- Build the trees of the entries that a value lists. Only an array lists entries. -/
def nodesOf (frame : Frame) (above : NodeId) (parent : Json) : Json → Load (List Tree)
  | .arr items => nodes frame above parent items
  | .str s => if s = "" then return [] else throw (.defect .wrongShape)
  | .obj members => if members.isEmpty then return [] else throw (.defect .wrongShape)
  | _ => throw (.defect .wrongShape)

def nodes (frame : Frame) (above : NodeId) (parent : Json) : List Json → Load (List Tree)
  | [] => return []
  | j :: rest => do
    let t ← node frame above parent j
    return t :: (← nodes frame above parent rest)

end

/-! ### Files -/

/-- A file that has been added, with the members of its entry. -/
structure FileEntry where
  name : Name
  symbol : SymbolId
  members : List (String × Json)

/-- Add the file of an entry with its nodes. -/
def addFile (j : Json) : Load FileEntry := do
  let members ← entry j
  let name ← nameOf (← required .file members "fileName")
  let options : FileOptions :=
    { isModule := isSet members "module" true
      isExternal := isSet members "externalLibrary" false
      isDefault := isSet members "defaultLibrary" false
      noDefaultLib := isSet members "noDefaultLib" false }
  let id ← create fun p => p.addFile name options
  let symbol := if options.isModule then Entity.ofFile id else .globalThis
  let trees ← nodesOf ⟨name, id⟩ id (.int 0)
    ((Json.member? members "statements").getD (.arr []))
  edit fun p => p.modifyTree id fun t => .mk t.node trees
  return { name, symbol, members }

/-- Connect a file with its exports and the names visible at its top. -/
def linkFile (file : FileEntry) : Load Unit := do
  addExports file.symbol (← exported file.members)
  (← listed file.members "locals").forM fun id => do
    let x ← symbolOf id
    edit fun p => p.addLocal file.name x

/-! ### Programs -/

def addResolution (j : Json) : Load Unit := do
  let members ← entry j
  let file ← required .resolution members "from"
  let specifier ← required .resolution members "module"
  let target ← required .resolution members "fileName"
  let file ← nameOf file
  let specifier ← nameOf specifier
  edit fun p => p.addResolution file specifier
    { fileName := target, external := .bool (isSet members "external" false) }

/-- Build everything that a snapshot describes. -/
def build (members : List (String × Json)) : Load Unit := do
  let symbols ← listed members "symbols"
  symbols.forM addSymbol
  let files ← (← listed members "files").mapM addFile
  symbols.forM linkSymbol
  files.forM linkFile
  (← listed members "globals").forM fun id => do
    let x ← symbolOf id
    edit fun p => p.addGlobal x
  (← listed members "resolutions").forM addResolution

/-- The program that a document describes. -/
def load : Json → Except Fault Program
  | .obj members => do
    let (_, d) ← (build members).run ⟨Program.empty, ∅⟩
    return d.program
  | _ => throw (.defect .tableNotObject)

end ApiSurface.Snapshot
