import ApiSurface.Program.Basic

/-! References: what the declarations of a symbol mention, and what is mentioned there
in turn. A symbol that is being expanded is not expanded again below itself, and the
declarations of libraries are not looked into. -/

namespace ApiSurface

/-- A mention in a declaration of a symbol. The index tells the declarations apart. -/
structure Mention where
  declarationIndex : Nat
  node : Node
  file : SourceFile

/-- A mention with the references of the symbol that it mentions. -/
inductive Reference where
  | mk (mention : Mention) (children : List Reference)

namespace Reference

def mention : Reference → Mention
  | .mk m _ => m

def children : Reference → List Reference
  | .mk _ rs => rs

/-- Whether the mention imports a type where it is used. -/
def isImport (r : Reference) : Bool := r.mention.node.kind = .importType

/-- What the mention is called. -/
def label (r : Reference) : Json := r.mention.node.label

mutual

/-- The number of references in a tree. -/
def size : Reference → Nat
  | .mk _ rs => 1 + sizeAll rs

def sizeAll : List Reference → Nat
  | [] => 0
  | r :: rs => size r + sizeAll rs

end

mutual

/-- The references of a tree, each before what is below it. -/
def preorder : Reference → List Reference
  | .mk m rs => .mk m rs :: preorderAll rs

def preorderAll : List Reference → List Reference
  | [] => []
  | r :: rs => preorder r ++ preorderAll rs

end

end Reference

namespace Program

/-- The mention that a node makes: the first identifier below it, or the node itself if it
imports a type. -/
def mentionNode? (t : Tree) : Option Node :=
  if t.node.kind.isMention then (t.firstBelow? .identifier).map Tree.node
  else if t.node.kind = .importType then some t.node
  else none

/-- The mentions of one declaration. A file as a declaration mentions nothing. -/
def mentionsIn (index : Nat) (declaration : Site) : List Mention :=
  match declaration.file with
  | none => []
  | some file =>
    if declaration.node.kind = .sourceFile then []
    else (declaration.tree.descendants.filterMap mentionNode?).map fun n => ⟨index, n, file⟩

/-- The mentions of a symbol, declaration by declaration. What is no node stands in its place
as a fault. -/
def mentions (p : Program) (s : SymbolId) : List (Except Fault Mention) :=
  (p.symbol s).declarations.zipIdx.flatMap fun d =>
    match p.siteOf d.1 with
    | .ok site => (mentionsIn d.2 site).map .ok
    | .error e => [.error e]

/-- The symbol to expand at a mention, unless the mentioned one is being expanded. -/
def mentioned? (p : Program) (path : List SymbolId) (m : Mention) :
    Except Fault (Option SymbolId) :=
  if m.node.kind = .importType then .ok none
  else match p.symbolAt m.node.id with
    | none => .ok none
    | some s => if s ∈ path then .ok none else (p.terminalOf s).map some

/-- The references of a symbol below the symbols that are being expanded. -/
def referencesUnder (p : Program) (path : List SymbolId) (s : SymbolId) :
    Except Fault (List Reference) :=
  if _ : s ∈ p.symbolIds ∧ s ∉ path then do
    match ← p.declaration? (p.symbol s) with
    | none => return []
    | some first =>
      if p.isLibraryFile (← first.sourceFile) then return []
      (p.mentions s).mapM fun m => do
        let m ← m
        match ← p.mentioned? (s :: path) m with
        | none => return .mk m []
        | some t => return .mk m (← p.referencesUnder (s :: path) t)
  else .ok []
termination_by unseen p.symbolIds path
decreasing_by
  rename_i h _ _
  exact unseen_cons_lt h.1 h.2

/-- The reference trees of a symbol. -/
def references (p : Program) (s : SymbolId) : Except Fault (List Reference) := do
  let _ ← p.symbolOf s
  p.referencesUnder [] s

end Program

end ApiSurface
