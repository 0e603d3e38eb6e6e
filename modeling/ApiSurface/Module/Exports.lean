import ApiSurface.Module.Specifier

/-! The exports of a module: its own, and those of the modules that it re-exports by
wildcards. Each module behind a module counts once, where a walk in depth first comes
to it, and a name that is already there is not replaced. -/

namespace ApiSurface

/-- A module with the modules behind its wildcard re-exports. -/
inductive ModuleTree where
  | mk (root : SymbolId) (behind : List ModuleTree)

namespace Program

/-- The exports of a module by name, other than through wildcards. -/
def ownExports (p : Program) (m : SymbolId) : Table Key SymbolId :=
  ((p.tableOf m).filterKeys (· ≠ .text wildcardName)).map Exported.symbol

/-- The wildcard re-exports of a module. -/
def wildcards (p : Program) (m : SymbolId) : Except Fault (List NodeId) := do
  let _ ← p.symbolOf m
  match p.wildcardHolder? m with
  | some star => return (← p.symbolOf star).declarations
  | none => return []

/-- The module that a wildcard re-export names, as far as the program knows. -/
def wildcardModule? (p : Program) (n : NodeId) : Except Fault (Option SymbolId) := do
  match ← p.specifierAt? n with
  | none => return none
  | some (literal, text) =>
    let f ← (← p.siteOf n).sourceFile
    match p.resolution? f (← nameOf text) with
    | some r => return (p.fileNamed? (← nameOf r.fileName)).bind fun f => p.symbolAt f.id
    | none => return p.symbolAt literal.node.id

/-- The modules behind a list of wildcard re-exports that have not been seen, and what has
been seen after them. -/
def behind (p : Program) (seen : List SymbolId) (declarations : List NodeId) :
    Except Fault (List ModuleTree ×
      { after : List SymbolId // unseen p.symbolIds after ≤ unseen p.symbolIds seen }) :=
  match declarations with
  | [] => .ok ([], ⟨seen, Nat.le_refl _⟩)
  | d :: rest =>
    match p.wildcardModule? d with
    | .error e => .error e
    | .ok none => p.behind seen rest
    | .ok (some m) =>
      if hs : m ∈ seen then p.behind seen rest
      else match p.wildcards m with
        | .error e => .error e
        | .ok inner =>
          if hm : m ∈ p.symbolIds then
            match p.behind (m :: seen) inner with
            | .error e => .error e
            | .ok (below, ⟨after, h₁⟩) =>
              match p.behind after rest with
              | .error e => .error e
              | .ok (others, ⟨last, h₂⟩) =>
                .ok (.mk m below :: others,
                  ⟨last, Nat.le_trans h₂ (Nat.le_trans h₁ (Nat.le_of_lt (unseen_cons_lt hm hs)))⟩)
          else .error (.defect .wrongEntity)
termination_by (unseen p.symbolIds seen, declarations.length)
decreasing_by
  · exact Prod.Lex.right _ (by simp)
  · exact Prod.Lex.right _ (by simp)
  · exact Prod.Lex.left _ _ (unseen_cons_lt hm hs)
  · exact Prod.Lex.left _ _ (Nat.lt_of_le_of_lt h₁ (unseen_cons_lt hm hs))

end Program

namespace ModuleTree

mutual

/-- The exports of the root of a tree by name: its own, then those of each module behind
it in turn, without default exports and names already there. -/
def table (p : Program) : ModuleTree → Table Key SymbolId
  | .mk m trees => extend p (p.ownExports m) trees

def extend (p : Program) (own : Table Key SymbolId) : List ModuleTree → Table Key SymbolId
  | [] => own
  | t :: trees => extend p (own.union ((table p t).filterKeys (· ≠ .text defaultName))) trees

end

end ModuleTree

namespace Program

/-- The exports of a module by name. -/
def exportTable (p : Program) (m : SymbolId) : Except Fault (Table Key SymbolId) :=
  match p.wildcards m with
  | .error e => .error e
  | .ok inner =>
    match p.behind [m] inner with
    | .error e => .error e
    | .ok (trees, _) => .ok (ModuleTree.table p (.mk m trees))

/-- The exported symbols of a module. A symbol with two names counts twice. -/
def exportsOf (p : Program) (m : SymbolId) : Except Fault (List SymbolId) :=
  (p.exportTable m).map Table.values

end Program

end ApiSurface
