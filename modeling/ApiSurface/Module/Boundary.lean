import ApiSurface.Module.Wildcards

/-! The boundary of an entry module: what it re-exports from libraries by wildcards,
directly or through other modules of the project. Such exports are passed through and
are not part of the project's own surface. -/

namespace ApiSurface

/-- The specifiers of the libraries, and the symbols that come from them, each once. -/
structure Boundary where
  specifiers : Table Key Name := ∅
  symbols : List SymbolId := []

/-- A boundary with the exports of a library. -/
def Boundary.add (b : Boundary) (specifier : Name) (exported : List SymbolId) : Boundary where
  specifiers := b.specifiers.insertNew specifier.key specifier
  symbols := exported.foldl addOnce b.symbols

namespace Program

/-- Go along wildcard re-exports and into the modules of the project behind them, to each of
these once. What is returned are the modules seen and the boundary. -/
def boundaryAlong (p : Program) (seen : List SymbolId) (b : Boundary) (pending : List NodeId) :
    Except Fault { r : List SymbolId × Boundary // seen ⊆ r.1 } :=
  match pending with
  | [] => .ok ⟨(seen, b), List.Subset.refl seen⟩
  | n :: rest =>
    match p.statementAt? n with
    | .error e => .error e
    | .ok none => p.boundaryAlong seen b rest
    | .ok (some (_, target)) =>
      if target.isExternal then
        match p.exportsOf target.root with
        | .error e => .error e
        | .ok exported => p.boundaryAlong seen (b.add target.specifier exported) rest
      else if _hs : target.root ∈ seen then p.boundaryAlong seen b rest
      else match p.wildcards target.root with
        | .error e => .error e
        | .ok inner =>
          if _hm : target.root ∈ p.symbolIds then
            match p.boundaryAlong (target.root :: seen) b inner with
            | .error e => .error e
            | .ok below =>
              match p.boundaryAlong below.1.1 below.1.2 rest with
              | .error e => .error e
              | .ok r => .ok ⟨r.1, fun _ hx => r.2 (below.2 (List.mem_cons_of_mem _ hx))⟩
          else .error (.defect .wrongEntity)
termination_by (unseen p.symbolIds seen, pending.length)
decreasing_by
  · exact Prod.Lex.right _ (Nat.lt_succ_self _)
  · exact Prod.Lex.right _ (Nat.lt_succ_self _)
  · exact Prod.Lex.right _ (Nat.lt_succ_self _)
  · exact Prod.Lex.left _ _ (unseen_cons_lt _hm _hs)
  · refine Prod.Lex.left _ _ (Nat.lt_of_le_of_lt ?_ (unseen_cons_lt _hm _hs))
    exact unseen_le_of_subset below.2

def boundary (p : Program) (entry : SymbolId) : Except Fault Boundary := do
  return (← p.boundaryAlong [entry] {} (← p.wildcards entry)).1.2

end Program

end ApiSurface
