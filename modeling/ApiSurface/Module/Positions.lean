import ApiSurface.Module.Wildcards

/-! Where the exports of an entry module stand in its file. An export of its own stands
where it is first declared, and an export that comes from another module of the project
stands at the statement of the entry module that leads there. -/

namespace ApiSurface.Program

/-- The places of the exports of a module itself. -/
def ownPositions (p : Program) (entry : SymbolId) : Except Fault (Table SymbolId Json) :=
  (p.ownExports entry).values.foldlM (fun t s => do
    match ← p.declaration? (← p.symbolOf s) with
    | some d => return t.insert s d.node.start
    | none => return t) ∅

/-- Move symbols to a place. -/
def placeAll (t : Table SymbolId Json) (place : Json) (symbols : List SymbolId) :
    Table SymbolId Json :=
  symbols.foldl (fun t s => t.insert s place) t

/-- Go along wildcard re-exports and into the modules of the project behind them, to each of
these once. The anchor is the statement of the entry module that leads to them, and the
statements of the entry module are their own anchors. What is returned are the modules seen
and the places. -/
def positionsAlong (p : Program) (anchor : Option Site) (seen : List SymbolId)
    (t : Table SymbolId Json) (pending : List NodeId) :
    Except Fault { r : List SymbolId × Table SymbolId Json // seen ⊆ r.1 } :=
  match pending with
  | [] => .ok ⟨(seen, t), List.Subset.refl seen⟩
  | n :: rest =>
    match p.statementAt? n with
    | .error e => .error e
    | .ok none => p.positionsAlong anchor seen t rest
    | .ok (some (d, target)) =>
      if target.isExternal then p.positionsAlong anchor seen t rest
      else match p.exportsOf target.root with
        | .error e => .error e
        | .ok exported =>
          if _hs : target.root ∈ seen then
            p.positionsAlong anchor seen (placeAll t (anchor.getD d).node.start exported) rest
          else match p.wildcards target.root with
            | .error e => .error e
            | .ok inner =>
              if _hm : target.root ∈ p.symbolIds then
                match p.positionsAlong (some (anchor.getD d)) (target.root :: seen)
                    (placeAll t (anchor.getD d).node.start exported) inner with
                | .error e => .error e
                | .ok below =>
                  match p.positionsAlong anchor below.1.1 below.1.2 rest with
                  | .error e => .error e
                  | .ok r => .ok ⟨r.1, fun _ hx => r.2 (below.2 (List.mem_cons_of_mem _ hx))⟩
              else .error (.defect .wrongEntity)
termination_by (unseen p.symbolIds seen, pending.length)
decreasing_by
  · exact Prod.Lex.right _ (Nat.lt_succ_self _)
  · exact Prod.Lex.right _ (Nat.lt_succ_self _)
  · exact Prod.Lex.right _ (Nat.lt_succ_self _)
  · exact Prod.Lex.left _ _ (unseen_cons_lt _hm _hs)
  · refine Prod.Lex.left _ _ (Nat.lt_of_le_of_lt ?_ (unseen_cons_lt _hm _hs))
    exact unseen_le_of_subset below.2

/-- The places of exports. A later statement that leads to a symbol moves it. -/
def positions (p : Program) (entry : SymbolId) : Except Fault (Table SymbolId Json) := do
  let own ← p.ownPositions entry
  return (← p.positionsAlong none [entry] own (← p.wildcards entry)).1.2

end ApiSurface.Program
