import ApiSurface.Module.Boundary
import ApiSurface.Module.Positions
import ApiSurface.Proofs.Outcome

/-! The trail of an entry module: the wildcard re-exports behind it, in the order in which they are
met in depth first. The walk for the boundary and the walk for the places of exports are two
recursions of their own. Both go along this trail, so that each is a pass over its links. -/

namespace ApiSurface

/-- A wildcard re-export that has been followed. Its anchor is the statement of the entry
module at which the walk set out for it. -/
structure Link where
  declaration : Site
  anchor : Site
  target : WildcardTarget

/-- A walk: what has been followed, in order, and the fault that ended the walk, if one did. -/
structure Trail where
  links : List Link
  fault : Option Fault

namespace Trail

def cons (link : Link) (t : Trail) : Trail := { t with links := link :: t.links }

/-- Go through the links of a trail, and then meet the fault at its end. -/
def foldM {α : Type} (step : α → Link → Except Fault α) (a : α) (t : Trail) : Except Fault α := do
  let a ← t.links.foldlM step a
  match t.fault with
  | some e => throw e
  | none => return a

variable {α : Type} {step : α → Link → Except Fault α}

theorem foldM_cons (a : α) (link : Link) (t : Trail) :
    (t.cons link).foldM step a = step a link >>= fun b => t.foldM step b := by
  unfold foldM
  rw [cons, List.foldlM_cons]
  cases step a link with
  | error e => rfl
  | ok b => rfl

theorem foldM_link_fault (a : α) (link : Link) (e : Fault) :
    (⟨[link], some e⟩ : Trail).foldM step a = step a link >>= fun _ => .error e :=
  foldM_cons a link ⟨[], some e⟩

end Trail

namespace Program

/-- Follow the statement at a site, if it is one that re-exports. -/
def linkAt? (p : Program) (n : NodeId) (anchor : Option Site) : Except Fault (Option Link) := do
  let d ← p.siteOf n
  if d.node.kind = .exportDeclaration then
    return some ⟨d, anchor.getD d, ← p.resolveWildcard d⟩
  else return none

/-- Follow wildcard re-exports through modules not yet seen, each with its anchor. Those of
the entry module are their own anchors. -/
def follow (p : Program) (seen : List SymbolId) (pending : List (NodeId × Option Site)) : Trail :=
  match pending with
  | [] => ⟨[], none⟩
  | (n, anchor) :: rest =>
    match p.linkAt? n anchor with
    | .error e => ⟨[], some e⟩
    | .ok none => p.follow seen rest
    | .ok (some link) =>
      if _hs : link.target.isExternal = true ∨ link.target.root ∈ seen then
        (p.follow seen rest).cons link
      else match p.wildcards link.target.root with
        | .error e => ⟨[link], some e⟩
        | .ok inner =>
          if _hm : link.target.root ∈ p.symbolIds then
            (p.follow (link.target.root :: seen)
              (inner.map (·, some link.anchor) ++ rest)).cons link
          else ⟨[link], some (.defect .wrongEntity)⟩
termination_by (unseen p.symbolIds seen, pending.length)
decreasing_by
  · exact Prod.Lex.right _ (by simp)
  · exact Prod.Lex.right _ (by simp)
  · exact Prod.Lex.left _ _ (unseen_cons_lt _hm fun h => _hs (Or.inr h))

/-- Follow the wildcard re-exports of an entry module. -/
def trail (p : Program) (entry : SymbolId) : Trail :=
  match p.wildcards entry with
  | .error e => ⟨[], some e⟩
  | .ok statements => p.follow [entry] (statements.map (·, none))

variable {p : Program}

theorem linkAt?_eq (n : NodeId) (anchor : Option Site) : p.linkAt? n anchor =
    (p.statementAt? n).map (Option.map fun x => ⟨x.1, anchor.getD x.1, x.2⟩) := by
  unfold linkAt? statementAt?
  cases p.siteOf n with
  | error e => rfl
  | ok d =>
    rw [ok_bind, ok_bind]
    split
    · cases p.resolveWildcard d <;> rfl
    · rfl

/-! ### Passes over a trail -/

section Pass

variable {α : Type} {step : α → Link → Except Fault α} {seen : List SymbolId} {n : NodeId}
  {anchor : Option Site} {rest : List (NodeId × Option Site)} {a : α}

theorem foldM_follow_nil : (p.follow seen []).foldM step a = .ok a := by
  rw [follow]
  rfl

theorem foldM_follow_of_error {e : Fault} (h : p.statementAt? n = .error e) :
    (p.follow seen ((n, anchor) :: rest)).foldM step a = .error e := by
  rw [follow, linkAt?_eq, h]
  rfl

theorem foldM_follow_of_none (h : p.statementAt? n = .ok none) :
    (p.follow seen ((n, anchor) :: rest)).foldM step a = (p.follow seen rest).foldM step a := by
  rw [follow, linkAt?_eq, h]
  rfl

/-- A pass over a trail takes the step for a statement, and goes on behind its module if that is
one of the project that has not been seen. -/
theorem foldM_follow_of_some {d : Site} {target : WildcardTarget}
    (h : p.statementAt? n = .ok (some (d, target))) :
    (p.follow seen ((n, anchor) :: rest)).foldM step a =
      step a ⟨d, anchor.getD d, target⟩ >>= fun b =>
        if target.isExternal = true ∨ target.root ∈ seen then (p.follow seen rest).foldM step b
        else p.wildcards target.root >>= fun inner =>
          if target.root ∈ p.symbolIds then
            (p.follow (target.root :: seen)
              (inner.map (·, some (anchor.getD d)) ++ rest)).foldM step b
          else .error (.defect .wrongEntity) := by
  rw [follow, linkAt?_eq, h]
  simp only [Except.map, Option.map_some]
  by_cases hs : target.isExternal = true ∨ target.root ∈ seen
  · simp only [hs, dif_pos, if_true, Trail.foldM_cons]
  · simp only [hs, dif_neg, not_false_eq_true, if_false]
    cases p.wildcards target.root with
    | error e => exact Trail.foldM_link_fault ..
    | ok inner =>
      by_cases hm : target.root ∈ p.symbolIds
      · simp only [hm, dif_pos, if_true, ok_bind, Trail.foldM_cons]
      · simp only [hm, dif_neg, not_false_eq_true, if_false, ok_bind]
        exact Trail.foldM_link_fault ..

end Pass

/-! ### The boundary -/

/-- What a link adds to the boundary. -/
def boundaryStep (p : Program) (b : Boundary) (link : Link) : Except Fault Boundary :=
  if link.target.isExternal then do
    let exported ← p.exportsOf link.target.root
    return b.add link.target.specifier exported
  else .ok b

/-- The walk for the boundary takes the steps of the trail, and what is left is passed with the
modules that the walk has seen. -/
theorem foldM_follow_eq_boundaryAlong (seen : List SymbolId) (b : Boundary) (pending : List NodeId)
    (anchor : Option Site) (others : List (NodeId × Option Site)) :
    (p.follow seen (pending.map (·, anchor) ++ others)).foldM p.boundaryStep b =
      p.boundaryAlong seen b pending >>= fun r =>
        (p.follow r.1.1 others).foldM p.boundaryStep r.1.2 := by
  fun_induction boundaryAlong p seen b pending generalizing anchor others with
  | case1 => rfl
  | case2 seen b n rest e hn => exact foldM_follow_of_error hn
  | case3 seen b n rest hn ih => exact (foldM_follow_of_none hn).trans (ih anchor others)
  | case4 seen b n rest d target hn he e hexports =>
    refine (foldM_follow_of_some hn).trans ?_
    simp [boundaryStep, he, hexports]
  | case5 seen b n rest d target hn he exported hexports ih =>
    refine (foldM_follow_of_some hn).trans ?_
    simpa [boundaryStep, he, hexports] using ih anchor others
  | case6 seen b n rest d target hn he hs ih =>
    refine (foldM_follow_of_some hn).trans ?_
    simpa [boundaryStep, he, hs] using ih anchor others
  | case7 seen b n rest d target hn he hs e hinner =>
    refine (foldM_follow_of_some hn).trans ?_
    simp [boundaryStep, he, hs, hinner]
  | case8 seen b n rest d target hn he hs inner hinner hm e hbelow ih =>
    refine (foldM_follow_of_some hn).trans ?_
    simp [boundaryStep, he, hs, hinner, hm, ih, hbelow]
  | case9 seen b n rest d target hn he hs inner hinner hm below hbelow e hrest ih ihr =>
    refine (foldM_follow_of_some hn).trans ?_
    simp [boundaryStep, he, hs, hinner, hm, ih, hbelow, ihr, hrest]
  | case10 seen b n rest d target hn he hs inner hinner hm below hbelow r hrest ih ihr =>
    refine (foldM_follow_of_some hn).trans ?_
    simp [boundaryStep, he, hs, hinner, hm, ih, hbelow, ihr, hrest]
  | case11 seen b n rest d target hn he hs inner hinner hm =>
    refine (foldM_follow_of_some hn).trans ?_
    simp [boundaryStep, he, hs, hinner, hm]

theorem boundary_eq_foldM (entry : SymbolId) :
    p.boundary entry = (p.trail entry).foldM p.boundaryStep {} := by
  rw [boundary, trail]
  cases p.wildcards entry with
  | error e => rfl
  | ok statements =>
    have h := foldM_follow_eq_boundaryAlong (p := p) [entry] {} statements none []
    simp only [List.append_nil, foldM_follow_nil] at h
    exact h.symm

/-! ### The places -/

/-- The places behind a link. -/
def positionStep (p : Program) (t : Table SymbolId Json) (link : Link) :
    Except Fault (Table SymbolId Json) :=
  if link.target.isExternal then .ok t
  else do
    let exported ← p.exportsOf link.target.root
    return placeAll t link.anchor.node.start exported

/-- So does the walk for the places. The anchor is that of all statements on the way. -/
theorem foldM_follow_eq_positionsAlong (anchor : Option Site) (seen : List SymbolId)
    (t : Table SymbolId Json) (pending : List NodeId) (others : List (NodeId × Option Site)) :
    (p.follow seen (pending.map (·, anchor) ++ others)).foldM p.positionStep t =
      p.positionsAlong anchor seen t pending >>= fun r =>
        (p.follow r.1.1 others).foldM p.positionStep r.1.2 := by
  fun_induction positionsAlong p anchor seen t pending generalizing others with
  | case1 => rfl
  | case2 anchor seen t n rest e hn => exact foldM_follow_of_error hn
  | case3 anchor seen t n rest hn ih => exact (foldM_follow_of_none hn).trans (ih others)
  | case4 anchor seen t n rest d target hn he ih =>
    refine (foldM_follow_of_some hn).trans ?_
    simpa [positionStep, he] using ih others
  | case5 anchor seen t n rest d target hn he e hexports =>
    refine (foldM_follow_of_some hn).trans ?_
    simp [positionStep, he, hexports]
  | case6 anchor seen t n rest d target hn he exported hexports hs ih =>
    refine (foldM_follow_of_some hn).trans ?_
    simpa [positionStep, he, hexports, hs] using ih others
  | case7 anchor seen t n rest d target hn he exported hexports hs e hinner =>
    refine (foldM_follow_of_some hn).trans ?_
    simp [positionStep, he, hexports, hs, hinner]
  | case8 anchor seen t n rest d target hn he exported hexports hs inner hinner hm e hbelow ih =>
    refine (foldM_follow_of_some hn).trans ?_
    simp [positionStep, he, hexports, hs, hinner, hm, ih, hbelow]
  | case9 anchor seen t n rest d target hn he exported hexports hs inner hinner hm below hbelow e
      hrest ih ihr =>
    refine (foldM_follow_of_some hn).trans ?_
    simp [positionStep, he, hexports, hs, hinner, hm, ih, hbelow, ihr, hrest]
  | case10 anchor seen t n rest d target hn he exported hexports hs inner hinner hm below hbelow r
      hrest ih ihr =>
    refine (foldM_follow_of_some hn).trans ?_
    simp [positionStep, he, hexports, hs, hinner, hm, ih, hbelow, ihr, hrest]
  | case11 anchor seen t n rest d target hn he exported hexports hs inner hinner hm =>
    refine (foldM_follow_of_some hn).trans ?_
    simp [positionStep, he, hexports, hs, hinner, hm]

theorem positions_eq_foldM (entry : SymbolId) : p.positions entry =
    p.ownPositions entry >>= fun own => (p.trail entry).foldM p.positionStep own := by
  rw [positions]
  refine bind_congr fun own => ?_
  rw [trail]
  cases p.wildcards entry with
  | error e => rfl
  | ok statements =>
    have h := foldM_follow_eq_positionsAlong (p := p) none [entry] own statements []
    simp only [List.append_nil, foldM_follow_nil] at h
    exact h.symm

end Program

end ApiSurface
