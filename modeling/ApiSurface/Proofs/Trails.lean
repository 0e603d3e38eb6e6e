import ApiSurface.Proofs.Lookups
import ApiSurface.Proofs.Network
import ApiSurface.Proofs.Walks

/-! Following the wildcard re-exports of an entry module, as a walk over the modules of the
project. The walk passes the statements of every module that can be reached without leaving the
project, in depth first, and it ends at the first one that leads nowhere, with the fault of that
one. -/

namespace ApiSurface

namespace Program

/-- Why a statement leads nowhere, if it does. -/
def wildcardFault? (p : Program) (d : Site) : Option Fault :=
  match p.resolveWildcard d with
  | .error e => some e
  | .ok _ => none

/-- Modules joined by the statements that lead from one to another within the project. -/
def internalNetwork (p : Program) : Network Site SymbolId where
  places := p.symbolIds
  edges m := (p.wildcardStatements m).toOption.getD []
  target d :=
    match p.resolveWildcard d with
    | .ok t => if t.isExternal = false ∧ t.root ∈ p.symbolIds then some t.root else none
    | .error _ => none
  target_mem := by
    intro d m h
    split at h
    · split at h
      · rename_i hm
        exact Option.some.inj h ▸ hm.2
      · cases h
    · cases h

variable {S : Shape} {p : Program}

theorem wildcardFault?_eq_some {d : Site} {e : Fault} :
    p.wildcardFault? d = some e ↔ p.resolveWildcard d = .error e := by
  unfold wildcardFault?
  split <;> simp_all

theorem wildcardFault?_eq_none {d : Site} :
    p.wildcardFault? d = none ↔ ∃ t, p.resolveWildcard d = .ok t := by
  unfold wildcardFault?
  split <;> simp_all

theorem internalTarget_eq_some {d : Site} {m : SymbolId} : p.internalNetwork.target d = some m ↔
    ∃ t, p.resolveWildcard d = .ok t ∧ t.isExternal = false ∧ t.root = m ∧ m ∈ p.symbolIds := by
  change (match p.resolveWildcard d with
    | .ok t => if t.isExternal = false ∧ t.root ∈ p.symbolIds then some t.root else none
    | .error _ => none) = some m ↔ _
  cases hd : p.resolveWildcard d with
  | error e => simp
  | ok t =>
    simp only [Except.ok.injEq, exists_eq_left', Option.ite_none_right_eq_some, Option.some.injEq]
    constructor
    · rintro ⟨⟨he, hm⟩, rfl⟩
      exact ⟨he, rfl, hm⟩
    · rintro ⟨he, rfl, hm⟩
      exact ⟨⟨he, hm⟩, rfl⟩

/-! ### Statements -/

/-- The statement that a wildcard re-export is, if it is one. -/
def statement? (p : Program) (n : NodeId) : Option Site :=
  (p.site? n).filter fun d => d.node.kind = .exportDeclaration

theorem statement?_eq_some {n : NodeId} {d : Site} : p.statement? n = some d ↔
    p.siteOf n = .ok d ∧ d.node.kind = .exportDeclaration := by
  rw [statement?, Option.filter_eq_some_iff, siteOf_eq_ok_iff, decide_eq_true_eq]

/-- What following a re-export says about its statement. -/
theorem linkAt?_cases {n : NodeId} {d : Site} (anchor : Option Site) (hd : p.siteOf n = .ok d) :
    match p.linkAt? n anchor with
    | .error e => ∃ d, p.statement? n = some d ∧ p.resolveWildcard d = .error e
    | .ok none => p.statement? n = none
    | .ok (some l) => p.statement? n = some l.declaration ∧
        p.resolveWildcard l.declaration = .ok l.target ∧ l.anchor = anchor.getD l.declaration := by
  rw [linkAt?, hd, ok_bind]
  by_cases hk : d.node.kind = .exportDeclaration
  · have hs := statement?_eq_some.mpr ⟨hd, hk⟩
    rw [if_pos hk]
    cases hr : p.resolveWildcard d with
    | error e => exact ⟨d, hs, hr⟩
    | ok t => exact ⟨hs, hr, rfl⟩
  · rw [if_neg hk]
    change p.statement? n = none
    rw [statement?, siteOf_eq_ok_iff.mp hd]
    simp [hk]

theorem statement?_of_error {n : NodeId} {anchor : Option Site} {e : Fault} (hn : n ∈ p.nodeIds)
    (h : p.linkAt? n anchor = .error e) :
    ∃ d, p.statement? n = some d ∧ p.resolveWildcard d = .error e := by
  obtain ⟨d, hd, _⟩ := siteOf_of_mem hn
  have hc := linkAt?_cases anchor hd
  rwa [h] at hc

theorem site_of_linkAt? {n : NodeId} {anchor : Option Site} {r : Option Link}
    (h : p.linkAt? n anchor = .ok r) : ∃ d, p.siteOf n = .ok d := by
  obtain ⟨d, hd, _⟩ := bind_eq_ok_iff.mp h
  exact ⟨d, hd⟩

theorem statement?_of_none {n : NodeId} {anchor : Option Site}
    (h : p.linkAt? n anchor = .ok none) : p.statement? n = none := by
  obtain ⟨d, hd⟩ := site_of_linkAt? h
  have hc := linkAt?_cases anchor hd
  rwa [h] at hc

theorem statement?_of_link {n : NodeId} {anchor : Option Site} {l : Link}
    (h : p.linkAt? n anchor = .ok (some l)) : p.statement? n = some l.declaration ∧
      p.resolveWildcard l.declaration = .ok l.target ∧ l.anchor = anchor.getD l.declaration := by
  obtain ⟨d, hd⟩ := site_of_linkAt? h
  have hc := linkAt?_cases anchor hd
  rwa [h] at hc

theorem wildcardStatements_eq {m : SymbolId} {ds : List NodeId} (hm : p.wildcards m = .ok ds)
    (hd : ∀ n ∈ ds, ∃ d, p.siteOf n = .ok d) :
    p.wildcardStatements m = .ok (ds.filterMap p.statement?) := by
  have key : ∀ l : List NodeId, (∀ n ∈ l, ∃ d, p.siteOf n = .ok d) →
      ∃ sites, l.mapM p.siteOf = .ok sites ∧
        sites.filter (fun d => d.node.kind = .exportDeclaration) = l.filterMap p.statement? := by
    intro l hl
    induction l with
    | nil => exact ⟨[], rfl, rfl⟩
    | cons n l ih =>
      obtain ⟨sites, hs, hf⟩ := ih fun x hx => hl x (List.mem_cons_of_mem _ hx)
      obtain ⟨d, hd⟩ := hl n (List.mem_cons_self ..)
      refine ⟨d :: sites, by rw [List.mapM_cons, hd, ok_bind, hs]; rfl, ?_⟩
      by_cases hk : d.node.kind = .exportDeclaration
      · rw [List.filter_cons_of_pos (by simpa using hk), hf,
          List.filterMap_cons_some (statement?_eq_some.mpr ⟨hd, hk⟩)]
      · have hn : p.statement? n = none := by
          rw [statement?, siteOf_eq_ok_iff.mp hd]
          simp [hk]
        rw [List.filter_cons_of_neg (by simpa using hk), hf, List.filterMap_cons_none hn]
  obtain ⟨sites, hs, hf⟩ := key ds hd
  rw [wildcardStatements, hm, ok_bind, hs, ok_bind, hf]
  rfl

theorem edges_of_sites {m : SymbolId} {ds : List NodeId} (hm : p.wildcards m = .ok ds)
    (hd : ∀ n ∈ ds, ∃ d, p.siteOf n = .ok d) :
    p.internalNetwork.edges m = ds.filterMap p.statement? := by
  change (p.wildcardStatements m).toOption.getD [] = _
  rw [wildcardStatements_eq hm hd]
  rfl

theorem edges_internalNetwork {m : SymbolId} {ds : List NodeId} (hm : p.wildcards m = .ok ds)
    (hd : ds ⊆ p.nodeIds) : p.internalNetwork.edges m = ds.filterMap p.statement? := by
  refine edges_of_sites hm fun n hn => ?_
  obtain ⟨d, hs, _⟩ := siteOf_of_mem (hd hn)
  exact ⟨d, hs⟩

theorem WellFormed.attached_of_statement? (h : p.WellFormed S []) {n : NodeId} {d : Site}
    (hd : p.statement? n = some d) : p.Attached d := by
  have hs := siteOf_eq_ok_iff.mp (statement?_eq_some.mp hd).1
  obtain ⟨f, hf, hfile, ht, _⟩ := mem_of_site? h.loose hs
  exact ⟨f, hf, hfile, ht⟩

/-! ### Targets -/

theorem symbolAt_ambientModule {l : Site} {s : String} {t : WildcardTarget}
    (h : p.ambientModule l s = .ok t) : p.symbolAt l.node.id = some t.root := by
  unfold ambientModule at h
  split at h
  · cases h
  · rename_i m hm
    obtain ⟨x, _, h⟩ := bind_eq_ok_iff.mp h
    split at h
    · cases h
    · obtain ⟨d, _, h⟩ := bind_eq_ok_iff.mp h
      split at h
      · cases h
      · obtain ⟨f, _, h⟩ := bind_eq_ok_iff.mp h
        obtain rfl := Except.ok.inj h
        exact hm

theorem symbolAt_resolvedModule {n : Name} {r : Resolution} {t : WildcardTarget}
    (h : p.resolvedModule n r = .ok t) : ∃ name, nameOf r.fileName = .ok name ∧
      ((p.fileNamed? name).bind fun f => p.symbolAt f.id) = some t.root := by
  obtain ⟨name, hname, h⟩ := bind_eq_ok_iff.mp h
  refine ⟨name, hname, ?_⟩
  split at h
  · cases h
  · rename_i f hf
    split at h
    · cases h
    · rename_i m hm
      obtain rfl := Except.ok.inj h
      rw [hf, Option.bind_some, hm]

/-- A statement leads to the module of the file that its specifier was resolved to, or else to
what the specifier itself stands for. -/
theorem resolveWildcard_cases {d : Site} {t : WildcardTarget} (h : p.resolveWildcard d = .ok t) :
    ∃ literal text f specifier, p.specifier? d.node = .ok (some (literal, text)) ∧
      d.sourceFile = .ok f ∧ nameOf text = .ok specifier ∧
      match p.resolution? f specifier with
      | some r => ∃ name, nameOf r.fileName = .ok name ∧
          ((p.fileNamed? name).bind fun f => p.symbolAt f.id) = some t.root
      | none => p.symbolAt literal.node.id = some t.root := by
  obtain ⟨r, hr, h⟩ := bind_eq_ok_iff.mp h
  split at h
  · obtain ⟨_, _, h⟩ := bind_eq_ok_iff.mp h
    cases h
  · rename_i literal text
    obtain ⟨f, hf, h⟩ := bind_eq_ok_iff.mp h
    obtain ⟨specifier, hn, h⟩ := bind_eq_ok_iff.mp h
    refine ⟨literal, text, f, specifier, hr, hf, hn, ?_⟩
    cases hres : p.resolution? f specifier with
    | some r =>
      rw [hres] at h
      exact symbolAt_resolvedModule h
    | none =>
      rw [hres] at h
      dsimp only at h ⊢
      split at h
      · contradiction
      · split at h
        · cases h
        · exact symbolAt_ambientModule h
      · cases h

/-- A statement leads to what some node stands for. -/
theorem symbolAt_resolveWildcard {d : Site} {t : WildcardTarget}
    (h : p.resolveWildcard d = .ok t) : ∃ n, p.symbolAt n = some t.root := by
  obtain ⟨literal, text, f, specifier, _, _, _, htarget⟩ := resolveWildcard_cases h
  split at htarget
  · obtain ⟨name, _, hroot⟩ := htarget
    obtain ⟨f, _, hf⟩ := Option.bind_eq_some_iff.mp hroot
    exact ⟨f.id, hf⟩
  · exact ⟨literal.node.id, htarget⟩

theorem WellFormed.holds_root (h : p.WellFormed S []) {d : Site} {t : WildcardTarget}
    (ht : p.resolveWildcard d = .ok t) : p.Holds t.root := by
  obtain ⟨n, hn⟩ := symbolAt_resolveWildcard ht
  exact h.holds_symbolAt hn

/-! ### Trails -/

/-- The statements among pending re-exports. -/
def pendingStatements (p : Program) (pending : List (NodeId × Option Site)) : List Site :=
  pending.filterMap fun x => p.statement? x.1

theorem pendingStatements_cons_some {n : NodeId} {d : Site} (anchor : Option Site)
    (rest : List (NodeId × Option Site)) (h : p.statement? n = some d) :
    p.pendingStatements ((n, anchor) :: rest) = d :: p.pendingStatements rest :=
  List.filterMap_cons_some h

theorem pendingStatements_cons_none {n : NodeId} (anchor : Option Site)
    (rest : List (NodeId × Option Site)) (h : p.statement? n = none) :
    p.pendingStatements ((n, anchor) :: rest) = p.pendingStatements rest :=
  List.filterMap_cons_none h

theorem pendingStatements_append (ds : List NodeId) (anchor : Option Site)
    (rest : List (NodeId × Option Site)) : p.pendingStatements (ds.map (·, anchor) ++ rest) =
      ds.filterMap p.statement? ++ p.pendingStatements rest := by
  rw [pendingStatements, List.filterMap_append, List.filterMap_map]
  rfl

theorem pendingStatements_entry (ds : List NodeId) :
    p.pendingStatements (ds.map (·, none)) = ds.filterMap p.statement? := by
  rw [pendingStatements, List.filterMap_map]
  rfl

/-- The links of a trail are the statements that a walk passes, up to the first one that leads
nowhere, and its fault is the fault of that one. -/
theorem WellFormed.follow_eq (h : p.WellFormed S []) (seen : List SymbolId)
    (pending : List (NodeId × Option Site)) (hp : ∀ x ∈ pending, x.1 ∈ p.nodeIds) :
    (p.follow seen pending).links.map Link.declaration =
        (p.internalNetwork.passed seen (p.pendingStatements pending)).takeWhile
          (fun d => (p.wildcardFault? d).isNone) ∧
      (p.follow seen pending).fault =
        (p.internalNetwork.passed seen (p.pendingStatements pending)).findSome?
          p.wildcardFault? := by
  fun_induction follow p seen pending with
  | case1 seen => simp [pendingStatements, Network.passed]
  | case2 seen n anchor rest e hl =>
    obtain ⟨d, hd, he⟩ := statement?_of_error (hp _ (List.mem_cons_self ..)) hl
    rw [pendingStatements_cons_some _ _ hd, Network.passed, Network.walk_cons_of_seen]
    · simp [wildcardFault?_eq_some.mpr he]
    · intro a ha
      obtain ⟨t, ht, _⟩ := internalTarget_eq_some.mp ha
      rw [he] at ht
      cases ht
  | case3 seen n anchor rest hl ih =>
    rw [pendingStatements_cons_none _ _ (statement?_of_none hl)]
    exact ih fun x hx => hp x (List.mem_cons_of_mem _ hx)
  | case4 seen n anchor rest link hl hs ih =>
    obtain ⟨hd, ht, _⟩ := statement?_of_link hl
    have hn := wildcardFault?_eq_none.mpr ⟨_, ht⟩
    obtain ⟨ih₁, ih₂⟩ := ih fun x hx => hp x (List.mem_cons_of_mem _ hx)
    rw [pendingStatements_cons_some _ _ hd, Network.passed, Network.walk_cons_of_seen]
    · simp [Trail.cons, hn, ih₁, ih₂, Network.passed]
    · intro a ha
      obtain ⟨t, ht', hx, rfl, _⟩ := internalTarget_eq_some.mp ha
      obtain rfl : link.target = t := Except.ok.inj (ht.symm.trans ht')
      exact hs.resolve_left (by simp [hx])
  | case5 seen n anchor rest link hl hs e hw =>
    obtain ⟨_, ht, _⟩ := statement?_of_link hl
    obtain ⟨ds, hds, _⟩ := h.wildcards_of_mem (h.holds_root ht).1
    rw [hds] at hw
    cases hw
  | case6 seen n anchor rest link hl hs inner hw hm ih =>
    obtain ⟨hd, ht, _⟩ := statement?_of_link hl
    have hn := wildcardFault?_eq_none.mpr ⟨_, ht⟩
    rw [not_or] at hs
    have hsub := h.wildcards_subset hw
    have htarget : p.internalNetwork.target link.declaration = some link.target.root :=
      internalTarget_eq_some.mpr ⟨_, ht, by simpa using hs.1, rfl, hm⟩
    obtain ⟨ih₁, ih₂⟩ := ih (List.forall_mem_append.mpr
      ⟨List.forall_mem_map.mpr hsub, fun x hx => hp x (List.mem_cons_of_mem _ hx)⟩)
    rw [pendingStatements_append] at ih₁ ih₂
    rw [pendingStatements_cons_some _ _ hd, Network.passed,
      Network.walk_cons_of_notMem _ htarget hs.2, edges_internalNetwork hw hsub]
    simp only [Trail.cons, List.map_cons, hn, Option.isNone_none, List.takeWhile_cons, if_true,
      List.findSome?_cons]
    exact ⟨congrArg _ ih₁, ih₂⟩
  | case7 seen n anchor rest link hl hs inner hw hm =>
    obtain ⟨_, ht, _⟩ := statement?_of_link hl
    exact absurd (h.holds_root ht).1 hm

/-- What holds of all pending re-exports with their anchors holds of the link of the first one. -/
theorem linkAt?_first {Q : Site → Site → Prop} {n : NodeId} {anchor : Option Site}
    {rest : List (NodeId × Option Site)} {link : Link} (hl : p.linkAt? n anchor = .ok (some link))
    (hp : ∀ x ∈ (n, anchor) :: rest, ∀ d, p.statement? x.1 = some d → Q (x.2.getD d) d) :
    Q link.anchor link.declaration := by
  obtain ⟨hd, _, hanchor⟩ := statement?_of_link hl
  rw [hanchor]
  exact hp (n, anchor) (List.mem_cons_self ..) _ hd

/-- Every link is a statement with its target. Its anchor is what the pending re-export that led
there came with, or else that statement itself. -/
theorem follow_links {Q : Site → Prop} (seen : List SymbolId)
    (pending : List (NodeId × Option Site))
    (hp : ∀ x ∈ pending, ∀ d, p.statement? x.1 = some d → Q (x.2.getD d)) :
    ∀ l ∈ (p.follow seen pending).links,
      p.resolveWildcard l.declaration = .ok l.target ∧ Q l.anchor := by
  -- what the link of the first pending re-export is
  have first : ∀ {n anchor rest link}, p.linkAt? n anchor = .ok (some link) →
      (∀ x ∈ (n, anchor) :: rest, ∀ d, p.statement? x.1 = some d → Q (x.2.getD d)) →
      p.resolveWildcard link.declaration = .ok link.target ∧ Q link.anchor := by
    intro n anchor rest link hl hp
    exact ⟨(statement?_of_link hl).2.1, linkAt?_first (Q := fun a _ => Q a) hl hp⟩
  fun_induction follow p seen pending with
  | case1 => simp
  | case2 => simp
  | case3 seen n anchor rest hl ih => exact ih fun x hx => hp x (List.mem_cons_of_mem _ hx)
  | case4 seen n anchor rest link hl hs ih =>
    have ih := ih fun x hx => hp x (List.mem_cons_of_mem _ hx)
    exact List.forall_mem_cons.mpr ⟨first hl hp, ih⟩
  | case5 seen n anchor rest link hl hs e hw =>
    exact List.forall_mem_singleton.mpr (first hl hp)
  | case6 seen n anchor rest link hl hs inner hw hm ih =>
    have hfirst := first hl hp
    refine List.forall_mem_cons.mpr ⟨hfirst, ih (List.forall_mem_append.mpr ⟨?_, ?_⟩)⟩
    · exact List.forall_mem_map.mpr fun y _ d _ => hfirst.2
    · exact fun x hx => hp x (List.mem_cons_of_mem _ hx)
  | case7 seen n anchor rest link hl hs inner hw hm =>
    exact List.forall_mem_singleton.mpr (first hl hp)

/-- A walk without a fault has found all that was pending. -/
theorem sites_of_follow {seen : List SymbolId} {pending : List (NodeId × Option Site)}
    (h : (p.follow seen pending).fault = none) : ∀ x ∈ pending, ∃ d, p.siteOf x.1 = .ok d := by
  fun_induction follow p seen pending with
  | case1 => simp
  | case2 => cases h
  | case3 seen n anchor rest hl ih =>
    exact List.forall_mem_cons.mpr ⟨site_of_linkAt? hl, ih h⟩
  | case4 seen n anchor rest link hl hs ih =>
    exact List.forall_mem_cons.mpr ⟨site_of_linkAt? hl, ih h⟩
  | case5 => cases h
  | case6 seen n anchor rest link hl hs inner hw hm ih =>
    exact List.forall_mem_cons.mpr ⟨site_of_linkAt? hl, (List.forall_mem_append.mp (ih h)).2⟩
  | case7 => cases h

/-- In any program, the links of a walk without a fault are all the statements that it passes. -/
theorem declarations_follow {seen : List SymbolId} {pending : List (NodeId × Option Site)}
    (h : (p.follow seen pending).fault = none) :
    (p.follow seen pending).links.map Link.declaration =
      p.internalNetwork.passed seen (p.pendingStatements pending) := by
  fun_induction follow p seen pending with
  | case1 => simp [pendingStatements, Network.passed]
  | case2 => cases h
  | case3 seen n anchor rest hl ih =>
    rw [pendingStatements_cons_none _ _ (statement?_of_none hl), ih h]
  | case4 seen n anchor rest link hl hs ih =>
    obtain ⟨hd, ht, _⟩ := statement?_of_link hl
    rw [pendingStatements_cons_some _ _ hd, Network.passed_cons_of_seen, ← ih h]
    · rfl
    · intro a ha
      obtain ⟨t, ht', hx, rfl, _⟩ := internalTarget_eq_some.mp ha
      obtain rfl : link.target = t := Except.ok.inj (ht.symm.trans ht')
      exact hs.resolve_left (by simp [hx])
  | case5 => cases h
  | case6 seen n anchor rest link hl hs inner hw hm ih =>
    obtain ⟨hd, ht, _⟩ := statement?_of_link hl
    rw [not_or] at hs
    have hsites := List.forall_mem_map.mp (List.forall_mem_append.mp (sites_of_follow h)).1
    have htarget : p.internalNetwork.target link.declaration = some link.target.root :=
      internalTarget_eq_some.mpr ⟨_, ht, by simpa using hs.1, rfl, hm⟩
    rw [pendingStatements_cons_some _ _ hd, Network.passed_cons_of_notMem _ htarget hs.2,
      edges_of_sites hw hsites, ← pendingStatements_append, ← ih h]
    rfl
  | case7 => cases h

/-- The statements that a walk from a module passes without leaving the project. -/
def passedStatements (p : Program) (m : SymbolId) : List Site :=
  p.internalNetwork.passed [m] (p.internalNetwork.edges m)

theorem mem_passedStatements {m : SymbolId} {d : Site} : d ∈ p.passedStatements m ↔
    ∃ x, p.internalNetwork.Reaches m x ∧ d ∈ p.internalNetwork.edges x :=
  Network.mem_passed_iff_reaches

theorem exists_fault_iff {m : SymbolId} :
    (∃ e, (p.passedStatements m).findSome? p.wildcardFault? = some e) ↔
      ∃ x d e, p.internalNetwork.Reaches m x ∧ d ∈ p.internalNetwork.edges x ∧
        p.resolveWildcard d = .error e := by
  simp only [← Option.isSome_iff_exists, List.findSome?_isSome_iff, mem_passedStatements]
  constructor
  · rintro ⟨d, ⟨x, hx, hd⟩, hfault⟩
    obtain ⟨e, he⟩ := Option.isSome_iff_exists.mp hfault
    exact ⟨x, d, e, hx, hd, wildcardFault?_eq_some.mp he⟩
  · rintro ⟨x, d, e, hx, hd, he⟩
    exact ⟨d, ⟨x, hx, hd⟩, Option.isSome_iff_exists.mpr ⟨e, wildcardFault?_eq_some.mpr he⟩⟩

theorem trail_of_no_fault {m : SymbolId} (h : (p.trail m).fault = none) : ∃ ds,
    p.wildcards m = .ok ds ∧ p.trail m = p.follow [m] (ds.map (·, none)) ∧
      p.internalNetwork.edges m = ds.filterMap p.statement? := by
  cases hds : p.wildcards m with
  | error e =>
    rw [trail, hds] at h
    cases h
  | ok ds =>
    have htrail : p.trail m = p.follow [m] (ds.map (·, none)) := by rw [trail, hds]
    rw [htrail] at h
    have hsites := List.forall_mem_map.mp (sites_of_follow h)
    exact ⟨ds, rfl, htrail, edges_of_sites hds hsites⟩

/-- Without a fault, every statement that is passed is a link. -/
theorem declarations_trail {m : SymbolId} (h : (p.trail m).fault = none) :
    (p.trail m).links.map Link.declaration = p.passedStatements m := by
  obtain ⟨ds, _, htrail, hedges⟩ := trail_of_no_fault h
  rw [htrail] at h ⊢
  rw [declarations_follow h, pendingStatements_entry, ← hedges]
  rfl

/-- Without a fault, the anchor of a link is a statement of the entry module itself. -/
theorem links_trail {m : SymbolId} (h : (p.trail m).fault = none) :
    ∀ l ∈ (p.trail m).links, p.resolveWildcard l.declaration = .ok l.target ∧
      l.anchor ∈ p.internalNetwork.edges m := by
  obtain ⟨ds, _, htrail, hedges⟩ := trail_of_no_fault h
  rw [htrail, hedges]
  refine follow_links [m] _ (List.forall_mem_map.mpr fun n hn d hd => ?_)
  exact List.mem_filterMap.mpr ⟨n, hn, hd⟩

/-- Without a fault, every statement of a module that can be reached is a link with its target. -/
theorem exists_link_of_edge {m : SymbolId} (h : (p.trail m).fault = none) {x : SymbolId}
    (hx : p.internalNetwork.Reaches m x) {d : Site} (hd : d ∈ p.internalNetwork.edges x) :
    ∃ l ∈ (p.trail m).links, l.declaration = d ∧ p.resolveWildcard d = .ok l.target := by
  have hpassed := mem_passedStatements.mpr ⟨x, hx, hd⟩
  rw [← declarations_trail h] at hpassed
  obtain ⟨l, hl, rfl⟩ := List.mem_map.mp hpassed
  exact ⟨l, hl, rfl, (links_trail h l hl).1⟩

theorem edge_of_link {m : SymbolId} (h : (p.trail m).fault = none) {l : Link}
    (hl : l ∈ (p.trail m).links) :
    ∃ x, p.internalNetwork.Reaches m x ∧ l.declaration ∈ p.internalNetwork.edges x := by
  rw [← mem_passedStatements, ← declarations_trail h]
  exact List.mem_map_of_mem hl

/-- The trail of an entry goes along the statements of the project that can be reached, up to
the first one that leads nowhere. -/
theorem WellFormed.trail_eq (h : p.WellFormed S []) {m : SymbolId} (hm : m ∈ p.symbolIds) :
    (p.trail m).links.map Link.declaration =
        (p.passedStatements m).takeWhile (fun d => (p.wildcardFault? d).isNone) ∧
      (p.trail m).fault = (p.passedStatements m).findSome? p.wildcardFault? ∧
      ∀ l ∈ (p.trail m).links,
        p.resolveWildcard l.declaration = .ok l.target ∧ p.Attached l.anchor := by
  obtain ⟨ds, hds, hsub⟩ := h.wildcards_of_mem hm
  have htrail : p.trail m = p.follow [m] (ds.map (·, none)) := by rw [trail, hds]
  obtain ⟨hlinks, hfault⟩ := h.follow_eq [m] (ds.map (·, none)) (List.forall_mem_map.mpr hsub)
  rw [pendingStatements_entry, ← edges_internalNetwork hds hsub] at hlinks hfault
  rw [htrail]
  refine ⟨hlinks, hfault, follow_links [m] _ ?_⟩
  exact List.forall_mem_map.mpr fun n _ d hd => h.attached_of_statement? hd

end Program

end ApiSurface
