import ApiSurface.Proofs.Closure
import ApiSurface.Proofs.Displacement

/-! The statements of an entry module at which the exports of other modules are placed. A walk
that sets out at a statement moves whatever a module behind it exports, also where a module on the
way has given the name to another symbol. So the statement at which a symbol is placed exports the
symbol itself, or a module behind it hides the symbol. Statements of other modules are never places,
however far the walk goes and also where it leads back to the entry. -/

namespace ApiSurface

open Program

namespace Program

variable {p : Program} {entry s : SymbolId} {positions : Table SymbolId Json}

/-- A statement leads to a module of the project that exports a symbol. -/
def Gives (p : Program) (d : Site) (s : SymbolId) : Prop :=
  ∃ t, p.resolveWildcard d = .ok t ∧ t.isExternal = false ∧ ∃ n, p.Exposes t.root n s

theorem gives_iff {d : Site} : p.Gives d s ↔ s ∈ (match p.resolveWildcard d with
    | .ok t => if t.isExternal then [] else (p.exportsOf t.root).toOption.getD []
    | .error _ => []) := by
  unfold Gives
  cases p.resolveWildcard d with
  | error e => simp
  | ok t => cases ht : t.isExternal <;> simp [ht, mem_exportsOf_getD]

instance (p : Program) (d : Site) (s : SymbolId) : Decidable (p.Gives d s) :=
  decidable_of_iff _ gives_iff.symm

/-- A statement of a module gives a symbol that the module does not export. -/
def Hides (p : Program) (m s : SymbolId) : Prop :=
  (∃ d ∈ p.internalNetwork.edges m, p.Gives d s) ∧
    ∃ exported, p.exportsOf m = .ok exported ∧ s ∉ exported

/-- A walk that sets out at a statement comes to a module of the project. -/
def ComesTo (p : Program) (a : Site) (m : SymbolId) : Prop :=
  ∃ x, p.internalNetwork.target a = some x ∧ p.internalNetwork.Reaches x m

/-- A walk that sets out at a statement passes another one, or that one itself. -/
def Passes (p : Program) (a d : Site) : Prop :=
  d = a ∨ ∃ m, p.ComesTo a m ∧ d ∈ p.internalNetwork.edges m

theorem Passes.comesTo {a d : Site} {m : SymbolId} (h : p.Passes a d)
    (hm : p.internalNetwork.target d = some m) : p.ComesTo a m := by
  rcases h with rfl | ⟨y, ⟨x, hx, hy⟩, hd⟩
  · exact ⟨m, hm, Relation.ReflTransGen.refl⟩
  · exact ⟨x, hx, hy.tail ⟨d, hd, hm⟩⟩

/-- If every pending re-export is passed by the walk that set out at its anchor, all links are. -/
theorem passes_of_follow {seen : List SymbolId} {pending : List (NodeId × Option Site)}
    (h : (p.follow seen pending).fault = none)
    (hp : ∀ x ∈ pending, ∀ d, p.statement? x.1 = some d → p.Passes (x.2.getD d) d) :
    ∀ l ∈ (p.follow seen pending).links, p.Passes l.anchor l.declaration := by
  fun_induction follow p seen pending with
  | case1 => simp
  | case2 => cases h
  | case3 seen n anchor rest hl ih => exact ih h fun x hx => hp x (List.mem_cons_of_mem _ hx)
  | case4 seen n anchor rest link hl hs ih =>
    have ih := ih h fun x hx => hp x (List.mem_cons_of_mem _ hx)
    exact List.forall_mem_cons.mpr ⟨linkAt?_first hl hp, ih⟩
  | case5 => cases h
  | case6 seen n anchor rest link hl hs inner hw hm ih =>
    have hfirst : p.Passes link.anchor link.declaration := linkAt?_first hl hp
    refine List.forall_mem_cons.mpr ⟨hfirst, ih h (List.forall_mem_append.mpr ⟨?_, ?_⟩)⟩
    · -- the statements of the module that is entered keep the anchor of the link
      obtain ⟨_, ht, _⟩ := statement?_of_link hl
      have hsites := List.forall_mem_map.mp (List.forall_mem_append.mp (sites_of_follow h)).1
      have htarget := internalTarget_eq_some.mpr
        ⟨_, ht, by simpa using (not_or.mp hs).1, rfl, hm⟩
      refine List.forall_mem_map.mpr fun y hy d hd => Or.inr ⟨_, hfirst.comesTo htarget, ?_⟩
      rw [edges_of_sites hw hsites]
      exact List.mem_filterMap.mpr ⟨y, hy, hd⟩
    · exact fun x hx => hp x (List.mem_cons_of_mem _ hx)
  | case7 => cases h

theorem passes_of_trail (h : (p.trail entry).fault = none) :
    ∀ l ∈ (p.trail entry).links, p.Passes l.anchor l.declaration := by
  obtain ⟨ds, _, htrail, _⟩ := trail_of_no_fault h
  rw [htrail] at h ⊢
  exact passes_of_follow h (List.forall_mem_map.mpr fun n _ d _ => Or.inl rfl)

/-- The modules of the project that statements lead to have been listed if the places are known. -/
theorem exists_exportsOf_of_link (hp : p.positions entry = .ok positions) {l : Link}
    (hl : l ∈ (p.trail entry).links) (he : l.target.isExternal = false) :
    ∃ exported, p.exportsOf l.target.root = .ok exported := by
  obtain ⟨own, _, _, hrun⟩ := positions_eq_ok hp
  obtain ⟨t₁, t₂, hstep⟩ := exists_step_of_foldlM hrun hl
  rw [positionStep, he] at hstep
  obtain ⟨exported, hexported, _⟩ := bind_eq_ok_iff.mp hstep
  exact ⟨exported, hexported⟩

theorem exists_exportsOf_of_comesTo (hp : p.positions entry = .ok positions) {a : Site}
    (ha : a ∈ p.internalNetwork.edges entry) {m : SymbolId} (hm : p.ComesTo a m) :
    ∃ exported, p.exportsOf m = .ok exported := by
  obtain ⟨own, _, hfault, _⟩ := positions_eq_ok hp
  -- the last statement on the way is a link of the trail
  obtain ⟨y, d, hy, hd, htarget⟩ : ∃ y d, p.internalNetwork.Reaches entry y ∧
      d ∈ p.internalNetwork.edges y ∧ p.internalNetwork.target d = some m := by
    obtain ⟨x, hx, hm⟩ := hm
    rcases Relation.ReflTransGen.cases_tail hm with rfl | ⟨y, hy, d, hd, ht⟩
    · exact ⟨entry, a, Relation.ReflTransGen.refl, ha, hx⟩
    · exact ⟨y, d, Relation.ReflTransGen.head ⟨a, ha, hx⟩ hy, hd, ht⟩
  obtain ⟨l, hl, _, hresolve⟩ := exists_link_of_edge hfault hy hd
  obtain ⟨t, ht, hext, rfl, _⟩ := internalTarget_eq_some.mp htarget
  obtain rfl : l.target = t := Except.ok.inj (hresolve.symm.trans ht)
  exact exists_exportsOf_of_link hp hl hext

/-- What a statement of a module gives is given by the statement that the walk set out at, unless
a module on the way hides it. -/
theorem gives_or_hides {a : Site}
    (hlisted : ∀ m, p.ComesTo a m → ∃ exported, p.exportsOf m = .ok exported) {d : Site}
    (hd : p.Passes a d) (hs : p.Gives d s) : p.Gives a s ∨ ∃ m, p.ComesTo a m ∧ p.Hides m s := by
  rcases hd with rfl | ⟨m, ⟨x, hx, hm⟩, hd⟩
  · exact Or.inl hs
  · -- along the way, from its end: a module that does not export the symbol hides it
    induction hm generalizing d with
    | refl =>
      obtain ⟨exported, he⟩ := hlisted x ⟨x, hx, Relation.ReflTransGen.refl⟩
      by_cases hmem : s ∈ exported
      · obtain ⟨t, ht, hext, rfl, _⟩ := internalTarget_eq_some.mp hx
        exact Or.inl ⟨t, ht, hext, (mem_exportsOf he).mp hmem⟩
      · exact Or.inr ⟨x, ⟨x, hx, Relation.ReflTransGen.refl⟩, ⟨d, hd, hs⟩, exported, he, hmem⟩
    | @tail y z hy hz ih =>
      have hcomes : p.ComesTo a z := ⟨x, hx, hy.tail hz⟩
      obtain ⟨exported, he⟩ := hlisted z hcomes
      by_cases hmem : s ∈ exported
      · obtain ⟨e, hedge, htarget⟩ := hz
        obtain ⟨t, ht, hext, rfl, _⟩ := internalTarget_eq_some.mp htarget
        exact ih ⟨t, ht, hext, (mem_exportsOf he).mp hmem⟩ hedge
      · exact Or.inr ⟨z, hcomes, ⟨d, hd, hs⟩, exported, he, hmem⟩

/-- A symbol that a module of the project behind the entry exports stands at a statement of the
entry, the one from which the last such module is reached. This statement gives the symbol, unless
a module behind it hides the symbol. So without a module that hides it, a symbol is always at a
statement that gives it. -/
theorem derived_place (hp : p.positions entry = .ok positions) (hs : p.ExposedBehind entry s) :
    ∃ l, p.lastMove? entry s = some l ∧ l.anchor ∈ p.internalNetwork.edges entry ∧
      positions.get? s = some l.anchor.node.start ∧
      (p.Gives l.anchor s ∨ ∃ m, p.ComesTo l.anchor m ∧ p.Hides m s) ∧
      ((∀ m, p.internalNetwork.Reaches entry m → ¬p.Hides m s) →
        ∃ d ∈ p.internalNetwork.edges entry, p.Gives d s ∧
          positions.get? s = some d.node.start) := by
  obtain ⟨own, _, hfault, hrun⟩ := positions_eq_ok hp
  obtain ⟨l, hl⟩ := Option.ne_none_iff_exists'.mp fun h => (lastMove?_eq_none_iff hfault).mp h hs
  have hmem := mem_of_lastMove? hl
  obtain ⟨hresolve, hanchor⟩ := links_trail hfault l hmem
  have hplace : positions.get? s = some l.anchor.node.start := by
    rw [get?_foldlM_positionStep hrun s]
    change ((p.lastMove? entry s).map fun l => l.anchor.node.start).or (own.get? s) = _
    rw [hl]
    rfl
  have hgives : p.Gives l.declaration s := by
    obtain ⟨hext, hexposes⟩ := moves_iff.mp (List.of_mem_filter (List.mem_of_getLast? hl))
    exact ⟨l.target, hresolve, hext, hexposes⟩
  have hcases := gives_or_hides (fun m hm => exists_exportsOf_of_comesTo hp hanchor hm)
    (passes_of_trail hfault l hmem) hgives
  refine ⟨l, hl, hanchor, hplace, hcases, fun hnot => ?_⟩
  rcases hcases with hgives | ⟨m, ⟨x, hx, hm⟩, hhides⟩
  · exact ⟨l.anchor, hanchor, hgives, hplace⟩
  · exact absurd hhides (hnot m (Relation.ReflTransGen.head ⟨l.anchor, hanchor, hx⟩ hm))

end Program

/-! ### A module that gives a name away -/

namespace Snapshot

/-- A module with a declaration between two statements. Both lead to a module that leads to a common
third one, and the second of them has the name of its export for another symbol. -/
def concealed : Json :=
  .obj [("symbols", .arr (["M", "X", "Y"].map declaredEntry)),
    ("files", .arr [
      .obj [("fileName", .str "main"), ("statements", .arr [wildcardEntry "./a" (.int 10),
          placedEntry "M" 15, wildcardEntry "./b" (.int 20)]),
        ("exports", .obj [("M", .str "M")])],
      .obj [("fileName", .str "a"), ("statements", .arr [wildcardEntry "./c" (.int 0)])],
      .obj [("fileName", .str "b"), ("statements", .arr [placedEntry "Y" 0,
          wildcardEntry "./c" (.int 5)]), ("exports", .obj [("X", .str "Y")])],
      .obj [("fileName", .str "c"), ("statements", .arr [placedEntry "X" 0]),
        ("exports", .obj [("X", .str "X")])]]),
    ("resolutions", .arr [resolutionEntry "main" "./a" "a", resolutionEntry "main" "./b" "b",
      resolutionEntry "a" "./c" "c", resolutionEntry "b" "./c" "c"])]

end Snapshot

/-- The export that the first statement gives stands at the second one, which does not give it, and
so it comes after the declaration between them. -/
theorem derived_place_concealed : ∃ p f surface m b exported positions x,
    Snapshot.load Snapshot.concealed = .ok p ∧ f ∈ p.sources ∧ p.surface f.id = .ok surface ∧
    p.symbolAt f.id = some m ∧ p.boundary m = .ok b ∧ p.exportsOf m = .ok exported ∧
    p.positions m = .ok positions ∧ x ∈ exported ∧ x ∉ b.symbols ∧ x ∉ (p.ownExports m).values ∧
    (∃ d ∈ p.internalNetwork.edges m, p.Gives d x) ∧
    (¬∃ d ∈ p.internalNetwork.edges m, p.Gives d x ∧ positions.get? x = some d.node.start) ∧
    (∃ y, p.internalNetwork.Reaches m y ∧ p.Hides y x) ∧
    surface.exports.keys = ["M", "X"].map fun s => .listed (.text s) := by
  have hrun : ((Snapshot.load Snapshot.concealed).toOption.map fun p =>
      (p.sources.head?.map fun f =>
          (p.symbolAt f.id, (p.surface f.id).toOption.map fun s => s.exports.keys),
        (p.boundary (.ofFile (.node 0))).toOption.map Boundary.symbols,
        p.exportsOf (.ofFile (.node 0)),
        (p.positions (.ofFile (.node 0))).toOption.map fun t => t.get? (.listed (.text "X")),
        (p.ownExports (.ofFile (.node 0))).values,
        (p.internalNetwork.edges (.ofFile (.node 0))).map fun d =>
          (d.node.start, decide (p.Gives d (.listed (.text "X")))))) =
      some (some (some (.ofFile (.node 0)),
          some (["M", "X"].map fun s => .listed (.text s))),
        some [], .ok (["M", "X"].map fun s => .listed (.text s)), some (some (.int 20)),
        [.listed (.text "M")], [(.int 10, true), (.int 20, false)]) := by cbv
  obtain ⟨p, hload, hrun⟩ := map_toOption_eq_some_iff.mp hrun
  simp only [Prod.mk.injEq] at hrun
  obtain ⟨hfile, hboundary, hexports, hpositions, hown, hedges⟩ := hrun
  obtain ⟨f, hf, hfile⟩ := Option.map_eq_some_iff.mp hfile
  obtain ⟨hentry, hsurface⟩ := Prod.mk.inj hfile
  obtain ⟨surface, hs, hkeys⟩ := map_toOption_eq_some_iff.mp hsurface
  obtain ⟨b, hb, hsymbols⟩ := map_toOption_eq_some_iff.mp hboundary
  obtain ⟨positions, hpos, hplace⟩ := map_toOption_eq_some_iff.mp hpositions
  have hgives : ∃ d ∈ p.internalNetwork.edges (.ofFile (.node 0)),
      p.Gives d (.listed (.text "X")) := by
    have hfirst : (Json.int 10, true) ∈ [(Json.int 10, true), (.int 20, false)] :=
      List.mem_cons_self ..
    rw [← hedges] at hfirst
    obtain ⟨d, hd, heq⟩ := List.mem_map.mp hfirst
    exact ⟨d, hd, of_decide_eq_true (Prod.mk.inj heq).2⟩
  have hnot : ¬∃ d ∈ p.internalNetwork.edges (.ofFile (.node 0)),
      p.Gives d (.listed (.text "X")) ∧
        positions.get? (.listed (.text "X")) = some d.node.start := by
    rintro ⟨d, hd, hgive, hstart⟩
    rw [hplace, Option.some.injEq] at hstart
    have hmem := List.mem_map_of_mem (f := fun d : Site =>
      (d.node.start, decide (p.Gives d (.listed (.text "X"))))) hd
    rw [hedges, ← hstart, decide_eq_true hgive] at hmem
    simp at hmem
  obtain ⟨d, hd, hgive⟩ := hgives
  obtain ⟨l, _, hanchor, hat, hcases, _⟩ :=
    derived_place hpos ⟨_, Relation.ReflTransGen.refl, d, hd, hgive⟩
  refine ⟨p, f, surface, _, b, _, positions, .listed (.text "X"), hload, List.mem_of_head? hf, hs,
    hentry, hb, hexports, hpos, by simp, by simp [hsymbols], by simp [hown], ⟨d, hd, hgive⟩, hnot,
    ?_, hkeys⟩
  rcases hcases with hanchored | ⟨y, ⟨z, hz, hy⟩, hhides⟩
  · exact absurd ⟨l.anchor, hanchor, hanchored, hat⟩ hnot
  · exact ⟨y, Relation.ReflTransGen.head ⟨l.anchor, hanchor, hz⟩ hy, hhides⟩

/-! ### Places of the entry alone -/

namespace Program

variable {p : Program} {entry s : SymbolId} {positions : Table SymbolId Json}

/-- A link that moves a symbol leads to a module behind the statement that it set out at. -/
theorem comesTo_of_moves (h : (p.trail entry).fault = none) {l : Link}
    (hl : l ∈ (p.trail entry).links) (hs : l.moves p s = true) :
    p.ComesTo l.anchor l.target.root ∧ ∃ n, p.Exposes l.target.root n s := by
  obtain ⟨hext, hexposes⟩ := moves_iff.mp hs
  have hroot := ((listed_of_trail h).2 l hl hext).1
  refine ⟨(passes_of_trail h l hl).comesTo ?_, hexposes⟩
  exact internalTarget_eq_some.mpr ⟨_, (links_trail h l hl).1, hext, rfl, hroot⟩

/-- The modules behind an entry whose places are known are closed, and all of them are listed. -/
theorem closed_of_positions (hp : p.positions entry = .ok positions) {m : SymbolId}
    (hm : p.internalNetwork.Reaches entry m) : ∃ ds, p.wildcardStatements m = .ok ds ∧
      ∀ d ∈ ds, ∃ t, p.resolveWildcard d = .ok t ∧ (t.isExternal = false →
        p.internalNetwork.Reaches entry t.root ∧
          ∃ exported, p.exportsOf t.root = .ok exported) := by
  obtain ⟨own, _, hfault, _⟩ := positions_eq_ok hp
  obtain ⟨ds, hds, htargets⟩ := closed_of_trail hfault hm
  refine ⟨ds, hds, fun d hd => ?_⟩
  obtain ⟨t, ht, hreach⟩ := htargets d hd
  refine ⟨t, ht, fun he => ⟨hreach he, ?_⟩⟩
  have hedge : d ∈ p.internalNetwork.edges m := by
    change d ∈ (p.wildcardStatements m).toOption.getD []
    rwa [hds]
  obtain ⟨l, hl, _, hresolve⟩ := exists_link_of_edge hfault hm hedge
  obtain rfl : l.target = t := Except.ok.inj (hresolve.symm.trans ht)
  exact exists_exportsOf_of_link hp hl he

/-- Where statements of other modules stand is never a place. What has a place are the declared
exports of the entry itself and all that the modules behind it export, as far as statements lead
within the project. A place is where an export of the entry is first declared, or it is a statement
of the entry that leads, over any number of modules, to one that exports the symbol. -/
theorem places_of_entry (hp : p.positions entry = .ok positions) :
    (∀ m, p.internalNetwork.Reaches entry m → ∃ ds, p.wildcardStatements m = .ok ds ∧
      ∀ d ∈ ds, ∃ t, p.resolveWildcard d = .ok t ∧ (t.isExternal = false →
        p.internalNetwork.Reaches entry t.root ∧
          ∃ exported, p.exportsOf t.root = .ok exported)) ∧
    (∀ s, s ∈ positions.keys ↔
      s ∈ (p.ownExports entry).values ∧ (p.symbol s).declarations ≠ [] ∨
        p.ExposedBehind entry s) ∧
    ∀ s place, positions.get? s = some place →
      (s ∈ (p.ownExports entry).values ∧
        ∃ d, p.declaration? (p.symbol s) = .ok (some d) ∧ place = d.node.start) ∨
      ∃ d ∈ p.internalNetwork.edges entry, place = d.node.start ∧
        ∃ m, p.ComesTo d m ∧ ∃ n, p.Exposes m n s := by
  obtain ⟨own, hown, hfault, hrun⟩ := positions_eq_ok hp
  have hplace (s : SymbolId) : positions.get? s =
      ((p.lastMove? entry s).map fun l => l.anchor.node.start).or (own.get? s) :=
    get?_foldlM_positionStep hrun s
  refine ⟨fun m hm => closed_of_positions hp hm, fun s => ?_, fun s place hs => ?_⟩
  · have hbehind := lastMove?_eq_none_iff (s := s) hfault
    rw [Table.mem_keys_iff_get?, hplace]
    constructor
    · rintro ⟨place, hs⟩
      by_cases hmove : p.lastMove? entry s = none
      · rw [hmove] at hs
        obtain ⟨hmem, hd, _⟩ := get?_ownPositions_eq_some hown hs
        exact Or.inl ⟨hmem, hd⟩
      · exact Or.inr (by_contra fun hnot => hmove (hbehind.mpr hnot))
    · rintro (⟨hmem, hd⟩ | hexposed)
      · obtain ⟨d, _, hget⟩ := get?_ownPositions hown hmem hd
        rw [hget]
        cases p.lastMove? entry s <;> simp
      · obtain ⟨l, hl⟩ := Option.ne_none_iff_exists'.mp fun h => hbehind.mp h hexposed
        rw [hl]
        exact ⟨_, rfl⟩
  · rw [hplace] at hs
    cases hmove : p.lastMove? entry s with
    | none =>
      rw [hmove] at hs
      obtain ⟨hmem, _, d, hd, hstart⟩ := get?_ownPositions_eq_some hown hs
      exact Or.inl ⟨hmem, d, hd, hstart.symm⟩
    | some l =>
      rw [hmove] at hs
      have hl := mem_of_lastMove? hmove
      have hmoves := List.of_mem_filter (List.mem_of_getLast? hmove)
      obtain ⟨hcomes, hexposes⟩ := comesTo_of_moves hfault hl hmoves
      exact Or.inr ⟨l.anchor, (links_trail hfault l hl).2, (Option.some.inj hs).symm,
        _, hcomes, hexposes⟩

end Program

namespace Snapshot

/-- A module with a declaration and a statement to the first of two other modules, each of which
leads to the next one, and the last one back to the first. -/
def longWay : Json :=
  .obj [("symbols", .arr (["A", "B"].map declaredEntry)),
    ("files", .arr [
      .obj [("fileName", .str "main"), ("statements", .arr [placedEntry "A" 10,
          wildcardEntry "./a" (.int 20)]), ("exports", .obj [("A", .str "A")])],
      .obj [("fileName", .str "a"), ("statements", .arr [wildcardEntry "./b" (.int 3)])],
      .obj [("fileName", .str "b"), ("statements", .arr [placedEntry "B" 7,
          wildcardEntry "./main" (.int 9)]), ("exports", .obj [("B", .str "B")])]]),
    ("resolutions", .arr [resolutionEntry "main" "./a" "a", resolutionEntry "a" "./b" "b",
      resolutionEntry "b" "./main" "main"])]

end Snapshot

/-- The export of the last module stands at the statement of the first one. -/
theorem places_longWay : ∃ p positions, Snapshot.load Snapshot.longWay = .ok p ∧
    p.positions (.ofFile (.node 0)) = .ok positions ∧
    positions.values = [.int 20, .int 20] ∧
    (∀ s, (s ∈ (p.ownExports (.ofFile (.node 0))).values ∧ (p.symbol s).declarations ≠ [] ∨
      p.ExposedBehind (.ofFile (.node 0)) s) ↔ s = .listed (.text "A") ∨ s = .listed (.text "B")) ∧
    ∃ d ∈ p.internalNetwork.edges (.ofFile (.node 0)), d.node.start = .int 20 ∧
      ∃ m, p.ComesTo d m ∧ ∃ n, p.Exposes m n (.listed (.text "B")) := by
  have hrun : ((Snapshot.load Snapshot.longWay).toOption.map fun p =>
      ((p.positions (.ofFile (.node 0))).toOption.map fun t =>
          (t.keys, t.values, t.get? (.listed (.text "B"))),
        (p.ownExports (.ofFile (.node 0))).values)) =
      some (some (["A", "B"].map fun s => .listed (.text s), [.int 20, .int 20], some (.int 20)),
        [.listed (.text "A")]) := by cbv
  obtain ⟨p, hload, hrun⟩ := map_toOption_eq_some_iff.mp hrun
  obtain ⟨hpositions, hown⟩ := Prod.mk.inj hrun
  obtain ⟨positions, hpos, hparts⟩ := map_toOption_eq_some_iff.mp hpositions
  simp only [Prod.mk.injEq] at hparts
  obtain ⟨hkeys, hvalues, hget⟩ := hparts
  obtain ⟨_, hplaced, hplaces⟩ := places_of_entry hpos
  refine ⟨p, positions, hload, hpos, hvalues, fun s => ?_, ?_⟩
  · rw [← hplaced, hkeys]
    simp
  · rcases hplaces _ _ hget with ⟨hmem, _⟩ | ⟨d, hd, hstart, hcomes⟩
    · simp [hown] at hmem
    · exact ⟨d, hd, hstart.symm, hcomes⟩

end ApiSurface
