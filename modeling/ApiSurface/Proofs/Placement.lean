import ApiSurface.Proofs.Collection
import ApiSurface.Proofs.Statements

/-! Every export of an entry module that is not left to a library has a place. The exports of a
module are found by one walk over everything, and the places by a walk within the project. What
the first one finds outside of the project is what the library finds first by a walk of its own,
unless a library leads back into the project. -/

namespace ApiSurface

open Program

namespace Program

variable {S : Shape} {p : Program}

/-- No table has an entry of its own under the name reserved for wildcard re-exports. -/
def Reserves (p : Program) : Prop :=
  ∀ m e, (p.tableOf m).get? (.text wildcardName) = some e → e.symbol = .wildcards m

theorem reserves_iff : p.Reserves ↔ ∀ x ∈ p.symbols.entries,
    ∀ e ∈ (x.2.exports.getD ∅).get? (.text wildcardName), e.symbol = .wildcards x.1 := by
  constructor
  · rintro h ⟨m, x⟩ hx e he
    apply h m e
    rwa [tableOf, symbol_of_get? (Table.get?_eq_some_iff.mpr hx)]
  · intro h m e he
    by_cases hm : m ∈ p.symbolIds
    · obtain ⟨x, hx⟩ := mem_symbolIds_iff.mp hm
      rw [tableOf, symbol_of_get? hx] at he
      exact h (m, x) (Table.get?_eq_some_iff.mp hx) e he
    · rw [tableOf, symbol_of_notMem hm] at he
      cases he

instance (p : Program) : Decidable p.Reserves := decidable_of_iff _ reserves_iff.symm

/-! ### Exported names -/

/-- Under a name other than the default one a module exports what the first module of a walk that
has the name exports under it. -/
theorem mem_exposed_iff {m s : SymbolId} {k : Key} (hk : k ≠ .text defaultName) :
    (k, s) ∈ p.exposed m ↔ ∃ x,
      (p.exportNetwork.order m).find? (fun y => k ∈ (p.ownExports y).keys) = some x ∧
        (k, s) ∈ (p.ownExports x).entries := by
  have hmem : ∀ x a, (k, a) ∈ (if x = m then (p.ownExports x).entries else p.passedOn x) ↔
      (k, a) ∈ (p.ownExports x).entries := by
    intro x a
    split
    · rfl
    · simp [passedOn, hk]
  have hkeys : ∀ x, k ∈ (if x = m then (p.ownExports x).entries else p.passedOn x).map Prod.fst ↔
      k ∈ (p.ownExports x).keys := by
    intro x
    rw [Table.mem_keys_iff]
    simp only [← hmem, List.mem_map, Prod.exists, exists_and_right, exists_eq_right]
  have hnodup : ∀ x ∈ p.exportNetwork.order m,
      ((if x = m then (p.ownExports x).entries else p.passedOn x).map Prod.fst).Nodup := by
    intro x _
    split
    · exact (p.ownExports x).nodup
    · exact (p.ownExports x).nodup.sublist (List.filter_sublist.map Prod.fst)
  rw [exposed, Table.mem_firsts_flatMap hnodup]
  simp only [hkeys, hmem]

theorem mem_ownExports_of_default {m s : SymbolId}
    (h : (.text defaultName, s) ∈ p.exposed m) :
    (.text defaultName, s) ∈ (p.ownExports m).entries := by
  rw [exposed_eq] at h
  rcases List.mem_append.mp (Table.mem_of_mem_firsts h) with h | h
  · exact h
  · obtain ⟨x, _, hx⟩ := List.mem_flatMap.mp h
    simp [passedOn] at hx

theorem exposes_of_mem {m s : SymbolId} {k : Key} (hl : p.Legible m)
    (h : (k, s) ∈ p.exposed m) : p.Exposes m k s :=
  ⟨⟨p.exposed m, nodup_exposed p m⟩, exportTable_eq_ok_iff.mpr ⟨hl, rfl⟩,
    Table.get?_eq_some_iff.mpr h⟩

/-! ### Targets -/

/-- Where a statement leads, it also leads if exports are looked for. -/
theorem WellFormed.wildcardModule?_of_resolveWildcard (h : p.WellFormed S []) {n : NodeId}
    {d : Site} {t : WildcardTarget} (hn : p.statement? n = some d)
    (ht : p.resolveWildcard d = .ok t) : p.wildcardModule? n = .ok (some t.root) := by
  obtain ⟨hsite, _⟩ := statement?_eq_some.mp hn
  obtain ⟨literal, text, f, specifier, hspec, hf, hname, htarget⟩ := resolveWildcard_cases ht
  unfold wildcardModule?
  rw [h.specifierAt?_of_mem hsite, hspec, ok_bind]
  simp only [hsite, hf, hname, ok_bind]
  cases hres : p.resolution? f specifier with
  | some r =>
    rw [hres] at htarget
    obtain ⟨name, hname, hroot⟩ := htarget
    simp only [hname, ok_bind, hroot]
    rfl
  | none =>
    rw [hres] at htarget
    exact congrArg Except.ok htarget

/-- The wildcard re-exports of a module are statements. -/
theorem WellFormed.exists_statement (h : p.WellFormed S []) (hs : p.Stated []) (hr : p.Reserves)
    {x : SymbolId} {ds : List NodeId} (hx : p.wildcards x = .ok ds) {n : NodeId} (hn : n ∈ ds) :
    ∃ d ∈ p.internalNetwork.edges x, p.statement? n = some d := by
  have hdecl : n ∈ (p.symbol (.wildcards x)).declarations := by
    obtain ⟨_, _, hx⟩ := bind_eq_ok_iff.mp hx
    split at hx
    · rename_i star hstar
      obtain ⟨e, he, hp⟩ := Option.bind_eq_some_iff.mp hstar
      obtain ⟨rfl, _⟩ := Entity.present?_eq_some.mp hp
      obtain ⟨y, hy, hx⟩ := bind_eq_ok_iff.mp hx
      obtain rfl := Except.ok.inj hx
      obtain ⟨_, rfl⟩ := symbolOf_eq_ok_iff.mp hy
      rw [← hr x e he]
      exact hn
    · obtain rfl := Except.ok.inj hx
      cases hn
  obtain ⟨d, hd⟩ := h.exists_statement? hs hdecl
  rw [edges_internalNetwork hx (h.wildcards_subset hx)]
  exact ⟨d, List.mem_filterMap.mpr ⟨n, hn, hd⟩, hd⟩

theorem mem_of_internal {m x : SymbolId} (hm : m ∈ p.symbolIds)
    (hx : p.internalNetwork.Reaches m x) : x ∈ p.symbolIds := by
  rcases Relation.ReflTransGen.cases_tail hx with rfl | ⟨_, _, d, _, hd⟩
  · exact hm
  · exact p.internalNetwork.target_mem hd

/-- A wildcard re-export within the project leads on within the project or to a library, if the
trail has no fault. -/
theorem WellFormed.wildcardModule?_of_internal (h : p.WellFormed S []) (hs : p.Stated [])
    (hr : p.Reserves) {m x : SymbolId} (hm : m ∈ p.symbolIds) (hfault : (p.trail m).fault = none)
    (hx : p.internalNetwork.Reaches m x) {ds : List NodeId} (hds : p.wildcards x = .ok ds)
    {n : NodeId} (hn : n ∈ ds) : ∃ t, p.wildcardModule? n = .ok (some t.root) ∧ p.Holds t.root ∧
      (p.internalNetwork.Reaches m t.root ∨ p.PassesThrough m t) := by
  obtain ⟨d, hd, hstatement⟩ := h.exists_statement hs hr hds hn
  have hpassed : d ∈ p.passedStatements m := mem_passedStatements.mpr ⟨x, hx, hd⟩
  have hnone : p.wildcardFault? d = none := by
    have htrail := (h.trail_eq hm).2.1
    rw [hfault] at htrail
    exact List.findSome?_eq_none_iff.mp htrail.symm d hpassed
  obtain ⟨t, ht⟩ := wildcardFault?_eq_none.mp hnone
  have hroot := h.holds_root ht
  refine ⟨t, h.wildcardModule?_of_resolveWildcard hstatement ht, hroot, ?_⟩
  cases hext : t.isExternal with
  | true => exact Or.inr ⟨x, hx, d, hd, ht, hext⟩
  | false =>
    have htarget := internalTarget_eq_some.mpr ⟨t, ht, hext, rfl, hroot.1⟩
    exact Or.inl (hx.tail ⟨d, hd, htarget⟩)

/-! ### Legible modules -/

/-- What can be reached from a module of the project is in the project or behind a library. -/
theorem WellFormed.reaches_cases (h : p.WellFormed S []) (hs : p.Stated []) (hr : p.Reserves)
    {m x y : SymbolId} (hm : m ∈ p.symbolIds) (hfault : (p.trail m).fault = none)
    (hx : p.internalNetwork.Reaches m x) (hy : p.exportNetwork.Reaches x y) :
    p.internalNetwork.Reaches m y ∨
      ∃ t, p.PassesThrough m t ∧ p.exportNetwork.Reaches t.root y := by
  induction hy with
  | refl => exact Or.inl hx
  | @tail y z _ hyz ih =>
    obtain ⟨n, hn, hz⟩ := hyz
    rcases ih with hy | ⟨t, ht, hy⟩
    · obtain ⟨ds, hds, _⟩ := h.wildcards_of_mem (mem_of_internal hm hy)
      rw [edges_exportNetwork hds] at hn
      obtain ⟨t, htarget, _, ht⟩ := h.wildcardModule?_of_internal hs hr hm hfault hy hds hn
      obtain ⟨hnz, _⟩ := target_eq_some_iff.mp hz
      obtain rfl : t.root = z := Option.some.inj (Except.ok.inj (htarget.symm.trans hnz))
      exact ht.imp id fun ht => ⟨t, ht, Relation.ReflTransGen.refl⟩
    · exact Or.inr ⟨t, ht, hy.tail ⟨n, hn, hz⟩⟩

/-- The exports of the modules of the project can be listed if the boundary is known. -/
theorem WellFormed.legible_of_internal (h : p.WellFormed S []) (hs : p.Stated [])
    (hr : p.Reserves) {m x : SymbolId} (hm : m ∈ p.symbolIds) {b : Boundary}
    (hb : p.boundary m = .ok b) (hx : p.internalNetwork.Reaches m x) : p.Legible x := by
  obtain ⟨_, hfault⟩ := boundary_eq_ok_iff.mp hb
  intro y hy
  rcases h.reaches_cases hs hr hm hfault hx hy with hy | ⟨t, ht, hy⟩
  · obtain ⟨ds, hds, _⟩ := h.wildcards_of_mem (mem_of_internal hm hy)
    refine ⟨ds, hds, fun n hn => ?_⟩
    obtain ⟨t, htarget, hroot, _⟩ := h.wildcardModule?_of_internal hs hr hm hfault hy hds hn
    obtain ⟨es, hes, _⟩ := h.wildcards_of_mem hroot.1
    exact ⟨some t.root, htarget, by simpa using ⟨es, hes⟩⟩
  · exact legible_of_passesThrough hb ht y hy

/-! ### Places -/

/-- Declared exports of a module itself have a place. -/
theorem WellFormed.exists_keys_ownPositions (h : p.WellFormed S []) (m : SymbolId) :
    ∃ own, p.ownPositions m = .ok own ∧ ∀ s ∈ (p.ownExports m).values,
      (p.symbol s).declarations ≠ [] → s ∈ own.keys := by
  obtain ⟨own, hown, hkeys⟩ : ∃ own, p.ownPositions m = .ok own ∧ ∀ s, (s ∈ Table.keys ∅ ∨
      ∃ x ∈ (p.ownExports m).values, s = x ∧ (p.symbol x).declarations ≠ []) → s ∈ own.keys := by
    refine exists_foldlM_keys ∅ fun x hx t => ?_
    obtain ⟨n, hn⟩ := Table.mem_values_iff.mp hx
    obtain ⟨e, he, rfl⟩ := mem_ownExports hn
    rw [symbolOf_of_mem (h.holds_of_table he).1, ok_bind]
    rcases h.declaration?_eq e.symbol with ⟨hnone, hd⟩ | ⟨d, hd, _⟩
    · refine ⟨t, by rw [hd]; rfl, fun s hs => hs.elim id fun hs => absurd hnone hs.2⟩
    · refine ⟨t.insert e.symbol d.node.start, by rw [hd]; rfl, fun s hs => ?_⟩
      rw [Table.mem_keys_insert]
      exact hs.symm.imp And.left id
  exact ⟨own, hown, fun s hs hd => hkeys s (Or.inr ⟨s, hs, rfl, hd⟩)⟩

/-- The places of exports are known if the boundary is. Declared exports of the entry itself and
all exports of the modules that it leads to within the project have one. -/
theorem WellFormed.exists_positions_of_boundary (h : p.WellFormed S []) (hs : p.Stated [])
    (hr : p.Reserves) {m : SymbolId} (hm : m ∈ p.symbolIds) {b : Boundary}
    (hb : p.boundary m = .ok b) : ∃ positions, p.positions m = .ok positions ∧
      ∀ x s, p.internalNetwork.Reaches m x → s ∈ (p.ownExports x).values →
        (p.symbol s).declarations ≠ [] → s ∈ positions.keys := by
  obtain ⟨_, hfault⟩ := boundary_eq_ok_iff.mp hb
  obtain ⟨own, hown, hkeys⟩ := h.exists_keys_ownPositions m
  have hlisted : ∀ l ∈ (p.trail m).links, l.target.isExternal = false →
      p.Legible l.target.root := by
    intro l hl hext
    obtain ⟨ht, _⟩ := links_trail hfault l hl
    obtain ⟨x, hx, hd⟩ := edge_of_link hfault hl
    have htarget := internalTarget_eq_some.mpr ⟨_, ht, hext, rfl, (h.holds_root ht).1⟩
    exact h.legible_of_internal hs hr hm hb (hx.tail ⟨_, hd, htarget⟩)
  obtain ⟨positions, hp, hplaced⟩ : ∃ positions,
      (p.trail m).links.foldlM p.positionStep own = .ok positions ∧
        ∀ s, (s ∈ own.keys ∨ ∃ l ∈ (p.trail m).links, l.target.isExternal = false ∧
          s ∈ (p.exposed l.target.root).map Prod.snd) → s ∈ positions.keys := by
    refine exists_foldlM_keys own fun l hl t => ?_
    unfold positionStep
    cases hext : l.target.isExternal with
    | true => exact ⟨t, rfl, by simp⟩
    | false =>
      have he := exportsOf_eq_ok_iff.mpr ⟨hlisted l hl hext, rfl⟩
      refine ⟨_, by rw [he]; rfl, fun s hk => ?_⟩
      rw [placeAll, Table.mem_keys_foldl_insert]
      exact hk.imp id And.right
  refine ⟨positions, ?_, fun x s hx hx' hd => hplaced s ?_⟩
  · rw [positions_eq_foldM, hown, ok_bind, Trail.foldM, hp, ok_bind, hfault]
    rfl
  · rcases Relation.ReflTransGen.cases_tail hx with rfl | ⟨y, hy, d, hdy, htarget⟩
    · exact Or.inl (hkeys s hx' hd)
    · obtain ⟨l, hl, _, hresolve⟩ := exists_link_of_edge hfault hy hdy
      obtain ⟨t, ht, hext, rfl, _⟩ := internalTarget_eq_some.mp htarget
      obtain rfl : l.target = t := Except.ok.inj (hresolve.symm.trans ht)
      obtain ⟨n, hn⟩ := Table.mem_values_iff.mp hx'
      exact Or.inr ⟨l, hl, hext, List.mem_map_of_mem ((ownExports_isPrefix p _).subset hn)⟩

/-! ### Exports outside of the boundary -/

/-- A library leads nowhere into the project. -/
def Apart (p : Program) (m : SymbolId) : Prop :=
  ∀ t, p.PassesThrough m t → ∀ x, Relation.TransGen p.exportNetwork.Leads t.root x →
    ¬p.internalNetwork.Reaches m x

/-- An export of an entry comes from a module of the project, or a library that is passed through
exports it under the same name. -/
theorem WellFormed.exposed_cases (h : p.WellFormed S []) (hs : p.Stated []) (hr : p.Reserves)
    {m s : SymbolId} {k : Key} (hm : m ∈ p.symbolIds) (hfault : (p.trail m).fault = none)
    (hapart : p.Apart m) (hk : (k, s) ∈ p.exposed m) :
    (∃ x, p.internalNetwork.Reaches m x ∧ (k, s) ∈ (p.ownExports x).entries) ∨
      ∃ t, p.PassesThrough m t ∧ (k, s) ∈ p.exposed t.root := by
  by_cases hdefault : k = .text defaultName
  · subst hdefault
    exact Or.inl ⟨m, Relation.ReflTransGen.refl, mem_ownExports_of_default hk⟩
  · -- a way out of the project leads to a library, and stays out
    have hlibrary : ∀ a, p.exportNetwork.LeadsOut (p.internalNetwork.Reaches m) a →
        ∃ t, p.PassesThrough m t ∧ t.root = a := by
      rintro a ⟨hout, c, hc, n, hn, ha⟩
      obtain ⟨ds, hds, _⟩ := h.wildcards_of_mem (mem_of_internal hm hc)
      rw [edges_exportNetwork hds] at hn
      obtain ⟨t, htarget, _, ht⟩ := h.wildcardModule?_of_internal hs hr hm hfault hc hds hn
      obtain ⟨hna, _⟩ := target_eq_some_iff.mp ha
      obtain rfl : t.root = a := Option.some.inj (Except.ok.inj (htarget.symm.trans hna))
      exact ⟨t, ht.resolve_left hout, rfl⟩
    have hstays : ∀ a, p.exportNetwork.LeadsOut (p.internalNetwork.Reaches m) a →
        ∀ b, p.exportNetwork.Reaches a b → ¬p.internalNetwork.Reaches m b := by
      intro a ha b hb
      obtain ⟨t, ht, rfl⟩ := hlibrary a ha
      rcases Relation.reflTransGen_iff_eq_or_transGen.mp hb with rfl | hb
      · exact ha.1
      · exact hapart t ht b hb
    obtain ⟨x, hx, hmem⟩ := (mem_exposed_iff hdefault).mp hk
    rcases Network.find?_order_of_apart hstays Relation.ReflTransGen.refl hx with
      hx | ⟨a, ha, hx⟩
    · exact Or.inl ⟨x, hx, hmem⟩
    · obtain ⟨t, ht, rfl⟩ := hlibrary a ha
      exact Or.inr ⟨t, ht, (mem_exposed_iff hdefault).mpr ⟨x, hx, hmem⟩⟩

theorem isUnplaced_iff {positions : Table SymbolId Json} {s : SymbolId} :
    p.isUnplaced positions s = true ↔ s ∉ positions.keys ∧ (p.symbol s).declarations ≠ [] := by
  rw [isUnplaced, Bool.and_eq_true, Option.isNone_iff_eq_none, Table.get?_eq_none_iff]
  simp

/-- A warning about a missing place is about an export outside of the boundary that has
declarations and no place. -/
theorem WellFormed.unplaced_of_delivered (h : p.WellFormed S []) {f : SourceFile}
    (hf : f ∈ p.sources) (hmod : f.isModule = true) {b : Boundary}
    (hb : p.boundary f.symbol = .ok b) {exported : List SymbolId}
    (he : p.exportsOf f.symbol = .ok exported) {positions : Table SymbolId Json}
    (hp : p.positions f.symbol = .ok positions) {s : SymbolId}
    (hs : .noPosition s ∈ (p.collection f.id).delivered) :
    s ∈ exported ∧ s ∉ b.symbols ∧ p.isUnplaced positions s = true := by
  rw [h.collection_eq hf, hb, Pass.lift_ok_bind, h.discovery_of_module hf hmod,
    h.orderedExports_eq he hp] at hs
  rcases Pass.mem_delivered_bind hs with hs | ⟨l, hl, hs⟩
  · obtain ⟨x, hx, heq⟩ := List.mem_map.mp hs
    obtain rfl := Warning.noPosition.inj heq
    obtain ⟨hx, hunplaced⟩ := List.mem_filter.mp hx
    obtain ⟨hx, hnot⟩ := List.mem_filter.mp hx
    exact ⟨hx, by simpa using hnot, hunplaced⟩
  · -- what follows only warns of exports without declarations
    have hmem : ∀ x ∈ l, x ∈ p.symbolIds := by
      intro x hx
      have hx := (sortedBy_perm hl).mem_iff.mp hx
      obtain ⟨n, hn⟩ := (mem_exportsOf he).mp (List.mem_of_mem_filter hx)
      exact (h.holds_of_exposes hn).1
    obtain ⟨t, ht, _⟩ := h.exportAll_spec hmem
    rcases Pass.mem_delivered_bind hs with hs | ⟨_, _, hs⟩
    · simp [ht] at hs
    · rcases Pass.mem_delivered_bind hs with hs | ⟨_, _, hs⟩
      · cases hs
      · cases hs

/-- Every export with declarations that is not left to a library has a place, so that no warning
about a missing place is ever delivered. The boundary has to be known, the reserved name must
not be used otherwise, and no library may lead back into the project. -/
theorem exports_placed {doc : Json} (hp : Snapshot.load doc = .ok p) (hr : p.Reserves)
    {f : SourceFile} (hf : f ∈ p.sources) (hmod : f.isModule = true) {m : SymbolId}
    (he : p.symbolAt f.id = some m) {b : Boundary} (hb : p.boundary m = .ok b)
    (hapart : p.Apart m) : ∃ exported positions, p.exportsOf m = .ok exported ∧
      p.positions m = .ok positions ∧
      (∀ s ∈ exported, s ∉ b.symbols → (p.symbol s).declarations ≠ [] → s ∈ positions.keys) ∧
      ∀ s, .noPosition s ∉ (p.collection f.id).delivered := by
  have h := Snapshot.wellFormed_of_load (Snapshot.conforms_any doc) hp
  have hs := Snapshot.stated_of_load hp
  obtain rfl : f.symbol = m := Option.some.inj ((h.symbolAt_file hf).symm.trans he)
  have hm := (h.holds_fileSymbol hf).1
  obtain ⟨_, hfault⟩ := boundary_eq_ok_iff.mp hb
  obtain ⟨hsymbols, _⟩ := mem_boundary hb
  have hl := h.legible_of_internal hs hr hm hb Relation.ReflTransGen.refl
  have hexported := exportsOf_eq_ok_iff.mpr ⟨hl, rfl⟩
  obtain ⟨positions, hpos, hplaced⟩ := h.exists_positions_of_boundary hs hr hm hb
  have hall : ∀ s ∈ (p.exposed f.symbol).map Prod.snd, s ∉ b.symbols →
      (p.symbol s).declarations ≠ [] → s ∈ positions.keys := by
    intro s hs' hnot hd
    obtain ⟨⟨k, s⟩, hk, rfl⟩ := List.mem_map.mp hs'
    rcases h.exposed_cases hs hr hm hfault hapart hk with ⟨x, hx, hk⟩ | ⟨t, ht, hk⟩
    · exact hplaced x s hx (Table.mem_values_iff.mpr ⟨k, hk⟩) hd
    · refine absurd ((hsymbols s).mpr ⟨t, k, ht, ?_⟩) hnot
      exact exposes_of_mem (legible_of_passesThrough hb ht) hk
  refine ⟨_, positions, hexported, hpos, hall, fun s hdelivered => ?_⟩
  obtain ⟨hmem, hnot, hunplaced⟩ := h.unplaced_of_delivered hf hmod hb hexported hpos hdelivered
  obtain ⟨hnone, hd⟩ := isUnplaced_iff.mp hunplaced
  exact hnone (hall s hmem hnot hd)

end Program

/-! ### A library behind a module -/

namespace Snapshot

/-- A symbol that is declared by the node of its own name. -/
def declaredEntry (id : String) : Json :=
  .obj [("id", .str id), ("name", .str id), ("declarations", .arr [.str id])]

/-- The entry of a module that declares and exports some symbols and has wildcard re-exports. -/
def declaringEntry (name : String) (symbols specifiers : List String) : Json :=
  .obj [("fileName", .str name), ("exports", .obj (symbols.map fun s => (s, .str s))),
    ("statements", .arr (symbols.map (fun s =>
        .obj [("id", .str s), ("kind", .str "interface_declaration")]) ++
      specifiers.map fun s =>
        .obj [("kind", .str "export_declaration"), ("moduleSpecifier", .str s)]))]

/-- A module whose own module passes a library through, which is made of two modules. -/
def layered : Json :=
  .obj [("symbols", .arr (["M", "A", "L", "S"].map declaredEntry)),
    ("files", .arr [declaringEntry "main" ["M"] ["./a"], declaringEntry "a" ["A"] ["lib"],
      declaringEntry "lib" ["L"] ["./sub"], declaringEntry "sub" ["S"] []]),
    ("resolutions", .arr [resolutionEntry "main" "./a" "a",
      .obj [("from", .str "a"), ("module", .str "lib"), ("fileName", .str "lib"),
        ("external", .bool true)],
      resolutionEntry "lib" "./sub" "sub"])]

end Snapshot

theorem exports_placed_layered : ∃ p f m b positions, Snapshot.load Snapshot.layered = .ok p ∧
    p.Reserves ∧ f ∈ p.sources ∧ f.isModule = true ∧ p.symbolAt f.id = some m ∧
    p.boundary m = .ok b ∧ p.Apart m ∧
    b.symbols = ["L", "S"].map (fun s => Entity.listed (.text s)) ∧
    p.exportsOf m = .ok (["M", "A", "L", "S"].map fun s => .listed (.text s)) ∧
    p.positions m = .ok positions ∧ .listed (.text "A") ∈ positions.keys ∧
    ∀ s, .noPosition s ∉ (p.collection f.id).delivered := by
  have hrun : ((Snapshot.load Snapshot.layered).toOption.map fun p =>
      (decide p.Reserves, p.sources.head?.map fun f => (f.isModule, p.symbolAt f.id),
        (p.boundary (.ofFile (.node 0))).toOption.map Boundary.symbols,
        p.exportsOf (.ofFile (.node 0)),
        (p.symbol (.listed (.text "A"))).declarations)) =
      some (true, some (true, some (.ofFile (.node 0))),
        some (["L", "S"].map fun s => .listed (.text s)),
        .ok (["M", "A", "L", "S"].map fun s => .listed (.text s)), [.node 5]) := by cbv
  have hwalks : ((Snapshot.load Snapshot.layered).toOption.map fun p =>
      ((p.passedStatements (.ofFile (.node 0))).map fun d =>
        (p.resolveWildcard d).toOption.map fun t => (t.root, t.isExternal),
        p.exportNetwork.order (.ofFile (.node 8)), p.internalNetwork.order (.ofFile (.node 0)))) =
      some ([some (.ofFile (.node 4), false), some (.ofFile (.node 8), true)],
        [.ofFile (.node 8), .ofFile (.node 12)], [.ofFile (.node 0), .ofFile (.node 4)]) := by cbv
  obtain ⟨p, hload, hrun⟩ := map_toOption_eq_some_iff.mp hrun
  obtain ⟨p', hload', hwalks⟩ := map_toOption_eq_some_iff.mp hwalks
  obtain rfl : p = p' := Except.ok.inj (hload.symm.trans hload')
  simp only [Prod.mk.injEq] at hrun hwalks
  obtain ⟨hr, hfile, hb, hexports, hdeclared⟩ := hrun
  obtain ⟨hpassed, horder, hinternal⟩ := hwalks
  obtain ⟨f, hf, hfile⟩ := Option.map_eq_some_iff.mp hfile
  simp only [Prod.mk.injEq] at hfile
  obtain ⟨b, hb, hsymbols⟩ := map_toOption_eq_some_iff.mp hb
  have hr := of_decide_eq_true hr
  have hf := List.mem_of_head? hf
  have hapart : p.Apart (.ofFile (.node 0)) := by
    intro t ht x hx hm
    have hroot := exists_passesThrough_iff.mp ⟨t, ht, rfl⟩
    rw [hpassed] at hroot
    simp only [List.mem_cons, Option.some.injEq, Prod.mk.injEq, List.not_mem_nil, or_false,
      Bool.true_eq_false, and_false, false_or, and_true] at hroot
    rw [hroot] at hx
    have hx := Network.mem_order.mpr hx.to_reflTransGen
    have hm := Network.mem_order.mpr hm
    rw [horder] at hx
    rw [hinternal] at hm
    have hdisjoint : ∀ y ∈ [Entity.ofFile (.node 8), .ofFile (.node 12)],
        y ∉ [Entity.ofFile (.node 0), .ofFile (.node 4)] := by decide
    exact hdisjoint x hx hm
  obtain ⟨exported, positions, he, hp, hplaced, hsilent⟩ :=
    exports_placed hload hr hf hfile.1 hfile.2 hb hapart
  obtain rfl := Except.ok.inj (hexports.symm.trans he)
  refine ⟨p, f, _, b, positions, hload, hr, hf, hfile.1, hfile.2, hb, hapart, hsymbols, hexports,
    hp, ?_, hsilent⟩
  apply hplaced
  · simp
  · simp [hsymbols]
  · simp [hdeclared]

end ApiSurface
