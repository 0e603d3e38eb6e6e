import ApiSurface.Proofs.Indexes

/-! Reference trees below more or fewer symbols. The more symbols are being expanded, the earlier a
tree ends, and nothing else changes. So what is listed below a mention of an export, anywhere in the
trees of another one, is what its own trees hold, cut at some references. -/

namespace ApiSurface

namespace Reference

/-- A tree is another one, except that nothing may be left below some of the references. -/
inductive Prunes : Reference → Reference → Prop
  | cut {m : Mention} {below : List Reference} : Prunes (.mk m []) (.mk m below)
  | keep {m : Mention} {below full : List Reference} : List.Forall₂ Prunes below full →
      Prunes (.mk m below) (.mk m full)

end Reference

namespace Program

open Reference (Prunes)

variable {S : Shape} {p : Program}

/-! ### More symbols on the path -/

theorem LeadsOn.mono {path more : List SymbolId} (hsub : path ⊆ more) {m : Mention} {v : SymbolId}
    (h : p.LeadsOn more m v) : p.LeadsOn path m v :=
  ⟨h.1, h.2.1, fun hmem => h.2.2 (hsub hmem)⟩

/-- A longer path prunes what is below a mention, if it does so for every symbol outside of it. -/
theorem WellFormed.prunes_referenceUnder (h : p.WellFormed S []) {path more : List SymbolId}
    (hsub : path ⊆ more)
    (below : ∀ t, t ∉ more → ∃ cut full, p.referencesUnder more t = .ok cut ∧
      p.referencesUnder path t = .ok full ∧ List.Forall₂ Prunes cut full) (m : Mention) :
    ∃ cut full, p.referenceUnder more (.ok m) = .ok cut ∧
      p.referenceUnder path (.ok m) = .ok full ∧ Prunes cut full := by
  by_cases hm : ∃ v, p.LeadsOn more m v
  · obtain ⟨v, hm⟩ := hm
    rw [h.referenceUnder_of_leadsOn hm, h.referenceUnder_of_leadsOn (hm.mono hsub)]
    by_cases ht : p.terminal v ∈ more
    · obtain ⟨full, hfull, _⟩ := h.referencesUnder_spec path (p.terminal v)
      rw [h.referencesUnder_of_not fun hs => hs.1 ht, hfull]
      exact ⟨_, _, rfl, rfl, .cut⟩
    · obtain ⟨cut, full, hcut, hfull, hprunes⟩ := below _ ht
      rw [hcut, hfull]
      exact ⟨_, _, rfl, rfl, .keep hprunes⟩
  · obtain ⟨full, hfull, _⟩ := h.referenceUnder_spec (h.referencesUnder_spec path) m
    exact ⟨_, _, referenceUnder_of_not_leadsOn (not_exists.mp hm), hfull, .cut⟩

/-- A longer path prunes the trees of every symbol outside of it. -/
theorem WellFormed.prunes_referencesUnder (h : p.WellFormed S []) {path more : List SymbolId}
    (hsub : path ⊆ more) {s : SymbolId} (hs : s ∉ more) :
    ∃ cut full, p.referencesUnder more s = .ok cut ∧ p.referencesUnder path s = .ok full ∧
      List.Forall₂ Prunes cut full := by
  -- both paths grow by the same symbol, so that the shorter one stays part of the longer one
  induction hk : unseen p.symbolIds more using Nat.strongRecOn generalizing path more s with
  | ind k ih =>
  by_cases he : p.Expandable s
  · rw [referencesUnder_of_expandable hs he,
      referencesUnder_of_expandable (fun hmem => hs (hsub hmem)) he]
    refine exists_mapM₂ fun x hx => ?_
    obtain ⟨m, rfl, _⟩ := h.mentions_ok hx
    refine h.prunes_referenceUnder (List.cons_subset_cons s hsub) (fun t ht => ?_) m
    exact ih _ (hk ▸ unseen_cons_lt he.mem hs) (List.cons_subset_cons s hsub) ht rfl
  · exact ⟨[], [], h.referencesUnder_of_not fun hn => he hn.2,
      h.referencesUnder_of_not fun hn => he hn.2, .nil⟩

/-! ### Mentions inside of a tree -/

theorem WellFormed.referenceUnder_cases (h : p.WellFormed S []) {path : List SymbolId}
    {m : Mention} {r : Reference} (hr : p.referenceUnder path (.ok m) = .ok r) :
    r = .mk m [] ∨ ∃ v below, p.LeadsOn path m v ∧
      p.referencesUnder path (p.terminal v) = .ok below ∧ r = .mk m below := by
  by_cases hm : ∃ v, p.LeadsOn path m v
  · obtain ⟨v, hm⟩ := hm
    rw [h.referenceUnder_of_leadsOn hm] at hr
    obtain ⟨below, hbelow, rfl⟩ := map_eq_ok_iff.mp hr
    exact Or.inr ⟨v, below, hm, hbelow, rfl⟩
  · rw [referenceUnder_of_not_leadsOn (not_exists.mp hm)] at hr
    exact Or.inl (Except.ok.inj hr).symm

/-- Every reference in a tree is that of its mention below some path. -/
theorem WellFormed.exists_path_of_mem (h : p.WellFormed S []) {path : List SymbolId} {s : SymbolId}
    {forest : List Reference} (hforest : p.referencesUnder path s = .ok forest) {r : Reference}
    (hr : r ∈ Reference.preorderAll forest) :
    ∃ above, p.referenceUnder above (.ok r.mention) = .ok r := by
  induction hk : unseen p.symbolIds path using Nat.strongRecOn generalizing path s forest with
  | ind k ih =>
  by_cases hs : s ∉ path ∧ p.Expandable s
  · rw [referencesUnder_of_expandable hs.1 hs.2] at hforest
    obtain ⟨x, hx, hr⟩ := Reference.mem_preorderAll.mp hr
    obtain ⟨e, he, hxe⟩ := (mem_of_mapM hforest).mp hx
    obtain ⟨m, rfl, _⟩ := h.mentions_ok he
    rcases h.referenceUnder_cases hxe with rfl | ⟨v, below, _, hbelow, rfl⟩
    · rcases hr with rfl | hr
      · exact ⟨_, hxe⟩
      · cases hr
    · rcases hr with rfl | hr
      · exact ⟨_, hxe⟩
      · exact ih _ (hk ▸ unseen_cons_lt hs.2.mem hs.1) hbelow hr rfl
  · rw [h.referencesUnder_of_not hs] at hforest
    obtain rfl := Except.ok.inj hforest
    cases hr

/-- What is below a mention in any tree prunes the trees of the symbol that it stands for. -/
theorem WellFormed.prunes_of_mem (h : p.WellFormed S []) {s v : SymbolId}
    {forest own : List Reference} (hforest : p.references s = .ok forest) {r : Reference}
    (hr : r ∈ Reference.preorderAll forest) (hv : p.symbolAt r.mention.node.id = some v)
    (hown : p.references (p.terminal v) = .ok own) : Prunes r (.mk r.mention own) := by
  obtain ⟨_, _, hforest⟩ := bind_eq_ok_iff.mp hforest
  obtain ⟨_, _, hown⟩ := bind_eq_ok_iff.mp hown
  obtain ⟨above, habove⟩ := h.exists_path_of_mem hforest hr
  rcases h.referenceUnder_cases habove with hleaf | ⟨u, below, hu, hbelow, hnode⟩
  · rw [hleaf]
    exact .cut
  · obtain rfl : u = v := Option.some.inj (hu.2.1.symm.trans hv)
    rw [hnode]
    by_cases ht : p.terminal u ∈ above
    · rw [h.referencesUnder_of_not fun hs => hs.1 ht] at hbelow
      obtain rfl := Except.ok.inj hbelow
      exact .cut
    · obtain ⟨cut, full, hcut, hfull, hprunes⟩ := h.prunes_referencesUnder (List.nil_subset _) ht
      obtain rfl := Except.ok.inj (hcut.symm.trans hbelow)
      obtain rfl := Except.ok.inj (hfull.symm.trans hown)
      exact .keep hprunes

/-- An export of a surface holds the references of what it stands for. -/
theorem references_of_surface {file : NodeId} {surface : Surface}
    (hs : p.surface file = .ok surface) {x : SymbolId} {e : Export}
    (he : surface.exports.get? x = some e) : p.references (p.terminal x) = .ok e.references := by
  obtain ⟨_, _, _, _, _, _, _, hexports⟩ := surface_parts hs
  have hexport := ((foldlM_exportStep_eq_ok hexports).2 x e he).resolve_left nofun
  exact ((export?_eq_ok hexport).2 e rfl).2

/-- In a loaded program the trees of a symbol below some symbols are those below fewer of them, with
nothing left below some of the references. What a surface lists below a mention of an export is
therefore a pruning of the trees of that export. -/
theorem referencesUnder_prunes {doc : Json} (hp : Snapshot.load doc = .ok p) :
    (∀ path more s, path ⊆ more → s ∉ more → ∃ cut full, p.referencesUnder more s = .ok cut ∧
      p.referencesUnder path s = .ok full ∧ List.Forall₂ Prunes cut full) ∧
    ∀ file surface x e y own, p.surface file = .ok surface →
      surface.exports.get? x = some e → surface.exports.get? y = some own →
      ∀ r ∈ Reference.preorderAll e.references, ∀ v, p.symbolAt r.mention.node.id = some v →
        p.terminal v = p.terminal y → Prunes r (.mk r.mention own.references) := by
  have h := Snapshot.wellFormed_of_load (Snapshot.conforms_any doc) hp
  refine ⟨fun path more s hsub hs => h.prunes_referencesUnder hsub hs, ?_⟩
  intro file surface x e y own hs hx hy r hr v hv ht
  refine h.prunes_of_mem (references_of_surface hs hx) hr hv ?_
  rw [ht]
  exact references_of_surface hs hy

end Program

/-! ### Two exports that mention each other -/

namespace Snapshot

/-- Two exports, each of which mentions the other one. One of them also mentions itself. -/
def reciprocal : Json :=
  .obj [("symbols", .arr [
      .obj [("id", .str "A"), ("name", .str "A"), ("declarations", .arr [.str "a"])],
      .obj [("id", .str "B"), ("name", .str "B"), ("declarations", .arr [.str "b"])]]),
    ("files", .arr [
      .obj [("fileName", .str "main"),
        ("exports", .obj [("A", .str "A"), ("B", .str "B")]),
        ("statements", .arr [
          interfaceEntry "a" [mentionEntry "type_reference" "B", mentionEntry "type_query" "A"],
          interfaceEntry "b" [mentionEntry "type_reference" "A"]])]])]

end Snapshot

/-- The mention of the second export lists less than the trees of that export do. -/
theorem referencesUnder_prunes_reciprocal : ∃ p surface e own r,
    Snapshot.load Snapshot.reciprocal = .ok p ∧ p.surface (.node 0) = .ok surface ∧
    surface.exports.get? (.listed (.text "A")) = some e ∧
    surface.exports.get? (.listed (.text "B")) = some own ∧
    r ∈ Reference.preorderAll e.references ∧
    (Reference.nodes r.children).map Node.id = [.node 8] ∧
    (Reference.nodes own.references).map Node.id = [.node 8, .node 3, .node 5] ∧
    Reference.Prunes r (.mk r.mention own.references) ∧
    ∃ cut full, p.referencesUnder [.listed (.text "A")] (.listed (.text "B")) = .ok cut ∧
      p.referencesUnder [] (.listed (.text "B")) = .ok full ∧
      List.Forall₂ Reference.Prunes cut full := by
  have hrun : ((Snapshot.load Snapshot.reciprocal).toOption.map fun p =>
      ((p.surface (.node 0)).toOption.map fun surface =>
        ((surface.exports.get? (.listed (.text "A"))).map fun e =>
          e.references.head?.map fun r =>
            (r.mention.node.id, (Reference.nodes r.children).map Node.id),
         (surface.exports.get? (.listed (.text "B"))).map fun own =>
          (Reference.nodes own.references).map Node.id),
       p.symbolAt (.node 3), p.terminal (.listed (.text "B")))) =
      some (some (some (some (.node 3, [.node 8])), some [.node 8, .node 3, .node 5]),
        some (.listed (.text "B")), .listed (.text "B")) := by cbv
  obtain ⟨p, hload, hrun⟩ := map_toOption_eq_some_iff.mp hrun
  simp only [Prod.mk.injEq] at hrun
  obtain ⟨hs, hv, ht⟩ := hrun
  obtain ⟨surface, hs, hparts⟩ := map_toOption_eq_some_iff.mp hs
  obtain ⟨hA, hB⟩ := Prod.mk.inj hparts
  obtain ⟨e, he, hhead⟩ := Option.map_eq_some_iff.mp hA
  obtain ⟨own, hown, hnodes⟩ := Option.map_eq_some_iff.mp hB
  obtain ⟨r, hr, hparts⟩ := Option.map_eq_some_iff.mp hhead
  obtain ⟨hid, hbelow⟩ := Prod.mk.inj hparts
  have hmem : r ∈ Reference.preorderAll e.references :=
    Reference.mem_preorderAll.mpr ⟨r, List.mem_of_head? hr, Or.inl rfl⟩
  obtain ⟨hunder, hexports⟩ := Program.referencesUnder_prunes hload
  refine ⟨p, surface, e, own, r, hload, hs, he, hown, hmem, hbelow, hnodes, ?_, ?_⟩
  · refine hexports _ _ _ _ _ _ hs he hown r hmem _ ?_ rfl
    rw [hid, hv]
  · exact hunder [] _ _ (List.nil_subset _) (by simp)

end ApiSurface
