import ApiSurface.Proofs.Dependencies

/-! Where references stand. A symbol is expanded if its first declaration is in the project, and
then all of its declarations are looked into. They are expected to share a file. Where they do,
no reference stands in a library, but a document may also give a symbol of the project another
declaration in a library, and what that one mentions is referred to. -/

namespace ApiSurface

open Program

namespace Program

variable {S : Shape} {p : Program}

/-- The file in which a node stands. -/
def fileAt? (p : Program) (n : NodeId) : Option SourceFile := (p.site? n).bind Site.file

/-- A node stands in a file of the project, not of a library. -/
def InProject (p : Program) (n : NodeId) : Prop :=
  ∃ f, p.fileAt? n = some f ∧ p.isLibraryFile f = false

/-- A declaration mentions something by a node. A file as a declaration mentions nothing. -/
def MentionIn (p : Program) (d : NodeId) (n : Node) : Prop :=
  ∃ site, p.site? d = some site ∧ site.node.kind ≠ .sourceFile ∧
    ∃ t ∈ site.tree.descendants, mentionNode? t = some n

theorem mentionNode_iff {s : SymbolId} {n : Node} : p.MentionNode s n ↔
    ∃ d ∈ (p.symbol s).declarations, p.MentionIn d n := by
  simp only [MentionNode, MentionIdentifier, Inside, MentionIn, mentionNode?_eq_some]
  constructor
  · rintro (⟨t, ⟨d, hd, site, hs, hk, ht⟩, hn⟩ | ⟨t, ⟨d, hd, site, hs, hk, ht⟩, hn⟩)
    · exact ⟨d, hd, site, hs, hk, t, ht, Or.inl hn⟩
    · exact ⟨d, hd, site, hs, hk, t, ht, Or.inr hn⟩
  · rintro ⟨d, hd, site, hs, hk, t, ht, hn | hn⟩
    · exact Or.inl ⟨t, ⟨d, hd, site, hs, hk, ht⟩, hn⟩
    · exact Or.inr ⟨t, ⟨d, hd, site, hs, hk, ht⟩, hn⟩

/-- The node of a mention is that of a tree, or of one below it. -/
theorem mem_of_mentionNode? {t : Tree} {n : Node} (h : mentionNode? t = some n) :
    ∃ u, (u = t ∨ u ∈ t.descendants) ∧ u.node = n := by
  rcases mentionNode?_eq_some.mp h with ⟨_, hid⟩ | ⟨_, rfl⟩
  · obtain ⟨u, hu, rfl⟩ := Option.map_eq_some_iff.mp hid
    exact ⟨u, Or.inr (List.mem_of_find?_eq_some hu), rfl⟩
  · exact ⟨t, Or.inl rfl, rfl⟩

/-- A mention stands in the file of its declaration. -/
theorem WellFormed.fileAt?_of_mentionIn (h : p.WellFormed S []) {d : NodeId} {n : Node}
    (hn : p.MentionIn d n) : p.fileAt? n.id = p.fileAt? d := by
  obtain ⟨site, hsite, _, t, ht, hn⟩ := hn
  obtain ⟨f, hf, hfile, htree, _⟩ := mem_of_site? h.loose hsite
  obtain ⟨u, hu, rfl⟩ := mem_of_mentionNode? hn
  have hbelow := Tree.preorder_subset _ _ htree
  have hmem : u ∈ Tree.preorder [f.tree] := by
    rcases hu with rfl | hu
    · exact hbelow ht
    · exact hbelow (Tree.descendants_subset _ _ ht hu)
  rw [fileAt?, fileAt?, site?_of_mem_preorder h.nodup_nodeIds hf hmem, hsite, Option.bind_some,
    Option.bind_some, hfile]

theorem Expands.expandable {s u : SymbolId} (h : p.Expands s u) : p.Expandable u := by
  cases h with
  | self hs => exact hs
  | mention _ _ _ _ ht => exact ht

/-- The references of a symbol, be it an alias or not, stand in the project exactly if every
declaration of an expanded symbol does that mentions something. The first declaration of such a
symbol always does, so it is enough that the declarations of each of them share a file. -/
theorem references_inProject_iff {doc : Json} (hp : Snapshot.load doc = .ok p) {s : SymbolId}
    (hs : s ∈ p.symbolIds) : ∃ forest, p.references s = .ok forest ∧
      ((∀ r ∈ Reference.preorderAll forest, p.InProject r.mention.node.id) ↔
        ∀ u, p.Expands s u → ∀ d ∈ (p.symbol u).declarations, (∃ n, p.MentionIn d n) →
          p.InProject d) ∧
      ((∀ u, p.Expands s u → ∀ d ∈ (p.symbol u).declarations,
          ∀ d' ∈ (p.symbol u).declarations, p.fileAt? d = p.fileAt? d') →
        ∀ r ∈ Reference.preorderAll forest, p.InProject r.mention.node.id) := by
  have h := Snapshot.wellFormed_of_load (Snapshot.conforms_any doc) hp
  obtain ⟨forest, hforest, hnodes⟩ := h.references_expands hs
  have hiff : (∀ r ∈ Reference.preorderAll forest, p.InProject r.mention.node.id) ↔
      ∀ u, p.Expands s u → ∀ d ∈ (p.symbol u).declarations, (∃ n, p.MentionIn d n) →
        p.InProject d := by
    constructor
    · rintro hall u hu d hd ⟨n, hn⟩
      obtain ⟨r, hr, rfl⟩ := List.mem_map.mp
        ((hnodes n).mpr ⟨u, hu, mentionNode_iff.mpr ⟨d, hd, hn⟩⟩)
      have hr := hall r hr
      rwa [InProject, h.fileAt?_of_mentionIn hn] at hr
    · intro hall r hr
      obtain ⟨u, hu, hn⟩ := (hnodes _).mp (List.mem_map_of_mem hr)
      obtain ⟨d, hd, hn⟩ := mentionNode_iff.mp hn
      rw [InProject, h.fileAt?_of_mentionIn hn]
      exact hall u hu d hd ⟨_, hn⟩
  refine ⟨forest, hforest, hiff, fun hshared => hiff.mpr fun u hu d hd _ => ?_⟩
  obtain ⟨d₀, rest, site, f, hd₀, hsite, hf, hlib⟩ := hu.expandable
  refine ⟨f, ?_, hlib⟩
  rw [hshared u hu d hd d₀ (hd₀ ▸ List.mem_cons_self ..), fileAt?, hsite, Option.bind_some, hf]

end Program

/-! ### A declaration in a library -/

namespace Snapshot

/-- A symbol with a declaration in the project and another one in a library, which mentions a
symbol of the library. -/
def merged : Json :=
  .obj [("symbols", .arr [
      .obj [("id", .str "A"), ("name", .str "A"), ("declarations", .arr [.str "a", .str "l"])],
      .obj [("id", .str "T"), ("name", .str "T"), ("declarations", .arr [.str "t"])]]),
    ("files", .arr [
      .obj [("fileName", .str "main"), ("statements", .arr [interfaceEntry "a" []]),
        ("exports", .obj [("A", .str "A")])],
      .obj [("fileName", .str "lib"), ("externalLibrary", .bool true), ("statements", .arr [
        interfaceEntry "l" [mentionEntry "type_reference" "T"], interfaceEntry "t" []])]])]

end Snapshot

/-- The reference to the mentioned symbol stands in the library. -/
theorem not_inProject_merged : ∃ p forest, Snapshot.load Snapshot.merged = .ok p ∧
    p.Expandable (.listed (.text "A")) ∧ p.references (.listed (.text "A")) = .ok forest ∧
    (Reference.nodes forest).map Node.id = [.node 5] ∧
    ¬∀ r ∈ Reference.preorderAll forest, p.InProject r.mention.node.id := by
  have hrun : ((Snapshot.load Snapshot.merged).toOption.map fun p =>
      ((p.symbol (.listed (.text "A"))).declarations,
        (p.site? (.node 1)).map fun d => d.file.map p.isLibraryFile,
        (p.site? (.node 3)).map fun d => (d.node.kind, d.file.map p.isLibraryFile,
          (d.tree.descendants.filterMap mentionNode?).map Node.id),
        (p.references (.listed (.text "A"))).toOption.map fun forest =>
          (Reference.nodes forest).map Node.id)) =
      some ([.node 1, .node 3], some (some false),
        some (.interfaceDeclaration, some true, [.node 5]), some [.node 5]) := by cbv
  obtain ⟨p, hload, hrun⟩ := map_toOption_eq_some_iff.mp hrun
  simp only [Prod.mk.injEq, Option.map_eq_some_iff] at hrun
  obtain ⟨hdecl, ⟨first, hfirst, f, hf, hlib⟩, ⟨second, hsecond, hkind, ⟨g, hg, hglib⟩, hids⟩,
    found, hfound, hrefs⟩ := hrun
  have hexp : p.Expandable (.listed (.text "A")) := ⟨_, _, first, f, hdecl, hfirst, hf, hlib⟩
  obtain ⟨forest, hforest, hiff, _⟩ := references_inProject_iff hload hexp.mem
  rw [hforest] at hfound
  obtain rfl : forest = found := Option.some.inj hfound
  refine ⟨p, forest, hload, hexp, hforest, hrefs, fun hall => ?_⟩
  -- the declaration in the library mentions something
  obtain ⟨n, hn⟩ : ∃ n, n ∈ second.tree.descendants.filterMap mentionNode? := by
    apply List.exists_mem_of_ne_nil
    intro hnil
    simp [hnil] at hids
  obtain ⟨t, ht, hn⟩ := List.mem_filterMap.mp hn
  have hmention : p.MentionIn (.node 3) n := ⟨second, hsecond, by simp [hkind], t, ht, hn⟩
  obtain ⟨f', hf', hlib'⟩ := hiff.mp hall _ (.self hexp) (.node 3) (by simp [hdecl]) ⟨n, hmention⟩
  rw [fileAt?, hsecond, Option.bind_some, hg] at hf'
  rw [← Option.some.inj hf', hglib] at hlib'
  cases hlib'

end ApiSurface
