import ApiSurface.Module.Exports
import ApiSurface.Proofs.Loading

/-! Lookups in a well-formed program. Whatever it holds is found: a declaration stands in a
file, the specifier of a statement is below it, and if names are texts, the statements of a
module can be read. -/

namespace ApiSurface

theorem nameOf_str (s : String) : nameOf (.str s) = .ok (.ofText s) := rfl

namespace Program

variable {S : Shape} {p : Program}

/-- A file that is found by its identity is a file of the program. -/
theorem mem_of_source? {n : NodeId} {f : SourceFile} (h : p.source? n = some f) :
    f ∈ p.sources ∧ f.id = n :=
  ⟨List.mem_of_find?_eq_some h, by simpa using List.find?_some h⟩

theorem mem_of_fileNamed? {n : Name} {f : SourceFile} (h : p.fileNamed? n = some f) :
    f ∈ p.sources := by
  obtain ⟨i, _, hi⟩ := Option.bind_eq_some_iff.mp h
  exact (mem_of_source? hi).1

/-- A place in the tree of a file. -/
def Attached (p : Program) (s : Site) : Prop :=
  ∃ f ∈ p.sources, s.file = some f ∧ s.tree ∈ Tree.preorder [f.tree]

theorem Attached.sourceFile {s : Site} (h : p.Attached s) :
    ∃ f ∈ p.sources, s.sourceFile = .ok f ∧ s.tree ∈ Tree.preorder [f.tree] := by
  obtain ⟨f, hf, hs, ht⟩ := h
  exact ⟨f, hf, by rw [Site.sourceFile, hs], ht⟩

/-- A node of a file is found, at a place in the tree of a file. -/
theorem siteOf_of_mem {n : NodeId} (hn : n ∈ p.nodeIds) :
    ∃ s, p.siteOf n = .ok s ∧ p.Attached s := by
  obtain ⟨f, hf, t, ht, _, hs⟩ := exists_site? hn
  exact ⟨⟨t, some f⟩, siteOf_eq_ok_iff.mpr hs, f, hf, rfl, ht⟩

theorem terminal_of_not_isAlias {s : SymbolId} (h : p.isAlias s = false) : p.terminal s = s := by
  rw [terminal, followAlias, h]
  rfl

theorem mem_symbolIds_of_wildcards {m : SymbolId} {ds : List NodeId}
    (h : p.wildcards m = .ok ds) : m ∈ p.symbolIds := by
  obtain ⟨x, hx, _⟩ := bind_eq_ok_iff.mp h
  exact (symbolOf_eq_ok_iff.mp hx).1

namespace WellFormed

/-! ### Symbols and files -/

theorem holds_fileSymbol (h : p.WellFormed S []) {f : SourceFile} (hf : f ∈ p.sources) :
    p.Holds f.symbol :=
  h.holds_symbolAt (h.symbolAt_file hf)

theorem nodup_nodeIds (h : p.WellFormed S []) : p.nodeIds.Nodup := by
  have := h.nodup
  rwa [List.append_nil] at this

/-- No identity occurs twice, so a file is found under its own. -/
theorem source?_of_mem (h : p.WellFormed S []) {f : SourceFile} (hf : f ∈ p.sources) :
    p.source? f.id = some f := by
  have hs : (p.source? f.id).isSome := by
    rw [source?, List.find?_isSome]
    exact ⟨f, hf, by simp⟩
  obtain ⟨g, hg⟩ := Option.isSome_iff_exists.mp hs
  obtain ⟨hm, hi⟩ := mem_of_source? hg
  -- two files of one identity stand at the same site
  have hroot : ∀ t, t ∈ Tree.preorder [t] := by simp [Tree.preorder_singleton]
  have h₁ := site?_of_mem_preorder h.nodup_nodeIds hf (hroot f.tree)
  have h₂ := site?_of_mem_preorder h.nodup_nodeIds hm (hroot g.tree)
  change g.tree.node.id = f.tree.node.id at hi
  rw [hi, h₁] at h₂
  simp only [Option.some.injEq, Site.mk.injEq] at h₂
  rw [hg, h₂.2]

/-! ### Declarations -/

theorem declarations_subset (h : p.WellFormed S []) (s : SymbolId) :
    (p.symbol s).declarations ⊆ p.nodeIds := by
  intro d hd
  have := (h.symbolOk s).declarations d hd
  rwa [List.append_nil] at this

/-- The first declaration of a symbol is found, unless the symbol has none. -/
theorem declaration?_eq (h : p.WellFormed S []) (s : SymbolId) :
    (p.symbol s).declarations = [] ∧ p.declaration? (p.symbol s) = .ok none ∨
      ∃ d, p.declaration? (p.symbol s) = .ok (some d) ∧ p.Attached d := by
  unfold declaration?
  split
  · exact Or.inl ⟨‹_›, rfl⟩
  · rename_i d rest hd
    obtain ⟨site, hs, ha⟩ := siteOf_of_mem (h.declarations_subset s (hd ▸ List.mem_cons_self ..))
    exact Or.inr ⟨site, by rw [hs]; rfl, ha⟩

/-! ### Aliases -/

theorem isAlias_unknown (h : p.WellFormed S []) : p.isAlias .unknown = false := by
  rw [isAlias, symbol_of_get? h.unknown]
  rfl

/-- A chain of aliases ends at a symbol that is no alias. -/
theorem followAlias_end (h : p.WellFormed S []) (seen : List SymbolId) {s : SymbolId}
    (hs : s ∈ p.symbolIds) : p.followAlias seen s ∈ p.symbolIds ∧
      p.isAlias (p.followAlias seen s) = false := by
  have hu : .unknown ∈ p.symbolIds := mem_symbolIds_iff.mpr ⟨_, h.unknown⟩
  fun_induction followAlias p seen s with
  | case1 seen s ha hn target ht ih =>
    obtain ⟨t, hg, hp⟩ := Option.bind_eq_some_iff.mp ht
    obtain ⟨rfl, _⟩ := Entity.present?_eq_some.mp hp
    exact ih (h.aliases s target hg).1
  | case2 => exact ⟨hu, h.isAlias_unknown⟩
  | case3 => exact ⟨hu, h.isAlias_unknown⟩
  | case4 seen s ha => exact ⟨hs, by simpa using ha⟩

theorem terminal_mem (h : p.WellFormed S []) {s : SymbolId} (hs : s ∈ p.symbolIds) :
    p.terminal s ∈ p.symbolIds :=
  (h.followAlias_end [] hs).1

theorem isAlias_terminal (h : p.WellFormed S []) {s : SymbolId} (hs : s ∈ p.symbolIds) :
    p.isAlias (p.terminal s) = false :=
  (h.followAlias_end [] hs).2

theorem terminalOf_of_mem (h : p.WellFormed S []) {s : SymbolId} (hs : s ∈ p.symbolIds) :
    p.terminalOf s = .ok (p.terminal s) := by
  rw [terminalOf, symbolOf_of_mem (h.terminal_mem hs)]
  rfl

/-! ### Wildcard re-exports -/

/-- The wildcard re-exports of a symbol can be listed, and they are nodes of files. -/
theorem wildcards_of_mem (h : p.WellFormed S []) {m : SymbolId} (hm : m ∈ p.symbolIds) :
    ∃ ds, p.wildcards m = .ok ds ∧ ds ⊆ p.nodeIds := by
  unfold wildcards
  rw [symbolOf_of_mem hm, ok_bind]
  split
  · rename_i star hs
    obtain ⟨e, he, hp⟩ := Option.bind_eq_some_iff.mp hs
    obtain ⟨rfl, _⟩ := Entity.present?_eq_some.mp hp
    rw [symbolOf_of_mem (h.holds_of_table he).1]
    exact ⟨_, rfl, h.declarations_subset _⟩
  · exact ⟨[], rfl, List.nil_subset _⟩

theorem wildcards_subset (h : p.WellFormed S []) {m : SymbolId} {ds : List NodeId}
    (hm : p.wildcards m = .ok ds) : ds ⊆ p.nodeIds := by
  obtain ⟨ds', hds', hsub⟩ := h.wildcards_of_mem (mem_symbolIds_of_wildcards hm)
  obtain rfl : ds' = ds := Except.ok.inj (hds'.symm.trans hm)
  exact hsub

/-- A string literal of a file is found, with its text if it has one. -/
theorem literal?_of_mem (h : p.WellFormed S []) {f : SourceFile} {l : Tree} (hf : f ∈ p.sources)
    (hl : l ∈ Tree.preorder [f.tree]) (hk : l.node.kind = .stringLiteral) :
    p.literal? l.node.id = .ok (l.node.text?.map (⟨l, some f⟩, ·)) := by
  have hne : l.node.id ≠ .nothing := by
    have hm := mem_nodeIds_of_mem_preorder hf hl
    obtain ⟨i, _, hi⟩ := h.fresh _ (List.mem_append_left _ hm)
    simp [hi]
  have hsite := siteOf_eq_ok_iff.mpr (site?_of_mem_preorder h.nodup_nodeIds hf hl)
  have hkind : Site.node ⟨l, some f⟩ = l.node := rfl
  rw [literal?, Entity.present?_eq_some.mpr ⟨rfl, hne⟩]
  simp only [hsite, ok_bind, hkind, hk, if_true, pure_eq_ok]

/-- The specifier of a node of a file, if it has one, is a literal in the same file. -/
theorem specifier?_of_attached (h : p.WellFormed S []) {s : Site} (hs : p.Attached s) :
    ∃ r, p.specifier? s.node = .ok r ∧ ∀ l ∈ r, p.Attached l.1 ∧ S.specifier l.2 := by
  obtain ⟨f, hf, _, ht⟩ := hs
  obtain ⟨_, hspec⟩ := h.trees f hf s.tree ht
  unfold specifier?
  rcases hspec with hnone | ⟨l, hl, hid, hkind, v, hv, hS⟩
  · exact ⟨none, by rw [show s.node.specifier = .nothing from hnone]; rfl, by simp⟩
  · have hbelow : l ∈ Tree.preorder [f.tree] := by
      refine Tree.preorder_subset _ _ ht ?_
      rw [Tree.descendants_eq]
      exact Tree.mem_preorder.mpr ⟨l, hl, Or.inl rfl⟩
    refine ⟨_, hid ▸ h.literal?_of_mem hf hbelow hkind, ?_⟩
    intro x hx
    obtain ⟨text, htext, rfl⟩ := Option.map_eq_some_iff.mp hx
    have htext := (Option.filter_eq_some_iff.mp htext).1
    obtain rfl : v = text := Option.some.inj (hv.symm.trans htext)
    exact ⟨⟨f, hf, rfl, hbelow⟩, hS⟩

/-- No symbol has a specifier, so only the node counts. -/
theorem specifierAt?_of_mem (h : p.WellFormed S []) {n : NodeId} {s : Site}
    (hs : p.siteOf n = .ok s) : p.specifierAt? n = p.specifier? s.node := by
  have hnone : (p.symbols.get? n).bind Symbol.specifier = none := by
    cases hx : p.symbols.get? n with
    | none => rfl
    | some x => exact (h.symbols n x hx).specifier
  rw [specifierAt?, hnone, hs]
  rfl

/-- If names are texts, a wildcard re-export has no fault, and what it leads to is a symbol of the
program. -/
theorem wildcardModule?_of_mem (h : p.WellFormed .plain []) {n : NodeId} (hn : n ∈ p.nodeIds) :
    ∃ r, p.wildcardModule? n = .ok r ∧ ∀ m ∈ r, p.Holds m := by
  obtain ⟨site, hs, ha⟩ := siteOf_of_mem hn
  obtain ⟨r, hr, hl⟩ := h.specifier?_of_attached ha
  obtain ⟨f, hf, hfile, _⟩ := ha.sourceFile
  unfold wildcardModule?
  rw [h.specifierAt?_of_mem hs, hr, ok_bind]
  cases r with
  | none => exact ⟨none, rfl, by simp⟩
  | some l =>
    obtain ⟨_, text, htext⟩ := hl l rfl
    simp only [hs, hfile, ok_bind, htext, nameOf_str]
    split
    · rename_i r hres
      obtain ⟨name, hname⟩ := h.resolutions _ r hres
      rw [hname, nameOf_str, ok_bind]
      refine ⟨_, rfl, ?_⟩
      intro m hm
      obtain ⟨g, _, hg⟩ := Option.bind_eq_some_iff.mp hm
      exact h.holds_symbolAt hg
    · exact ⟨_, rfl, fun m hm => h.holds_symbolAt hm⟩

end WellFormed

end Program

end ApiSurface
