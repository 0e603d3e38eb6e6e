import ApiSurface.Proofs.Collection

/-! What becomes of each export of an entry module. It is collected, or reported as not
declared, or left to a library that is passed through. The boundary is a set of symbols without
their names, so it may take an export that no library gives under the same name. -/

namespace ApiSurface

open Program

/-- A surface accounts for an export of a module, under its name. -/
inductive Surface.Keeps (s : Surface) (p : Program) (m : SymbolId) (n : Key) (x : SymbolId) : Prop
  | collected (h : x ∈ s.exports.keys)
  | reported (h : (p.symbol (p.terminal x)).declarations = []) (hw : .noDeclaration x ∈ s.warnings)
  /-- A library exports the symbol under the same name. A wildcard leaves a default export out. -/
  | passedThrough (t : WildcardTarget) (hn : n ≠ .text defaultName) (ht : p.PassesThrough m t)
      (hk : t.specifier.key ∈ s.externalModules.keys) (hx : p.Exposes t.root n x)

namespace Program

variable {S : Shape} {p : Program} {f : SourceFile} {m x : SymbolId} {n : Key} {s : Surface}

theorem surface_eq_ok_iff {file : NodeId} : p.surface file = .ok s ↔
    ∃ s', (p.collection file).result = .ok s' ∧
      s = { s' with warnings := (p.collection file).delivered } := by
  unfold surface Pass.outcome
  cases (p.collection file).result with
  | ok s' => simp [Except.map, eq_comm]
  | error e => simp [Except.map]

/-- What the surface of a module holds of its exports: those outside the boundary, collected if
they are declared and reported otherwise. -/
theorem WellFormed.mem_surface (h : p.WellFormed S []) (hf : f ∈ p.sources)
    (hm : f.isModule = true) (hs : p.surface f.id = .ok s) (hx : p.Exposes f.symbol n x) :
    (x ∈ s.exports.keys ↔
      (¬∃ t n', p.PassesThrough f.symbol t ∧ p.Exposes t.root n' x) ∧ p.isDeclared x = true) ∧
      (.noDeclaration x ∈ s.warnings ↔
        (¬∃ t n', p.PassesThrough f.symbol t ∧ p.Exposes t.root n' x) ∧
          p.isDeclared x = false) ∧
      ∀ t, p.PassesThrough f.symbol t → t.specifier.key ∈ s.externalModules.keys := by
  obtain ⟨s', hs', rfl⟩ := surface_eq_ok_iff.mp hs
  obtain ⟨b, l, hb, hl, hexports, hspecifiers, hdelivered⟩ := h.collection_eq_ok hf hs'
  obtain ⟨hsymbols, hpassed, _⟩ := mem_boundary hb
  have hdiscovered := fun y => (h.mem_discovery hf hm hl y).1
  have hmem : ∀ y ∈ l, y ∈ p.symbolIds := by
    intro y hy
    obtain ⟨⟨n', hn'⟩, _⟩ := (hdiscovered y).mp hy
    exact (h.holds_of_exposes hn').1
  obtain ⟨t, ht, hkeys⟩ := h.exportAll_spec hmem
  have hl : x ∈ l ↔ ¬∃ t n', p.PassesThrough f.symbol t ∧ p.Exposes t.root n' x := by
    rw [hdiscovered, hsymbols, and_iff_right ⟨n, hx⟩]
  refine ⟨?_, ?_, ?_⟩
  · rw [ht] at hexports
    obtain rfl := Except.ok.inj hexports
    rw [hkeys, hl]
  · have hnone := (h.mem_discovery hf hm ‹_› x).2
    rw [← hl, hdelivered, ht, List.mem_append, or_iff_right hnone]
    simp
  · intro t ht
    rw [hspecifiers]
    exact (hpassed _).mpr ⟨t, ht, rfl⟩

/-- The surface of a module accounts for an export exactly if no library that is passed through
exports its symbol, or if one of them exports it under the same name, and that name is not the
default one. Any other export whose symbol a library exports is lost. -/
theorem surface_keeps_iff {doc : Json} (hp : Snapshot.load doc = .ok p) (hf : f ∈ p.sources)
    (hm : f.isModule = true) (hs : p.surface f.id = .ok s) (he : p.symbolAt f.id = some m)
    (hx : p.Exposes m n x) : s.Keeps p m n x ↔
      ((∃ t n', p.PassesThrough m t ∧ p.Exposes t.root n' x) →
        n ≠ .text defaultName ∧ ∃ t, p.PassesThrough m t ∧ p.Exposes t.root n x) := by
  have h := Snapshot.wellFormed_of_load (Snapshot.conforms_any doc) hp
  obtain rfl : f.symbol = m := Option.some.inj ((h.symbolAt_file hf).symm.trans he)
  obtain ⟨hcollected, hreported, hpassed⟩ := h.mem_surface hf hm hs hx
  constructor
  · rintro (hk | ⟨_, hw⟩ | ⟨t, hn, ht, _, hxt⟩) hbound
    · exact absurd hbound (hcollected.mp hk).1
    · exact absurd hbound (hreported.mp hw).1
    · exact ⟨hn, t, ht, hxt⟩
  · intro hnames
    by_cases hbound : ∃ t n', p.PassesThrough f.symbol t ∧ p.Exposes t.root n' x
    · obtain ⟨hn, t, ht, hxt⟩ := hnames hbound
      exact .passedThrough t hn ht (hpassed t ht) hxt
    · cases hd : p.isDeclared x with
      | true => exact .collected (hcollected.mpr ⟨hbound, hd⟩)
      | false =>
        refine .reported ?_ (hreported.mpr ⟨hbound, hd⟩)
        simpa [isDeclared] using hd

end Program

/-! ### An export that is lost -/

namespace Snapshot

/-- A module that exports a symbol by name and re-exports all of a library, whose default export
is the same symbol. -/
def libraryDefault : Json :=
  .obj [("symbols", .arr [.obj [("id", .str "w"), ("name", .str "Widget"),
      ("flags", .arr [.str "interface"]), ("declarations", .arr [.str "n"])]]),
    ("files", .arr [
      moduleEntry "src/index.ts" [("Widget", "w")] ["lib"],
      .obj [("fileName", .str "lib.d.ts"), ("externalLibrary", .bool true),
        ("statements", .arr [.obj [("id", .str "n"), ("kind", .str "interface_declaration")]]),
        ("exports", .obj [("default", .str "w")])]]),
    ("resolutions", .arr [.obj [("from", .str "src/index.ts"), ("module", .str "lib"),
      ("fileName", .str "lib.d.ts"), ("external", .bool true)]])]

end Snapshot

/-- The export is neither collected nor reported, and the library does not give it back. -/
theorem not_keeps_libraryDefault : ∃ p f s m, Snapshot.load Snapshot.libraryDefault = .ok p ∧
    f ∈ p.sources ∧ f.isModule = true ∧ p.surface f.id = .ok s ∧ p.symbolAt f.id = some m ∧
    p.Exposes m (.text "Widget") (.listed (.text "w")) ∧ s.exports.keys = [] ∧ s.warnings = [] ∧
    ¬s.Keeps p m (.text "Widget") (.listed (.text "w")) := by
  have hrun : ((Snapshot.load Snapshot.libraryDefault).toOption.map fun p =>
      (p.sources.head?.map fun f => (f.isModule, p.symbolAt f.id,
          (p.surface f.id).toOption.map fun s => (s.exports.keys, s.warnings)),
        (p.exportTable (.ofFile (.node 0))).toOption.map Table.entries,
        (p.passedStatements (.ofFile (.node 0))).map fun d =>
          (p.resolveWildcard d).toOption.map fun t => (t.root, t.isExternal),
        (p.exportTable (.ofFile (.node 3))).toOption.map Table.entries)) =
      some (some (true, some (.ofFile (.node 0)), some ([], [])),
        some [(.text "Widget", .listed (.text "w"))], [some (.ofFile (.node 3), true)],
        some [(.text "default", .listed (.text "w"))]) := by cbv
  obtain ⟨p, hload, hrun⟩ := map_toOption_eq_some_iff.mp hrun
  simp only [Prod.mk.injEq] at hrun
  obtain ⟨hfile, hentry, hpassed, hlib⟩ := hrun
  obtain ⟨f, hf, hfile⟩ := Option.map_eq_some_iff.mp hfile
  simp only [Prod.mk.injEq] at hfile
  obtain ⟨hm, he, hs⟩ := hfile
  obtain ⟨s, hs, hempty⟩ := map_toOption_eq_some_iff.mp hs
  simp only [Prod.mk.injEq] at hempty
  have hf := List.mem_of_head? hf
  have hx := (exposes_iff_mem hentry).mpr (List.mem_singleton_self _)
  refine ⟨p, f, s, _, hload, hf, hm, hs, he, hx, hempty.1, hempty.2, fun hkeeps => ?_⟩
  have hlibrary := fun r => exists_passesThrough_iff (p := p) (m := .ofFile (.node 0)) (r := r)
  simp only [hpassed, List.mem_singleton, Option.some.injEq, Prod.mk.injEq, and_true] at hlibrary
  obtain ⟨t, ht, hroot⟩ := (hlibrary _).mpr rfl
  have hdefault : p.Exposes t.root (.text "default") (.listed (.text "w")) := by
    rw [hroot]
    exact (exposes_iff_mem hlib).mpr (List.mem_singleton_self _)
  obtain ⟨_, t', ht', hname⟩ :=
    (surface_keeps_iff hload hf hm hs he hx).mp hkeeps ⟨t, _, ht, hdefault⟩
  rw [(hlibrary t'.root).mp ⟨t', ht', rfl⟩, exposes_iff_mem hlib] at hname
  simp at hname

end ApiSurface
