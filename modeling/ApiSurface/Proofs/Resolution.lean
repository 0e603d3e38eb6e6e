import ApiSurface.Proofs.Closure
import ApiSurface.Proofs.Placement

/-! The module that a wildcard re-export leads to is found in two ways. A listing of exports takes
what the program knows and passes over the rest, and a walk from an entry asks for a module and
fails without one. Both find the same module for a statement. So behind an entry whose boundary is
known they go along the same statements, and a listing goes along nothing else, unless a table has a
symbol of its own under the name reserved for wildcard re-exports. -/

namespace ApiSurface

open Program

namespace Program

variable {S : Shape} {p : Program}

/-! ### Statements that lead nowhere -/

/-- The specifier of a statement is a text, if it has one. -/
def TextSpecifier (p : Program) (d : Site) : Prop :=
  ∀ literal text, p.specifier? d.node = .ok (some (literal, text)) → ∃ s, text = .str s

theorem resolvedModule_of_none {specifier name : Name} {r : Resolution}
    (hname : nameOf r.fileName = .ok name)
    (hnone : ((p.fileNamed? name).bind fun f => p.symbolAt f.id) = none) :
    ∃ why, p.resolvedModule specifier r = .error (.wildcard why) := by
  rw [resolvedModule, hname, ok_bind]
  cases hf : p.fileNamed? name with
  | none => exact ⟨_, rfl⟩
  | some f =>
    rw [hf, Option.bind_some] at hnone
    simp only [hnone]
    exact ⟨_, rfl⟩

/-- A statement for which the program knows no module leads nowhere. -/
theorem WellFormed.resolveWildcard_of_none (h : p.WellFormed S []) {n : NodeId} {d : Site}
    (hn : p.statement? n = some d) (hnone : p.wildcardModule? n = .ok none)
    (htext : p.TextSpecifier d) : ∃ why, p.resolveWildcard d = .error (.wildcard why) := by
  have hsite := (statement?_eq_some.mp hn).1
  have ha := h.attached_of_statement? hn
  obtain ⟨f, _, hf, _⟩ := ha.sourceFile
  obtain ⟨r, hr, _⟩ := h.specifier?_of_attached ha
  unfold wildcardModule? at hnone
  rw [h.specifierAt?_of_mem hsite, hr, ok_bind] at hnone
  unfold resolveWildcard
  rw [hr, ok_bind]
  cases r with
  | none =>
    simp only [hf, ok_bind]
    exact ⟨_, rfl⟩
  | some l =>
    obtain ⟨literal, text⟩ := l
    obtain ⟨s, rfl⟩ := htext literal text hr
    simp only [hsite, hf, nameOf_str, ok_bind] at hnone ⊢
    cases hres : p.resolution? f (.ofText s) with
    | some r =>
      simp only [hres] at hnone ⊢
      obtain ⟨name, hname, hnone⟩ := bind_eq_ok_iff.mp hnone
      exact resolvedModule_of_none hname (Except.ok.inj hnone)
    | none =>
      simp only [hres] at hnone ⊢
      split
      · exact ⟨_, rfl⟩
      · rw [ambientModule, Except.ok.inj hnone]
        exact ⟨_, rfl⟩

/-! ### Edges -/

/-- The wildcard re-exports of a module that a listing of its exports follows, each with the module
to which it leads. -/
def listedEdges (p : Program) (m : SymbolId) : List (NodeId × SymbolId) :=
  ((p.wildcards m).toOption.getD []).filterMap fun n =>
    ((p.wildcardModule? n).toOption.bind id).map (n, ·)

/-- The statements of a module that a walk from an entry follows, each with the module to which it
leads. -/
def walkedEdges (p : Program) (m : SymbolId) : List (NodeId × SymbolId) :=
  (p.internalNetwork.edges m).filterMap fun d =>
    (p.resolveWildcard d).toOption.map fun t => (d.node.id, t.root)

/-- Whether an edge is a statement. -/
def isStatement (p : Program) (e : NodeId × SymbolId) : Bool := (p.statement? e.1).isSome

theorem WellFormed.id_of_statement? (h : p.WellFormed S []) {n : NodeId} {d : Site}
    (hd : p.statement? n = some d) : d.node.id = n := by
  obtain ⟨_, _, _, _, hid⟩ :=
    mem_of_site? h.loose (siteOf_eq_ok_iff.mp (statement?_eq_some.mp hd).1)
  exact hid

/-- If every statement of a module leads somewhere, a walk follows all of them, and they are the
statements that a listing follows. -/
theorem WellFormed.walkedEdges_eq (h : p.WellFormed S []) {m : SymbolId} {ds : List NodeId}
    (hds : p.wildcards m = .ok ds)
    (hlead : ∀ d ∈ p.internalNetwork.edges m, ∃ t, p.resolveWildcard d = .ok t) :
    p.walkedEdges m = (p.listedEdges m).filter p.isStatement ∧
      (p.walkedEdges m).map Prod.fst = ds.filter fun n => (p.statement? n).isSome := by
  have hedges := edges_internalNetwork hds (h.wildcards_subset hds)
  rw [hedges] at hlead
  -- what both ways say about one re-export of the module
  have hsome : ∀ n ∈ ds, ∀ d, p.statement? n = some d → ∃ t, p.resolveWildcard d = .ok t ∧
      p.wildcardModule? n = .ok (some t.root) ∧ d.node.id = n := by
    intro n hn d hd
    obtain ⟨t, ht⟩ := hlead d (List.mem_filterMap.mpr ⟨n, hn, hd⟩)
    exact ⟨t, ht, h.wildcardModule?_of_resolveWildcard hd ht, h.id_of_statement? hd⟩
  rw [walkedEdges, listedEdges, hds, hedges, List.filterMap_filterMap]
  constructor
  · change _ = (ds.filterMap _).filter _
    rw [List.filter_filterMap]
    refine List.filterMap_congr fun n hn => ?_
    cases hd : p.statement? n with
    | none =>
      rw [Option.bind_none, eq_comm, Option.filter_eq_none_iff]
      intro e he
      obtain ⟨_, _, rfl⟩ := Option.map_eq_some_iff.mp he
      simp [isStatement, hd]
    | some d =>
      obtain ⟨t, ht, hmodule, hid⟩ := hsome n hn d hd
      have hstatement : p.isStatement (n, t.root) = true := by simp [isStatement, hd]
      simp [ht, hmodule, hid, hstatement, Option.filter, Except.toOption]
  · rw [List.map_filterMap, ← List.filterMap_eq_filter]
    refine List.filterMap_congr fun n hn => ?_
    cases hd : p.statement? n with
    | none => simp [Option.guard, hd]
    | some d =>
      obtain ⟨t, ht, _, hid⟩ := hsome n hn d hd
      simp [ht, hid, Option.guard, hd, Except.toOption]

/-- Without a fault the links of a trail are the edges of the modules that it enters. -/
theorem links_perm_walkedEdges {entry : SymbolId} (h : (p.trail entry).fault = none) :
    ((p.trail entry).links.map fun l => (l.declaration.node.id, l.target.root)).Perm
      ((p.internalNetwork.order entry).flatMap p.walkedEdges) := by
  have hlinks : ((p.trail entry).links.map fun l => (l.declaration.node.id, l.target.root)) =
      (p.passedStatements entry).filterMap fun d =>
        (p.resolveWildcard d).toOption.map fun t => (d.node.id, t.root) := by
    rw [← declarations_trail h, List.filterMap_map, ← List.filterMap_eq_map]
    refine List.filterMap_congr fun l hl => ?_
    simp [(links_trail h l hl).1, Except.toOption]
  rw [hlinks]
  have hperm := (passedStatements_perm (p := p) entry).filterMap fun d =>
    (p.resolveWildcard d).toOption.map fun t => (d.node.id, t.root)
  rwa [List.filterMap_flatMap] at hperm

/-- In a loaded program both ways find the same module for a statement, and where the program knows
no module a walk ends with a fault, which says why if the specifier is a text or missing. Behind an
entry whose boundary is known, the links of the trail, along which boundary and places are found,
are the statements of the modules within the project. The modules to which they lead are those to
which a listing of exports goes on, statement by statement. If the reserved name is used for
wildcard re-exports only, a listing follows nothing else. -/
theorem resolvers_agree {doc : Json} (hp : Snapshot.load doc = .ok p) :
    (∀ n d, p.statement? n = some d →
      (∀ t, p.resolveWildcard d = .ok t → p.wildcardModule? n = .ok (some t.root)) ∧
      (p.wildcardModule? n = .ok none → (∃ e, p.resolveWildcard d = .error e) ∧
        (p.TextSpecifier d → ∃ why, p.resolveWildcard d = .error (.wildcard why)))) ∧
    ∀ entry b, p.boundary entry = .ok b →
      (∀ x, p.internalNetwork.Reaches entry x → ∃ ds, p.wildcards x = .ok ds ∧
        p.walkedEdges x = (p.listedEdges x).filter p.isStatement ∧
        (p.walkedEdges x).map Prod.fst = (ds.filter fun n => (p.statement? n).isSome) ∧
        (p.Reserves → p.listedEdges x = p.walkedEdges x)) ∧
      ((p.trail entry).links.map fun l => (l.declaration.node.id, l.target.root)).Perm
        ((p.internalNetwork.order entry).flatMap p.walkedEdges) := by
  have h := Snapshot.wellFormed_of_load (Snapshot.conforms_any doc) hp
  have hs := Snapshot.stated_of_load hp
  constructor
  · intro n d hn
    refine ⟨fun t ht => h.wildcardModule?_of_resolveWildcard hn ht, fun hnone => ⟨?_, ?_⟩⟩
    · cases hr : p.resolveWildcard d with
      | error e => exact ⟨e, rfl⟩
      | ok t => cases hnone.symm.trans (h.wildcardModule?_of_resolveWildcard hn hr)
    · exact h.resolveWildcard_of_none hn hnone
  · intro entry b hb
    have hfault := (boundary_eq_ok_iff.mp hb).2
    refine ⟨fun x hx => ?_, links_perm_walkedEdges hfault⟩
    have hmem := mem_of_internal (listed_of_trail hfault).1.1 hx
    obtain ⟨ds, hds, _⟩ := h.wildcards_of_mem hmem
    have hlead : ∀ d ∈ p.internalNetwork.edges x, ∃ t, p.resolveWildcard d = .ok t := by
      intro d hd
      obtain ⟨l, _, _, ht⟩ := exists_link_of_edge hfault hx hd
      exact ⟨_, ht⟩
    obtain ⟨hfilter, hall⟩ := h.walkedEdges_eq hds hlead
    refine ⟨ds, hds, hfilter, hall, fun hr => ?_⟩
    rw [hfilter, eq_comm, List.filter_eq_self]
    intro e he
    rw [listedEdges, hds] at he
    obtain ⟨n, hn, he⟩ := List.mem_filterMap.mp he
    obtain ⟨_, _, rfl⟩ := Option.map_eq_some_iff.mp he
    obtain ⟨d, _, hd⟩ := h.exists_statement hs hr hds hn
    simp [isStatement, hd]

end Program

/-! ### A library with a loose end, and a name that is taken -/

namespace Snapshot

/-- A module that leads to another one and to a library, which has a statement that leads
nowhere. -/
def looseEnd : Json :=
  .obj [("symbols", .arr (["M", "A", "L"].map symbolEntry)),
    ("files", .arr [
      moduleEntry "main" [("M", "M")] ["./a", "lib"],
      moduleEntry "a" [("A", "A")] [],
      moduleEntry "lib" [("L", "L")] ["./gone"]]),
    ("resolutions", .arr [resolutionEntry "main" "./a" "a", passageEntry "main" "lib" "lib"])]

/-- A module with a symbol of its own under the reserved name. It is declared by a node that is no
statement, but has a specifier. -/
def sideways : Json :=
  .obj [("symbols", .arr [
      .obj [("id", .str "star"), ("name", .str "__export"), ("declarations", .arr [.str "n"])],
      declaredEntry "B"]),
    ("files", .arr [
      .obj [("fileName", .str "main"), ("statements", .arr [
          .obj [("id", .str "n"), ("kind", .str "import_specifier"), ("start", .int 5),
            ("moduleSpecifier", .str "./b")]]),
        ("exports", .obj [("__export", .str "star")])],
      declaringEntry "b" ["B"] []]),
    ("resolutions", .arr [resolutionEntry "main" "./b" "b"])]

end Snapshot

/-- The statement of the library leads nowhere, and that does not matter to the entry. -/
theorem resolvers_agree_looseEnd : ∃ p b d, Snapshot.load Snapshot.looseEnd = .ok p ∧
    p.boundary (.ofFile (.node 0)) = .ok b ∧ p.Reserves ∧
    p.walkedEdges (.ofFile (.node 0)) =
      [(.node 1, .ofFile (.node 5)), (.node 3, .ofFile (.node 6))] ∧
    p.listedEdges (.ofFile (.node 0)) = p.walkedEdges (.ofFile (.node 0)) ∧
    p.statement? (.node 7) = some d ∧ p.wildcardModule? (.node 7) = .ok none ∧
    ∃ why, p.resolveWildcard d = .error (.wildcard why) := by
  have hrun : ((Snapshot.load Snapshot.looseEnd).toOption.map fun p =>
      ((p.boundary (.ofFile (.node 0))).toOption.isSome, decide p.Reserves,
        p.walkedEdges (.ofFile (.node 0)), p.wildcardModule? (.node 7),
        (p.statement? (.node 7)).map fun d =>
          (p.specifier? d.node).toOption.map (Option.map Prod.snd))) =
      some (true, true, [(.node 1, .ofFile (.node 5)), (.node 3, .ofFile (.node 6))], .ok none,
        some (some (some (.str "./gone")))) := by cbv
  obtain ⟨p, hload, hrun⟩ := map_toOption_eq_some_iff.mp hrun
  simp only [Prod.mk.injEq, decide_eq_true_eq] at hrun
  obtain ⟨hboundary, hreserves, hedges, hnone, hstatement⟩ := hrun
  obtain ⟨b, hb⟩ : ∃ b, p.boundary (.ofFile (.node 0)) = .ok b := by
    cases hb : p.boundary (.ofFile (.node 0)) with
    | ok b => exact ⟨b, rfl⟩
    | error e => simp [hb, Except.toOption] at hboundary
  obtain ⟨d, hd, hspecifier⟩ := Option.map_eq_some_iff.mp hstatement
  have htext : p.TextSpecifier d := by
    intro literal text hl
    rw [hl] at hspecifier
    exact ⟨"./gone", Option.some.inj (Option.some.inj hspecifier)⟩
  obtain ⟨hagree, hbehind⟩ := resolvers_agree hload
  obtain ⟨hmodules, _⟩ := hbehind _ b hb
  obtain ⟨_, _, _, _, heq⟩ := hmodules _ Relation.ReflTransGen.refl
  exact ⟨p, b, d, hload, hb, hreserves, hedges, heq hreserves, hd, hnone,
    ((hagree _ d hd).2 hnone).2 htext⟩

/-- A listing follows the node although no walk does, so that the export behind it has no place. -/
theorem not_walked_sideways : ∃ p b s, Snapshot.load Snapshot.sideways = .ok p ∧
    p.boundary (.ofFile (.node 0)) = .ok b ∧ p.surface (.node 0) = .ok s ∧
    p.listedEdges (.ofFile (.node 0)) = [(.node 1, .ofFile (.node 3))] ∧
    p.walkedEdges (.ofFile (.node 0)) = [] ∧ (p.trail (.ofFile (.node 0))).links = [] ∧
    s.warnings = [.noPosition (.listed (.text "B"))] := by
  have hrun : ((Snapshot.load Snapshot.sideways).toOption.map fun p =>
      ((p.boundary (.ofFile (.node 0))).toOption.map fun b => b.symbols,
        (p.surface (.node 0)).toOption.map fun s => s.warnings,
        p.listedEdges (.ofFile (.node 0)), p.walkedEdges (.ofFile (.node 0)),
        (p.trail (.ofFile (.node 0))).links.length)) =
      some (some [], some [.noPosition (.listed (.text "B"))],
        [(.node 1, .ofFile (.node 3))], [], 0) := by cbv
  obtain ⟨p, hload, hrun⟩ := map_toOption_eq_some_iff.mp hrun
  simp only [Prod.mk.injEq] at hrun
  obtain ⟨hboundary, hsurface, hlisted, hwalked, hlinks⟩ := hrun
  obtain ⟨b, hb, _⟩ := map_toOption_eq_some_iff.mp hboundary
  obtain ⟨s, hs, hwarnings⟩ := map_toOption_eq_some_iff.mp hsurface
  exact ⟨p, b, s, hload, hb, hs, hlisted, hwalked, List.length_eq_zero_iff.mp hlinks, hwarnings⟩

end ApiSurface
