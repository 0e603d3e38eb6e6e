import ApiSurface.Proofs.Collection

/-! The boundary of an entry module as a closure. From the entry, statements that lead to a module
of the project are followed to the end, along any number of them, and each module is walked once,
however many ways lead to it. Statements that lead to a library are gathered and not followed. -/

namespace ApiSurface

open Program

namespace Program

variable {p : Program}

/-- A walk without a fault has listed the statements of every module of the project that it has
come to, other than those seen before it. -/
theorem listed_of_follow {seen : List SymbolId} {pending : List (NodeId × Option Site)}
    (h : (p.follow seen pending).fault = none) :
    ∀ l ∈ (p.follow seen pending).links, l.target.isExternal = false → l.target.root ∈ seen ∨
      l.target.root ∈ p.symbolIds ∧ ∃ ds, p.wildcardStatements l.target.root = .ok ds := by
  fun_induction follow p seen pending with
  | case1 => simp
  | case2 => cases h
  | case3 seen n anchor rest hl ih => exact ih h
  | case4 seen n anchor rest link hl hs ih =>
    refine List.forall_mem_cons.mpr ⟨fun he => Or.inl (hs.resolve_left ?_), ih h⟩
    simp [he]
  | case5 => cases h
  | case6 seen n anchor rest link hl hs inner hw hm ih =>
    have hsites := List.forall_mem_map.mp (List.forall_mem_append.mp (sites_of_follow h)).1
    have hlisted := wildcardStatements_eq hw hsites
    refine List.forall_mem_cons.mpr ⟨fun _ => Or.inr ⟨hm, _, hlisted⟩, fun l hl he => ?_⟩
    -- for the rest of the walk the module that is entered here counts as seen
    rcases ih h l hl he with hmem | hknown
    · rcases List.mem_cons.mp hmem with hroot | hmem
      · rw [hroot]
        exact Or.inr ⟨hm, _, hlisted⟩
      · exact Or.inl hmem
    · exact Or.inr hknown
  | case7 => cases h

variable {entry : SymbolId}

theorem listed_of_trail (h : (p.trail entry).fault = none) :
    (entry ∈ p.symbolIds ∧ ∃ ds, p.wildcardStatements entry = .ok ds) ∧
      ∀ l ∈ (p.trail entry).links, l.target.isExternal = false →
        l.target.root ∈ p.symbolIds ∧ ∃ ds, p.wildcardStatements l.target.root = .ok ds := by
  obtain ⟨ds, hds, htrail, _⟩ := trail_of_no_fault h
  rw [htrail] at h ⊢
  have hsites := List.forall_mem_map.mp (sites_of_follow h)
  have hentry : entry ∈ p.symbolIds ∧ ∃ ds, p.wildcardStatements entry = .ok ds :=
    ⟨mem_symbolIds_of_wildcards hds, _, wildcardStatements_eq hds hsites⟩
  refine ⟨hentry, fun l hl he => ?_⟩
  rcases listed_of_follow h l hl he with hmem | hknown
  · rw [List.mem_singleton.mp hmem]
    exact hentry
  · exact hknown

/-- The modules of the project that a walk without a fault reaches are closed: their statements are
known, each of them leads somewhere, and within the project it leads to another such module. -/
theorem closed_of_trail (h : (p.trail entry).fault = none) {m : SymbolId}
    (hm : p.internalNetwork.Reaches entry m) : ∃ ds, p.wildcardStatements m = .ok ds ∧
      ∀ d ∈ ds, ∃ t, p.resolveWildcard d = .ok t ∧
        (t.isExternal = false → p.internalNetwork.Reaches entry t.root) := by
  obtain ⟨hentry, hlinks⟩ := listed_of_trail h
  have hlisted : ∃ ds, p.wildcardStatements m = .ok ds := by
    cases hm with
    | refl => exact hentry.2
    | tail hx hlead =>
      obtain ⟨d, hd, htarget⟩ := hlead
      obtain ⟨t, ht, he, rfl, _⟩ := internalTarget_eq_some.mp htarget
      obtain ⟨l, hl, _, hresolve⟩ := exists_link_of_edge h hx hd
      obtain rfl : l.target = t := Except.ok.inj (hresolve.symm.trans ht)
      exact (hlinks l hl he).2
  obtain ⟨ds, hds⟩ := hlisted
  have hedges : p.internalNetwork.edges m = ds := by
    change (p.wildcardStatements m).toOption.getD [] = ds
    rw [hds]
    rfl
  refine ⟨ds, hds, fun d hd => ?_⟩
  rw [← hedges] at hd
  obtain ⟨l, hl, _, ht⟩ := exists_link_of_edge h hm hd
  refine ⟨l.target, ht, fun he => hm.tail ⟨d, hd, ?_⟩⟩
  exact internalTarget_eq_some.mpr ⟨_, ht, he, rfl, (hlinks l hl he).1⟩

theorem passedStatements_perm (m : SymbolId) : (p.passedStatements m).Perm
    ((p.internalNetwork.order m).flatMap p.internalNetwork.edges) :=
  Network.passed_perm ..

/-- If the boundary of an entry is known, it is what can be reached. All statements of the modules
of the project behind the entry lead somewhere and, within the project, to such a module. The
specifiers are those of the statements that lead to a library, and the symbols are all that these
libraries export. The walk enters each of the modules once, so that it passes exactly their
statements and none of a library. -/
theorem boundary_eq_closure {b : Boundary} (hb : p.boundary entry = .ok b) :
    (∀ m, p.internalNetwork.Reaches entry m → ∃ ds, p.wildcardStatements m = .ok ds ∧
        ∀ d ∈ ds, ∃ t, p.resolveWildcard d = .ok t ∧
          (t.isExternal = false → p.internalNetwork.Reaches entry t.root)) ∧
      (∀ k, k ∈ b.specifiers.keys ↔ ∃ t, p.PassesThrough entry t ∧ t.specifier.key = k) ∧
      (∀ n ∈ b.specifiers.values, ∃ t, p.PassesThrough entry t ∧ t.specifier = n) ∧
      (∀ t, p.PassesThrough entry t → ∃ exported, p.exportsOf t.root = .ok exported) ∧
      (∀ s, s ∈ b.symbols ↔ ∃ t exported, p.PassesThrough entry t ∧
        p.exportsOf t.root = .ok exported ∧ s ∈ exported) ∧
      (p.internalNetwork.order entry).Nodup ∧
      (∀ m, m ∈ p.internalNetwork.order entry ↔ p.internalNetwork.Reaches entry m) ∧
      ((p.trail entry).links.map Link.declaration).Perm
        ((p.internalNetwork.order entry).flatMap p.internalNetwork.edges) := by
  have hfault := (boundary_eq_ok_iff.mp hb).2
  obtain ⟨hsymbols, hkeys, hnames⟩ := mem_boundary hb
  have hlisted : ∀ t, p.PassesThrough entry t → ∃ exported, p.exportsOf t.root = .ok exported :=
    fun t ht => ⟨_, exportsOf_eq_ok_iff.mpr ⟨legible_of_passesThrough hb ht, rfl⟩⟩
  refine ⟨fun m => closed_of_trail hfault, hkeys, hnames, hlisted, fun s => ?_,
    Network.nodup_order entry, fun m => Network.mem_order, ?_⟩
  · rw [hsymbols]
    constructor
    · rintro ⟨t, n, ht, hn⟩
      obtain ⟨exported, he⟩ := hlisted t ht
      exact ⟨t, exported, ht, he, (mem_exportsOf he).mpr ⟨n, hn⟩⟩
    · rintro ⟨t, exported, ht, he, hs⟩
      obtain ⟨n, hn⟩ := (mem_exportsOf he).mp hs
      exact ⟨t, n, ht, hn⟩
  · rw [declarations_trail hfault]
    exact passedStatements_perm entry

end Program

/-! ### Four modules and two ways to a library -/

namespace Snapshot

/-- The entry of a resolution that leads to a library. -/
def passageEntry (file specifier target : String) : Json :=
  .obj [("from", .str file), ("module", .str specifier), ("fileName", .str target),
    ("external", .bool true)]

/-- A module with two modules that lead to a common one, which leads back to the first. One of the
two also stands behind a specifier that passes through, and the library has a library of its own. -/
def web : Json :=
  .obj [("symbols", .arr (["M", "A", "B", "C", "L", "S"].map symbolEntry)),
    ("files", .arr [
      moduleEntry "main" [("M", "M")] ["./a", "./b", "lib"],
      moduleEntry "a" [("A", "A")] ["./c"],
      moduleEntry "b" [("B", "B")] ["./c"],
      moduleEntry "c" [("C", "C")] ["./main", "far"],
      moduleEntry "lib" [("L", "L")] ["sub"],
      moduleEntry "sub" [("S", "S")] []]),
    ("resolutions", .arr [resolutionEntry "main" "./a" "a", resolutionEntry "main" "./b" "b",
      resolutionEntry "a" "./c" "c", resolutionEntry "b" "./c" "c",
      resolutionEntry "c" "./main" "main", passageEntry "c" "far" "b",
      passageEntry "main" "lib" "lib", passageEntry "lib" "sub" "sub"])]

end Snapshot

/-- The specifier that only the library uses is not passed through, although what is behind it is
exported by the library. -/
theorem boundary_web : ∃ p b, Snapshot.load Snapshot.web = .ok p ∧
    p.boundary (.ofFile (.node 0)) = .ok b ∧
    b.symbols = ["B", "C", "M", "A", "L", "S"].map (fun s => Entity.listed (.text s)) ∧
    p.internalNetwork.order (.ofFile (.node 0)) =
      [0, 7, 13, 10].map (fun n => Entity.ofFile (.node n)) ∧
    (p.trail (.ofFile (.node 0))).links.length = 7 ∧
    (∀ k, (∃ t, p.PassesThrough (.ofFile (.node 0)) t ∧ t.specifier.key = k) ↔
      k = .text "far" ∨ k = .text "lib") ∧
    ∀ t exported, p.PassesThrough (.ofFile (.node 0)) t → p.exportsOf t.root = .ok exported →
      exported ⊆ b.symbols := by
  have hrun : ((Snapshot.load Snapshot.web).toOption.map fun p =>
      ((p.boundary (.ofFile (.node 0))).toOption.map fun b => (b.specifiers.keys, b.symbols),
        p.internalNetwork.order (.ofFile (.node 0)),
        (p.trail (.ofFile (.node 0))).links.length)) =
      some (some ([.text "far", .text "lib"],
          ["B", "C", "M", "A", "L", "S"].map fun s => .listed (.text s)),
        [0, 7, 13, 10].map fun n => .ofFile (.node n), 7) := by cbv
  obtain ⟨p, hload, hrun⟩ := map_toOption_eq_some_iff.mp hrun
  simp only [Prod.mk.injEq] at hrun
  obtain ⟨hb, horder, hlinks⟩ := hrun
  obtain ⟨b, hb, hparts⟩ := map_toOption_eq_some_iff.mp hb
  obtain ⟨hkeys, hsymbols⟩ := Prod.mk.inj hparts
  obtain ⟨_, hspecifiers, _, _, hexports, _⟩ := boundary_eq_closure hb
  refine ⟨p, b, hload, hb, hsymbols, horder, hlinks, fun k => ?_, fun t exported ht he s hs => ?_⟩
  · rw [← hspecifiers, hkeys]
    simp
  · exact (hexports s).mpr ⟨t, exported, ht, he, hs⟩

end ApiSurface
