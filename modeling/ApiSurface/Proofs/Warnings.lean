import ApiSurface.Proofs.Accounting
import ApiSurface.Proofs.Attachment
import ApiSurface.Proofs.Ordering
import ApiSurface.Proofs.Placement
import Mathlib.Data.Finset.Card

/-! The warnings of a surface. They are about the exports that stand for nothing declared and about
those that have no place, and about nothing else. Each of them is reported once if and only if none
of them is exported under two names, or listed twice at the top of a script. -/

namespace ApiSurface

namespace Surface

/-- The symbols that are reported as standing for nothing declared, as often as they are. -/
def undeclared (s : Surface) : List SymbolId :=
  s.warnings.filterMap fun
    | .noDeclaration x => some x
    | .noPosition _ => none

/-- The symbols that are reported as having no place, as often as they are. -/
def unplaced (s : Surface) : List SymbolId :=
  s.warnings.filterMap fun
    | .noDeclaration _ => none
    | .noPosition x => some x

theorem undeclared_eq {s : Surface} {places declarations : List SymbolId}
    (h : s.warnings = places.map .noPosition ++ declarations.map .noDeclaration) :
    s.undeclared = declarations ∧ s.unplaced = places := by
  simp [undeclared, unplaced, h, List.filterMap_append, List.filterMap_map]

end Surface

/-- Some symbols are reported, and no others. There is one report for each of them under a
condition, and otherwise there are more. -/
structure Reports (reported : List SymbolId) (dropped : Finset SymbolId) (once : Prop) : Prop where
  toFinset : reported.toFinset = dropped
  length_iff : reported.length = dropped.card ↔ once

theorem reports_of_nodup_iff {reported : List SymbolId} {dropped : Finset SymbolId} {once : Prop}
    (h : ∀ x, x ∈ reported ↔ x ∈ dropped) (ho : reported.Nodup ↔ once) :
    Reports reported dropped once := by
  have hset : reported.toFinset = dropped := by
    ext x
    rw [List.mem_toFinset, h]
  refine ⟨hset, ?_⟩
  rw [← ho, ← hset, eq_comm]
  exact Multiset.toFinset_card_eq_card_iff_nodup (m := (reported : Multiset SymbolId))

namespace Program

variable {S : Shape} {p : Program} {f : SourceFile} {s : Surface}

/-- No symbol of a kind is exported under two names. -/
def OneName (p : Program) (m : SymbolId) (P : SymbolId → Prop) : Prop :=
  ∀ n n' x, p.Exposes m n x → p.Exposes m n' x → P x → n = n'

theorem nodup_filter_exportsOf_iff {m : SymbolId} {exported : List SymbolId}
    (h : p.exportsOf m = .ok exported) {keep : SymbolId → Bool} :
    (exported.filter keep).Nodup ↔ p.OneName m fun x => keep x = true := by
  obtain ⟨t, ht, rfl⟩ := map_eq_ok_iff.mp h
  have hexposes : ∀ n x, p.Exposes m n x ↔ t.get? n = some x := by
    intro n x
    simp [Exposes, ht]
  simp only [Table.nodup_filter_values_iff, OneName, hexposes]

/-- Adding what is not there yet adds nothing twice. -/
theorem nodup_filter_foldl_addOnce_iff {l acc : List SymbolId} {keep : SymbolId → Bool} :
    ((l.foldl addOnce acc).filter keep).Nodup ↔ (acc.filter keep).Nodup := by
  induction l generalizing acc with
  | nil => rfl
  | cons a l ih =>
    rw [List.foldl_cons, ih, addOnce]
    split
    · rfl
    · rename_i ha
      have hdisjoint : List.Disjoint (acc.filter keep) ([a].filter keep) := by
        intro x hx hxa
        obtain rfl := List.mem_singleton.mp (List.mem_of_mem_filter hxa)
        exact ha (List.mem_of_mem_filter hx)
      rw [List.filter_append, List.nodup_append', and_iff_left hdisjoint]
      exact and_iff_left ((List.nodup_singleton a).filter _)

/-! ### Scripts -/

theorem WellFormed.discovery_of_script (h : p.WellFormed S []) (hf : f ∈ p.sources)
    (hm : f.isModule = false) (hg : (p.symbol .globalThis).name = .str globalName)
    (excluded : List SymbolId) : p.discovery f.id f.symbol excluded = pure (p.scope f) := by
  have hs : f.symbol = .globalThis := by rw [SourceFile.symbol, hm]; rfl
  have hscope : (p.symbol .globalThis).isGlobalScope = true := by
    rw [Symbol.isGlobalScope, hg]
    decide
  have hsource : p.sourceOf f.id = .ok f := by rw [sourceOf, h.source?_of_mem hf]
  rw [discovery, symbolOf_of_mem (h.holds_fileSymbol hf).1, Pass.lift_ok_bind, hs, hscope, hsource]
  rfl

theorem WellFormed.warnings_of_script (h : p.WellFormed S []) (hf : f ∈ p.sources)
    (hm : f.isModule = false) (hg : (p.symbol .globalThis).name = .str globalName)
    (hs : p.surface f.id = .ok s) : ∃ b, p.boundary f.symbol = .ok b ∧
      (p.discovery f.id f.symbol b.symbols).result = .ok (p.scope f) ∧
      s.warnings = ((p.scope f).filter fun x => !p.isDeclared x).map .noDeclaration := by
  obtain ⟨s', hs', rfl⟩ := surface_eq_ok_iff.mp hs
  obtain ⟨b, l, hb, hl, _, _, hdelivered⟩ := h.collection_eq_ok hf hs'
  rw [h.discovery_of_script hf hm hg] at hl hdelivered
  obtain rfl : p.scope f = l := Except.ok.inj hl
  obtain ⟨t, ht, _⟩ := h.exportAll_eq fun x hx => (h.holds_scope hx).1
  refine ⟨b, hb, by rw [h.discovery_of_script hf hm hg]; rfl, ?_⟩
  rw [hdelivered, ht]
  rfl

/-! ### Modules -/

theorem WellFormed.warnings_of_module (h : p.WellFormed S []) (hf : f ∈ p.sources)
    (hm : f.isModule = true) (hs : p.surface f.id = .ok s) : ∃ b exported positions l,
      p.boundary f.symbol = .ok b ∧ p.exportsOf f.symbol = .ok exported ∧
      p.positions f.symbol = .ok positions ∧
      (p.discovery f.id f.symbol b.symbols).result = .ok l ∧
      l.Perm (exported.filter (· ∉ b.symbols)) ∧
      s.warnings = ((exported.filter (· ∉ b.symbols)).filter (p.isUnplaced positions)).map
        .noPosition ++ (l.filter fun x => !p.isDeclared x).map .noDeclaration := by
  obtain ⟨s', hs', rfl⟩ := surface_eq_ok_iff.mp hs
  obtain ⟨b, l, hb, hl, _, _, hdelivered⟩ := h.collection_eq_ok hf hs'
  have hdiscovered := hl
  rw [h.discovery_of_module hf hm] at hl hdelivered
  obtain ⟨exported, he, hl'⟩ := Pass.result_lift_bind_eq_ok.mp hl
  obtain ⟨positions, hpos, _⟩ := Pass.result_lift_bind_eq_ok.mp hl'
  rw [h.orderedExports_eq he hpos] at hl hdelivered
  have hperm : l.Perm (exported.filter (· ∉ b.symbols)) := sortedBy_perm hl
  have hmem : ∀ x ∈ l, x ∈ p.symbolIds := by
    intro x hx
    obtain ⟨n, hn⟩ := (mem_exportsOf he).mp (List.mem_of_mem_filter (hperm.subset hx))
    exact (h.holds_of_exposes hn).1
  obtain ⟨t, ht, _⟩ := h.exportAll_eq hmem
  refine ⟨b, exported, positions, l, hb, he, hpos, hdiscovered, hperm, ?_⟩
  rw [hdelivered, ht]

/-! ### Warnings of either kind -/

/-- The warnings about exports that stand for nothing declared, and those about exports that have
declarations and no place. There is exactly one for each such symbol if and only if none of them
is exported under two names, or listed twice at the top of a script. A script has no warnings about
places, and no symbol without declarations has one. -/
theorem warnings_once_iff {doc : Json} (hp : Snapshot.load doc = .ok p) (hf : f ∈ p.sources)
    (hs : p.surface f.id = .ok s) : ∃ b l, p.boundary f.symbol = .ok b ∧
      (p.discovery f.id f.symbol b.symbols).result = .ok l ∧
      (f.isModule = true → ∃ exported positions, p.exportsOf f.symbol = .ok exported ∧
        p.positions f.symbol = .ok positions ∧
        Reports s.undeclared {x ∈ l.toFinset | p.isDeclared x = false}
          (p.OneName f.symbol fun x => x ∉ b.symbols ∧ p.isDeclared x = false) ∧
        Reports s.unplaced
          {x ∈ exported.toFinset | x ∉ b.symbols ∧ p.isUnplaced positions x = true}
          (p.OneName f.symbol fun x => x ∉ b.symbols ∧ p.isUnplaced positions x = true)) ∧
      (f.isModule = false → s.unplaced = [] ∧
        Reports s.undeclared {x ∈ l.toFinset | p.isDeclared x = false}
          (((p.locals.get? f.name.key).getD []).filter fun x => !p.isDeclared x).Nodup) ∧
      ∀ x ∈ s.unplaced, (p.symbol x).declarations ≠ [] := by
  have h := Snapshot.wellFormed_of_load (Snapshot.conforms_any doc) hp
  cases hm : f.isModule with
  | false =>
    have hg := Snapshot.name_globalThis_of_load hp
    obtain ⟨b, hb, hl, hwarnings⟩ := h.warnings_of_script hf hm hg hs
    obtain ⟨hundeclared, hunplaced⟩ := @Surface.undeclared_eq s [] _ hwarnings
    refine ⟨b, p.scope f, hb, hl, nofun, fun _ => ⟨hunplaced, ?_⟩, by simp [hunplaced]⟩
    rw [hundeclared]
    exact reports_of_nodup_iff (by simp) nodup_filter_foldl_addOnce_iff
  | true =>
    obtain ⟨b, exported, positions, l, hb, he, hpos, hl, hperm, hwarnings⟩ :=
      h.warnings_of_module hf hm hs
    obtain ⟨hundeclared, hunplaced⟩ := Surface.undeclared_eq hwarnings
    refine ⟨b, l, hb, hl, fun _ => ⟨exported, positions, he, hpos, ?_, ?_⟩, nofun, fun x hx => ?_⟩
    · rw [hundeclared]
      refine reports_of_nodup_iff (by simp) ?_
      rw [(hperm.filter _).nodup_iff, List.filter_filter, nodup_filter_exportsOf_iff he]
      simp [and_comm]
    · rw [hunplaced]
      refine reports_of_nodup_iff (by simp [and_comm]) ?_
      rw [List.filter_filter, nodup_filter_exportsOf_iff he]
      simp [and_comm]
    · rw [hunplaced] at hx
      exact (isUnplaced_iff.mp (List.of_mem_filter hx)).2

end Program

/-! ### Symbols with two names -/

namespace Snapshot

/-- Two symbols of two names each, of which only the first is declared. The module that exports them
is behind a library, and in the exports of the library a third symbol hides them. -/
def doubled : Json :=
  let names (first second : String) : Json :=
    .obj [("N", .str first), ("M", .str first), ("U", .str second), ("V", .str second)]
  .obj [("symbols", .arr [declaredEntry "s", symbolEntry "t", symbolEntry "u"]),
    ("files", .arr [moduleEntry "main" [] ["lib", "./r"], moduleEntry "lib" [] ["./main", "./q"],
      .obj [("fileName", .str "q"), ("statements", .arr [placedEntry "s" 0]),
        ("exports", names "s" "u")],
      .obj [("fileName", .str "r"), ("exports", names "t" "t")]]),
    ("resolutions", .arr [
      .obj [("from", .str "main"), ("module", .str "lib"), ("fileName", .str "lib"),
        ("external", .bool true)],
      resolutionEntry "main" "./r" "r", resolutionEntry "lib" "./main" "main",
      resolutionEntry "lib" "./q" "q"])]

end Snapshot

/-- Each of them is reported twice. -/
theorem warnings_doubled : ∃ p f s b positions, Snapshot.load Snapshot.doubled = .ok p ∧
    f ∈ p.sources ∧ p.surface f.id = .ok s ∧ f.isModule = true ∧
    s.undeclared = List.replicate 2 (.listed (.text "u")) ∧
    s.unplaced = List.replicate 2 (.listed (.text "s")) ∧
    p.boundary f.symbol = .ok b ∧ p.positions f.symbol = .ok positions ∧
    ¬p.OneName f.symbol (fun x => x ∉ b.symbols ∧ p.isDeclared x = false) ∧
    ¬p.OneName f.symbol fun x => x ∉ b.symbols ∧ p.isUnplaced positions x = true := by
  have hrun : ((Snapshot.load Snapshot.doubled).toOption.map fun p =>
      p.sources.head?.map fun f => (f.isModule,
        (p.surface f.id).toOption.map fun s => (s.undeclared, s.unplaced))) =
      some (some (true, some (List.replicate 2 (.listed (.text "u")),
        List.replicate 2 (.listed (.text "s"))))) := by cbv
  obtain ⟨p, hload, hrun⟩ := map_toOption_eq_some_iff.mp hrun
  obtain ⟨f, hf, hrun⟩ := Option.map_eq_some_iff.mp hrun
  obtain ⟨hm, hrun⟩ := Prod.mk.inj hrun
  obtain ⟨s, hs, hrun⟩ := map_toOption_eq_some_iff.mp hrun
  obtain ⟨hundeclared, hunplaced⟩ := Prod.mk.inj hrun
  have hf := List.mem_of_head? hf
  obtain ⟨b, l, hb, _, hmodule, _⟩ := Program.warnings_once_iff hload hf hs
  obtain ⟨exported, positions, _, hpos, hdeclared, hplaced⟩ := hmodule hm
  refine ⟨p, f, s, b, positions, hload, hf, hs, hm, hundeclared, hunplaced, hb, hpos,
    fun hone => ?_, fun hone => ?_⟩
  · have hlength := hdeclared.length_iff.mpr hone
    rw [← hdeclared.toFinset, hundeclared] at hlength
    exact absurd hlength (by decide)
  · have hlength := hplaced.length_iff.mpr hone
    rw [← hplaced.toFinset, hunplaced] at hlength
    exact absurd hlength (by decide)

end ApiSurface
