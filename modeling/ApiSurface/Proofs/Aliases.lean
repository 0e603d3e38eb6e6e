import ApiSurface.Proofs.Accounting
import ApiSurface.Proofs.Placement

/-! Chains of aliases. A symbol can be marked as an alias and have a target, or only one of the
two, so the chain of a symbol may end at a symbol that is no alias, break off at an alias without a
target, or run into a circle, which need not contain the symbol itself. Only a chain that ends leads
to something that can be exported. -/

namespace ApiSurface

open Program

namespace Program

variable {S : Shape} {p : Program} {s t u : SymbolId}

/-- The target of a symbol, which counts only if the symbol is an alias. -/
def aliasTarget? (p : Program) (s : SymbolId) : Option SymbolId :=
  (p.aliasTargets.get? s).bind Entity.present?

/-- An alias and what it is an alias for. -/
def AliasFor (p : Program) (s t : SymbolId) : Prop :=
  p.isAlias s = true ∧ p.aliasTarget? s = some t

/-- A chain of aliases leads from a symbol to another one. -/
def Chain (p : Program) : SymbolId → SymbolId → Prop := Relation.ReflTransGen p.AliasFor

/-- The chain of a symbol ends at a symbol that is no alias. -/
def EndsAt (p : Program) (s t : SymbolId) : Prop := p.Chain s t ∧ p.isAlias t = false

/-- The chain of a symbol comes to an alias without a target. -/
def BreaksOff (p : Program) (s : SymbolId) : Prop :=
  ∃ t, p.Chain s t ∧ p.isAlias t = true ∧ p.aliasTarget? t = none

/-- The chain of a symbol comes to an alias from which it leads back to that alias. -/
def Circles (p : Program) (s : SymbolId) : Prop :=
  ∃ t, p.Chain s t ∧ Relation.TransGen p.AliasFor t t

theorem mem_symbolIds_of_isAlias (h : p.isAlias s = true) : s ∈ p.symbolIds := by
  by_contra hs
  rw [isAlias, symbol_of_notMem hs] at h
  cases h

/-! ### Chains -/

theorem AliasFor.unique (h : p.AliasFor s t) (h' : p.AliasFor s u) : t = u :=
  Option.some.inj (h.2.symm.trans h'.2)

/-- No chain goes on from a symbol. -/
def Stops (p : Program) (s : SymbolId) : Prop := ∀ t, ¬p.AliasFor s t

theorem stops_of_not_isAlias (h : p.isAlias s = false) : p.Stops s := by
  rintro t ⟨ha, _⟩
  rw [h] at ha
  cases ha

theorem stops_of_no_target (h : p.aliasTarget? s = none) : p.Stops s := by
  rintro t ⟨_, ht⟩
  rw [h] at ht
  cases ht

theorem Stops.eq_of_chain (hs : p.Stops s) (h : p.Chain s t) : s = t := by
  rcases Relation.ReflTransGen.cases_head h with rfl | ⟨u, hu, _⟩
  · rfl
  · exact absurd hu (hs u)

/-- All that a chain passes leads to where it stops. -/
theorem Stops.chain_of_chain (ht : p.Stops t) (h : p.Chain s t) (hu : p.Chain s u) :
    p.Chain u t := by
  have hunique : Relator.RightUnique p.AliasFor := fun _ _ _ => AliasFor.unique
  rcases Relation.ReflTransGen.total_of_right_unique hunique h hu with htu | hut
  · exact ht.eq_of_chain htu ▸ Relation.ReflTransGen.refl
  · exact hut

theorem Stops.not_transGen (ht : p.Stops t) (h : p.Chain s t) :
    ¬Relation.TransGen p.AliasFor s s := by
  -- along the chain from its end: a circle through an alias is also one through its target
  induction h using Relation.ReflTransGen.head_induction_on with
  | refl =>
    intro hcircle
    obtain ⟨u, hu, _⟩ := Relation.TransGen.head'_iff.mp hcircle
    exact ht u hu
  | head hstep _ ih =>
    intro hcircle
    obtain ⟨u, hu, hback⟩ := Relation.TransGen.head'_iff.mp hcircle
    obtain rfl := hstep.unique hu
    exact ih (Relation.TransGen.tail' hback hstep)

theorem EndsAt.unique (h : p.EndsAt s t) (h' : p.EndsAt s u) : t = u := by
  have ht := stops_of_not_isAlias h.2
  have hu := stops_of_not_isAlias h'.2
  exact (hu.eq_of_chain (ht.chain_of_chain h.1 h'.1)).symm

theorem EndsAt.not_breaksOff (h : p.EndsAt s t) : ¬p.BreaksOff s := by
  rintro ⟨u, hu, halias, hnone⟩
  have hchain := (stops_of_not_isAlias h.2).chain_of_chain h.1 hu
  obtain rfl := (stops_of_no_target hnone).eq_of_chain hchain
  rw [h.2] at halias
  cases halias

theorem EndsAt.not_circles (h : p.EndsAt s t) : ¬p.Circles s := by
  rintro ⟨u, hu, hcircle⟩
  have hstops := stops_of_not_isAlias h.2
  exact hstops.not_transGen (hstops.chain_of_chain h.1 hu) hcircle

/-! ### Following a chain -/

/-- A chain is followed to its end, or to the unknown symbol if it has none. What has been seen are
the aliases on the way to the symbol. -/
theorem followAlias_cases (seen : List SymbolId) (s : SymbolId)
    (hseen : ∀ x ∈ seen, Relation.TransGen p.AliasFor x s) :
    p.EndsAt s (p.followAlias seen s) ∨
      p.followAlias seen s = .unknown ∧ (p.BreaksOff s ∨ p.Circles s) := by
  fun_induction followAlias p seen s with
  | case1 seen s ha hn target ht ih =>
    have hstep : p.AliasFor s target := ⟨ha, ht⟩
    have hseen : ∀ x ∈ s :: seen, Relation.TransGen p.AliasFor x target :=
      List.forall_mem_cons.mpr ⟨.single hstep, fun x hx => (hseen x hx).tail hstep⟩
    rcases ih hseen with ⟨hchain, hend⟩ | ⟨hunknown, ⟨u, hu, hbroken⟩ | ⟨u, hu, hcircle⟩⟩
    · exact Or.inl ⟨hchain.head hstep, hend⟩
    · exact Or.inr ⟨hunknown, Or.inl ⟨u, hu.head hstep, hbroken⟩⟩
    · exact Or.inr ⟨hunknown, Or.inr ⟨u, hu.head hstep, hcircle⟩⟩
  | case2 seen s ha hn ht => exact Or.inr ⟨rfl, Or.inl ⟨s, .refl, ha, ht⟩⟩
  | case3 seen s ha hn =>
    have hs : s ∈ seen := by
      by_contra hs
      exact hn ⟨mem_symbolIds_of_isAlias ha, hs⟩
    exact Or.inr ⟨rfl, Or.inr ⟨s, .refl, hseen s hs⟩⟩
  | case4 seen s ha => exact Or.inl ⟨.refl, by simpa using ha⟩

theorem terminal_cases (p : Program) (s : SymbolId) : p.EndsAt s (p.terminal s) ∨
    p.terminal s = .unknown ∧ (p.BreaksOff s ∨ p.Circles s) :=
  p.followAlias_cases [] s (by simp)

theorem terminal_of_endsAt (h : p.EndsAt s t) : p.terminal s = t := by
  rcases p.terminal_cases s with hend | ⟨_, hbroken | hcircle⟩
  · exact hend.unique h
  · exact absurd hbroken h.not_breaksOff
  · exact absurd hcircle h.not_circles

theorem terminal_of_endless (h : p.BreaksOff s ∨ p.Circles s) : p.terminal s = .unknown := by
  rcases p.terminal_cases s with hend | ⟨hunknown, _⟩
  · exact h.elim (fun h => absurd h hend.not_breaksOff) fun h => absurd h hend.not_circles
  · exact hunknown

theorem exists_endsAt_iff : (∃ t, p.EndsAt s t) ↔ ¬(p.BreaksOff s ∨ p.Circles s) := by
  constructor
  · rintro ⟨t, ht⟩ (hbroken | hcircle)
    · exact ht.not_breaksOff hbroken
    · exact ht.not_circles hcircle
  · intro h
    rcases p.terminal_cases s with hend | ⟨_, hendless⟩
    · exact ⟨_, hend⟩
    · exact absurd hendless h

/-! ### Exports -/

theorem WellFormed.isDeclared_of_mem_exports (h : p.WellFormed S []) {f : SourceFile}
    (hf : f ∈ p.sources) {surface : Surface} (hs : p.surface f.id = .ok surface)
    (hx : s ∈ surface.exports.keys) : p.isDeclared s = true := by
  obtain ⟨s', hs', rfl⟩ := surface_eq_ok_iff.mp hs
  obtain ⟨b, l, _, _, hexports, _⟩ := h.collection_eq_ok hf hs'
  obtain ⟨e, he⟩ := Table.mem_keys_iff_get?.mp hx
  exact (((foldlM_exportStep_cases hexports).2 s e he).resolve_left (by simp)).1

/-- Every symbol of a loaded program is followed to the end of its chain of aliases, which is the
only one, or else, if the chain breaks off or runs into a circle, to the unknown symbol. What it
leads to is never an alias, so that following it again changes nothing. A symbol whose chain does
not end is not exported. -/
theorem terminal_eq_end {doc : Json} (hp : Snapshot.load doc = .ok p) (hs : s ∈ p.symbolIds) :
    p.terminalOf s = .ok (p.terminal s) ∧
      (∀ t, p.EndsAt s t → p.terminal s = t) ∧
      (p.BreaksOff s ∨ p.Circles s → p.terminal s = .unknown) ∧
      ((∃ t, p.EndsAt s t) ↔ ¬(p.BreaksOff s ∨ p.Circles s)) ∧
      p.isAlias (p.terminal s) = false ∧ p.terminal (p.terminal s) = p.terminal s ∧
      ∀ f ∈ p.sources, ∀ surface, p.surface f.id = .ok surface → s ∈ surface.exports.keys →
        ∃ t, p.EndsAt s t := by
  have h := Snapshot.wellFormed_of_load (Snapshot.conforms_any doc) hp
  have halias := h.isAlias_terminal hs
  refine ⟨h.terminalOf_of_mem hs, fun t => terminal_of_endsAt, terminal_of_endless,
    exists_endsAt_iff, halias, terminal_of_not_isAlias halias, ?_⟩
  intro f hf surface hsurface hkey
  have hdeclared := h.isDeclared_of_mem_exports hf hsurface hkey
  rw [exists_endsAt_iff]
  intro hendless
  -- the unknown symbol has no declarations
  rw [isDeclared, terminal_of_endless hendless, symbol_of_get? h.unknown] at hdeclared
  cases hdeclared

end Program

/-! ### A circle behind an alias -/

namespace Snapshot

def aliasEntry (id target : String) : Json :=
  .obj [("id", .str id), ("name", .str id), ("aliasOf", .str target)]

/-- A module that exports an alias of an alias, an alias that leads into a circle without being part
of it, and an alias without a target. -/
def chains : Json :=
  .obj [("symbols", .arr [aliasEntry "A" "B", aliasEntry "B" "C", declaredEntry "C",
      aliasEntry "D" "E", aliasEntry "E" "F", aliasEntry "F" "E",
      .obj [("id", .str "G"), ("name", .str "G"), ("flags", .arr [.str "alias"])]]),
    ("files", .arr [.obj [("fileName", .str "main"), ("statements", .arr [interfaceEntry "C" []]),
      ("exports", .obj [("A", .str "A"), ("D", .str "D"), ("G", .str "G")])]])]

end Snapshot

/-- Only the first one leads to a symbol that is declared, and is exported. -/
theorem terminal_chains : ∃ p f surface, Snapshot.load Snapshot.chains = .ok p ∧ f ∈ p.sources ∧
    p.surface f.id = .ok surface ∧ surface.exports.keys = [.listed (.text "A")] ∧
    p.EndsAt (.listed (.text "A")) (.listed (.text "C")) ∧
    p.terminal (.listed (.text "A")) = .listed (.text "C") ∧
    p.Circles (.listed (.text "D")) ∧ p.terminal (.listed (.text "D")) = .unknown ∧
    p.BreaksOff (.listed (.text "G")) ∧ p.terminal (.listed (.text "G")) = .unknown := by
  have hrun : ((Snapshot.load Snapshot.chains).toOption.map fun p =>
      (p.sources.head?.map fun f => (p.surface f.id).toOption.map fun s => s.exports.keys,
        ["A", "B", "C", "D", "E", "F", "G"].map fun s => (p.isAlias (.listed (.text s)),
          p.aliasTarget? (.listed (.text s))))) =
      some (some (some [.listed (.text "A")]),
        [(true, some (.listed (.text "B"))), (true, some (.listed (.text "C"))), (false, none),
          (true, some (.listed (.text "E"))), (true, some (.listed (.text "F"))),
          (true, some (.listed (.text "E"))), (true, none)]) := by cbv
  obtain ⟨p, hload, hrun⟩ := map_toOption_eq_some_iff.mp hrun
  obtain ⟨hfile, hsymbols⟩ := Prod.mk.inj hrun
  obtain ⟨f, hf, hsurface⟩ := Option.map_eq_some_iff.mp hfile
  obtain ⟨surface, hsurface, hkeys⟩ := map_toOption_eq_some_iff.mp hsurface
  simp only [List.map_cons, List.map_nil, List.cons.injEq, Prod.mk.injEq, and_true] at hsymbols
  obtain ⟨ha, hb, hc, hd, he, hf', hg⟩ := hsymbols
  have hends : p.EndsAt (.listed (.text "A")) (.listed (.text "C")) :=
    ⟨.head ha (.head hb .refl), hc.1⟩
  have hcircles : p.Circles (.listed (.text "D")) :=
    ⟨.listed (.text "E"), .head hd .refl, .head he (.single hf')⟩
  have hbreaks : p.BreaksOff (.listed (.text "G")) := ⟨_, .refl, hg⟩
  refine ⟨p, f, surface, hload, List.mem_of_head? hf, hsurface, hkeys, hends, ?_, hcircles, ?_,
    hbreaks, ?_⟩
  · exact (terminal_eq_end hload (mem_symbolIds_of_isAlias ha.1)).2.1 _ hends
  · exact (terminal_eq_end hload (mem_symbolIds_of_isAlias hd.1)).2.2.1 (Or.inr hcircles)
  · exact (terminal_eq_end hload (mem_symbolIds_of_isAlias hg.1)).2.2.1 (Or.inl hbreaks)

end ApiSurface
