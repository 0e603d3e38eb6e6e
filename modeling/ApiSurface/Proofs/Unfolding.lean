import ApiSurface.Proofs.Dependencies
import Mathlib.Data.Finset.Card

/-! Reference trees as unfoldings. The trees of a symbol are what its mentions unfold to, cut at
every symbol that is already unfolded above. The extraction keeps the symbols above in one set that
it changes as it goes, and it leaves that set as it found it, so that what one mention unfolds to
does not depend on the mentions before it. No symbol occurs twice on the way down a tree, which
bounds its depth. -/

namespace ApiSurface

namespace Reference

/-- A way down from the roots of a forest. -/
inductive Branch : List Reference → List Reference → Prop
  | nil {forest : List Reference} : Branch forest []
  | cons {forest way : List Reference} {r : Reference} : r ∈ forest → Branch r.children way →
      Branch forest (r :: way)

end Reference

namespace Program

variable {S : Shape} {p : Program}

/-! ### Mentions as a list -/

/-- What a tree inside of a declaration mentions. -/
def mentionBy? (t : Tree) : Option Node :=
  match t.node.kind with
  | .typeReference | .expressionWithTypeArguments | .computedPropertyName | .typeQuery =>
    (t.descendants.map Tree.node).find? fun n => n.kind = .identifier
  | .importType => some t.node
  | _ => none

/-- The mentions of a symbol: declaration by declaration, other than a file as a declaration, and
in each of them in pre-order. -/
def mentionList (p : Program) (s : SymbolId) : List Mention :=
  (p.symbol s).declarations.zipIdx.flatMap fun d =>
    (p.site? d.1).toList.flatMap fun site =>
      if site.node.kind = .sourceFile then []
      else site.file.toList.flatMap fun f =>
        site.tree.descendants.filterMap fun t => (mentionBy? t).map fun n => ⟨d.2, n, f⟩

theorem mentionNode?_eq_mentionBy? (t : Tree) : mentionNode? t = mentionBy? t := by
  have hfind : (t.firstBelow? .identifier).map Tree.node =
      (t.descendants.map Tree.node).find? fun n => n.kind = .identifier := by
    rw [Tree.firstBelow?, List.find?_map]
    rfl
  unfold mentionNode? mentionBy?
  rw [hfind]
  cases t.node.kind <;> rfl

theorem WellFormed.mentions_eq (h : p.WellFormed S []) (s : SymbolId) :
    p.mentions s = (p.mentionList s).map .ok := by
  rw [mentions, mentionList, List.map_flatMap]
  apply List.flatMap_congr
  intro d hd
  obtain ⟨_, site, f, hsite, hf⟩ := h.site?_zipIdx hd
  rw [hsite, siteOf_eq_ok_iff.mp hsite]
  simp only [Option.toList_some, List.flatMap_cons, List.flatMap_nil, List.append_nil, mentionsIn,
    hf]
  split
  · rfl
  · rw [List.map_filterMap, funext mentionNode?_eq_mentionBy?]

/-! ### Unfolding -/

theorem expandable_iff {s : SymbolId} : p.Expandable s ↔
    (((p.symbol s).declarations.head?.bind p.site?).bind Site.file).any
      (fun f => !p.isLibraryFile f) = true := by
  simp only [Expandable, Option.any_eq_true, Option.bind_eq_some_iff, List.head?_eq_some_iff,
    Bool.not_eq_true']
  constructor
  · rintro ⟨d, rest, site, f, hd, hsite, hf, hlib⟩
    exact ⟨f, ⟨site, ⟨d, ⟨rest, hd⟩, hsite⟩, hf⟩, hlib⟩
  · rintro ⟨f, ⟨site, ⟨d, ⟨rest, hd⟩, hsite⟩, hf⟩, hlib⟩
    exact ⟨d, rest, site, f, hd, hsite, hf, hlib⟩

instance (p : Program) (s : SymbolId) : Decidable (p.Expandable s) :=
  decidable_of_iff _ expandable_iff.symm

/-- The symbol that a mention unfolds to below some symbols: what the mentioned one stands for,
unless that is one of them or has no declarations. -/
def opens? (p : Program) (above : Finset SymbolId) (m : Mention) : Option SymbolId :=
  if m.node.kind = .importType then none
  else ((p.symbolAt m.node.id).map p.terminal).filter fun u =>
    u ∉ above ∧ (p.symbol u).declarations ≠ []

theorem opens?_eq_some {above : Finset SymbolId} {m : Mention} {u : SymbolId} :
    p.opens? above m = some u ↔ m.node.kind ≠ .importType ∧
      (p.symbolAt m.node.id).map p.terminal = some u ∧ u ∉ above ∧
      (p.symbol u).declarations ≠ [] := by
  unfold opens?
  split <;> simp_all

/-- The forest of a symbol below some symbols. -/
def unfolding (p : Program) (above : Finset SymbolId) (s : SymbolId) : List Reference :=
  if p.Expandable s then
    (p.mentionList s).map fun m =>
      match _h : p.opens? (insert s above) m with
      | none => .mk m []
      | some u => .mk m (p.unfolding (insert s above) u)
  else []
termination_by (p.symbolIds.toFinset \ insert s above).card
decreasing_by
  obtain ⟨_, _, hu, hd⟩ := opens?_eq_some.mp _h
  apply Finset.card_lt_card
  refine Finset.ssubset_iff_of_subset ?_ |>.mpr ⟨u, ?_, ?_⟩
  · exact Finset.sdiff_subset_sdiff (Finset.Subset.refl _) (Finset.subset_insert ..)
  · exact Finset.mem_sdiff.mpr ⟨List.mem_toFinset.mpr (mem_symbolIds_of_declarations hd), hu⟩
  · simp

/-- The tree of a mention below some symbols. -/
def unfoldMention (p : Program) (above : Finset SymbolId) (m : Mention) : Reference :=
  .mk m (((p.opens? above m).map (p.unfolding above)).getD [])

theorem unfolding_of_expandable {above : Finset SymbolId} {s : SymbolId} (h : p.Expandable s) :
    p.unfolding above s = (p.mentionList s).map (p.unfoldMention (insert s above)) := by
  rw [unfolding, if_pos h]
  apply List.map_congr_left
  intro m _
  rw [unfoldMention]
  split
  · rename_i hm
    rw [hm]
    rfl
  · rename_i u hm
    rw [hm]
    rfl

theorem unfolding_of_not {above : Finset SymbolId} {s : SymbolId} (h : ¬p.Expandable s) :
    p.unfolding above s = [] := by
  rw [unfolding, if_neg h]

/-! ### References -/

/-- What a mention unfolds to, if that is known of the symbol that it opens. -/
theorem WellFormed.referenceUnder_eq (h : p.WellFormed S []) {path : List SymbolId} {m : Mention}
    (ha : ∀ x ∈ path, p.isAlias x = false)
    (below : ∀ u, p.opens? path.toFinset m = some u →
      p.referencesUnder path u = .ok (p.unfolding path.toFinset u)) :
    p.referenceUnder path (.ok m) = .ok (p.unfoldMention path.toFinset m) := by
  unfold unfoldMention
  by_cases hm : ∃ v, p.LeadsOn path m v
  · obtain ⟨v, hm⟩ := hm
    have ⟨hk, hv, _⟩ := hm
    rw [h.referenceUnder_of_leadsOn hm]
    cases hopen : p.opens? path.toFinset m with
    | none =>
      have hcut : ¬(p.terminal v ∉ path ∧ p.Expandable (p.terminal v)) := by
        rintro ⟨hout, d, rest, _, _, hd, _⟩
        simp [opens?, hk, hv, hout, hd] at hopen
      rw [h.referencesUnder_of_not hcut]
      rfl
    | some u =>
      obtain ⟨_, hu, _⟩ := opens?_eq_some.mp hopen
      obtain rfl : p.terminal v = u := by simpa [hv] using hu
      rw [below _ hopen]
      rfl
  · rw [not_exists] at hm
    have hnone : p.opens? path.toFinset m = none := by
      refine Option.eq_none_iff_forall_ne_some.mpr fun u hu => ?_
      obtain ⟨hk, hu, hout, _⟩ := opens?_eq_some.mp hu
      obtain ⟨v, hv, rfl⟩ := Option.map_eq_some_iff.mp hu
      refine hm v ⟨hk, hv, fun hmem => hout ?_⟩
      -- a symbol above is no alias, so that it also stands for itself
      rw [terminal_of_not_isAlias (ha v hmem)]
      exact List.mem_toFinset.mpr hmem
    rw [referenceUnder_of_not_leadsOn hm, hnone]
    rfl

theorem WellFormed.isAlias_of_opens? (h : p.WellFormed S []) {above : Finset SymbolId} {m : Mention}
    {u : SymbolId} (hu : p.opens? above m = some u) : p.isAlias u = false := by
  obtain ⟨v, hv, rfl⟩ := Option.map_eq_some_iff.mp (opens?_eq_some.mp hu).2.1
  exact h.isAlias_terminal (h.holds_symbolAt hv).1

/-- The references of a symbol below a path are what it unfolds to below the symbols of the path. -/
theorem WellFormed.referencesUnder_eq (h : p.WellFormed S []) {path : List SymbolId} {s : SymbolId}
    (hp : s ∉ path) (ha : ∀ x ∈ s :: path, p.isAlias x = false) :
    p.referencesUnder path s = .ok (p.unfolding path.toFinset s) := by
  generalize habove : path.toFinset = above
  induction above, s using unfolding.induct p generalizing path with
  | case1 above s he ih =>
    subst habove
    have hmention : ∀ m ∈ p.mentionList s, p.referenceUnder (s :: path) (.ok m) =
        .ok (p.unfoldMention (insert s path.toFinset) m) := by
      intro m _
      rw [← List.toFinset_cons]
      refine h.referenceUnder_eq ha fun u hu => ?_
      rw [List.toFinset_cons] at hu ⊢
      have hout := (opens?_eq_some.mp hu).2.2.1
      refine ih m u hu ?_ ?_ List.toFinset_cons
      · simpa using hout
      · exact List.forall_mem_cons.mpr ⟨h.isAlias_of_opens? hu, ha⟩
    rw [referencesUnder_of_expandable hp he, h.mentions_eq, unfolding_of_expandable he,
      mapM_eq_ok_iff, List.forall₂_map_left_iff, List.forall₂_map_right_iff, List.forall₂_same]
    exact hmention
  | case2 above s he =>
    rw [unfolding_of_not he]
    exact h.referencesUnder_of_not fun hs => he hs.2

/-! ### The set of symbols in progress -/

/-- Nothing is listed below a mention while some symbols are in progress. -/
def Cut (p : Program) (inProgress : Finset SymbolId) (m : Mention) : Prop :=
  m.node.kind = .importType ∨ ∀ v, p.symbolAt m.node.id = some v →
    v ∈ inProgress ∨ p.terminal v ∈ inProgress ∨ (p.symbol (p.terminal v)).declarations = []

mutual

/-- A run of the extraction at a symbol: the symbols that it finds in progress, its forest, and the
symbols that it leaves in progress. The symbol is one of them while its mentions are listed. -/
inductive Expansion (p : Program) :
    Finset SymbolId → SymbolId → List Reference → Finset SymbolId → Prop
  | skip {inProgress : Finset SymbolId} {s : SymbolId} : ¬p.Expandable s →
      Expansion p inProgress s [] inProgress
  | expand {inProgress after : Finset SymbolId} {s : SymbolId} {forest : List Reference} :
      p.Expandable s → Listing p (insert s inProgress) (p.mentionList s) forest after →
      Expansion p inProgress s forest (after.erase s)

/-- A run over mentions. Each of them finds in progress what the one before it has left. -/
inductive Listing (p : Program) :
    Finset SymbolId → List Mention → List Reference → Finset SymbolId → Prop
  | nil {inProgress : Finset SymbolId} : Listing p inProgress [] [] inProgress
  | leaf {inProgress after : Finset SymbolId} {m : Mention} {ms : List Mention}
      {forest : List Reference} : p.Cut inProgress m → Listing p inProgress ms forest after →
      Listing p inProgress (m :: ms) (.mk m [] :: forest) after
  | node {inProgress between after : Finset SymbolId} {m : Mention} {v : SymbolId}
      {ms : List Mention} {below forest : List Reference} : ¬p.Cut inProgress m →
      p.symbolAt m.node.id = some v → Expansion p inProgress (p.terminal v) below between →
      Listing p between ms forest after →
      Listing p inProgress (m :: ms) (.mk m below :: forest) after

end

variable {inProgress after : Finset SymbolId}

/-- If no alias is in progress, it makes no difference that the mentioned symbol itself is also
looked for. -/
theorem cut_iff (ha : ∀ x ∈ inProgress, p.isAlias x = false) {m : Mention} :
    p.Cut inProgress m ↔ p.opens? inProgress m = none := by
  unfold Cut opens?
  by_cases himport : m.node.kind = .importType
  · simp [himport]
  cases hv : p.symbolAt m.node.id with
  | none => simp
  | some v =>
    have hself : v ∈ inProgress → p.terminal v ∈ inProgress := fun hm => by
      rwa [terminal_of_not_isAlias (ha v hm)]
    simp only [himport, false_or, if_false, Option.some.injEq, forall_eq', Option.map_some,
      Option.filter_eq_none_iff, decide_eq_true_eq, not_and, not_not]
    tauto

/-- A run over mentions lists what each of them unfolds to, and restores the set, if the runs below
them do. -/
theorem listing_iff (ha : ∀ x ∈ inProgress, p.isAlias x = false)
    (hrun : ∀ m u, p.opens? inProgress m = some u → ∀ below between,
      p.Expansion inProgress u below between ↔
        below = p.unfolding inProgress u ∧ between = inProgress)
    {ms : List Mention} {forest : List Reference} : p.Listing inProgress ms forest after ↔
      forest = ms.map (p.unfoldMention inProgress) ∧ after = inProgress := by
  induction ms generalizing forest with
  | nil =>
    constructor
    · rintro ⟨⟩
      exact ⟨rfl, rfl⟩
    · rintro ⟨rfl, rfl⟩
      exact .nil
  | cons m ms ih =>
    rw [List.map_cons, unfoldMention]
    cases hopen : p.opens? inProgress m with
    | none =>
      have hcut := (cut_iff ha).mpr hopen
      constructor
      · intro hl
        cases hl with
        | leaf _ hrest =>
          obtain ⟨rfl, rfl⟩ := ih.mp hrest
          exact ⟨rfl, rfl⟩
        | node hnot => exact absurd hcut hnot
      · rintro ⟨rfl, rfl⟩
        exact .leaf hcut (ih.mpr ⟨rfl, rfl⟩)
    | some u =>
      have hcut : ¬p.Cut inProgress m := by simp [cut_iff ha, hopen]
      obtain ⟨v, hv, rfl⟩ := Option.map_eq_some_iff.mp (opens?_eq_some.mp hopen).2.1
      constructor
      · intro hl
        cases hl with
        | leaf hc => exact absurd hc hcut
        | node _ hv' hexp hrest =>
          obtain rfl := Option.some.inj (hv.symm.trans hv')
          obtain ⟨rfl, rfl⟩ := (hrun m _ hopen _ _).mp hexp
          obtain ⟨rfl, rfl⟩ := ih.mp hrest
          exact ⟨rfl, rfl⟩
      · rintro ⟨rfl, rfl⟩
        exact .node hcut hv ((hrun m _ hopen _ _).mpr ⟨rfl, rfl⟩) (ih.mpr ⟨rfl, rfl⟩)

/-- A run at a symbol gives what the symbol unfolds to, and leaves in progress what it has found
there. -/
theorem WellFormed.expansion_iff (h : p.WellFormed S []) {s : SymbolId} (hs : s ∉ inProgress)
    (ha : ∀ x ∈ insert s inProgress, p.isAlias x = false) {forest : List Reference} :
    p.Expansion inProgress s forest after ↔
      forest = p.unfolding inProgress s ∧ after = inProgress := by
  induction inProgress, s using unfolding.induct p generalizing forest after with
  | case1 inProgress s he ih =>
    have hlisting : ∀ {forest after},
        p.Listing (insert s inProgress) (p.mentionList s) forest after ↔
        forest = (p.mentionList s).map (p.unfoldMention (insert s inProgress)) ∧
          after = insert s inProgress := by
      refine listing_iff ha fun m u hu below between => ?_
      refine ih m u hu (opens?_eq_some.mp hu).2.2.1 ?_
      exact Finset.forall_mem_insert _ _ _ |>.mpr ⟨h.isAlias_of_opens? hu, ha⟩
    rw [unfolding_of_expandable he]
    constructor
    · intro hrun
      cases hrun with
      | skip hnot => exact absurd he hnot
      | expand _ hl =>
        obtain ⟨rfl, rfl⟩ := hlisting.mp hl
        exact ⟨rfl, Finset.erase_insert hs⟩
    · rintro ⟨rfl, rfl⟩
      have hrun := Expansion.expand he (hlisting.mpr ⟨rfl, rfl⟩)
      rwa [Finset.erase_insert hs] at hrun
  | case2 inProgress s he =>
    rw [unfolding_of_not he]
    constructor
    · intro hrun
      cases hrun with
      | skip => exact ⟨rfl, rfl⟩
      | expand hs => exact absurd hs he
    · rintro ⟨rfl, rfl⟩
      exact .skip he

/-! ### Ways down -/

/-- The symbols that are unfolded on a way down the forest of a symbol. -/
def unfolded (p : Program) (s : SymbolId) (way : List Reference) : List SymbolId :=
  s :: way.filterMap fun r => (p.symbolAt r.mention.node.id).map p.terminal

theorem mem_unfolding {above : Finset SymbolId} {s : SymbolId} {r : Reference} :
    r ∈ p.unfolding above s ↔ p.Expandable s ∧
      ∃ m ∈ p.mentionList s, p.unfoldMention (insert s above) m = r := by
  by_cases he : p.Expandable s
  · simp [unfolding_of_expandable he, he]
  · simp [unfolding_of_not he, he]

/-- A way goes on below a reference in the forest of the symbol that the mention opens. -/
theorem exists_opens?_of_branch {above : Finset SymbolId} {m : Mention} {r : Reference}
    {way : List Reference}
    (h : Reference.Branch (p.unfoldMention above m).children (way ++ [r])) :
    ∃ u, p.opens? above m = some u ∧ Reference.Branch (p.unfolding above u) (way ++ [r]) := by
  cases hopen : p.opens? above m with
  | none =>
    rw [unfoldMention, hopen] at h
    -- below a mention that opens nothing there is no reference to go to
    cases way with
    | nil => cases h with | cons hr _ => cases hr
    | cons _ _ => cases h with | cons hr _ => cases hr
  | some u =>
    rw [unfoldMention, hopen] at h
    exact ⟨u, rfl, h⟩

/-- On a way down no symbol is unfolded twice, and a reference at its end is cut by exactly the
symbols of the way and those above all. -/
theorem unfolded_of_branch {above : Finset SymbolId} {s : SymbolId} {way : List Reference}
    {r : Reference} (hs : s ∉ above)
    (h : Reference.Branch (p.unfolding above s) (way ++ [r])) :
    (p.unfolded s way).length = way.length + 1 ∧ (p.unfolded s way).Nodup ∧
      (∀ u ∈ p.unfolded s way, u ∉ above ∧ p.Expandable u) ∧
      r = p.unfoldMention ((p.unfolded s way).toFinset ∪ above) r.mention := by
  induction way generalizing above s with
  | nil =>
    cases h with
    | cons hr _ =>
      obtain ⟨he, m, _, rfl⟩ := mem_unfolding.mp hr
      refine ⟨rfl, List.nodup_singleton s, by simpa [unfolded] using ⟨hs, he⟩, ?_⟩
      rfl
  | cons x way ih =>
    cases h with
    | cons hx h =>
      obtain ⟨he, m, _, rfl⟩ := mem_unfolding.mp hx
      obtain ⟨u, hu, h⟩ := exists_opens?_of_branch h
      obtain ⟨_, hm, hout, _⟩ := opens?_eq_some.mp hu
      obtain ⟨hlength, hnodup, hall, hr⟩ := ih hout h
      have hcons : p.unfolded s (p.unfoldMention (insert s above) m :: way) =
          s :: p.unfolded u way :=
        congrArg (s :: ·) (List.filterMap_cons_some hm)
      rw [hcons]
      refine ⟨by simp [hlength], List.nodup_cons.mpr ⟨fun hmem => ?_, hnodup⟩, ?_, ?_⟩
      · exact (hall s hmem).1 (Finset.mem_insert_self ..)
      · refine List.forall_mem_cons.mpr ⟨⟨hs, he⟩, fun y hy => ⟨fun ha => ?_, (hall y hy).2⟩⟩
        exact (hall y hy).1 (Finset.mem_insert_of_mem ha)
      · rwa [List.toFinset_cons, Finset.insert_union, ← Finset.union_insert]

/-- A way down is no longer than the number of symbols that can be expanded. -/
theorem length_le_of_branch {s : SymbolId} {way : List Reference}
    (h : Reference.Branch (p.unfolding ∅ s) way) :
    way.length ≤ (p.symbolIds.toFinset.filter p.Expandable).card := by
  rcases List.eq_nil_or_concat' way with rfl | ⟨way, r, rfl⟩
  · exact Nat.zero_le _
  · obtain ⟨hlength, hnodup, hall, _⟩ := unfolded_of_branch (Finset.notMem_empty s) h
    rw [List.length_append, List.length_singleton, ← hlength, ← List.toFinset_card_of_nodup hnodup]
    apply Finset.card_le_card
    intro u hu
    have he := (hall u (List.mem_toFinset.mp hu)).2
    exact Finset.mem_filter.mpr ⟨List.mem_toFinset.mpr he.mem, he⟩

/-- In a loaded program the references of a symbol that is no alias are what it unfolds to. A run
that keeps the symbols in progress in one set ends for every symbol that is not in it, with what the
symbol unfolds to below that set and with the same set. On a way down the trees no symbol is
unfolded twice, what follows is cut by the symbols of the way only, and the way is no longer than
the number of symbols that can be expanded. -/
theorem references_eq_unfolding {doc : Json} {s : SymbolId} (hp : Snapshot.load doc = .ok p)
    (hs : s ∈ p.symbolIds) (ha : p.isAlias s = false) :
    p.references s = .ok (p.unfolding ∅ s) ∧
      (∀ inProgress t, t ∉ inProgress → (∀ x ∈ insert t inProgress, p.isAlias x = false) →
        ∀ forest after, p.Expansion inProgress t forest after ↔
          forest = p.unfolding inProgress t ∧ after = inProgress) ∧
      (∀ way r, Reference.Branch (p.unfolding ∅ s) (way ++ [r]) →
        (p.unfolded s way).length = way.length + 1 ∧ (p.unfolded s way).Nodup ∧
          (∀ u ∈ p.unfolded s way, p.Expandable u) ∧
          r = p.unfoldMention (p.unfolded s way).toFinset r.mention) ∧
      ∀ way, Reference.Branch (p.unfolding ∅ s) way →
        way.length ≤ (p.symbolIds.toFinset.filter p.Expandable).card := by
  have hw := Snapshot.wellFormed_of_load (Snapshot.conforms_any doc) hp
  refine ⟨?_, fun inProgress t ht hall forest after => hw.expansion_iff ht hall,
    fun way r h => ?_, fun way => length_le_of_branch⟩
  · rw [references, symbolOf_of_mem hs, ok_bind,
      hw.referencesUnder_eq List.not_mem_nil (by simpa using ha)]
    rfl
  · obtain ⟨hlength, hnodup, hall, hr⟩ := unfolded_of_branch (Finset.notMem_empty s) h
    rw [Finset.union_empty] at hr
    exact ⟨hlength, hnodup, fun u hu => (hall u hu).2, hr⟩

end Program

/-! ### A symbol that is mentioned again -/

namespace Snapshot

/-- A declaration that mentions another one twice, first by an alias, and itself. The other one
mentions it in turn. -/
def revisited : Json :=
  .obj [("symbols", .arr [
      .obj [("id", .str "A"), ("name", .str "A"), ("declarations", .arr [.str "a"])],
      .obj [("id", .str "B"), ("name", .str "B"), ("declarations", .arr [.str "b"])],
      .obj [("id", .str "C"), ("name", .str "C"), ("aliasOf", .str "B")]]),
    ("files", .arr [
      .obj [("fileName", .str "main"), ("statements", .arr [
        interfaceEntry "a" [mentionEntry "type_reference" "C", mentionEntry "type_reference" "B",
          mentionEntry "type_query" "A"],
        interfaceEntry "b" [mentionEntry "type_reference" "A"]])]])]

end Snapshot

/-- The second mention unfolds like the first one, since the set of symbols in progress has been
restored. -/
theorem unfolding_revisited : ∃ p, Snapshot.load Snapshot.revisited = .ok p ∧
    p.references (.listed (.text "A")) = .ok (p.unfolding ∅ (.listed (.text "A"))) ∧
    (Reference.nodes (p.unfolding ∅ (.listed (.text "A")))).map Node.id =
      [.node 3, .node 10, .node 5, .node 10, .node 7] ∧
    p.Expansion ∅ (.listed (.text "A")) (p.unfolding ∅ (.listed (.text "A"))) ∅ ∧
    ∀ way, Reference.Branch (p.unfolding ∅ (.listed (.text "A"))) way → way.length ≤ 3 := by
  have hrun : ((Snapshot.load Snapshot.revisited).toOption.map fun p =>
      ((p.references (.listed (.text "A"))).toOption.map
          fun forest => (Reference.nodes forest).map Node.id,
        decide (.listed (.text "A") ∈ p.symbolIds), p.isAlias (.listed (.text "A")),
        (p.symbolIds.toFinset.filter p.Expandable).card)) =
      some (some [.node 3, .node 10, .node 5, .node 10, .node 7], true, false, 3) := by cbv
  obtain ⟨p, hp, hrun⟩ := map_toOption_eq_some_iff.mp hrun
  simp only [Prod.mk.injEq, decide_eq_true_eq] at hrun
  obtain ⟨hids, hs, ha, hcard⟩ := hrun
  obtain ⟨hforest, hruns, _, hlength⟩ := Program.references_eq_unfolding hp hs ha
  rw [hforest] at hids
  rw [hcard] at hlength
  refine ⟨p, hp, hforest, Option.some.inj hids, ?_, hlength⟩
  exact (hruns ∅ _ (Finset.notMem_empty _) (by simpa using ha) _ _).mpr ⟨rfl, rfl⟩

end ApiSurface
