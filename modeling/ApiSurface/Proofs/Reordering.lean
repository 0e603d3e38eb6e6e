import ApiSurface.Proofs.Agreement
import ApiSurface.Proofs.Displacement

/-! The order of an entry's own export table does not show in the order of its exports. Another
order of the table is another order of what the entry exports itself, here and behind every module
that leads back to it. But names stand for the same symbols, so that the places are the same, and
where no two exports of the entry itself have equal places, a stable sort leaves nothing of the
difference. That holds if the places have an order. -/

namespace ApiSurface

open Program
open scoped List

theorem Table.get?_of_perm {κ α : Type} [DecidableEq κ] {t u : Table κ α}
    (h : t.entries ~ u.entries) (k : κ) : t.get? k = u.get? k := by
  refine Option.ext fun a => ?_
  rw [Table.get?_eq_some_iff, Table.get?_eq_some_iff, h.mem_iff]

/-- Parts whose entries come in another order have the same first entries, in another order. -/
theorem Table.firsts_flatMap_perm {κ α β : Type} [DecidableEq κ] {f g : β → List (κ × α)}
    {l : List β} (h : ∀ b ∈ l, f b ~ g b) (hf : ∀ b ∈ l, ((f b).map Prod.fst).Nodup) :
    Table.firsts (l.flatMap f) ~ Table.firsts (l.flatMap g) := by
  induction l with
  | nil => exact .refl _
  | cons b l ih =>
    obtain ⟨hb, hl⟩ := List.forall_mem_cons.mp h
    obtain ⟨hfb, hfl⟩ := List.forall_mem_cons.mp hf
    have hkeys := hb.map Prod.fst
    have hgb : ((g b).map Prod.fst).Nodup := hkeys.nodup_iff.mp hfb
    rw [List.flatMap_cons, List.flatMap_cons, Table.firsts_append, Table.firsts_append,
      Table.firsts_of_nodup hfb, Table.firsts_of_nodup hgb]
    simp only [hkeys.mem_iff]
    exact hb.append ((ih hl hfl).filter _)

namespace Program

variable {p q : Program} {m s : SymbolId} {positions : Table SymbolId Json}

/-- A program in which a symbol has another export table. -/
def withTable (p : Program) (m : SymbolId) (t : Table Key Exported) : Program :=
  p.modifySymbol m fun x => { x with exports := some t }

/-- Two programs are equal except for the order of the export table of one module. -/
structure Reordered (m : SymbolId) (p q : Program) : Prop where
  akin : p.Akin q
  ids : q.symbolIds = p.symbolIds
  own : (q.tableOf m).entries ~ (p.tableOf m).entries
  others : ∀ s, s ≠ m → q.tableOf s = p.tableOf s

theorem reordered_withTable {t t' : Table Key Exported} (ht : (p.symbol m).exports = some t)
    (hperm : t'.entries ~ t.entries) : p.Reordered m (p.withTable m t') := by
  have hm : m ∈ p.symbolIds := by
    by_contra hm
    rw [symbol_of_notMem hm] at ht
    cases ht
  obtain ⟨x, hx⟩ := mem_symbolIds_iff.mp hm
  have hsymbol := symbol_of_get? hx
  have hget (s : SymbolId) : (p.withTable m t').symbols.get? s =
      if m = s then some { p.symbol m with exports := some t' } else p.symbols.get? s :=
    get?_putSymbol ..
  have hown : (p.withTable m t').tableOf m = t' := by
    rw [tableOf, symbol, hget, if_pos rfl]
    rfl
  have hold : p.tableOf m = t := by
    rw [tableOf, ht]
    rfl
  have hothers (s : SymbolId) (hs : s ≠ m) : (p.withTable m t').tableOf s = p.tableOf s := by
    rw [tableOf, symbol, hget, if_neg hs.symm]
    rfl
  have hentries : ((p.withTable m t').tableOf m).entries ~ (p.tableOf m).entries := by
    rwa [hown, hold]
  refine ⟨⟨rfl, fun s => ?_, fun s k => ?_⟩, ?_, hentries, hothers⟩
  · rw [hget]
    split
    · rename_i hs
      subst hs
      rw [hx, Option.map_some, Option.map_some, hsymbol]
      rw [hsymbol] at ht
      simp [Symbol.emptied, ht]
    · rfl
  · by_cases hs : s = m
    · subst hs
      exact Table.get?_of_perm hentries k
    · rw [hothers s hs]
  · change (p.symbols.insert m _).keys = p.symbols.keys
    rw [Table.keys_insert]
    exact if_pos hm

namespace Reordered

/-! ### What modules export -/

theorem ownExports_perm (h : p.Reordered m q) (x : SymbolId) :
    (q.ownExports x).entries ~ (p.ownExports x).entries := by
  have htable : (q.tableOf x).entries ~ (p.tableOf x).entries := by
    by_cases hx : x = m
    · exact hx ▸ h.own
    · rw [h.others x hx]
  exact (htable.filter _).map _

theorem ownExports_eq (h : p.Reordered m q) {x : SymbolId} (hx : x ≠ m) :
    q.ownExports x = p.ownExports x := by
  rw [ownExports, h.others x hx, ownExports]

theorem hasTable (h : p.Reordered m q) : q.hasTable = p.hasTable := by
  funext x
  have hx := congrArg (fun y : Symbol => y.exports.isSome) (h.akin.emptied_symbol x)
  simpa [Symbol.emptied, Program.hasTable] using hx

theorem exportNetwork (h : p.Reordered m q) : q.exportNetwork = p.exportNetwork := by
  unfold Program.exportNetwork
  rw [Network.mk.injEq]
  refine ⟨h.ids, ?_, ?_⟩
  · rw [h.akin.wildcards]
  · rw [h.akin.wildcardModule?, h.hasTable]

theorem legible_iff (h : p.Reordered m q) {x : SymbolId} : q.Legible x ↔ p.Legible x := by
  simp only [Legible, Readable, h.exportNetwork, h.akin.wildcards, h.akin.wildcardModule?]

/-- A module exports the same by name. -/
theorem exposed_perm (h : p.Reordered m q) (x : SymbolId) : q.exposed x ~ p.exposed x := by
  unfold exposed
  rw [h.exportNetwork]
  refine Table.firsts_flatMap_perm (fun y _ => ?_) fun y _ => ?_
  · split
    · exact h.ownExports_perm y
    · exact (h.ownExports_perm y).filter _
  · split
    · exact (q.ownExports y).nodup
    · exact (q.ownExports y).nodup.sublist (List.filter_sublist.map Prod.fst)

/-- What the module itself exports differs in order only, and what it derives from others does not
differ at all, since it is not behind itself. -/
theorem exposed_eq_append (h : p.Reordered m q) : ∃ derived,
    p.exposed m = (p.ownExports m).entries ++ derived ∧
      q.exposed m = (q.ownExports m).entries ++ derived := by
  have hentered : (p.exportNetwork.entered [m] (p.exportNetwork.edges m)).flatMap q.passedOn =
      (p.exportNetwork.entered [m] (p.exportNetwork.edges m)).flatMap p.passedOn := by
    refine List.flatMap_congr fun x hx => ?_
    have hne : x ≠ m := by
      rintro rfl
      exact (Network.nodup_entered _ _).2 x hx (List.mem_singleton.mpr rfl)
    rw [passedOn, h.ownExports_eq hne, passedOn]
  have hkeys := (h.ownExports_perm m).map Prod.fst
  refine ⟨(Table.firsts ((p.exportNetwork.entered [m] (p.exportNetwork.edges m)).flatMap
    p.passedOn)).filter fun e => e.1 ∉ (p.ownExports m).entries.map Prod.fst, ?_, ?_⟩
  · rw [exposed_eq, Table.firsts_append, Table.firsts_of_nodup (p.ownExports m).nodup]
  · rw [exposed_eq, h.exportNetwork, hentered, Table.firsts_append,
      Table.firsts_of_nodup (q.ownExports m).nodup]
    simp only [hkeys.mem_iff]

theorem exists_exportsOf (h : p.Reordered m q) {x : SymbolId} {l : List SymbolId}
    (hl : p.exportsOf x = .ok l) : ∃ l', q.exportsOf x = .ok l' ∧ l' ~ l := by
  obtain ⟨hlegible, rfl⟩ := exportsOf_eq_ok_iff.mp hl
  exact ⟨_, exportsOf_eq_ok_iff.mpr ⟨h.legible_iff.mpr hlegible, rfl⟩, (h.exposed_perm x).map _⟩

theorem exposes_iff (h : p.Reordered m q) {x : SymbolId} {n : Key} :
    q.Exposes x n s ↔ p.Exposes x n s := by
  have hexposes (p : Program) : p.Exposes x n s ↔ p.Legible x ∧ (n, s) ∈ p.exposed x := by
    constructor
    · rintro ⟨t, ht, hn⟩
      obtain ⟨hl, he⟩ := exportTable_eq_ok_iff.mp ht
      exact ⟨hl, he ▸ Table.get?_eq_some_iff.mp hn⟩
    · rintro ⟨hl, hn⟩
      exact ⟨⟨p.exposed x, nodup_exposed p x⟩, exportTable_eq_ok_iff.mpr ⟨hl, rfl⟩,
        Table.get?_eq_some_iff.mpr hn⟩
  rw [hexposes, hexposes, h.legible_iff, (h.exposed_perm x).mem_iff]

theorem moves_eq (h : p.Reordered m q) (l : Link) : l.moves q s = l.moves p s := by
  rw [Bool.eq_iff_iff, moves_iff, moves_iff]
  simp only [h.exposes_iff]

/-! ### Places -/

theorem ownPlace? (h : p.Reordered m q) : q.ownPlace? = p.ownPlace? := by
  funext s
  unfold Program.ownPlace?
  rw [h.akin.lookups.declaration?]
  refine h.akin.symbolOf_bind s fun x y hxy => ?_
  rw [Program.declaration?, Symbol.declarations_of_emptied hxy, Program.declaration?]

theorem exists_ownPositions (h : p.Reordered m q) {own : Table SymbolId Json}
    (hown : p.ownPositions m = .ok own) :
    ∃ own', q.ownPositions m = .ok own' ∧ ∀ s, own'.get? s = own.get? s := by
  have hget := get?_foldlM_ownStep hown
  have hvalues : (q.ownExports m).values ~ (p.ownExports m).values := (h.ownExports_perm m).map _
  have hplaces : ∀ s ∈ (q.ownExports m).values, ∃ place, q.ownPlace? s = .ok place := by
    intro s hs
    obtain ⟨place, hplace, _⟩ := (hget s).1 (hvalues.subset hs)
    exact ⟨place, by rw [h.ownPlace?, hplace]⟩
  obtain ⟨own', hown'⟩ := exists_foldlM_ownStep hplaces ∅
  refine ⟨own', hown', fun s => ?_⟩
  have hget' := get?_foldlM_ownStep hown' s
  by_cases hs : s ∈ (p.ownExports m).values
  · obtain ⟨place, hplace, hfirst⟩ := (hget s).1 hs
    obtain ⟨place', hplace', hfirst'⟩ := hget'.1 (hvalues.symm.subset hs)
    rw [h.ownPlace?, hplace] at hplace'
    obtain rfl := Except.ok.inj hplace'
    rw [hfirst, hfirst']
  · rw [(hget s).2 hs, hget'.2 fun hs' => hs (hvalues.subset hs')]

/-- All exports have the same places. -/
theorem exists_positions (h : p.Reordered m q) (hp : p.positions m = .ok positions) :
    ∃ positions', q.positions m = .ok positions' ∧ ∀ s, positions'.get? s = positions.get? s := by
  obtain ⟨own, hown, hfault, hrun⟩ := positions_eq_ok hp
  obtain ⟨own', hown', hsame⟩ := h.exists_ownPositions hown
  have hstep : ∀ l ∈ (p.trail m).links, ∀ t, True → ∃ t', q.positionStep t l = .ok t' ∧ True := by
    intro l hl t _
    obtain ⟨t₁, t₂, hl⟩ := exists_step_of_foldlM hrun hl
    unfold positionStep at hl ⊢
    split at hl
    · rename_i hext
      exact ⟨t, if_pos hext, trivial⟩
    · rename_i hext
      obtain ⟨exported, he, _⟩ := bind_eq_ok_iff.mp hl
      obtain ⟨exported', he', _⟩ := h.exists_exportsOf he
      exact ⟨_, by rw [if_neg hext, he']; rfl, trivial⟩
  obtain ⟨positions', hrun', _⟩ := exists_foldlM trivial hstep
  refine ⟨positions', ?_, fun s => ?_⟩
  · rw [positions_eq_foldM, hown', ok_bind, h.akin.trail, Trail.foldM, hrun', ok_bind, hfault]
    rfl
  · rw [get?_foldlM_positionStep hrun', get?_foldlM_positionStep hrun, hsame]
    have hmoves : Link.moves q s = Link.moves p s := funext fun l => h.moves_eq l
    rw [hmoves]

end Reordered

/-! ### Places with an order -/

/-- Two symbols do not have the same place, and one of them has one. -/
def PlacedApart (positions : Table SymbolId Json) (a b : SymbolId) : Prop :=
  match positions.get? a, positions.get? b with
  | some x, some y => x.same y = false
  | none, none => False
  | _, _ => True

theorem not_tied_of_placedApart {a b : SymbolId} (h : PlacedApart positions a b) :
    ¬(placeRanking positions).tied a b = true := by
  intro htied
  obtain ⟨hab, hba⟩ := Ranking.tied_iff.mp htied
  change Json.ranking.missingLast.le (positions.get? a) (positions.get? b) at hab
  change Json.ranking.missingLast.le (positions.get? b) (positions.get? a) at hba
  unfold PlacedApart at h
  cases hx : positions.get? a with
  | none =>
    cases hy : positions.get? b with
    | none => simp [hx, hy] at h
    | some y =>
      rw [hx, hy] at hab
      exact hab
  | some x =>
    cases hy : positions.get? b with
    | none =>
      rw [hx, hy] at hba
      exact hba
    | some y =>
      rw [hx, hy] at hab hba
      simp only [hx, hy] at h
      rw [Json.ordered_regular.antisymm hab.1 hab.2.1 hab.2.2 hba.2.2] at h
      cases h

theorem placeRanking_refl {a : SymbolId}
    (h : ∀ x, positions.get? a = some x → x.Regular) : (placeRanking positions).le a a := by
  change Json.ranking.missingLast.le (positions.get? a) (positions.get? a)
  cases hx : positions.get? a with
  | none => trivial
  | some x => exact ⟨h x hx, h x hx, Or.inl (h x hx).same_self⟩

/-- What has been sorted can be compared. -/
theorem compares_of_sorted {r : List SymbolId} (h : RegularPlaces positions r)
    (hr : r.Pairwise (placeRanking positions).le) : Compares (placedBefore? positions) r := by
  have hanswers {a b : SymbolId} (hab : (placeRanking positions).le a b) :
      (placedBefore? positions a b).isSome = true ∧
        (placedBefore? positions b a).isSome = true := by
    change Json.ranking.missingLast.le (positions.get? a) (positions.get? b) at hab
    unfold placedBefore?
    cases hx : positions.get? a with
    | none =>
      cases hy : positions.get? b with
      | none => exact ⟨rfl, rfl⟩
      | some y => exact ⟨rfl, rfl⟩
    | some x =>
      cases hy : positions.get? b with
      | none => exact ⟨rfl, rfl⟩
      | some y =>
        rw [hx, hy] at hab
        obtain ⟨hrx, hry, hsame | hbefore⟩ := hab
        · have hback := Json.ordered_regular.symm hrx hry hsame
          exact ⟨by simp [hsame], by simp [hback]⟩
        · have hsome : (x.before? y).isSome = true := by rw [hbefore]; rfl
          have hback := hrx.before?_isSome hry hsome
          constructor
          · dsimp only
            split
            · rfl
            · exact hsome
          · dsimp only
            split
            · rfl
            · exact hback
  intro a ha b hb
  refine Option.isSome_iff_exists.mp ?_
  rcases Nat.lt_trichotomy (r.idxOf a) (r.idxOf b) with hlt | heq | hgt
  · exact (hanswers (rel_of_idxOf_lt hr hb hlt)).1
  · obtain rfl := (List.idxOf_inj ha).mp heq
    exact (hanswers (placeRanking_refl (h a ha))).1
  · exact (hanswers (rel_of_idxOf_lt hr ha hgt)).2

/-- A list whose order is that of another one except for elements with different places is sorted to
the same list. -/
theorem sortBy?_reordered {own own' derived r : List SymbolId} (hperm : own' ~ own)
    (hapart : own.Pairwise (PlacedApart positions))
    (hr : sortBy? (placedBefore? positions) (own ++ derived) = some r)
    (h : RegularPlaces positions r) :
    sortBy? (placedBefore? positions) (own' ++ derived) = some r := by
  have hlist : RegularPlaces positions (own ++ derived) :=
    fun s hs => h s ((sortBy?_perm hr).symm.subset hs)
  have hsorts := sortBy?_sorts (tells_placedBefore? hlist) hr
  have hall : own' ++ derived ~ own ++ derived := hperm.append_right derived
  have hlist' : RegularPlaces positions (own' ++ derived) := fun s hs => hlist s (hall.subset hs)
  have hcompares := (compares_of_sorted h hsorts.sorted).mono
    (hall.trans (sortBy?_perm hr).symm).subset
  obtain ⟨r', hr'⟩ := sortBy?_answers hcompares
  have hsorts' := sortBy?_sorts (tells_placedBefore? hlist') hr'
  rw [hr', hsorts.eq hsorts' hall.symm (fun s hs => placeRanking_refl (hlist s hs)) fun s _ => ?_]
  rw [List.filter_append, List.filter_append,
    Ranking.filter_tied_of_perm hperm.symm (hapart.imp not_tied_of_placedApart)]

/-! ### Discovery -/

/-- Warning of symbols without a place fails only at one that is not there. -/
theorem warnUnplaced_result {l : List SymbolId} : (p.warnUnplaced positions l).result = .ok () ↔
    ∀ s ∈ l, positions.get? s = none → s ∈ p.symbolIds := by
  induction l with
  | nil => simp [warnUnplaced, pure]
  | cons s l ih =>
    unfold warnUnplaced at ih ⊢
    rw [List.forM_eq_forM] at ih ⊢
    rw [List.forM_cons, Pass.result_bind_eq_ok, List.forall_mem_cons, ← ih]
    rw [Unique.exists_iff]
    refine and_congr_left fun _ => ?_
    cases hplace : positions.get? s with
    | some x => simp [pure]
    | none =>
      by_cases hs : s ∈ p.symbolIds
      · rw [symbolOf_of_mem hs]
        by_cases hd : (p.symbol s).declarations = []
        · simp [hs, hd, Pass.lift_ok_bind, pure]
        · simp [hs, hd, Pass.lift_ok_bind, Pass.warn]
      · have hnot : p.symbolOf s = .error (.defect .wrongEntity) := by
          rw [symbolOf, Option.eq_none_iff_forall_ne_some.mpr fun x hx =>
            hs (mem_symbolIds_iff.mpr ⟨x, hx⟩)]
        rw [hnot]
        simp [hs, Pass.lift_error_bind]

namespace Reordered

theorem orderedExports_eq (h : p.Reordered m q) (hpos : p.positions m = .ok positions)
    (hapart : (p.ownExports m).values.Pairwise (PlacedApart positions))
    {excluded l : List SymbolId} (hl : (p.orderedExports m excluded).result = .ok l)
    (hregular : RegularPlaces positions l) : (q.orderedExports m excluded).result = .ok l := by
  obtain ⟨exported, he, hl⟩ := Pass.result_lift_bind_eq_ok.mp hl
  obtain ⟨_, hpos₁, hl⟩ := Pass.result_lift_bind_eq_ok.mp hl
  obtain rfl := Except.ok.inj (hpos.symm.trans hpos₁)
  obtain ⟨_, hwarn, hsort⟩ := Pass.result_bind_eq_ok.mp hl
  obtain ⟨exported', he', hperm⟩ := h.exists_exportsOf he
  obtain ⟨positions', hpos', hsame⟩ := h.exists_positions hpos
  have hbefore : placedBefore? positions' = placedBefore? positions := by
    funext a b
    rw [placedBefore?, hsame, hsame, placedBefore?]
  refine Pass.result_lift_bind_eq_ok.mpr ⟨exported', he', ?_⟩
  refine Pass.result_lift_bind_eq_ok.mpr ⟨positions', hpos', ?_⟩
  refine Pass.result_bind_eq_ok.mpr ⟨(), ?_, ?_⟩
  · refine warnUnplaced_result.mpr fun s hs hplace => ?_
    rw [hsame] at hplace
    rw [h.ids]
    exact warnUnplaced_result.mp hwarn s ((hperm.filter _).subset hs) hplace
  · obtain ⟨derived, hold, hnew⟩ := h.exposed_eq_append
    obtain ⟨_, rfl⟩ := exportsOf_eq_ok_iff.mp he
    obtain ⟨_, rfl⟩ := exportsOf_eq_ok_iff.mp he'
    rw [hold, List.map_append, List.filter_append, Pass.result_lift, sortedBy_eq_ok_iff] at hsort
    rw [hnew, List.map_append, List.filter_append, Pass.result_lift, sortedBy_eq_ok_iff, hbefore]
    exact sortBy?_reordered (((h.ownExports_perm m).map _).filter _) (hapart.filter _) hsort
      hregular

theorem exists_discover (h : p.Reordered m q) (hpos : p.positions m = .ok positions)
    (hapart : (p.ownExports m).values.Pairwise (PlacedApart positions)) {file : NodeId}
    {excluded l : List SymbolId} {warnings : List Warning}
    (hl : p.discover file m excluded = .ok (l, warnings)) (hregular : RegularPlaces positions l) :
    ∃ warnings', q.discover file m excluded = .ok (l, warnings') := by
  obtain ⟨found, hfound, heq⟩ := map_eq_ok_iff.mp hl
  obtain rfl := (Prod.mk.inj heq).1
  suffices hq : (q.discovery file m excluded).result = .ok found from
    ⟨_, map_eq_ok_iff.mpr ⟨found, hq, rfl⟩⟩
  obtain ⟨x, hx, hfound⟩ := Pass.result_lift_bind_eq_ok.mp hfound
  obtain ⟨hm, rfl⟩ := symbolOf_eq_ok_iff.mp hx
  have hscope : (q.symbol m).isGlobalScope = (p.symbol m).isGlobalScope := by
    have hname := congrArg Symbol.name (h.akin.emptied_symbol m)
    exact congrArg (Json.isText globalName) hname
  rw [discovery, symbolOf_of_mem ((h.akin.mem m).mpr hm), Pass.lift_ok_bind, hscope,
    h.akin.lookups.sourceOf, h.akin.lookups.scope]
  split at hfound
  · rename_i hglobal
    rw [if_pos hglobal]
    exact hfound
  · rename_i hglobal
    rw [if_neg hglobal]
    exact h.orderedExports_eq hpos hapart hfound hregular

end Reordered

/-- Whatever the order of its own export table, an entry has the same places, and the same exports
are discovered in the same order, if no two exports of the table have the same place and the places
of what is discovered have an order. They do in a program loaded from a document whose starts are
integers. -/
theorem discover_withTable {t t' : Table Key Exported} (ht : (p.symbol m).exports = some t)
    (hperm : t'.entries ~ t.entries) (hpos : p.positions m = .ok positions)
    (hapart : (p.ownExports m).values.Pairwise (PlacedApart positions)) :
    (∃ positions', (p.withTable m t').positions m = .ok positions' ∧
      ∀ s, positions'.get? s = positions.get? s) ∧
    (∀ file excluded l warnings, p.discover file m excluded = .ok (l, warnings) →
      RegularPlaces positions l →
        ∃ warnings', (p.withTable m t').discover file m excluded = .ok (l, warnings')) ∧
    ∀ doc, Snapshot.Conforms .plain doc → Snapshot.load doc = .ok p →
      ∀ l, RegularPlaces positions l := by
  have h := reordered_withTable ht hperm
  refine ⟨h.exists_positions hpos, ?_, ?_⟩
  · intro file excluded l warnings hl hregular
    exact h.exists_discover hpos hapart hl hregular
  · intro doc hc hp l s _ place hplace
    have hplain := Snapshot.wellFormed_of_load hc hp
    have hm : m ∈ p.symbolIds := mem_symbolIds_of_hasTable (by rw [hasTable, ht]; rfl)
    obtain ⟨_, _, hfault, _⟩ := positions_eq_ok hpos
    obtain ⟨_, hpos', hmeasured⟩ := hplain.exists_positions hm hfault
    obtain rfl := Except.ok.inj (hpos.symm.trans hpos')
    obtain ⟨n, rfl⟩ := hmeasured s place hplace
    exact .int n

end Program

/-! ### A table in both directions -/

/-- The entries of a table from the back. -/
def Table.reversed {κ α : Type} (t : Table κ α) : Table κ α :=
  ⟨t.entries.reverse, by
    rw [List.map_reverse]
    exact List.nodup_reverse.mpr t.nodup⟩

theorem Table.entries_reversed_perm {κ α : Type} (t : Table κ α) :
    t.reversed.entries ~ t.entries :=
  List.reverse_perm _

namespace Snapshot

/-- A module that gets its second export back from the module that it re-exports. That module has an
export named like the first one, and imports its own re-export as a library. -/
def echo : Json :=
  .obj [("symbols", .arr (["X", "Y", "P", "Q"].map declaredEntry)),
    ("files", .arr [
      .obj [("fileName", .str "main"),
        ("statements", .arr [placedEntry "X" 9, placedEntry "Y" 2, wildcardEntry "./a" (.int 5)]),
        ("exports", .obj [("X", .str "X"), ("Y", .str "Y")])],
      .obj [("fileName", .str "a"),
        ("statements", .arr [placedEntry "P" 0, placedEntry "Q" 0,
          wildcardEntry "./main" (.int 1)]),
        ("exports", .obj [("X", .str "P"), ("Q", .str "Q")])]]),
    ("resolutions", .arr [resolutionEntry "main" "./a" "a",
      .obj [("from", .str "a"), ("module", .str "./main"), ("fileName", .str "main"),
        ("external", .bool true)]])]

end Snapshot

/-- The second export has the place of the export that is only re-exported, and stays before it in
both orders of the table. -/
theorem discover_echo : ∃ p t positions warnings warnings', Snapshot.load Snapshot.echo = .ok p ∧
    (p.symbol (.ofFile (.node 0))).exports = some t ∧
    p.positions (.ofFile (.node 0)) = .ok positions ∧
    (p.ownExports (.ofFile (.node 0))).values = ["X", "Y"].map (fun s => .listed (.text s)) ∧
    positions.get? (.listed (.text "X")) = some (.int 9) ∧
    positions.get? (.listed (.text "Y")) = some (.int 5) ∧
    positions.get? (.listed (.text "Q")) = some (.int 5) ∧
    p.exportsOf (.ofFile (.node 0)) = .ok (["X", "Y", "Q"].map fun s => .listed (.text s)) ∧
    (p.withTable (.ofFile (.node 0)) t.reversed).exportsOf (.ofFile (.node 0)) =
      .ok (["Y", "X", "Q"].map fun s => .listed (.text s)) ∧
    p.discover (.node 0) (.ofFile (.node 0)) [] =
      .ok (["Y", "Q", "X"].map fun s => .listed (.text s), warnings) ∧
    (p.withTable (.ofFile (.node 0)) t.reversed).discover (.node 0) (.ofFile (.node 0)) [] =
      .ok (["Y", "Q", "X"].map fun s => .listed (.text s), warnings') := by
  have hrun : ((Snapshot.load Snapshot.echo).toOption.map fun p =>
      ((p.symbol (.ofFile (.node 0))).exports.map fun t =>
          (p.withTable (.ofFile (.node 0)) t.reversed).exportsOf (.ofFile (.node 0)),
        (p.positions (.ofFile (.node 0))).toOption.map fun positions =>
          ["X", "Y", "Q"].map fun s => positions.get? (.listed (.text s)),
        p.exportsOf (.ofFile (.node 0)), (p.ownExports (.ofFile (.node 0))).values,
        (p.discover (.node 0) (.ofFile (.node 0)) []).toOption.map Prod.fst)) =
      some (some (.ok (["Y", "X", "Q"].map fun s => .listed (.text s))),
        some [some (.int 9), some (.int 5), some (.int 5)],
        .ok (["X", "Y", "Q"].map fun s => .listed (.text s)),
        ["X", "Y"].map (fun s => .listed (.text s)),
        some (["Y", "Q", "X"].map fun s => .listed (.text s))) := by cbv
  obtain ⟨p, hload, hrun⟩ := map_toOption_eq_some_iff.mp hrun
  simp only [Prod.mk.injEq] at hrun
  obtain ⟨htable, hplaces, hexports, hown, hdiscover⟩ := hrun
  obtain ⟨t, ht, hreversed⟩ := Option.map_eq_some_iff.mp htable
  obtain ⟨positions, hpos, hplaces⟩ := map_toOption_eq_some_iff.mp hplaces
  simp only [List.map_cons, List.map_nil, List.cons.injEq, and_true] at hplaces
  obtain ⟨hx, hy, hq⟩ := hplaces
  obtain ⟨⟨l, warnings⟩, hl, rfl⟩ := map_toOption_eq_some_iff.mp hdiscover
  have hapart :
      (p.ownExports (.ofFile (.node 0))).values.Pairwise (Program.PlacedApart positions) := by
    rw [hown]
    simp [Program.PlacedApart, hx, hy, Json.same, Json.key?]
  have hregular :
      Program.RegularPlaces positions (["Y", "Q", "X"].map fun s => .listed (.text s)) := by
    intro s hs place hplace
    simp only [List.map_cons, List.map_nil, List.mem_cons, List.not_mem_nil, or_false] at hs
    rcases hs with rfl | rfl | rfl
    · exact Option.some.inj (hy.symm.trans hplace) ▸ .int 5
    · exact Option.some.inj (hq.symm.trans hplace) ▸ .int 5
    · exact Option.some.inj (hx.symm.trans hplace) ▸ .int 9
  obtain ⟨_, hsame, _⟩ := Program.discover_withTable ht t.entries_reversed_perm hpos hapart
  obtain ⟨warnings', hl'⟩ := hsame _ _ _ _ hl hregular
  exact ⟨p, t, positions, warnings, warnings', hload, ht, hpos, hown, hx, hy, hq, hexports,
    hreversed, hl, hl'⟩

namespace Snapshot

/-- A module that exports three symbols. It also re-exports the second one, from a place that is no
number. -/
def unorderedOwn : Json :=
  .obj [("symbols", .arr (["A", "B", "C"].map declaredEntry)),
    ("files", .arr [
      .obj [("fileName", .str "main"),
        ("statements", .arr [placedEntry "A" 3, placedEntry "C" 1,
          wildcardEntry "./b" (.real .nan)]),
        ("exports", .obj [("A", .str "A"), ("B", .str "B"), ("C", .str "C")])],
      declaringEntry "b" ["B"] []]),
    ("resolutions", .arr [resolutionEntry "main" "./b" "b"])]

end Snapshot

/-- The second export is neither before nor after the others, so no two neighbours change places. -/
theorem not_discover_unorderedOwn : ∃ p t positions warnings warnings',
    Snapshot.load Snapshot.unorderedOwn = .ok p ∧
    (p.symbol (.ofFile (.node 0))).exports = some t ∧
    p.positions (.ofFile (.node 0)) = .ok positions ∧
    (p.ownExports (.ofFile (.node 0))).values.Nodup ∧
    (p.ownExports (.ofFile (.node 0))).values.Pairwise (Program.PlacedApart positions) ∧
    p.discover (.node 0) (.ofFile (.node 0)) [] =
      .ok (["A", "B", "C"].map fun s => .listed (.text s), warnings) ∧
    (p.withTable (.ofFile (.node 0)) t.reversed).discover (.node 0) (.ofFile (.node 0)) [] =
      .ok (["C", "B", "A"].map fun s => .listed (.text s), warnings') := by
  have hrun : ((Snapshot.load Snapshot.unorderedOwn).toOption.map fun p =>
      ((p.symbol (.ofFile (.node 0))).exports.map fun t =>
          ((p.withTable (.ofFile (.node 0)) t.reversed).discover (.node 0) (.ofFile (.node 0))
            []).toOption.map Prod.fst,
        (p.positions (.ofFile (.node 0))).toOption.map fun positions =>
          ["A", "B", "C"].map fun s => positions.get? (.listed (.text s)),
        (p.ownExports (.ofFile (.node 0))).values,
        (p.discover (.node 0) (.ofFile (.node 0)) []).toOption.map Prod.fst)) =
      some (some (some (["C", "B", "A"].map fun s => .listed (.text s))),
        some [some (.int 3), some (.real .nan), some (.int 1)],
        ["A", "B", "C"].map (fun s => .listed (.text s)),
        some (["A", "B", "C"].map fun s => .listed (.text s))) := by cbv
  obtain ⟨p, hload, hrun⟩ := map_toOption_eq_some_iff.mp hrun
  simp only [Prod.mk.injEq] at hrun
  obtain ⟨htable, hplaces, hown, hdiscover⟩ := hrun
  obtain ⟨t, ht, hreversed⟩ := Option.map_eq_some_iff.mp htable
  obtain ⟨positions, hpos, hplaces⟩ := map_toOption_eq_some_iff.mp hplaces
  simp only [List.map_cons, List.map_nil, List.cons.injEq, and_true] at hplaces
  obtain ⟨ha, hb, hc⟩ := hplaces
  obtain ⟨⟨l, warnings⟩, hl, rfl⟩ := map_toOption_eq_some_iff.mp hdiscover
  obtain ⟨⟨l', warnings'⟩, hl', rfl⟩ := map_toOption_eq_some_iff.mp hreversed
  refine ⟨p, t, positions, warnings, warnings', hload, ht, hpos, ?_, ?_, hl, hl'⟩
  · rw [hown]
    decide
  · rw [hown]
    simp [Program.PlacedApart, ha, hb, hc, Json.same, Json.key?, Binary64.toInt?]

end ApiSurface
