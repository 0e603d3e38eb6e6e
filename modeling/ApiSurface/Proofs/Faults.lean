import ApiSurface.Proofs.Collection

/-! When the collection at a file fails, for a program whose names are texts and whose starts
are integers. The walk for the boundary meets the first wildcard re-export that leads nowhere,
before anything is reported. If there is none, all that follows succeeds. -/

namespace ApiSurface

namespace Program

variable {p : Program}

/-! ### Boundaries -/

theorem WellFormed.exists_exportsOf (h : p.WellFormed .plain []) {m : SymbolId}
    (hm : m ∈ p.symbolIds) : ∃ l, p.exportsOf m = .ok l ∧ ∀ s ∈ l, s ∈ p.symbolIds := by
  have hl : p.exportsOf m = .ok ((p.exposed m).map Prod.snd) :=
    exportsOf_eq_ok_iff.mpr ⟨h.legible hm, rfl⟩
  refine ⟨_, hl, fun s hs => ?_⟩
  obtain ⟨n, hn⟩ := (mem_exportsOf hl).mp hs
  exact (h.holds_of_exposes hn).1

/-- The exports behind a link can be listed. -/
theorem WellFormed.exists_exportsOf_link (h : p.WellFormed .plain []) {m : SymbolId}
    (hm : m ∈ p.symbolIds) {l : Link} (hl : l ∈ (p.trail m).links) :
    ∃ exported, p.exportsOf l.target.root = .ok exported := by
  obtain ⟨ht, _⟩ := (h.trail_eq hm).2.2 l hl
  obtain ⟨exported, he, _⟩ := h.exists_exportsOf (h.holds_root ht).1
  exact ⟨exported, he⟩

/-- The boundary fails with the fault at the end of the trail only. -/
theorem WellFormed.boundary_eq (h : p.WellFormed .plain []) {m : SymbolId}
    (hm : m ∈ p.symbolIds) : ∃ b, p.boundary m =
      match (p.passedStatements m).findSome? p.wildcardFault? with
      | some e => .error e
      | none => .ok b := by
  obtain ⟨b, hb, _⟩ : ∃ b, (p.trail m).links.foldlM p.boundaryStep {} = .ok b ∧ True := by
    refine exists_foldlM trivial fun l hl b _ => ?_
    obtain ⟨exported, he⟩ := h.exists_exportsOf_link hm hl
    unfold boundaryStep
    split
    · exact ⟨_, by rw [he]; rfl, trivial⟩
    · exact ⟨b, rfl, trivial⟩
  refine ⟨b, ?_⟩
  rw [boundary_eq_foldM, Trail.foldM, hb, ok_bind, ← (h.trail_eq hm).2.1]
  rfl

/-! ### Positions -/

theorem WellFormed.start_int (h : p.WellFormed .plain []) {d : Site} (hd : p.Attached d) :
    ∃ n, d.node.start = .int n := by
  obtain ⟨f, hf, _, ht⟩ := hd
  exact (h.trees f hf d.tree ht).1

/-- All places are integers. -/
def Measured (positions : Table SymbolId Json) : Prop :=
  ∀ s j, positions.get? s = some j → ∃ n, j = .int n

theorem Measured.insert {positions : Table SymbolId Json} (h : Measured positions) {j : Json}
    (hj : ∃ n, j = .int n) (s : SymbolId) : Measured (positions.insert s j) := by
  intro s' j' hs
  rw [Table.get?_insert] at hs
  split at hs
  · exact Option.some.inj hs ▸ hj
  · exact h s' j' hs

theorem Measured.insertAll {positions : Table SymbolId Json} (h : Measured positions) {j : Json}
    (hj : ∃ n, j = .int n) (l : List SymbolId) :
    Measured (l.foldl (fun t s => t.insert s j) positions) := by
  induction l generalizing positions with
  | nil => exact h
  | cons s l ih => exact ih (h.insert hj s)

theorem WellFormed.exists_ownPositions (h : p.WellFormed .plain []) (m : SymbolId) :
    ∃ t, p.ownPositions m = .ok t ∧ Measured t := by
  refine exists_foldlM (by simp [Measured]) fun s hs t ht => ?_
  obtain ⟨n, hn⟩ := Table.mem_values_iff.mp hs
  obtain ⟨e, he, rfl⟩ := mem_ownExports hn
  rw [symbolOf_of_mem (h.holds_of_table he).1, ok_bind]
  rcases h.declaration?_eq e.symbol with ⟨_, hd⟩ | ⟨d, hd, ha⟩
  · exact ⟨t, by rw [hd]; rfl, ht⟩
  · exact ⟨_, by rw [hd]; rfl, ht.insert (h.start_int ha) _⟩

/-- The places of exports are known if the trail has no fault. -/
theorem WellFormed.exists_positions (h : p.WellFormed .plain []) {m : SymbolId}
    (hm : m ∈ p.symbolIds) (hfault : (p.trail m).fault = none) :
    ∃ t, p.positions m = .ok t ∧ Measured t := by
  obtain ⟨own, hown, hmeasured⟩ := h.exists_ownPositions m
  have hstep : ∀ l ∈ (p.trail m).links, ∀ t, Measured t →
      ∃ t', p.positionStep t l = .ok t' ∧ Measured t' := by
    intro l hl t ht
    obtain ⟨exported, he⟩ := h.exists_exportsOf_link hm hl
    unfold positionStep
    split
    · exact ⟨t, rfl, ht⟩
    · have hanchor := h.start_int ((h.trail_eq hm).2.2 l hl).2
      exact ⟨_, by rw [he]; rfl, ht.insertAll hanchor exported⟩
  obtain ⟨t, ht, hmeasured⟩ := exists_foldlM hmeasured hstep
  refine ⟨t, ?_, hmeasured⟩
  rw [positions_eq_foldM, hown, ok_bind, Trail.foldM, ht, ok_bind, hfault]
  rfl

/-! ### Order -/

/-- Integers have an order. -/
theorem Measured.compares {positions : Table SymbolId Json} (h : Measured positions)
    (l : List SymbolId) : Compares (placedBefore? positions) l := by
  intro a _ b _
  unfold placedBefore?
  cases ha : positions.get? a with
  | none => exact ⟨false, rfl⟩
  | some x =>
    cases hb : positions.get? b with
    | none => exact ⟨true, rfl⟩
    | some y =>
      obtain ⟨i, rfl⟩ := h a x ha
      obtain ⟨j, rfl⟩ := h b y hb
      dsimp only
      split
      · exact ⟨false, rfl⟩
      · exact ⟨_, rfl⟩

theorem Measured.exists_sortedBy {positions : Table SymbolId Json} (h : Measured positions)
    (l : List SymbolId) : ∃ r, sortedBy (placedBefore? positions) l = .ok r := by
  obtain ⟨r, hr⟩ := sortBy?_answers (h.compares l)
  exact ⟨r, by rw [sortedBy, hr]⟩

/-- An entry can be discovered if its trail has no fault. -/
theorem WellFormed.exists_discovery (h : p.WellFormed .plain []) {f : SourceFile}
    (hf : f ∈ p.sources) (hfault : (p.trail f.symbol).fault = none) (excluded : List SymbolId) :
    ∃ l, (p.discovery f.id f.symbol excluded).result = .ok l ∧ ∀ s ∈ l, s ∈ p.symbolIds := by
  have hm := (h.holds_fileSymbol hf).1
  rw [discovery, symbolOf_of_mem hm, Pass.lift_ok_bind]
  cases (p.symbol f.symbol).isGlobalScope with
  | true =>
    have hsource : p.sourceOf f.id = .ok f := by rw [sourceOf, h.source?_of_mem hf]
    rw [hsource]
    exact ⟨p.scope f, rfl, fun s hs => (h.holds_scope hs).1⟩
  | false =>
    obtain ⟨exported, he, hmem⟩ := h.exists_exportsOf hm
    obtain ⟨positions, hp, hmeasured⟩ := h.exists_positions hm hfault
    obtain ⟨l, hl⟩ := hmeasured.exists_sortedBy (exported.filter (· ∉ excluded))
    refine ⟨l, ?_, fun s hs => ?_⟩
    · change (p.orderedExports f.symbol excluded).result = .ok l
      rw [h.orderedExports_eq he hp, hl]
    · have hs := (sortedBy_perm hl).mem_iff.mp hs
      exact hmem s (List.mem_of_mem_filter hs)

/-! ### Collection -/

theorem WellFormed.exists_exportNames (h : p.WellFormed .plain []) (l : List SymbolId) :
    ∃ names, p.exportNames l = .ok names := by
  obtain ⟨names, hn, _⟩ : ∃ names, p.exportNames l = .ok names ∧ True := by
    refine exists_foldlM trivial fun s _ t _ => ?_
    obtain ⟨name, hname⟩ := (h.symbolOk s).name
    rw [hname, nameOf_str]
    exact ⟨_, rfl, trivial⟩
  exact ⟨names, hn⟩

/-- A collection fails with the first fault among the statements that are passed, and then has
not delivered anything. Without one it succeeds. -/
theorem WellFormed.collection_cases (h : p.WellFormed .plain []) {f : SourceFile}
    (hf : f ∈ p.sources) :
    match (p.passedStatements f.symbol).findSome? p.wildcardFault? with
    | some e => p.collection f.id = ⟨[], .error e⟩
    | none => ∃ s, (p.collection f.id).result = .ok s := by
  have hm := (h.holds_fileSymbol hf).1
  obtain ⟨b, hb⟩ := h.boundary_eq hm
  rw [h.collection_eq hf, hb]
  cases hfault : (p.passedStatements f.symbol).findSome? p.wildcardFault? with
  | some e => exact Pass.lift_error_bind e _
  | none =>
    have htrail := (h.trail_eq hm).2.1.trans hfault
    obtain ⟨l, hl, hmem⟩ := h.exists_discovery hf htrail b.symbols
    obtain ⟨t, ht, _⟩ := h.exportAll_spec hmem
    obtain ⟨names, hn⟩ := h.exists_exportNames t.keys
    dsimp only
    rw [Pass.lift_ok_bind, Pass.bind_of_ok hl, ht, Pass.bind_of_ok rfl, hn, Pass.lift_ok_bind]
    exact ⟨_, rfl⟩

theorem surfaceOf_eq_error_iff {j : Json} {e : Fault} :
    p.surfaceOf j = .error e ↔ (p.collectionOf j).result = .error e := by
  unfold surfaceOf Pass.outcome
  cases (p.collectionOf j).result with
  | ok s => simp [Except.map]
  | error e' => simp [Except.map]

theorem collectionOf_eq {j : Json} {name : Name} {f : SourceFile} (hn : nameOf j = .ok name)
    (hf : p.fileNamed? name = some f) : p.collectionOf j = p.collection f.id := by
  rw [collectionOf, hn, Pass.lift_ok_bind, hf]

/-- The surface at a file exists exactly if every wildcard re-export that can be reached from it
without leaving the project leads somewhere. If not, the fault is that of the first one in the
order of the walk, and no warning has been delivered. -/
theorem surfaceOf_fails_first {doc : Json} (hc : Snapshot.Conforms .plain doc)
    (hp : Snapshot.load doc = .ok p) {j : Json} {name : Name} {f : SourceFile}
    (hn : nameOf j = .ok name) (hf : p.fileNamed? name = some f) :
    ∃ m, p.symbolAt f.id = some m ∧
      ((∃ e, p.surfaceOf j = .error e) ↔ ∃ x d e, p.internalNetwork.Reaches m x ∧
        d ∈ p.internalNetwork.edges x ∧ p.resolveWildcard d = .error e) ∧
      (∀ e, p.surfaceOf j = .error e ↔
        (p.passedStatements m).findSome? p.wildcardFault? = some e) ∧
      ∀ e, p.surfaceOf j = .error e → (p.collectionOf j).delivered = [] := by
  have h := Snapshot.wellFormed_of_load hc hp
  have hf' := mem_of_fileNamed? hf
  have hcases := h.collection_cases hf'
  have herror : ∀ e, p.surfaceOf j = .error e ↔
      (p.passedStatements f.symbol).findSome? p.wildcardFault? = some e := by
    intro e
    rw [surfaceOf_eq_error_iff, collectionOf_eq hn hf]
    split at hcases
    · rename_i e' he'
      simp [he', hcases]
    · rename_i hnone
      obtain ⟨s, hs⟩ := hcases
      simp [hnone, hs]
  refine ⟨f.symbol, h.symbolAt_file hf', ?_, herror, ?_⟩
  · simp only [herror]
    exact exists_fault_iff
  · intro e he
    rw [collectionOf_eq hn hf]
    rw [(herror e).mp he] at hcases
    rw [hcases]

end Program

/-- One module of the diamond leads to a re-export that leads nowhere. -/
theorem surfaceOf_diamond : ∃ p f m, Snapshot.load Snapshot.diamond = .ok p ∧
    p.fileNamed? (.ofText "c") = some f ∧ p.symbolAt f.id = some m ∧
    (p.passedStatements m).length = 6 ∧
    p.surfaceOf (.str "c") = .error (.wildcard (.unresolved "./gone")) ∧
    (p.collectionOf (.str "c")).delivered = [] := by
  have hrun : ((Snapshot.load Snapshot.diamond).toOption.map fun p =>
      (p.fileNamed? (.ofText "c")).map fun f => (p.symbolAt f.id).map fun m =>
        ((p.passedStatements m).length, (p.passedStatements m).findSome? p.wildcardFault?)) =
      some (some (some (6, some (.wildcard (.unresolved "./gone"))))) := by cbv
  obtain ⟨p, hload, hrun⟩ := map_toOption_eq_some_iff.mp hrun
  obtain ⟨f, hf, hrun⟩ := Option.map_eq_some_iff.mp hrun
  obtain ⟨m, hm, hrun⟩ := Option.map_eq_some_iff.mp hrun
  simp only [Prod.mk.injEq] at hrun
  obtain ⟨m', hm', _, herror, hsilent⟩ :=
    Program.surfaceOf_fails_first Snapshot.diamond_conforms hload (nameOf_str "c") hf
  obtain rfl : m = m' := Option.some.inj (hm.symm.trans hm')
  have hfails := (herror _).mpr hrun.2
  exact ⟨p, f, m, hload, hf, hm, hrun.1, hfails, hsilent _ hfails⟩

end ApiSurface
