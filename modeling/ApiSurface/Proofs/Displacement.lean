import ApiSurface.Proofs.Ordering

/-! Where the exports of an entry module stand in the end. Those of the entry itself are placed
first, where they are declared, and then each statement that leads to a module of the project moves
all that this module exports. So an export of the entry stays where it is declared if no such module
exports it, and else it stands where the last one that does is reached from. A module may export
what belongs to the entry by leading back to it. -/

namespace ApiSurface

open Program

/-- A link moves a symbol if it leads to a module of the project that exports the symbol. -/
def Link.moves (p : Program) (s : SymbolId) (l : Link) : Bool :=
  !l.target.isExternal && decide (s ∈ (p.exportsOf l.target.root).toOption.getD [])

namespace Program

variable {p : Program} {entry s : SymbolId} {positions : Table SymbolId Json}

/-- The last link of a trail that moves a symbol. -/
def lastMove? (p : Program) (entry s : SymbolId) : Option Link :=
  ((p.trail entry).links.filter (Link.moves p s)).getLast?

/-- A module that can be reached within the project has a statement to another module of the
project, and that one exports the symbol. -/
def ExposedBehind (p : Program) (entry s : SymbolId) : Prop :=
  ∃ m, p.internalNetwork.Reaches entry m ∧ ∃ d ∈ p.internalNetwork.edges m, ∃ t,
    p.resolveWildcard d = .ok t ∧ t.isExternal = false ∧ ∃ n, p.Exposes t.root n s

/-! ### Moves -/

theorem mem_exportsOf_getD {m : SymbolId} :
    s ∈ (p.exportsOf m).toOption.getD [] ↔ ∃ n, p.Exposes m n s := by
  cases h : p.exportsOf m with
  | ok l => exact mem_exportsOf h
  | error e =>
    refine iff_of_false List.not_mem_nil ?_
    rintro ⟨n, t, ht, _⟩
    rw [exportsOf, ht] at h
    cases h

theorem moves_iff {l : Link} : l.moves p s = true ↔
    l.target.isExternal = false ∧ ∃ n, p.Exposes l.target.root n s := by
  rw [Link.moves, Bool.and_eq_true, Bool.not_eq_true', decide_eq_true_eq, mem_exportsOf_getD]

/-- A step puts a symbol at the anchor of its link, or leaves it where it is. -/
theorem get?_positionStep {t t' : Table SymbolId Json} {l : Link}
    (h : p.positionStep t l = .ok t') (s : SymbolId) :
    t'.get? s = if l.moves p s then some l.anchor.node.start else t.get? s := by
  unfold positionStep at h
  split at h
  · rename_i hext
    rw [← Except.ok.inj h, Link.moves, hext]
    rfl
  · rename_i hext
    obtain ⟨exported, he, h⟩ := bind_eq_ok_iff.mp h
    have hmoves : l.moves p s = true ↔ s ∈ exported := by
      simp [Link.moves, hext, he, Except.toOption]
    rw [← Except.ok.inj h, placeAll, Table.get?_foldl_insert]
    simp only [hmoves]

/-- After a run of links a symbol is at the anchor of the last one that moves it. -/
theorem get?_foldlM_positionStep {links : List Link} {t t' : Table SymbolId Json}
    (h : links.foldlM p.positionStep t = .ok t') (s : SymbolId) :
    t'.get? s = (((links.filter (Link.moves p s)).getLast?).map fun l =>
      l.anchor.node.start).or (t.get? s) := by
  induction links generalizing t with
  | nil =>
    obtain rfl := Except.ok.inj h
    rfl
  | cons l links ih =>
    rw [List.foldlM_cons] at h
    obtain ⟨t₁, ht₁, h⟩ := bind_eq_ok_iff.mp h
    rw [ih h, get?_positionStep ht₁]
    by_cases hl : l.moves p s = true
    · rw [if_pos hl, List.filter_cons_of_pos hl, List.getLast?_cons]
      cases (links.filter (Link.moves p s)).getLast? <;> rfl
    · rw [if_neg hl, List.filter_cons_of_neg hl]

/-! ### Own places -/

/-- The place of the first declaration of a symbol, if it has one. -/
def ownPlace? (p : Program) (s : SymbolId) : Except Fault (Option Json) := do
  return (← p.declaration? (← p.symbolOf s)).map fun d => d.node.start

/-- One more export of the entry is placed. -/
def ownStep (p : Program) (t : Table SymbolId Json) (s : SymbolId) :
    Except Fault (Table SymbolId Json) := do
  match ← p.declaration? (← p.symbolOf s) with
  | some d => return t.insert s d.node.start
  | none => return t

theorem ownStep_eq (t : Table SymbolId Json) (s : SymbolId) :
    p.ownStep t s = (p.ownPlace? s).map fun place => (place.map (t.insert s)).getD t := by
  unfold ownStep ownPlace?
  cases p.symbolOf s with
  | error e => rfl
  | ok x =>
    rw [ok_bind, ok_bind]
    cases p.declaration? x with
    | error e => rfl
    | ok d => cases d <;> rfl

/-- Symbols can be placed one after the other if each of them can. -/
theorem exists_foldlM_ownStep {l : List SymbolId} (h : ∀ s ∈ l, ∃ place, p.ownPlace? s = .ok place)
    (t : Table SymbolId Json) : ∃ t', l.foldlM p.ownStep t = .ok t' := by
  have hstep : ∀ s ∈ l, ∀ t, True → ∃ t', p.ownStep t s = .ok t' ∧ True := by
    intro s hs t _
    obtain ⟨place, hplace⟩ := h s hs
    exact ⟨_, by rw [ownStep_eq, hplace]; rfl, trivial⟩
  obtain ⟨t', ht', _⟩ := exists_foldlM trivial hstep
  exact ⟨t', ht'⟩

/-- After that a symbol is at its own place, whatever the order was in which they came. -/
theorem get?_foldlM_ownStep {l : List SymbolId} {t t' : Table SymbolId Json}
    (h : l.foldlM p.ownStep t = .ok t') (s : SymbolId) :
    (s ∈ l → ∃ place, p.ownPlace? s = .ok place ∧ t'.get? s = place.or (t.get? s)) ∧
      (s ∉ l → t'.get? s = t.get? s) := by
  induction l generalizing t with
  | nil =>
    obtain rfl := Except.ok.inj h
    exact ⟨nofun, fun _ => rfl⟩
  | cons x l ih =>
    rw [List.foldlM_cons] at h
    obtain ⟨t₁, hstep, h⟩ := bind_eq_ok_iff.mp h
    obtain ⟨hmem, hnot⟩ := ih h
    rw [ownStep_eq, map_eq_ok_iff] at hstep
    obtain ⟨place, hplace, rfl⟩ := hstep
    have hget : ((place.map (t.insert x)).getD t).get? s =
        if x = s then place.or (t.get? s) else t.get? s := by
      cases place with
      | none => simp
      | some start => simp [Table.get?_insert]
    rw [hget] at hmem hnot
    by_cases hx : x = s
    · subst hx
      rw [if_pos rfl] at hmem hnot
      refine ⟨fun _ => ⟨place, hplace, ?_⟩, fun h => absurd (.head _) h⟩
      by_cases hl : x ∈ l
      · obtain ⟨place', hplace', hlast⟩ := hmem hl
        obtain rfl := Except.ok.inj (hplace.symm.trans hplace')
        rw [hlast]
        cases place <;> simp
      · exact hnot hl
    · rw [if_neg hx] at hmem hnot
      simpa [Ne.symm hx] using And.intro hmem hnot

/-- At first a declared export of the entry is where its first declaration is. -/
theorem get?_ownPositions {own : Table SymbolId Json} (h : p.ownPositions entry = .ok own)
    (hs : s ∈ (p.ownExports entry).values) (hd : (p.symbol s).declarations ≠ []) :
    ∃ d, p.declaration? (p.symbol s) = .ok (some d) ∧ own.get? s = some d.node.start := by
  obtain ⟨place, hplace, hget⟩ := (get?_foldlM_ownStep h s).1 hs
  obtain ⟨x, hx, hplace⟩ := bind_eq_ok_iff.mp hplace
  obtain ⟨_, rfl⟩ := symbolOf_eq_ok_iff.mp hx
  obtain ⟨r, hr, hplace⟩ := bind_eq_ok_iff.mp hplace
  obtain rfl := Except.ok.inj hplace
  cases r with
  | some d => exact ⟨d, hr, by simpa using hget⟩
  | none =>
    unfold declaration? at hr
    split at hr
    · contradiction
    · simp at hr

/-- At first nothing but a declared export of the entry has a place. -/
theorem get?_ownPositions_eq_some {own : Table SymbolId Json}
    (h : p.ownPositions entry = .ok own) {v : Json} (hv : own.get? s = some v) :
    s ∈ (p.ownExports entry).values ∧ (p.symbol s).declarations ≠ [] ∧
      ∃ d, p.declaration? (p.symbol s) = .ok (some d) ∧ d.node.start = v := by
  obtain ⟨hmem, hnot⟩ := get?_foldlM_ownStep h s
  by_cases hs : s ∈ (p.ownExports entry).values
  · obtain ⟨place, hplace, hget⟩ := hmem hs
    obtain ⟨x, hx, hplace⟩ := bind_eq_ok_iff.mp hplace
    obtain ⟨_, rfl⟩ := symbolOf_eq_ok_iff.mp hx
    obtain ⟨r, hr, hplace⟩ := bind_eq_ok_iff.mp hplace
    obtain rfl := Except.ok.inj hplace
    rw [hv, Table.get?_empty, Option.or_none] at hget
    obtain ⟨d, rfl, hd⟩ := Option.map_eq_some_iff.mp hget.symm
    obtain ⟨n, rest, hdecl, _⟩ := declaration?_eq_some_iff.mp hr
    exact ⟨hs, by simp [hdecl], d, hr, hd⟩
  · rw [hnot hs, Table.get?_empty] at hv
    cases hv

theorem positions_eq_ok {entry : SymbolId} (h : p.positions entry = .ok positions) :
    ∃ own, p.ownPositions entry = .ok own ∧ (p.trail entry).fault = none ∧
      (p.trail entry).links.foldlM p.positionStep own = .ok positions := by
  rw [positions_eq_foldM] at h
  obtain ⟨own, hown, h⟩ := bind_eq_ok_iff.mp h
  obtain ⟨t, ht, h⟩ := bind_eq_ok_iff.mp h
  split at h
  · cases h
  · exact ⟨own, hown, ‹_›, Except.ok.inj h ▸ ht⟩

theorem lastMove?_eq_none_iff (h : (p.trail entry).fault = none) :
    p.lastMove? entry s = none ↔ ¬p.ExposedBehind entry s := by
  rw [lastMove?, List.getLast?_eq_none_iff, List.filter_eq_nil_iff]
  simp only [moves_iff]
  constructor
  · rintro hnone ⟨m, hm, d, hd, t, ht, hmoves⟩
    obtain ⟨l, hl, _, hresolve⟩ := exists_link_of_edge h hm hd
    obtain rfl : l.target = t := Except.ok.inj (hresolve.symm.trans ht)
    exact hnone l hl hmoves
  · rintro hnot l hl hmoves
    obtain ⟨m, hm, hd⟩ := edge_of_link h hl
    exact hnot ⟨m, hm, l.declaration, hd, l.target, (links_trail h l hl).1, hmoves⟩

theorem mem_of_lastMove? {l : Link} (h : p.lastMove? entry s = some l) :
    l ∈ (p.trail entry).links :=
  List.mem_of_mem_filter (List.mem_of_getLast? h)

/-- A declared export of the entry itself has a place. It is where its first declaration is, unless
a module of the project behind the entry exports it too. In that case it is at the statement of the
entry from which the last such module is reached, so that the export keeps its own place exactly if
that statement starts there. -/
theorem own_place_iff (hp : p.positions entry = .ok positions) {n : Key} {e : Exported}
    (he : (p.tableOf entry).get? n = some e) (hn : n ≠ .text wildcardName)
    (hd : (p.symbol e.symbol).declarations ≠ []) :
    ∃ d, p.declaration? (p.symbol e.symbol) = .ok (some d) ∧
      (¬p.ExposedBehind entry e.symbol → positions.get? e.symbol = some d.node.start) ∧
      (p.ExposedBehind entry e.symbol → ∃ l, p.lastMove? entry e.symbol = some l ∧
        l.anchor ∈ p.internalNetwork.edges entry ∧
        positions.get? e.symbol = some l.anchor.node.start) ∧
      (positions.get? e.symbol = some d.node.start ↔
        ∀ l, p.lastMove? entry e.symbol = some l → l.anchor.node.start = d.node.start) := by
  obtain ⟨own, hown, hfault, hrun⟩ := positions_eq_ok hp
  have hmem : e.symbol ∈ (p.ownExports entry).values := by
    refine Table.mem_values_iff.mpr ⟨n, List.mem_map.mpr ⟨(n, e), ?_, rfl⟩⟩
    exact List.mem_filter.mpr ⟨Table.get?_eq_some_iff.mp he, by simpa using hn⟩
  obtain ⟨d, hd, hfirst⟩ := get?_ownPositions hown hmem hd
  have hplace := get?_foldlM_positionStep hrun e.symbol
  rw [hfirst] at hplace
  change positions.get? e.symbol = ((p.lastMove? entry e.symbol).map fun l =>
    l.anchor.node.start).or (some d.node.start) at hplace
  have hbehind := lastMove?_eq_none_iff (s := e.symbol) hfault
  refine ⟨d, hd, fun hnot => ?_, fun hexposed => ?_, ?_⟩
  · rw [hplace, hbehind.mpr hnot]
    rfl
  · obtain ⟨l, hl⟩ := Option.ne_none_iff_exists'.mp fun h => hbehind.mp h hexposed
    refine ⟨l, hl, (links_trail hfault l (mem_of_lastMove? hl)).2, ?_⟩
    rw [hplace, hl]
    rfl
  · rw [hplace]
    cases p.lastMove? entry e.symbol with
    | none => simp
    | some l => simp

end Program

/-! ### A module that leads back -/

namespace Snapshot

/-- A module with two declarations and, between them, a statement to a module that leads back to
it. -/
def roundTrip : Json :=
  .obj [("symbols", .arr (["A", "B"].map declaredEntry)),
    ("files", .arr [
      .obj [("fileName", .str "main"), ("statements", .arr [placedEntry "B" 10,
          wildcardEntry "./b" (.int 20), placedEntry "A" 30]),
        ("exports", .obj [("A", .str "A"), ("B", .str "B")])],
      .obj [("fileName", .str "b"), ("statements", .arr [wildcardEntry "./main" (.int 0)])]]),
    ("resolutions", .arr [resolutionEntry "main" "./b" "b", resolutionEntry "b" "./main" "main"])]

end Snapshot

/-- The export stands at the statement instead of its declaration, and so do all others, which are
therefore not in the order of the source. -/
theorem own_place_roundTrip : ∃ p f s m positions e d,
    Snapshot.load Snapshot.roundTrip = .ok p ∧ f ∈ p.sources ∧ p.surface f.id = .ok s ∧
    p.symbolAt f.id = some m ∧ p.positions m = .ok positions ∧
    (p.tableOf m).get? (.text "A") = some e ∧
    p.declaration? (p.symbol e.symbol) = .ok (some d) ∧ d.node.start = .int 30 ∧
    positions.get? e.symbol = some (.int 20) ∧ p.ExposedBehind m e.symbol ∧
    s.exports.keys = ["A", "B"].map fun s => .listed (.text s) := by
  have hrun : ((Snapshot.load Snapshot.roundTrip).toOption.map fun p =>
      (p.sources.head?.map fun f =>
          (p.symbolAt f.id, (p.surface f.id).toOption.map fun s => s.exports.keys),
        (p.positions (.ofFile (.node 0))).toOption.map fun t => t.get? (.listed (.text "A")),
        ((p.tableOf (.ofFile (.node 0))).get? (.text "A")).map Exported.symbol,
        (p.symbol (.listed (.text "A"))).declarations,
        (p.declaration? (p.symbol (.listed (.text "A")))).toOption.map fun d =>
          d.map fun d => d.node.start)) =
      some (some (some (.ofFile (.node 0)),
          some (["A", "B"].map fun s => .listed (.text s))),
        some (some (.int 20)), some (.listed (.text "A")), [.node 4],
        some (some (.int 30))) := by cbv
  obtain ⟨p, hload, hrun⟩ := map_toOption_eq_some_iff.mp hrun
  simp only [Prod.mk.injEq] at hrun
  obtain ⟨hfile, hpositions, htable, hdeclared, hstart⟩ := hrun
  obtain ⟨f, hf, hfile⟩ := Option.map_eq_some_iff.mp hfile
  obtain ⟨hentry, hsurface⟩ := Prod.mk.inj hfile
  obtain ⟨s, hs, hkeys⟩ := map_toOption_eq_some_iff.mp hsurface
  obtain ⟨positions, hpos, hplace⟩ := map_toOption_eq_some_iff.mp hpositions
  obtain ⟨e, he, hsymbol⟩ := Option.map_eq_some_iff.mp htable
  rw [← hsymbol] at hplace hdeclared hstart
  obtain ⟨d, hd, hkept, _⟩ := own_place_iff hpos he (by decide) (by simp [hdeclared])
  have hstart : d.node.start = .int 30 := by
    rw [hd] at hstart
    exact Option.some.inj (Option.some.inj hstart)
  refine ⟨p, f, s, _, positions, e, d, hload, List.mem_of_head? hf, hs, hentry, hpos, he, hd,
    hstart, hplace, ?_, hkeys⟩
  by_contra hnot
  have hplace' := hkept hnot
  rw [hplace, hstart] at hplace'
  simp at hplace'

end ApiSurface
