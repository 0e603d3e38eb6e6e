import ApiSurface.Proofs.Accounting
import ApiSurface.Proofs.Comparison
import ApiSurface.Proofs.Faults
import ApiSurface.Proofs.Placement
import ApiSurface.Proofs.Stability

/-! The order of collected exports. They come in the order of their places, with those that have
none at the end, and exports of equal places, or without places, in the order in which the entry
exports them. A symbol that is exported under several names counts where it is exported first.
The order is that of the places only if these have one: a place that is no number tells nothing
about its neighbours. -/

namespace ApiSurface

open Program

/-! ### Rankings of places -/

namespace Ranking

variable {α β : Type}

/-- Elements are ranked by what belongs to them. -/
def on (R : Ranking β) (f : α → β) : Ranking α where
  le x y := R.le (f x) (f y)
  lt x y := R.lt (f x) (f y)
  le_trans := R.le_trans
  lt_of_le_of_lt := R.lt_of_le_of_lt
  lt_of_lt_of_le := R.lt_of_lt_of_le
  le_of_lt := R.le_of_lt
  lt_irrefl x := R.lt_irrefl (f x)

/-- What is missing goes last. -/
def missingLast (R : Ranking α) : Ranking (Option α) where
  le
    | some x, some y => R.le x y
    | none, some _ => False
    | _, none => True
  lt
    | some x, some y => R.lt x y
    | some _, none => True
    | none, _ => False
  le_trans {x y z} hxy hyz := by
    match x, y, z with
    | some _, some _, some _ => exact R.le_trans hxy hyz
    | none, some _, _ => exact hxy.elim
    | _, none, some _ => exact hyz.elim
    | some _, _, none => trivial
    | none, none, none => trivial
  lt_of_le_of_lt {x y z} hxy hyz := by
    match x, y, z with
    | some _, some _, some _ => exact R.lt_of_le_of_lt hxy hyz
    | some _, some _, none => trivial
    | none, some _, _ => exact hxy.elim
    | _, none, _ => exact hyz.elim
  lt_of_lt_of_le {x y z} hxy hyz := by
    match x, y, z with
    | some _, some _, some _ => exact R.lt_of_lt_of_le hxy hyz
    | some _, _, none => trivial
    | some _, none, some _ => exact hyz.elim
    | none, _, _ => exact hxy.elim
  le_of_lt {x y} hxy := by
    match x, y with
    | some _, some _ => exact R.le_of_lt hxy
    | some _, none => trivial
    | none, _ => exact hxy.elim
  lt_irrefl
    | some x => R.lt_irrefl x
    | none => id

end Ranking

namespace Json

/-- Values are ranked by their order, except for the one that is no number. -/
def ranking : Ranking Json where
  le x y := x.Regular ∧ y.Regular ∧ x.AtMost y
  lt x y := x.Regular ∧ y.Regular ∧ x.AtMost y ∧ x.same y = false
  le_trans := fun ⟨hx, hy, hxy⟩ ⟨_, hz, hyz⟩ => ⟨hx, hz, ordered_regular.trans hx hy hz hxy hyz⟩
  lt_of_le_of_lt := fun ⟨hx, hy, hxy⟩ ⟨_, hz, hyz, hne⟩ => by
    refine ⟨hx, hz, ordered_regular.trans hx hy hz hxy hyz, Bool.eq_false_iff.mpr fun hxz => ?_⟩
    have hzy := ordered_regular.trans hz hx hy (Or.inl (ordered_regular.symm hx hz hxz)) hxy
    rw [ordered_regular.antisymm hy hz hyz hzy] at hne
    cases hne
  lt_of_lt_of_le := fun ⟨hx, hy, hxy, hne⟩ ⟨_, hz, hyz⟩ => by
    refine ⟨hx, hz, ordered_regular.trans hx hy hz hxy hyz, Bool.eq_false_iff.mpr fun hxz => ?_⟩
    have hyx := ordered_regular.trans hy hz hx hyz (Or.inl (ordered_regular.symm hx hz hxz))
    rw [ordered_regular.antisymm hx hy hxy hyx] at hne
    cases hne
  le_of_lt := fun ⟨hx, hy, hxy, _⟩ => ⟨hx, hy, hxy⟩
  lt_irrefl _ := fun ⟨hx, _, hle, hne⟩ => by
    rw [ordered_regular.antisymm hx hx hle hle] at hne
    cases hne

/-- What the test of two places says, where equal places are not tested. -/
theorem told_before? {x y : Json} (hx : x.Regular) (hy : y.Regular) :
    ranking.Told x y (if x.same y then some false else x.before? y) := by
  split
  · rename_i hxy
    exact ⟨nofun, fun _ => ⟨hy, hx, Or.inl (ordered_regular.symm hx hy hxy)⟩⟩
  · rename_i hxy
    exact ⟨fun hb => ⟨hx, hy, Or.inr hb, Bool.eq_false_iff.mpr hxy⟩,
      fun hb => ⟨hy, hx, ordered_regular.decides hx hy hb⟩⟩

end Json

namespace Program

variable {p : Program} {S : Shape}

/-- Symbols are ranked by their places, those without a place last. -/
def placeRanking (positions : Table SymbolId Json) : Ranking SymbolId :=
  Json.ranking.missingLast.on positions.get?

/-- No place of a symbol is, or holds, the value that is no number. -/
def RegularPlaces (positions : Table SymbolId Json) (symbols : List SymbolId) : Prop :=
  ∀ s ∈ symbols, ∀ x, positions.get? s = some x → x.Regular

theorem tells_placedBefore? {positions : Table SymbolId Json} {symbols : List SymbolId}
    (h : RegularPlaces positions symbols) :
    (placeRanking positions).Tells (placedBefore? positions) symbols := by
  intro a ha b hb
  change Json.ranking.missingLast.Told (positions.get? a) (positions.get? b)
    (placedBefore? positions a b)
  unfold placedBefore?
  cases hx : positions.get? a with
  | none => exact ⟨nofun, fun _ => by cases positions.get? b <;> trivial⟩
  | some x =>
    cases hy : positions.get? b with
    | none => exact ⟨fun _ => trivial, nofun⟩
    | some y => exact Json.told_before? (h a ha x hx) (h b hb y hy)

/-! ### The order of exports -/

theorem pairwise_idxOf_foldl_addOnce {α : Type} [DecidableEq α] (l : List α) :
    (l.foldl addOnce []).Pairwise fun a b => l.idxOf a < l.idxOf b := by
  -- from the back, since an element goes behind what is already there
  induction l using List.reverseRecOn with
  | nil => exact .nil
  | append_singleton l x ih =>
    have hmem (a : α) (ha : a ∈ l.foldl addOnce []) : (l ++ [x]).idxOf a = l.idxOf a :=
      List.idxOf_append_of_mem ((mem_foldl_addOnce.mp ha).resolve_left (by simp))
    have hl : (l.foldl addOnce []).Pairwise fun a b => (l ++ [x]).idxOf a < (l ++ [x]).idxOf b :=
      ih.imp_of_mem fun ha hb hlt => by rwa [hmem _ ha, hmem _ hb]
    rw [List.foldl_append, List.foldl_cons, List.foldl_nil, addOnce]
    split
    · exact hl
    · rename_i hx
      have hx : x ∉ l := fun h => hx (mem_foldl_addOnce.mpr (Or.inr h))
      refine List.pairwise_append.mpr ⟨hl, List.pairwise_singleton .., fun a ha b hb => ?_⟩
      obtain rfl := List.mem_singleton.mp hb
      have hal : a ∈ l := (mem_foldl_addOnce.mp ha).resolve_left (by simp)
      rw [hmem a ha, List.idxOf_append_of_notMem hx]
      exact Nat.lt_add_right _ (List.idxOf_lt_length_of_mem hal)

/-- An export goes before another one: by its place, which is at most that of the other one, or
as the only one that has a place. Where the places are equal, or both are missing, it has to be
exported first. -/
def Precedes (positions : Table SymbolId Json) (exported : List SymbolId) (a b : SymbolId) :
    Prop :=
  match positions.get? a, positions.get? b with
  | some x, some y => x.AtMost y ∧ (x.same y = true → exported.idxOf a < exported.idxOf b)
  | some _, none => True
  | none, some _ => False
  | none, none => exported.idxOf a < exported.idxOf b

theorem precedes_of_le {positions : Table SymbolId Json} {exported : List SymbolId}
    {a b : SymbolId} (hle : (placeRanking positions).le a b)
    (htied : (placeRanking positions).le b a → exported.idxOf a < exported.idxOf b) :
    Precedes positions exported a b := by
  change Json.ranking.missingLast.le (positions.get? a) (positions.get? b) at hle
  change Json.ranking.missingLast.le (positions.get? b) (positions.get? a) → _ at htied
  unfold Precedes
  cases hx : positions.get? a with
  | none =>
    cases hy : positions.get? b with
    | none => exact htied (by rw [hx, hy]; trivial)
    | some y =>
      rw [hx, hy] at hle
      exact hle
  | some x =>
    cases hy : positions.get? b with
    | none => trivial
    | some y =>
      rw [hx, hy] at hle htied
      obtain ⟨hrx, hry, hxy⟩ := hle
      exact ⟨hxy, fun hs => htied ⟨hry, hrx, Or.inl (Json.ordered_regular.symm hrx hry hs)⟩⟩

/-- The declared symbols of a sorted list, each once, are in the order of their places. -/
theorem pairwise_precedes {positions : Table SymbolId Json} {exported excluded r : List SymbolId}
    (h : RegularPlaces positions (exported.filter (· ∉ excluded)))
    (hr : sortBy? (placedBefore? positions) (exported.filter (· ∉ excluded)) = some r)
    (declared : SymbolId → Bool) :
    ((r.filter declared).foldl addOnce []).Pairwise (Precedes positions exported) := by
  have hsorts := sortBy?_sorts (tells_placedBefore? h) hr
  refine (pairwise_idxOf_foldl_addOnce _).imp_of_mem fun {a b} ha hb hlt => ?_
  have ha := (mem_foldl_addOnce.mp ha).resolve_left (by simp)
  have hb := (mem_foldl_addOnce.mp hb).resolve_left (by simp)
  have har := List.mem_of_mem_filter ha
  have hbr := List.mem_of_mem_filter hb
  have hlt : r.idxOf a < r.idxOf b := idxOf_lt_of_filter ha hb hlt
  have hle := rel_of_idxOf_lt hsorts.sorted hbr hlt
  refine precedes_of_le hle fun hge => ?_
  have hlt := (hsorts.idxOf_lt_iff har hle hge).mp hlt
  exact idxOf_lt_of_filter (hsorts.moves.perm.subset har) (hsorts.moves.perm.subset hbr) hlt

/-- What the exports of a surface are made of. -/
theorem WellFormed.surface_exports (h : p.WellFormed S []) {f : SourceFile} (hf : f ∈ p.sources)
    (hm : f.isModule = true) {s : Surface} (hs : p.surface f.id = .ok s) :
    ∃ exported b positions r, p.exportsOf f.symbol = .ok exported ∧
      p.boundary f.symbol = .ok b ∧ p.positions f.symbol = .ok positions ∧
      sortBy? (placedBefore? positions) (exported.filter (· ∉ b.symbols)) = some r ∧
      (p.exportAll r).result = .ok s.exports := by
  obtain ⟨s', hs', rfl⟩ := surface_eq_ok_iff.mp hs
  obtain ⟨b, r, hb, hr, hexports, _⟩ := h.collection_eq_ok hf hs'
  rw [h.discovery_of_module hf hm] at hr
  obtain ⟨exported, he, hr'⟩ := Pass.result_lift_bind_eq_ok.mp hr
  obtain ⟨positions, hpos, _⟩ := Pass.result_lift_bind_eq_ok.mp hr'
  rw [h.orderedExports_eq he hpos] at hr
  exact ⟨exported, b, positions, r, he, hb, hpos, sortedBy_eq_ok_iff.mp hr, hexports⟩

/-- The exports of a surface are the exports of the entry module outside its boundary that stand
for something declared. Each is there once, with the symbol that it stands for and the references
of that one. They are in the order of their places if all places that are compared have an order,
which only the value that is no number does not have, and so if the starts of nodes are integers. -/
theorem surface_exports_ordered {doc : Json} (hp : Snapshot.load doc = .ok p) {f : SourceFile}
    (hf : f ∈ p.sources) (hm : f.isModule = true) {s : Surface} (hs : p.surface f.id = .ok s) :
    ∃ entry exported b positions, p.symbolAt f.id = some entry ∧
      p.exportsOf entry = .ok exported ∧ p.boundary entry = .ok b ∧
      p.positions entry = .ok positions ∧ s.exports.keys.Nodup ∧
      (∀ x, x ∈ s.exports.keys ↔
        x ∈ exported ∧ x ∉ b.symbols ∧ (p.symbol (p.terminal x)).declarations ≠ []) ∧
      (∀ x e, s.exports.get? x = some e →
        e.terminal = p.terminal x ∧ p.references (p.terminal x) = .ok e.references) ∧
      (RegularPlaces positions (exported.filter (· ∉ b.symbols)) →
        s.exports.keys.Pairwise (Precedes positions exported)) ∧
      (Snapshot.Conforms .plain doc → s.exports.keys.Pairwise (Precedes positions exported)) := by
  have h := Snapshot.wellFormed_of_load (Snapshot.conforms_any doc) hp
  obtain ⟨exported, b, positions, r, he, hb, hpos, hr, hexports⟩ := h.surface_exports hf hm hs
  have hmem (x : SymbolId) : x ∈ r ↔ x ∈ exported ∧ x ∉ b.symbols := by
    rw [(sortBy?_perm hr).mem_iff, List.mem_filter, decide_eq_true_eq]
  have hids (x : SymbolId) (hx : x ∈ r) : x ∈ p.symbolIds := by
    obtain ⟨n, hn⟩ := (mem_exportsOf he).mp ((hmem x).mp hx).1
    exact (h.holds_of_exposes hn).1
  obtain ⟨t, ht, hkeys, hget⟩ := h.exportAll_eq hids
  rw [ht] at hexports
  obtain rfl := Except.ok.inj hexports
  have hkey (x : SymbolId) : x ∈ s.exports.keys ↔ x ∈ r ∧ p.isDeclared x = true := by
    rw [hkeys, mem_foldl_addOnce, List.mem_filter]
    simp
  have hordered (hplaces : RegularPlaces positions (exported.filter (· ∉ b.symbols))) :
      s.exports.keys.Pairwise (Precedes positions exported) := by
    rw [hkeys]
    exact pairwise_precedes hplaces hr p.isDeclared
  refine ⟨f.symbol, exported, b, positions, h.symbolAt_file hf, he, hb, hpos, s.exports.nodup,
    fun x => ?_, fun x e hx => ?_, hordered, fun hc => hordered fun x _ place hx => ?_⟩
  · rw [hkey, hmem, and_assoc]
    simp [isDeclared]
  · have hr := ((hkey x).mp (Table.mem_keys_iff_get?.mpr ⟨e, hx⟩)).1
    obtain ⟨rs, hrs, hexport⟩ := h.export?_eq (hids x hr)
    have hsome := Except.ok.inj ((hget x e hx).symm.trans hexport)
    split at hsome
    · rw [Option.some.inj hsome]
      exact ⟨rfl, hrs⟩
    · cases hsome
  · have hplain := Snapshot.wellFormed_of_load hc hp
    obtain ⟨t, ht, hmeasured⟩ := hplain.exists_positions (hplain.holds_fileSymbol hf).1
      (boundary_eq_ok_iff.mp hb).2
    obtain rfl := Except.ok.inj (hpos.symm.trans ht)
    obtain ⟨n, rfl⟩ := hmeasured x place hx
    exact .int n

end Program

/-! ### Places with and without an order -/

namespace Snapshot

/-- The entry of a declaration at a place. -/
def placedEntry (id : String) (start : Int) : Json :=
  .obj [("id", .str id), ("kind", .str "interface_declaration"), ("start", .int start)]

/-- The entry of a wildcard re-export at a place. -/
def wildcardEntry (specifier : String) (start : Json) : Json :=
  .obj [("kind", .str "export_declaration"), ("start", start),
    ("moduleSpecifier", .str specifier)]

/-- A module that exports two symbols of its own, one of them twice, aliases of both, and two
symbols of another module. -/
def shuffled : Json :=
  .obj [("symbols", .arr (["X", "Y", "P", "Q"].map declaredEntry ++
      [.obj [("id", .str "Z"), ("name", .str "Z"), ("aliasOf", .str "X")],
        .obj [("id", .str "W"), ("name", .str "W"), ("aliasOf", .str "Y")]])),
    ("files", .arr [
      .obj [("fileName", .str "main"),
        ("statements", .arr [placedEntry "X" 5, placedEntry "Y" 2, wildcardEntry "./a" (.int 3)]),
        ("exports", .obj [("Z", .str "Z"), ("X", .str "X"), ("W", .str "W"), ("Y", .str "Y"),
          ("V", .str "X")])],
      declaringEntry "a" ["P", "Q"] []]),
    ("resolutions", .arr [resolutionEntry "main" "./a" "a"])]

end Snapshot

/-- The module's own symbols with those of the other module between them, and then the aliases,
which have no places. -/
theorem exports_ordered_shuffled : ∃ p f s m exported positions,
    Snapshot.load Snapshot.shuffled = .ok p ∧ f ∈ p.sources ∧ f.isModule = true ∧
    p.surface f.id = .ok s ∧ p.symbolAt f.id = some m ∧
    p.exportsOf m = .ok exported ∧ p.positions m = .ok positions ∧
    exported = ["Z", "X", "W", "Y", "X", "P", "Q"].map (fun s => .listed (.text s)) ∧
    positions.entries = [("X", 5), ("Y", 2), ("P", 3), ("Q", 3)].map
      (fun e => (.listed (.text e.1), .int e.2)) ∧
    s.exports.keys = ["Y", "P", "Q", "X", "Z", "W"].map (fun s => .listed (.text s)) ∧
    RegularPlaces positions exported ∧ s.exports.keys.Pairwise (Precedes positions exported) := by
  have hrun : ((Snapshot.load Snapshot.shuffled).toOption.map fun p =>
      (p.sources.head?.map fun f => (f.isModule, p.symbolAt f.id,
          (p.surface f.id).toOption.map fun s => s.exports.keys),
        (p.positions (.ofFile (.node 0))).toOption.map Table.entries,
        p.exportsOf (.ofFile (.node 0)))) =
      some (some (true, some (.ofFile (.node 0)),
          some (["Y", "P", "Q", "X", "Z", "W"].map fun s => .listed (.text s))),
        some ([("X", 5), ("Y", 2), ("P", 3), ("Q", 3)].map
          fun e => (.listed (.text e.1), .int e.2)),
        .ok (["Z", "X", "W", "Y", "X", "P", "Q"].map fun s => .listed (.text s))) := by cbv
  obtain ⟨p, hload, hrun⟩ := map_toOption_eq_some_iff.mp hrun
  simp only [Prod.mk.injEq] at hrun
  obtain ⟨hfile, hpositions, hexports⟩ := hrun
  obtain ⟨f, hf, hfile⟩ := Option.map_eq_some_iff.mp hfile
  simp only [Prod.mk.injEq] at hfile
  obtain ⟨hm, hentry, hsurface⟩ := hfile
  obtain ⟨s, hs, hkeys⟩ := map_toOption_eq_some_iff.mp hsurface
  obtain ⟨positions, hpos, hentries⟩ := map_toOption_eq_some_iff.mp hpositions
  have hf := List.mem_of_head? hf
  obtain ⟨m, exported, b, positions', he, hexported, _, hpos', _, _, _, hordered, _⟩ :=
    surface_exports_ordered hload hf hm hs
  obtain rfl := Option.some.inj (hentry.symm.trans he)
  obtain rfl := Except.ok.inj (hexports.symm.trans hexported)
  obtain rfl := Except.ok.inj (hpos.symm.trans hpos')
  have hregular (x : SymbolId) (place : Json) (hx : positions.get? x = some place) :
      place.Regular := by
    have hx := Table.get?_eq_some_iff.mp hx
    rw [hentries] at hx
    obtain ⟨e, _, he⟩ := List.mem_map.mp hx
    exact (Prod.mk.inj he).2 ▸ .int e.2
  exact ⟨p, f, s, _, _, positions, hload, hf, hm, hs, he, hexported, hpos, rfl, hentries, hkeys,
    fun x _ => hregular x, hordered fun x _ => hregular x⟩

namespace Snapshot

/-- A module that re-exports three others. The second one exports a symbol that is not declared,
and the place where that happens is no number. -/
def unordered : Json :=
  .obj [("symbols", .arr [
      .obj [("id", .str "A"), ("name", .str "A"), ("declarations", .arr [.str "a"])],
      .obj [("id", .str "B"), ("name", .str "B")],
      .obj [("id", .str "C"), ("name", .str "C"), ("declarations", .arr [.str "c"])]]),
    ("files", .arr [
      .obj [("fileName", .str "main"), ("statements", .arr [wildcardEntry "./a" (.int 3),
        wildcardEntry "./b" (.real .nan), wildcardEntry "./c" (.int 1)])],
      .obj [("fileName", .str "a"), ("statements", .arr [interfaceEntry "a" []]),
        ("exports", .obj [("A", .str "A")])],
      .obj [("fileName", .str "b"), ("exports", .obj [("B", .str "B")])],
      .obj [("fileName", .str "c"), ("statements", .arr [interfaceEntry "c" []]),
        ("exports", .obj [("C", .str "C")])]]),
    ("resolutions", .arr [resolutionEntry "main" "./a" "a", resolutionEntry "main" "./b" "b",
      resolutionEntry "main" "./c" "c"])]

end Snapshot

/-- The first and the last symbol are never compared, so they stay as they were, although the
place of the first one is behind that of the last one. -/
theorem not_precedes_unordered : ∃ p f s m exported positions,
    Snapshot.load Snapshot.unordered = .ok p ∧ f ∈ p.sources ∧ f.isModule = true ∧
    p.surface f.id = .ok s ∧ p.symbolAt f.id = some m ∧
    p.exportsOf m = .ok exported ∧ p.positions m = .ok positions ∧
    s.exports.keys = [.listed (.text "A"), .listed (.text "C")] ∧
    positions.get? (.listed (.text "A")) = some (.int 3) ∧
    positions.get? (.listed (.text "C")) = some (.int 1) ∧
    ¬s.exports.keys.Pairwise (Precedes positions exported) := by
  have hrun : ((Snapshot.load Snapshot.unordered).toOption.map fun p =>
      (p.sources.head?.map fun f => (f.isModule, p.symbolAt f.id,
          (p.surface f.id).toOption.map fun s => s.exports.keys),
        (p.positions (.ofFile (.node 0))).toOption.map fun t =>
          (t.get? (.listed (.text "A")), t.get? (.listed (.text "C"))),
        p.exportsOf (.ofFile (.node 0)))) =
      some (some (true, some (.ofFile (.node 0)),
          some [.listed (.text "A"), .listed (.text "C")]),
        some (some (.int 3), some (.int 1)),
        .ok (["A", "B", "C"].map fun s => .listed (.text s))) := by cbv
  obtain ⟨p, hload, hrun⟩ := map_toOption_eq_some_iff.mp hrun
  simp only [Prod.mk.injEq] at hrun
  obtain ⟨hfile, hpositions, hexports⟩ := hrun
  obtain ⟨f, hf, hfile⟩ := Option.map_eq_some_iff.mp hfile
  simp only [Prod.mk.injEq] at hfile
  obtain ⟨hm, hentry, hsurface⟩ := hfile
  obtain ⟨s, hs, hkeys⟩ := map_toOption_eq_some_iff.mp hsurface
  obtain ⟨positions, hpos, hplaces⟩ := map_toOption_eq_some_iff.mp hpositions
  obtain ⟨ha, hc⟩ := Prod.mk.inj hplaces
  refine ⟨p, f, s, _, _, positions, hload, List.mem_of_head? hf, hm, hs, hentry, hexports, hpos,
    hkeys, ha, hc, fun hordered => ?_⟩
  rw [hkeys, List.pairwise_pair, Precedes, ha, hc] at hordered
  have hle : ¬(Json.int 3).AtMost (.int 1) := by
    simp [Json.AtMost, Json.same, Json.key?, Json.before?, Json.quantity?, Quantity.below]
  exact hle hordered.1

end ApiSurface
