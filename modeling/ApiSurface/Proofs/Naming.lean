import ApiSurface.Proofs.Accounting
import ApiSurface.Proofs.Ordering
import ApiSurface.Report.View

/-! The names of a surface. A module exports by the keys of its table, and the symbols alone are
handed on from there. A surface reports each of them once and under its own name, so the public
names come back exactly if each symbol that is kept is exported under its own name and no other. -/

namespace ApiSurface

open Program

/-! ### Equality of names -/

namespace Json

theorem isText_iff {j : Json} {s : String} : j.isText s = true ↔ j.key? = some (.text s) := by
  cases j with
  | str t => simp [isText, key?]
  | real b => cases hb : b.toInt? <;> simp [isText, key?, hb]
  | null | bool | int | arr | obj => simp [isText, key?]

theorem eq_str_of_key? {j : Json} {s : String} (h : j.key? = some (.text s)) : j = .str s := by
  cases j with
  | str t => exact congrArg Json.str (Key.text.inj (Option.some.inj h))
  | real b => cases hb : b.toInt? <;> simp [key?, hb] at h
  | null | bool | int | arr | obj => simp [key?] at h

theorem eq_nan_of_key? {j : Json} (h : j.key? = some (.real .nan)) : j = .real .nan := by
  cases j with
  | real b => cases hb : b.toInt? <;> simp_all [key?]
  | null | bool | int | str | arr | obj => simp [key?] at h

/-- A value equals one that has a key exactly if it has the same key, and that is not the key of
the value that is no number. -/
theorem equals_iff {x y : Json} {k : Key} (hy : y.key? = some k) :
    x.equals y = true ↔ x.key? = some k ∧ k ≠ .real .nan := by
  unfold equals
  split
  · have hnan : (Json.real .nan).key? = some (.real .nan) := rfl
    rw [hnan]
    simp [eq_comm]
  · rename_i hx
    have hk (h : x.key? = some k) : k ≠ .real .nan := by
      rintro rfl
      exact hx (eq_nan_of_key? h)
    rw [and_iff_left_of_imp hk]
    cases hkey : x.key? with
    | some l => rw [same_of_key? hkey, hy, eq_comm]
    | none =>
      refine iff_of_false (fun h => ?_) (by simp)
      have hkind := kind_of_same h
      rw [kind_of_key? hy] at hkind
      cases x <;> cases k <;> simp_all [kind, key?, Kind.ofKey]

end Json

theorem key?_of_nameOf {j : Json} {n : Name} (h : nameOf j = .ok n) : j.key? = some n.key := by
  unfold nameOf Json.name? at h
  split at h
  · rename_i hn
    split at hn
    · rename_i hk
      rw [← Except.ok.inj h, ← Option.some.inj hn]
      exact hk
    · cases hn
  · cases h

/-! ### Reported names -/

/-- The names under which a report lists exports. -/
def reportedNames (report : Json) : List Json :=
  (Snapshot.entriesOf report "exports").filterMap (Snapshot.memberOf · "export")

/-- The own names of the exports of a surface, in their order. -/
def Surface.ownNames (s : Surface) (p : Program) : List Json :=
  s.exports.keys.map fun x => (p.symbol x).name

/-- A module exports a symbol under a name, no library that is passed through has the symbol, and
it stands for something declared. -/
structure Program.Offers (p : Program) (m : SymbolId) (b : Boundary) (n : Key) (x : SymbolId) :
    Prop where
  exposed : p.Exposes m n x
  inside : x ∉ b.symbols
  declared : (p.symbol (p.terminal x)).declarations ≠ []

/-- A surface gives back the names under which symbols are offered. -/
structure Surface.Publishes (s : Surface) (p : Program) (offers : Key → SymbolId → Prop) :
    Prop where
  nodup : ((s.ownNames p).map Json.key?).Nodup
  reported : ∀ k, k ∈ (s.ownNames p).map Json.key? ↔ ∃ n x, k = some n ∧ offers n x
  found : ∀ n x, offers n x → ∀ j : Json, j.key? = some n → ∃ e, s.findExport? p j = some (x, e)
  names : ∀ n, n ∈ s.names.keys ↔ n ≠ .text defaultName ∧ ∃ x, offers n x

namespace Program

variable {S : Shape} {p : Program} {f : SourceFile} {m x y : SymbolId} {n : Key} {s : Surface}

theorem Exposes.unique (hx : p.Exposes m n x) (hy : p.Exposes m n y) : x = y := by
  obtain ⟨t, ht, hx⟩ := hx
  obtain ⟨u, hu, hy⟩ := hy
  obtain rfl := Except.ok.inj (ht.symm.trans hu)
  exact Option.some.inj (hx.symm.trans hy)

theorem isDeclared_iff :
    p.isDeclared x = true ↔ (p.symbol (p.terminal x)).declarations ≠ [] := by
  rw [isDeclared, Bool.not_eq_true', List.isEmpty_eq_false_iff]

theorem mem_ownNames_key {k : Option Key} :
    k ∈ (s.ownNames p).map Json.key? ↔ ∃ x ∈ s.exports.keys, (p.symbol x).name.key? = k := by
  simp [Surface.ownNames]

theorem exportJson_member {limit : Option Int} {e : Export} {item : Json}
    (h : p.exportJson limit x e = .ok item) :
    Snapshot.memberOf item "export" = some (p.symbol x).name := by
  obtain ⟨original, _, h⟩ := bind_eq_ok_iff.mp h
  obtain rfl := Except.ok.inj h
  rfl

theorem filterMap_exportJson {limit : Option Int} {entries : List (SymbolId × Export)}
    {items : List Json}
    (h : List.Forall₂ (fun e item => p.exportJson limit e.1 e.2 = .ok item) entries items) :
    items.filterMap (Snapshot.memberOf · "export") =
      (entries.map Prod.fst).map fun x => (p.symbol x).name := by
  induction h with
  | nil => rfl
  | cons he _ ih => simp only [List.filterMap_cons, exportJson_member he, ih, List.map_cons]

/-- A report lists the exports under their own names. -/
theorem reportedNames_surfaceJson {limit : Option Int} {report : Json}
    (h : p.surfaceJson limit s = .ok report) : reportedNames report = s.ownNames p := by
  obtain ⟨items, hitems, h⟩ := bind_eq_ok_iff.mp h
  obtain ⟨externals, _, h⟩ := bind_eq_ok_iff.mp h
  obtain ⟨globals, _, h⟩ := bind_eq_ok_iff.mp h
  obtain rfl := Except.ok.inj h
  exact filterMap_exportJson (mapM_eq_ok_iff.mp hitems)

/-! ### The names other than the default one -/

theorem exportNames_surface (h : p.WellFormed S []) (hf : f ∈ p.sources)
    (hs : p.surface f.id = .ok s) : p.exportNames s.exports.keys = .ok s.names := by
  obtain ⟨s', hs', rfl⟩ := surface_eq_ok_iff.mp hs
  rw [h.collection_eq hf] at hs'
  obtain ⟨b, _, hs'⟩ := Pass.result_lift_bind_eq_ok.mp hs'
  obtain ⟨l, _, hs'⟩ := Pass.result_bind_eq_ok.mp hs'
  obtain ⟨t, _, hs'⟩ := Pass.result_bind_eq_ok.mp hs'
  obtain ⟨names, hnames, hs'⟩ := Pass.result_lift_bind_eq_ok.mp hs'
  obtain rfl := Except.ok.inj hs'
  exact hnames

/-- Collecting the names of a list adds their keys to those that are there. -/
theorem mem_keys_foldlM_nameOf {l : List SymbolId} {t u : Table Key Name}
    (h : l.foldlM (fun t x => do
      let n ← nameOf (p.symbol x).name
      return t.insertNew n.key n) t = Except.ok u) :
    n ∈ u.keys ↔ n ∈ t.keys ∨ ∃ x ∈ l, (p.symbol x).name.key? = some n := by
  induction l generalizing t with
  | nil =>
    obtain rfl := Except.ok.inj h
    simp
  | cons x l ih =>
    rw [List.foldlM_cons] at h
    obtain ⟨t', ht', h⟩ := bind_eq_ok_iff.mp h
    obtain ⟨name, hname, ht'⟩ := bind_eq_ok_iff.mp ht'
    obtain rfl := Except.ok.inj ht'
    rw [ih h, Table.mem_keys_insertNew, or_comm (b := n ∈ t.keys), or_assoc]
    simp only [List.mem_cons, exists_eq_or_imp, key?_of_nameOf hname, Option.some.injEq,
      @eq_comm _ n]

theorem mem_keys_exportNames {l : List SymbolId} {t : Table Key Name}
    (h : p.exportNames l = .ok t) : n ∈ t.keys ↔
      n ≠ .text defaultName ∧ ∃ x ∈ l, (p.symbol x).name.key? = some n := by
  rw [mem_keys_foldlM_nameOf h, Table.keys_empty]
  simp only [List.not_mem_nil, false_or, List.mem_filter, Bool.not_eq_true',
    ← Bool.not_eq_true (Json.isText _ _), Json.isText_iff]
  constructor
  · rintro ⟨x, ⟨hx, hne⟩, hn⟩
    exact ⟨fun h => hne (h ▸ hn), x, hx, hn⟩
  · rintro ⟨hne, x, hx, hn⟩
    exact ⟨x, ⟨hx, fun h => hne (Option.some.inj (hn.symm.trans h))⟩, hn⟩

/-! ### Public names -/

/-- The exports of a surface are the symbols that are offered under some name. -/
theorem WellFormed.mem_exports_iff (h : p.WellFormed S []) (hf : f ∈ p.sources)
    (hm : f.isModule = true) (hs : p.surface f.id = .ok s) : ∃ b, p.boundary f.symbol = .ok b ∧
      ∀ x, x ∈ s.exports.keys ↔ ∃ n, p.Offers f.symbol b n x := by
  obtain ⟨exported, b, positions, r, he, hb, _, hr, hexports⟩ := h.surface_exports hf hm hs
  have hmem (x : SymbolId) : x ∈ r ↔ (∃ n, p.Exposes f.symbol n x) ∧ x ∉ b.symbols := by
    rw [(sortBy?_perm hr).mem_iff, List.mem_filter, decide_eq_true_eq, mem_exportsOf he]
  have hids (x : SymbolId) (hx : x ∈ r) : x ∈ p.symbolIds := by
    obtain ⟨⟨n, hn⟩, _⟩ := (hmem x).mp hx
    exact (h.holds_of_exposes hn).1
  obtain ⟨t, ht, hkeys⟩ := h.exportAll_spec hids
  rw [ht] at hexports
  obtain rfl := Except.ok.inj hexports
  refine ⟨b, hb, fun x => ?_⟩
  rw [hkeys, hmem, isDeclared_iff]
  constructor
  · rintro ⟨⟨⟨n, hn⟩, hin⟩, hd⟩
    exact ⟨n, hn, hin, hd⟩
  · rintro ⟨n, hn, hin, hd⟩
    exact ⟨⟨⟨n, hn⟩, hin⟩, hd⟩

/-- What is found under a name has an equal name. -/
theorem findExport?_eq_some {j : Json} {e : Export} (hj : j.key? = some n)
    (h : s.findExport? p j = some (x, e)) :
    x ∈ s.exports.keys ∧ (p.symbol x).name.key? = some n ∧ n ≠ .real .nan := by
  have hequals : (p.symbol x).name.equals j = true := (List.find?_eq_some_iff_append.mp h).1
  exact ⟨Table.mem_keys_iff.mpr ⟨e, List.mem_of_find?_eq_some h⟩, (Json.equals_iff hj).mp hequals⟩

theorem exists_findExport? {j : Json} (hj : j.key? = some n) (hx : x ∈ s.exports.keys)
    (hname : (p.symbol x).name.key? = some n) (hnan : n ≠ .real .nan) :
    ∃ y e, s.findExport? p j = some (y, e) := by
  obtain ⟨e, he⟩ := Table.mem_keys_iff.mp hx
  have hsome : (s.findExport? p j).isSome :=
    List.find?_isSome.mpr ⟨(x, e), he, (Json.equals_iff hj).mpr ⟨hname, hnan⟩⟩
  obtain ⟨⟨y, e'⟩, h⟩ := Option.isSome_iff_exists.mp hsome
  exact ⟨y, e', h⟩

/-- If all symbols are offered under their own names, a surface gives the names back. -/
theorem publishes_of_own {offers : Key → SymbolId → Prop}
    (hunique : ∀ n x y, offers n x → offers n y → x = y)
    (hkeys : ∀ x, x ∈ s.exports.keys ↔ ∃ n, offers n x)
    (hnames : p.exportNames s.exports.keys = .ok s.names)
    (hown : ∀ n x, offers n x → (p.symbol x).name.key? = some n ∧ n ≠ .real .nan) :
    s.Publishes p offers := by
  have hoffers (x : SymbolId) (n : Key) (hx : x ∈ s.exports.keys)
      (hn : (p.symbol x).name.key? = some n) : offers n x := by
    obtain ⟨k, hk⟩ := (hkeys x).mp hx
    obtain rfl := Option.some.inj ((hown k x hk).1.symm.trans hn)
    exact hk
  refine ⟨?_, fun k => ?_, fun n x hx j hj => ?_, fun n => ?_⟩
  · rw [Surface.ownNames, List.map_map]
    refine s.exports.nodup.map_on fun x hx y hy hxy => ?_
    obtain ⟨n, hn⟩ := (hkeys x).mp hx
    have hkey := (hown n x hn).1
    exact hunique n x y hn (hoffers y n hy (hxy.symm.trans hkey))
  · rw [mem_ownNames_key]
    constructor
    · rintro ⟨x, hx, rfl⟩
      obtain ⟨n, hn⟩ := (hkeys x).mp hx
      exact ⟨n, x, (hown n x hn).1, hn⟩
    · rintro ⟨n, x, rfl, hx⟩
      exact ⟨x, (hkeys x).mpr ⟨n, hx⟩, (hown n x hx).1⟩
  · obtain ⟨hname, hnan⟩ := hown n x hx
    obtain ⟨y, e, hfound⟩ := exists_findExport? hj ((hkeys x).mpr ⟨n, hx⟩) hname hnan
    obtain ⟨hy, hkey, _⟩ := findExport?_eq_some hj hfound
    obtain rfl := hunique n x y hx (hoffers y n hy hkey)
    exact ⟨e, hfound⟩
  · rw [mem_keys_exportNames hnames]
    refine and_congr_right fun _ => ⟨?_, ?_⟩
    · rintro ⟨x, hx, hn⟩
      exact ⟨x, hoffers x n hx hn⟩
    · rintro ⟨x, hx⟩
      exact ⟨x, (hkeys x).mpr ⟨n, hx⟩, (hown n x hx).1⟩

/-- If a surface gives a name back, its symbol is found under it, and so has that name itself. -/
theorem own_of_publishes {offers : Key → SymbolId → Prop} (h : s.Publishes p offers)
    (hx : offers n x) : (p.symbol x).name.key? = some n ∧ n ≠ .real .nan := by
  obtain ⟨y, _, hy⟩ := mem_ownNames_key.mp ((h.reported (some n)).mpr ⟨n, x, rfl, hx⟩)
  obtain ⟨e, hfound⟩ := h.found n x hx _ hy
  exact (findExport?_eq_some hy hfound).2

/-- A surface lists the symbols that its module offers, each once and under its own name, and
keeps these names except the default one. They are the public names, with the symbols that the
module exports under them, exactly if each symbol is offered under its own name, and that name
equals itself, as only the value that is no number does not. -/
theorem surface_publishes_iff {doc : Json} (hp : Snapshot.load doc = .ok p) (hf : f ∈ p.sources)
    (hm : f.isModule = true) (hs : p.surface f.id = .ok s) :
    ∃ m b, p.symbolAt f.id = some m ∧ p.boundary m = .ok b ∧ s.exports.keys.Nodup ∧
      (∀ x, x ∈ s.exports.keys ↔ ∃ n, p.Offers m b n x) ∧
      (∀ limit report, p.surfaceJson limit s = .ok report →
        reportedNames report = s.ownNames p) ∧
      (∀ n, n ∈ s.names.keys ↔
        n ≠ .text defaultName ∧ ∃ x ∈ s.exports.keys, (p.symbol x).name.key? = some n) ∧
      (s.Publishes p (p.Offers m b) ↔ ∀ n x, p.Offers m b n x →
        (p.symbol x).name.key? = some n ∧ n ≠ .real .nan) := by
  have h := Snapshot.wellFormed_of_load (Snapshot.conforms_any doc) hp
  have hnames := exportNames_surface h hf hs
  obtain ⟨b, hb, hkeys⟩ := h.mem_exports_iff hf hm hs
  have hunique (n : Key) (x y : SymbolId) (hx : p.Offers f.symbol b n x)
      (hy : p.Offers f.symbol b n y) : x = y := hx.exposed.unique hy.exposed
  exact ⟨f.symbol, b, h.symbolAt_file hf, hb, s.exports.nodup, hkeys,
    fun _ _ => reportedNames_surfaceJson, fun _ => mem_keys_exportNames hnames,
    fun hpub _ _ => own_of_publishes hpub, publishes_of_own hunique hkeys hnames⟩

end Program

/-! ### Exports under their own names and under others -/

namespace Snapshot

/-- A module with a default export, which is an alias of that name, two exports of its own and one
of another module. One of its own is exported under a name that is not that of its symbol, but is
not declared. -/
def aliasedDefault : Json :=
  .obj [("symbols", .arr (["A", "B"].map declaredEntry ++
      [.obj [("id", .str "d"), ("name", .str "default"), ("aliasOf", .str "B")],
        symbolEntry "M"])),
    ("files", .arr [
      .obj [("fileName", .str "main"), ("statements", .arr [placedEntry "A" 5,
          wildcardEntry "./b" (.int 2)]),
        ("exports", .obj [("default", .str "d"), ("A", .str "A"), ("N", .str "M")])],
      declaringEntry "b" ["B"] []]),
    ("resolutions", .arr [resolutionEntry "main" "./b" "b"])]

end Snapshot

/-- The public names come back in the order of the source. -/
theorem publishes_aliasedDefault : ∃ p f s m b, Snapshot.load Snapshot.aliasedDefault = .ok p ∧
    f ∈ p.sources ∧ f.isModule = true ∧ p.surface f.id = .ok s ∧ p.symbolAt f.id = some m ∧
    p.boundary m = .ok b ∧ s.ownNames p = ["B", "A", "default"].map .str ∧
    s.names.keys = ["B", "A"].map .text ∧ p.Offers m b (.text "default") (.listed (.text "d")) ∧
    s.Publishes p (p.Offers m b) := by
  have hrun : ((Snapshot.load Snapshot.aliasedDefault).toOption.map fun p =>
      (p.sources.head?.map fun f => (f.isModule, p.symbolAt f.id,
          (p.surface f.id).toOption.map fun s => (s.ownNames p, s.names.keys)),
        (p.boundary (.ofFile (.node 0))).toOption.map Boundary.symbols,
        p.isDeclared (.listed (.text "d")),
        (p.exportTable (.ofFile (.node 0))).toOption.map fun t =>
          (t.get? (.text "default"), t.entries.all fun e => p.isDeclared e.2 →
            (p.symbol e.2).name.key? = some e.1 ∧ e.1 ≠ .real .nan))) =
      some (some (true, some (.ofFile (.node 0)),
          some (["B", "A", "default"].map .str, ["B", "A"].map .text)),
        some [], true, some (some (.listed (.text "d")), true)) := by cbv
  obtain ⟨p, hload, hrun⟩ := map_toOption_eq_some_iff.mp hrun
  simp only [Prod.mk.injEq] at hrun
  obtain ⟨hfile, hboundary, hdeclared, htable⟩ := hrun
  obtain ⟨f, hf, hfile⟩ := Option.map_eq_some_iff.mp hfile
  simp only [Prod.mk.injEq] at hfile
  obtain ⟨hm, hentry, hsurface⟩ := hfile
  obtain ⟨s, hs, hnames⟩ := map_toOption_eq_some_iff.mp hsurface
  obtain ⟨hown, hkeys⟩ := Prod.mk.inj hnames
  obtain ⟨b', hb', hsymbols⟩ := map_toOption_eq_some_iff.mp hboundary
  obtain ⟨t, ht, htable⟩ := map_toOption_eq_some_iff.mp htable
  obtain ⟨hdefault, hall⟩ := Prod.mk.inj htable
  have hf := List.mem_of_head? hf
  obtain ⟨m, b, he, hb, _, _, _, _, hiff⟩ := surface_publishes_iff hload hf hm hs
  obtain rfl := Option.some.inj (hentry.symm.trans he)
  obtain rfl := Except.ok.inj (hb'.symm.trans hb)
  refine ⟨p, f, s, _, b', hload, hf, hm, hs, he, hb, hown, hkeys,
    ⟨⟨t, ht, hdefault⟩, by simp [hsymbols], isDeclared_iff.mp hdeclared⟩,
    hiff.mpr fun n x hx => ?_⟩
  obtain ⟨u, hu, hn⟩ := hx.exposed
  obtain rfl := Except.ok.inj (ht.symm.trans hu)
  have hname := List.all_eq_true.mp hall _ (Table.get?_eq_some_iff.mp hn)
  exact of_decide_eq_true hname (isDeclared_iff.mpr hx.declared)

namespace Snapshot

/-- A module that exports a symbol under two names. -/
def twoNames : Json :=
  .obj [("symbols", .arr [declaredEntry "A"]),
    ("files", .arr [.obj [("fileName", .str "main"), ("statements", .arr [placedEntry "A" 0]),
      ("exports", .obj [("A", .str "A"), ("B", .str "A")])]])]

end Snapshot

/-- The symbol is reported once, and the second name is lost. -/
theorem not_publishes_twoNames : ∃ p f s m b, Snapshot.load Snapshot.twoNames = .ok p ∧
    f ∈ p.sources ∧ f.isModule = true ∧ p.surface f.id = .ok s ∧ p.symbolAt f.id = some m ∧
    p.boundary m = .ok b ∧ p.Offers m b (.text "A") (.listed (.text "A")) ∧
    p.Offers m b (.text "B") (.listed (.text "A")) ∧ s.ownNames p = [.str "A"] ∧
    s.names.keys = [.text "A"] ∧ (s.findExport? p (.str "B")).isNone ∧
    ¬s.Publishes p (p.Offers m b) := by
  have hrun : ((Snapshot.load Snapshot.twoNames).toOption.map fun p =>
      (p.sources.head?.map fun f => (f.isModule, p.symbolAt f.id,
          (p.surface f.id).toOption.map fun s =>
            (s.ownNames p, s.names.keys, (s.findExport? p (.str "B")).isNone)),
        (p.boundary (.ofFile (.node 0))).toOption.map Boundary.symbols,
        (p.exportTable (.ofFile (.node 0))).toOption.map Table.entries,
        p.isDeclared (.listed (.text "A")))) =
      some (some (true, some (.ofFile (.node 0)), some ([.str "A"], [.text "A"], true)),
        some [], some (["A", "B"].map fun n => (.text n, .listed (.text "A"))), true) := by cbv
  obtain ⟨p, hload, hrun⟩ := map_toOption_eq_some_iff.mp hrun
  simp only [Prod.mk.injEq] at hrun
  obtain ⟨hfile, hboundary, htable, hdeclared⟩ := hrun
  obtain ⟨f, hf, hfile⟩ := Option.map_eq_some_iff.mp hfile
  simp only [Prod.mk.injEq] at hfile
  obtain ⟨hm, hentry, hsurface⟩ := hfile
  obtain ⟨s, hs, hnames⟩ := map_toOption_eq_some_iff.mp hsurface
  simp only [Prod.mk.injEq] at hnames
  obtain ⟨hown, hkeys, hnone⟩ := hnames
  obtain ⟨b, hb, hsymbols⟩ := map_toOption_eq_some_iff.mp hboundary
  have hoffers (n : String) (hn : n ∈ ["A", "B"]) :
      p.Offers (.ofFile (.node 0)) b (.text n) (.listed (.text "A")) :=
    ⟨(exposes_iff_mem htable).mpr (List.mem_map.mpr ⟨n, hn, rfl⟩), by simp [hsymbols],
      isDeclared_iff.mp hdeclared⟩
  refine ⟨p, f, s, _, b, hload, List.mem_of_head? hf, hm, hs, hentry, hb, hoffers "A" (by simp),
    hoffers "B" (by simp), hown, hkeys, hnone, fun hpub => ?_⟩
  obtain ⟨e, hfound⟩ := hpub.found _ _ (hoffers "B" (by simp)) (.str "B") rfl
  rw [hfound] at hnone
  cases hnone

end ApiSurface
