import ApiSurface.Proofs.Lookups
import ApiSurface.Proofs.Network

/-! What a module exports, said without its recursion: the modules behind its wildcard
re-exports come one after the other, in the order of a walk in depth first, each with its own
table, and of the entries of one name the first one counts. A module that has been seen is not
looked at again, and that loses nothing, since all that is behind it comes up elsewhere. -/

namespace ApiSurface

namespace Program

variable {p : Program}

def hasTable (p : Program) (m : SymbolId) : Bool := (p.symbol m).exports.isSome

theorem mem_symbolIds_of_hasTable {m : SymbolId} (h : p.hasTable m = true) : m ∈ p.symbolIds := by
  by_contra hm
  rw [hasTable, symbol_of_notMem hm] at h
  cases h

/-- Modules joined by their wildcard re-exports. A re-export of nothing, or of something
without an export table, leads nowhere. -/
def exportNetwork (p : Program) : Network NodeId SymbolId where
  places := p.symbolIds
  edges m := (p.wildcards m).toOption.getD []
  target d :=
    match p.wildcardModule? d with
    | .ok (some m) => if p.hasTable m then some m else none
    | _ => none
  target_mem := by
    intro d m h
    split at h
    · split at h
      · obtain rfl := Option.some.inj h
        exact mem_symbolIds_of_hasTable ‹_›
      · cases h
    · cases h

/-- The exports of a module itself as they come through a wildcard re-export, which leaves the
default one out. -/
def passedOn (p : Program) (m : SymbolId) : List (Key × SymbolId) :=
  (p.ownExports m).entries.filter fun e => e.1 ≠ .text defaultName

/-- What a module exports by name: the first entry of each name in its own table, followed by
what comes through from the modules behind it. -/
def exposed (p : Program) (m : SymbolId) : List (Key × SymbolId) :=
  Table.firsts ((p.exportNetwork.order m).flatMap fun x =>
    if x = m then (p.ownExports x).entries else p.passedOn x)

/-- A statement can be read if it leads to a module whose statements are known, or nowhere. -/
def Readable (p : Program) (d : NodeId) : Prop :=
  ∃ r, p.wildcardModule? d = .ok r ∧ ∀ m ∈ r, ∃ ds, p.wildcards m = .ok ds

/-- All statements of a module and of the modules behind it can be read. -/
def Legible (p : Program) (m : SymbolId) : Prop :=
  ∀ x, p.exportNetwork.Reaches m x → ∃ ds, p.wildcards x = .ok ds ∧ ∀ d ∈ ds, p.Readable d

/-! ### Modules without a table -/

theorem tableOf_of_not_hasTable {m : SymbolId} (h : p.hasTable m = false) : p.tableOf m = ∅ := by
  rw [hasTable, Option.isSome_eq_false_iff, Option.isNone_iff_eq_none] at h
  rw [tableOf, h, Option.getD_none]

theorem passedOn_of_not_hasTable {m : SymbolId} (h : p.hasTable m = false) :
    p.passedOn m = [] := by
  rw [passedOn, ownExports, tableOf_of_not_hasTable h]
  rfl

theorem wildcards_of_not_hasTable {m : SymbolId} {ds : List NodeId} (h : p.hasTable m = false)
    (hd : p.wildcards m = .ok ds) : ds = [] := by
  rw [wildcards, wildcardHolder?, tableOf_of_not_hasTable h] at hd
  obtain ⟨_, _, hd⟩ := bind_eq_ok_iff.mp hd
  exact (Except.ok.inj hd).symm

theorem edges_exportNetwork {m : SymbolId} {ds : List NodeId} (h : p.wildcards m = .ok ds) :
    p.exportNetwork.edges m = ds := by
  change (p.wildcards m).toOption.getD [] = ds
  rw [h]
  rfl

theorem target_eq_some_iff {d : NodeId} {m : SymbolId} : p.exportNetwork.target d = some m ↔
    p.wildcardModule? d = .ok (some m) ∧ p.hasTable m = true := by
  change (match p.wildcardModule? d with
    | .ok (some m) => if p.hasTable m then some m else none
    | _ => none) = some m ↔ _
  constructor
  · intro h
    split at h
    · rename_i y hy
      split at h
      · obtain rfl := Option.some.inj h
        exact ⟨hy, ‹_›⟩
      · cases h
    · cases h
  · rintro ⟨hd, hm⟩
    rw [hd]
    exact if_pos hm

end Program

/-! ### Tables of module trees -/

namespace ModuleTree

mutual

/-- The modules of a tree, each before those behind it. -/
def modules : ModuleTree → List SymbolId
  | .mk m trees => m :: modulesAll trees

def modulesAll : List ModuleTree → List SymbolId
  | [] => []
  | t :: trees => modules t ++ modulesAll trees

end

theorem filter_passedOn (p : Program) (l : List SymbolId) :
    (l.flatMap p.passedOn).filter (fun e => e.1 ≠ .text defaultName) = l.flatMap p.passedOn := by
  rw [List.filter_eq_self]
  intro e he
  obtain ⟨m, _, hm⟩ := List.mem_flatMap.mp he
  exact (List.mem_filter.mp hm).2

/-- What a module and others behind it pass on by name is what the module has, without its
default export. -/
theorem filter_firsts (p : Program) (m : SymbolId) (l : List SymbolId) :
    (Table.firsts ((p.ownExports m).entries ++ l.flatMap p.passedOn)).filter
        (fun e => e.1 ≠ .text defaultName) =
      Table.firsts ((m :: l).flatMap p.passedOn) := by
  rw [← Table.firsts_filter fun k => decide (k ≠ Key.text defaultName), List.filter_append,
    filter_passedOn]
  rfl

mutual

/-- The table of a tree has the first entries of its root and of what its other modules pass
on. -/
theorem entries_table (p : Program) (m : SymbolId) (trees : List ModuleTree) :
    (table p (.mk m trees)).entries =
      Table.firsts ((p.ownExports m).entries ++ (modulesAll trees).flatMap p.passedOn) := by
  rw [table]
  exact entries_extend p (p.ownExports m) trees

theorem entries_extend (p : Program) (own : Table Key SymbolId) (trees : List ModuleTree) :
    (extend p own trees).entries =
      Table.firsts (own.entries ++ (modulesAll trees).flatMap p.passedOn) := by
  match trees with
  | [] =>
    rw [extend, modulesAll, List.flatMap_nil, List.append_nil, Table.firsts_of_nodup own.nodup]
  | .mk m below :: trees =>
    have ht := entries_table p m below
    have hf : ((table p (.mk m below)).filterKeys (· ≠ .text defaultName)).entries =
        Table.firsts ((m :: modulesAll below).flatMap p.passedOn) := by
      change (table p (.mk m below)).entries.filter (fun e => e.1 ≠ .text defaultName) = _
      rw [ht, filter_firsts]
    rw [extend, entries_extend p _ trees, Table.entries_union, hf, Table.firsts_append_firsts,
      Table.firsts_firsts_append, modulesAll, modules, List.flatMap_append, List.append_assoc]

end

end ModuleTree

namespace Program

variable {p : Program}

/-! ### The modules behind a module -/

theorem walk_cons_of_none {seen : List SymbolId} {d : NodeId} (rest : List NodeId)
    (hd : p.wildcardModule? d = .ok none) :
    p.exportNetwork.walk seen (d :: rest) = (d, none) :: p.exportNetwork.walk seen rest := by
  apply Network.walk_cons_of_seen
  intro a ha
  rw [target_eq_some_iff, hd] at ha
  cases ha.1

theorem walk_cons_of_mem {seen : List SymbolId} {d : NodeId} {m : SymbolId} (rest : List NodeId)
    (hd : p.wildcardModule? d = .ok (some m)) (hs : m ∈ seen) :
    p.exportNetwork.walk seen (d :: rest) = (d, none) :: p.exportNetwork.walk seen rest := by
  apply Network.walk_cons_of_seen
  intro a ha
  rw [target_eq_some_iff, hd] at ha
  obtain rfl : m = a := Option.some.inj (Except.ok.inj ha.1)
  exact hs

/-- Behind a statement that leads to a new module a walk first goes through that module. One
without a table has no statements, so it makes no difference whether the walk enters it. -/
theorem walk_cons_of_module {seen : List SymbolId} {d : NodeId} {m : SymbolId}
    {inner : List NodeId} (rest : List NodeId) (hd : p.wildcardModule? d = .ok (some m))
    (hs : m ∉ seen) (hi : p.wildcards m = .ok inner) :
    p.exportNetwork.walk seen (d :: rest) =
      (d, if p.hasTable m then some m else none) ::
        (p.exportNetwork.walk (m :: seen) inner ++
          p.exportNetwork.walk
            ((p.exportNetwork.entered (m :: seen) inner).reverse ++ m :: seen) rest) := by
  by_cases ht : p.hasTable m = true
  · rw [Network.walk_cons_of_notMem _ (target_eq_some_iff.mpr ⟨hd, ht⟩) hs,
      edges_exportNetwork hi, Network.walk_append, if_pos ht]
  · rw [Bool.not_eq_true] at ht
    obtain rfl := wildcards_of_not_hasTable ht hi
    have hne : ∀ e a, p.exportNetwork.target e = some a → a ≠ m := by
      rintro e a he rfl
      rw [target_eq_some_iff, ht] at he
      cases he.2
    rw [Network.walk_cons_of_seen, if_neg (by simp [ht]), Network.entered, Network.walk_nil]
    · congr 1
      apply Network.walk_congr
      intro e a he
      simp [hne e a he]
    · intro a ha
      have hm := target_eq_some_iff.mp ha
      rw [hd] at hm
      exact absurd (Option.some.inj (Except.ok.inj hm.1)).symm (hne d a ha)

theorem passed_cons_of_module {seen : List SymbolId} {d : NodeId} {m : SymbolId}
    {inner : List NodeId} (rest : List NodeId) (hd : p.wildcardModule? d = .ok (some m))
    (hs : m ∉ seen) (hi : p.wildcards m = .ok inner) :
    p.exportNetwork.passed seen (d :: rest) =
      d :: (p.exportNetwork.passed (m :: seen) inner ++
        p.exportNetwork.passed
          ((p.exportNetwork.entered (m :: seen) inner).reverse ++ m :: seen) rest) := by
  rw [Network.passed, walk_cons_of_module rest hd hs hi, List.map_cons, List.map_append]
  rfl

open ModuleTree in
/-- The modules that have been looked at are added to those seen, and those with a table are
the ones that a walk enters. -/
theorem modules_behind {seen : List SymbolId} {ds : List NodeId} {trees : List ModuleTree}
    {after : { after : List SymbolId // unseen p.symbolIds after ≤ unseen p.symbolIds seen }}
    (h : p.behind seen ds = .ok (trees, after)) :
    after.1 = (modulesAll trees).reverse ++ seen ∧
      p.exportNetwork.entered seen ds = (modulesAll trees).filter p.hasTable := by
  fun_induction behind p seen ds generalizing trees with
  | case1 seen =>
    cases h
    simp [modulesAll, Network.entered]
  | case2 seen d rest e hd => cases h
  | case3 seen d rest hd ih =>
    rw [Network.entered, walk_cons_of_none _ hd]
    exact ih h
  | case4 seen d rest m hd hs ih =>
    rw [Network.entered, walk_cons_of_mem _ hd hs]
    exact ih h
  | case5 seen d rest m hd hs e he => cases h
  | case6 seen d rest m hd hs inner hi hm e he ih => cases h
  | case7 seen d rest m hd hs inner hi hm below mid h₁ hb e he ih₁ ih₂ => cases h
  | case8 seen d rest m hd hs inner hi hm below mid h₁ hb others last h₂ ho ih₁ ih₂ =>
    cases h
    obtain ⟨hmid, hbelow⟩ := ih₁ hb
    obtain ⟨hlast, hothers⟩ := ih₂ ho
    simp only at hmid hlast
    -- what the walk has seen differs from what is behind by modules without a table
    have hseen : p.exportNetwork.walk
        ((p.exportNetwork.entered (m :: seen) inner).reverse ++ m :: seen) rest =
          p.exportNetwork.walk mid rest := by
      apply Network.walk_congr
      intro e a he
      have ha := (target_eq_some_iff.mp he).2
      simp [hmid, hbelow, ha]
    refine ⟨by simp [hlast, hmid, modulesAll, modules], ?_⟩
    rw [Network.entered, walk_cons_of_module rest hd hs hi, hseen, modulesAll, modules,
      List.filter_append, ← hothers]
    by_cases ht : p.hasTable m = true
    · rw [List.filter_cons_of_pos ht, ← hbelow, if_pos ht]
      simp [Network.entered]
    · rw [List.filter_cons_of_neg ht, ← hbelow, if_neg ht]
      simp [Network.entered]
  | case9 seen d rest m hd hs inner hi hm => cases h

/-- After the modules behind some statements a walk goes on as after those statements. -/
theorem walk_after {seen : List SymbolId} {ds : List NodeId} {trees : List ModuleTree}
    {after : { after : List SymbolId // unseen p.symbolIds after ≤ unseen p.symbolIds seen }}
    (h : p.behind seen ds = .ok (trees, after)) (rest : List NodeId) :
    p.exportNetwork.walk ((p.exportNetwork.entered seen ds).reverse ++ seen) rest =
      p.exportNetwork.walk after.1 rest := by
  obtain ⟨ha, he⟩ := modules_behind h
  apply Network.walk_congr
  intro e a ht
  have ht := (target_eq_some_iff.mp ht).2
  simp [ha, he, ht]

/-! ### Statements that can be read -/

/-- If every statement that a walk passes can be read, all modules behind them are found. -/
theorem behind_of_readable {seen : List SymbolId} {ds : List NodeId}
    (h : ∀ d ∈ p.exportNetwork.passed seen ds, p.Readable d) : ∃ r, p.behind seen ds = .ok r := by
  fun_induction behind p seen ds with
  | case1 seen => exact ⟨_, rfl⟩
  | case2 seen d rest e hd =>
    obtain ⟨r, hr, _⟩ := h d (Network.mem_passed.mpr (Or.inl (List.mem_cons_self ..)))
    rw [hd] at hr
    cases hr
  | case3 seen d rest hd ih =>
    apply ih
    intro x hx
    apply h
    rw [Network.passed, walk_cons_of_none _ hd]
    exact List.mem_cons_of_mem _ hx
  | case4 seen d rest m hd hs ih =>
    apply ih
    intro x hx
    apply h
    rw [Network.passed, walk_cons_of_mem _ hd hs]
    exact List.mem_cons_of_mem _ hx
  | case5 seen d rest m hd hs e he =>
    obtain ⟨r, hr, hm⟩ := h d (Network.mem_passed.mpr (Or.inl (List.mem_cons_self ..)))
    obtain rfl := Except.ok.inj (hd.symm.trans hr)
    obtain ⟨ds, hds⟩ := hm m rfl
    rw [he] at hds
    cases hds
  | case6 seen d rest m hd hs inner hi hm e he ih =>
    obtain ⟨r, hr⟩ := ih fun x hx => h x <| by
      rw [passed_cons_of_module rest hd hs hi]
      exact List.mem_cons_of_mem _ (List.mem_append_left _ hx)
    rw [he] at hr
    cases hr
  | case7 seen d rest m hd hs inner hi hm below mid h₁ hb e he ih₁ ih₂ =>
    obtain ⟨r, hr⟩ := ih₂ fun x hx => h x <| by
      rw [passed_cons_of_module rest hd hs hi, Network.passed, Network.passed, walk_after hb]
      exact List.mem_cons_of_mem _ (List.mem_append_right _ hx)
    rw [he] at hr
    cases hr
  | case8 seen d rest m hd hs inner hi hm below mid h₁ hb others last h₂ ho ih₁ ih₂ =>
    exact ⟨_, rfl⟩
  | case9 seen d rest m hd hs inner hi hm =>
    exact absurd (mem_symbolIds_of_wildcards hi) hm

/-- If all modules behind some statements are found, the statements that a walk passes can be
read. -/
theorem readable_of_behind {seen : List SymbolId} {ds : List NodeId} {trees : List ModuleTree}
    {after : { after : List SymbolId // unseen p.symbolIds after ≤ unseen p.symbolIds seen }}
    (h : p.behind seen ds = .ok (trees, after))
    (hseen : ∀ m ∈ seen, ∃ es, p.wildcards m = .ok es) :
    (∀ d ∈ p.exportNetwork.passed seen ds, p.Readable d) ∧
      ∀ m ∈ after.1, ∃ es, p.wildcards m = .ok es := by
  fun_induction behind p seen ds generalizing trees with
  | case1 seen =>
    cases h
    exact ⟨by simp [Network.passed], hseen⟩
  | case2 seen d rest e hd => cases h
  | case3 seen d rest hd ih =>
    obtain ⟨hr, ha⟩ := ih h hseen
    rw [Network.passed, walk_cons_of_none _ hd]
    exact ⟨List.forall_mem_cons.mpr ⟨⟨none, hd, by simp⟩, hr⟩, ha⟩
  | case4 seen d rest m hd hs ih =>
    obtain ⟨hr, ha⟩ := ih h hseen
    rw [Network.passed, walk_cons_of_mem _ hd hs]
    exact ⟨List.forall_mem_cons.mpr ⟨⟨some m, hd, by simpa using hseen m hs⟩, hr⟩, ha⟩
  | case5 seen d rest m hd hs e he => cases h
  | case6 seen d rest m hd hs inner hi hm e he ih => cases h
  | case7 seen d rest m hd hs inner hi hm below mid h₁ hb e he ih₁ ih₂ => cases h
  | case8 seen d rest m hd hs inner hi hm below mid h₁ hb others last h₂ ho ih₁ ih₂ =>
    cases h
    obtain ⟨hr₁, hmid⟩ := ih₁ hb (List.forall_mem_cons.mpr ⟨⟨inner, hi⟩, hseen⟩)
    obtain ⟨hr₂, hlast⟩ := ih₂ ho hmid
    refine ⟨?_, hlast⟩
    rw [passed_cons_of_module rest hd hs hi]
    refine List.forall_mem_cons.mpr ⟨⟨some m, hd, by simpa using ⟨inner, hi⟩⟩, ?_⟩
    refine List.forall_mem_append.mpr ⟨hr₁, ?_⟩
    rw [Network.passed, walk_after hb]
    exact hr₂
  | case9 seen d rest m hd hs inner hi hm => cases h

/-! ### The exports of a module -/

theorem legible_iff {m : SymbolId} : p.Legible m ↔ ∃ ds, p.wildcards m = .ok ds ∧
    ∀ d ∈ p.exportNetwork.passed [m] ds, p.Readable d := by
  constructor
  · intro h
    obtain ⟨ds, hds, _⟩ := h m Relation.ReflTransGen.refl
    refine ⟨ds, hds, ?_⟩
    rw [← edges_exportNetwork hds]
    intro d hd
    obtain ⟨x, hx, he⟩ := Network.mem_passed_iff_reaches.mp hd
    obtain ⟨es, hes, hr⟩ := h x hx
    rw [edges_exportNetwork hes] at he
    exact hr d he
  · rintro ⟨ds, hds, hr⟩ x hx
    rw [← edges_exportNetwork hds] at hr
    -- a module other than the first one is known because a statement leads to it
    have hw : ∃ es, p.wildcards x = .ok es := by
      rcases Relation.ReflTransGen.cases_tail hx with rfl | ⟨y, hy, d, hd, ht⟩
      · exact ⟨ds, hds⟩
      · obtain ⟨r, hr, hm⟩ := hr d (Network.mem_passed_iff_reaches.mpr ⟨y, hy, hd⟩)
        obtain ⟨hx, _⟩ := target_eq_some_iff.mp ht
        obtain rfl := Except.ok.inj (hr.symm.trans hx)
        exact hm x rfl
    obtain ⟨es, hes⟩ := hw
    refine ⟨es, hes, fun d hd => hr d (Network.mem_passed_iff_reaches.mpr ⟨x, hx, ?_⟩)⟩
    rw [edges_exportNetwork hes]
    exact hd

theorem flatMap_passedOn_filter (p : Program) (l : List SymbolId) :
    (l.filter p.hasTable).flatMap p.passedOn = l.flatMap p.passedOn := by
  induction l with
  | nil => rfl
  | cons m l ih =>
    by_cases hm : p.hasTable m = true
    · rw [List.filter_cons_of_pos hm, List.flatMap_cons, ih, List.flatMap_cons]
    · rw [List.filter_cons_of_neg hm, ih, List.flatMap_cons,
        passedOn_of_not_hasTable (by simpa using hm), List.nil_append]

theorem exposed_eq (p : Program) (m : SymbolId) : p.exposed m =
    Table.firsts ((p.ownExports m).entries ++
      (p.exportNetwork.entered [m] (p.exportNetwork.edges m)).flatMap p.passedOn) := by
  rw [exposed, Network.order, List.flatMap_cons, if_pos rfl]
  congr 2
  apply List.flatMap_congr
  intro x hx
  have hne : x ≠ m := by
    rintro rfl
    exact (Network.nodup_entered _ _).2 x hx (List.mem_singleton.mpr rfl)
  rw [if_neg hne]

theorem nodup_exposed (p : Program) (m : SymbolId) : ((p.exposed m).map Prod.fst).Nodup :=
  Table.nodup_firsts _

/-- A module has an export table exactly if all statements can be read, and the table is then
what it exposes. -/
theorem exportTable_eq_ok_iff {m : SymbolId} {t : Table Key SymbolId} :
    p.exportTable m = .ok t ↔ p.Legible m ∧ t.entries = p.exposed m := by
  have forward : ∀ {t}, p.exportTable m = .ok t → p.Legible m ∧ t.entries = p.exposed m := by
    intro t h
    unfold exportTable at h
    split at h
    · cases h
    · rename_i inner hi
      split at h
      · cases h
      · rename_i trees after hb
        obtain rfl := Except.ok.inj h
        obtain ⟨hr, _⟩ := readable_of_behind hb (by simpa using ⟨inner, hi⟩)
        refine ⟨legible_iff.mpr ⟨inner, hi, hr⟩, ?_⟩
        rw [ModuleTree.entries_table, exposed_eq, edges_exportNetwork hi, (modules_behind hb).2,
          flatMap_passedOn_filter]
  refine ⟨forward, ?_⟩
  rintro ⟨hl, ht⟩
  obtain ⟨inner, hi, hr⟩ := legible_iff.mp hl
  obtain ⟨⟨trees, after⟩, hb⟩ := behind_of_readable hr
  have hok : p.exportTable m = .ok (ModuleTree.table p (.mk m trees)) := by
    rw [exportTable, hi]
    simp only [hb]
  rw [hok, Except.ok.injEq, Table.mk.injEq]
  exact (forward hok).2.trans ht.symm

theorem exportsOf_eq_ok_iff {m : SymbolId} {l : List SymbolId} :
    p.exportsOf m = .ok l ↔ p.Legible m ∧ l = (p.exposed m).map Prod.snd := by
  rw [exportsOf, map_eq_ok_iff]
  constructor
  · rintro ⟨t, ht, rfl⟩
    obtain ⟨hl, he⟩ := exportTable_eq_ok_iff.mp ht
    exact ⟨hl, congrArg _ he⟩
  · rintro ⟨hl, rfl⟩
    exact ⟨⟨p.exposed m, nodup_exposed p m⟩, exportTable_eq_ok_iff.mpr ⟨hl, rfl⟩, rfl⟩

/-! ### Names -/

/-- The exports of a module itself come first. -/
theorem ownExports_isPrefix (p : Program) (m : SymbolId) :
    (p.ownExports m).entries <+: p.exposed m := by
  rw [exposed_eq, Table.firsts_append, Table.firsts_of_nodup (p.ownExports m).nodup]
  exact List.prefix_append ..

theorem mem_keys_exposed {m : SymbolId} {n : Key} : n ∈ (p.exposed m).map Prod.fst ↔
    n ∈ (p.ownExports m).keys ∨ n ≠ .text defaultName ∧
      ∃ x ∈ p.exportNetwork.entered [m] (p.exportNetwork.edges m), n ∈ (p.ownExports x).keys := by
  rw [exposed_eq, Table.mem_keys_firsts, List.map_append, List.mem_append]
  refine or_congr Iff.rfl ?_
  simp only [List.mem_map, List.mem_flatMap, passedOn, List.mem_filter, decide_eq_true_eq,
    Table.keys]
  constructor
  · rintro ⟨e, ⟨x, hx, he, hd⟩, rfl⟩
    exact ⟨hd, x, hx, e, he, rfl⟩
  · rintro ⟨hd, x, hx, e, he, rfl⟩
    exact ⟨e, ⟨x, hx, he, hd⟩, rfl⟩

/-- No name but the default one is lost on the way. -/
theorem mem_keys_exposed_of_reaches {m x : SymbolId} {n : Key} (hx : p.exportNetwork.Reaches m x)
    (hn : n ∈ (p.ownExports x).keys) (hd : n ≠ .text defaultName) :
    n ∈ (p.exposed m).map Prod.fst := by
  rw [mem_keys_exposed]
  rcases List.mem_cons.mp (Network.mem_order.mpr hx) with rfl | hx
  · exact Or.inl hn
  · exact Or.inr ⟨hd, x, hx, hn⟩

theorem default_mem_keys_exposed {m : SymbolId} :
    .text defaultName ∈ (p.exposed m).map Prod.fst ↔
      .text defaultName ∈ (p.ownExports m).keys := by
  rw [mem_keys_exposed]
  simp

/-! ### Loaded programs -/

/-- In a program whose names are texts the exports of every symbol are known. -/
theorem WellFormed.legible (h : p.WellFormed .plain []) {m : SymbolId} (hm : m ∈ p.symbolIds) :
    p.Legible m := by
  intro x hx
  have hmem : x ∈ p.symbolIds := by
    cases hx.cases_tail with
    | inl he => exact he ▸ hm
    | inr hl =>
      obtain ⟨_, _, d, _, hd⟩ := hl
      exact p.exportNetwork.target_mem hd
  obtain ⟨ds, hds, hsub⟩ := h.wildcards_of_mem hmem
  refine ⟨ds, hds, fun d hd => ?_⟩
  obtain ⟨r, hr, hholds⟩ := h.wildcardModule?_of_mem (hsub hd)
  refine ⟨r, hr, fun y hy => ?_⟩
  obtain ⟨es, hes, _⟩ := h.wildcards_of_mem (hholds y hy).1
  exact ⟨es, hes⟩

/-- The exports of a module are known exactly if all statements behind it can be read, which
they can in a program loaded from a document of texts. They are then the symbols of the first
entry of each name over the tables of the modules that can be reached, in the order of a walk
in depth first and each once. No name is lost on the way, the own exports of the module stay,
and a default export is always its own. -/
theorem exportsOf_eq_exposed (p : Program) (m : SymbolId) :
    (∀ l, p.exportsOf m = .ok l ↔ p.Legible m ∧ l = (p.exposed m).map Prod.snd) ∧
      (∀ doc, Snapshot.Conforms .plain doc → Snapshot.load doc = .ok p → m ∈ p.symbolIds →
        p.Legible m) ∧
      ((p.exportNetwork.order m).Nodup ∧
        ∀ x, x ∈ p.exportNetwork.order m ↔ p.exportNetwork.Reaches m x) ∧
      ((p.exposed m).map Prod.fst).Nodup ∧
      (∀ x n, p.exportNetwork.Reaches m x → n ∈ (p.ownExports x).keys → n ≠ .text defaultName →
        n ∈ (p.exposed m).map Prod.fst) ∧
      (∀ e ∈ (p.ownExports m).entries, e ∈ p.exposed m) ∧
      (.text defaultName ∈ (p.exposed m).map Prod.fst ↔
        .text defaultName ∈ (p.ownExports m).keys) := by
  refine ⟨fun l => exportsOf_eq_ok_iff, ?_, ⟨Network.nodup_order m, fun x => Network.mem_order⟩,
    nodup_exposed p m, ?_, ?_, default_mem_keys_exposed⟩
  · intro doc hc hp hm
    exact (Snapshot.wellFormed_of_load hc hp).legible hm
  · intro x n hx hn hd
    exact mem_keys_exposed_of_reaches hx hn hd
  · intro e he
    exact (ownExports_isPrefix p m).subset he

end Program

/-! ### A diamond of modules -/

namespace Snapshot

/-- The entry of a module with its exports and its wildcard re-exports. -/
def moduleEntry (name : String) (exports : List (String × String)) (specifiers : List String) :
    Json :=
  .obj [("fileName", .str name), ("exports", .obj (exports.map fun e => (e.1, .str e.2))),
    ("statements", .arr (specifiers.map fun s =>
      .obj [("kind", .str "export_declaration"), ("moduleSpecifier", .str s)]))]

theorem moduleEntry_conforms (name : String) (exports : List (String × String))
    (specifiers : List String) :
    ∀ t ∈ entriesOf (moduleEntry name exports specifiers) "statements", NodeConforms .plain t := by
  intro t ht
  simp only [moduleEntry, entriesOf, memberOf, Json.member?, Json.items?, List.find?_cons,
    String.reduceEq, decide_false, decide_true, Option.map_some, Option.bind_some,
    Option.getD_some, List.mem_map] at ht
  obtain ⟨s, _, rfl⟩ := ht
  apply nodeConforms_of_children
  · simp [memberOf, Json.member?]
  · simp [memberOf, Json.member?, Json.given?, Shape.plain]
  · simp [entriesOf, memberOf, Json.member?]

def symbolEntry (id : String) : Json := .obj [("id", .str id), ("name", .str id)]

def resolutionEntry (file specifier target : String) : Json :=
  .obj [("from", .str file), ("module", .str specifier), ("fileName", .str target)]

/-- Four modules in a diamond. One of them leads back to the first, and one re-export leads
nowhere. -/
def diamond : Json :=
  .obj [("symbols", .arr (["a", "b", "c", "d", "x", "y", "e", "f"].map symbolEntry)),
    ("files", .arr [
      moduleEntry "a" [("A", "a"), ("default", "e")] ["./b", "./c", "./gone"],
      moduleEntry "b" [("B", "b"), ("X", "x")] ["./d"],
      moduleEntry "c" [("X", "y"), ("C", "c")] ["./d", "./a"],
      moduleEntry "d" [("D", "d"), ("default", "f")] []]),
    ("resolutions", .arr [resolutionEntry "a" "./b" "b", resolutionEntry "a" "./c" "c",
      resolutionEntry "b" "./d" "d", resolutionEntry "c" "./d" "d", resolutionEntry "c" "./a" "a"])]

theorem diamond_conforms : Conforms .plain diamond where
  names := by
    simp [diamond, symbolEntry, entriesOf, memberOf, Json.member?, Json.items?, Shape.plain]
  nodes := by
    have hfiles : entriesOf diamond "files" = [
      moduleEntry "a" [("A", "a"), ("default", "e")] ["./b", "./c", "./gone"],
      moduleEntry "b" [("B", "b"), ("X", "x")] ["./d"],
      moduleEntry "c" [("X", "y"), ("C", "c")] ["./d", "./a"],
      moduleEntry "d" [("D", "d"), ("default", "f")] []] := rfl
    rw [hfiles]
    simp only [List.forall_mem_cons]
    exact ⟨moduleEntry_conforms _ _ _, moduleEntry_conforms _ _ _, moduleEntry_conforms _ _ _,
      moduleEntry_conforms _ _ _, by simp⟩
  resolutions := by
    simp [diamond, resolutionEntry, entriesOf, memberOf, Json.member?, Json.items?, Shape.plain]

end Snapshot

theorem exportsOf_diamond : ∃ p, Snapshot.load Snapshot.diamond = .ok p ∧
    p.Legible (.ofFile (.node 0)) ∧ (p.exposed (.ofFile (.node 0))).map Prod.snd =
      ["a", "e", "b", "x", "d", "c"].map fun id => Entity.listed (.text id) := by
  have hrun : ((Snapshot.load Snapshot.diamond).toOption.map
      fun p => p.exportsOf (.ofFile (.node 0))) =
        some (.ok (["a", "e", "b", "x", "d", "c"].map fun id => .listed (.text id))) := by cbv
  obtain ⟨p, hload, he⟩ := map_toOption_eq_some_iff.mp hrun
  obtain ⟨hexports, hlegible, _⟩ := Program.exportsOf_eq_exposed p (.ofFile (.node 0))
  obtain ⟨hl, hlist⟩ := (hexports _).mp he
  obtain ⟨ds, hds, _⟩ := hl _ Relation.ReflTransGen.refl
  have hm := Program.mem_symbolIds_of_wildcards hds
  exact ⟨p, hload, hlegible _ Snapshot.diamond_conforms hload hm, hlist.symm⟩

end ApiSurface
