import ApiSurface.Proofs.Aliases
import ApiSurface.Proofs.Naming
import ApiSurface.Proofs.Ordering

/-! The indexes of a surface by what its exports stand for. The list of a symbol holds the exports
that stand for it, the lists of all symbols divide the exports among them, and both the exports of a
list and the symbols by their first exports are in the order of discovery. What an export stands for
is declared. It is no alias, and an export that stands for itself is none, unless a program makes
the unknown symbol an alias: chains without an end are followed to that one. -/

namespace ApiSurface

open Program

namespace Surface

variable {s : Surface}

/-- The exports that stand for a symbol, in their order. -/
def exportsFor (s : Surface) (o : SymbolId) : List SymbolId :=
  (s.exports.entries.filter fun e => e.2.terminal = o).map Prod.fst

/-! ### The lists of the index -/

/-- One more export in the list of what it stands for. -/
def indexStep (t : Table SymbolId (List SymbolId)) (e : SymbolId × Export) :
    Table SymbolId (List SymbolId) :=
  t.insert e.2.terminal ((t.get? e.2.terminal).getD [] ++ [e.1])

theorem keys_foldl_indexStep (l : List (SymbolId × Export))
    (t : Table SymbolId (List SymbolId)) :
    (l.foldl indexStep t).keys = (l.map fun e => e.2.terminal).foldl addOnce t.keys := by
  induction l generalizing t with
  | nil => rfl
  | cons e l ih => rw [List.foldl_cons, ih, indexStep, Table.keys_insert]; rfl

theorem getD_foldl_indexStep (l : List (SymbolId × Export)) (t : Table SymbolId (List SymbolId))
    (o : SymbolId) : ((l.foldl indexStep t).get? o).getD [] =
      (t.get? o).getD [] ++ (l.filter fun e => e.2.terminal = o).map Prod.fst := by
  induction l generalizing t with
  | nil => simp
  | cons e l ih =>
    rw [List.foldl_cons, ih, indexStep, Table.get?_insert, List.filter_cons]
    by_cases ho : e.2.terminal = o
    · simp [ho]
    · simp [ho]

theorem keys_exportsByTerminal (s : Surface) : s.exportsByTerminal.keys =
    (s.exports.entries.map fun e => e.2.terminal).foldl addOnce [] :=
  keys_foldl_indexStep s.exports.entries ∅

/-- The symbols of the two indexes are the same, and in the same order. -/
theorem terminals_eq_keys (s : Surface) : s.terminals = s.exportsByTerminal.keys := by
  rw [keys_exportsByTerminal, terminals, Table.values, List.foldl_map, List.foldl_map]

theorem exportsByTerminal_eq_some {o : SymbolId} {l : List SymbolId}
    (h : s.exportsByTerminal.get? o = some l) : l = s.exportsFor o := by
  have hlist := getD_foldl_indexStep s.exports.entries ∅ o
  change (s.exportsByTerminal.get? o).getD [] = [] ++ s.exportsFor o at hlist
  rwa [h, Option.getD_some, List.nil_append] at hlist

theorem mem_exportsFor {o e : SymbolId} :
    e ∈ s.exportsFor o ↔ ∃ x, s.exports.get? e = some x ∧ x.terminal = o := by
  simp only [exportsFor, List.mem_map, List.mem_filter, decide_eq_true_eq, Table.get?_eq_some_iff]
  constructor
  · rintro ⟨⟨_, x⟩, ⟨hx, ho⟩, rfl⟩
    exact ⟨x, hx, ho⟩
  · rintro ⟨x, hx, ho⟩
    exact ⟨(e, x), ⟨hx, ho⟩, rfl⟩

theorem exportsFor_sublist (s : Surface) (o : SymbolId) :
    (s.exportsFor o).Sublist s.exports.keys :=
  List.filter_sublist.map Prod.fst

/-- Every symbol that an export stands for has the list of all exports that stand for it. -/
theorem get?_exportsByTerminal {e : SymbolId} {x : Export} (h : s.exports.get? e = some x) :
    s.exportsByTerminal.get? x.terminal = some (s.exportsFor x.terminal) := by
  have hkey : x.terminal ∈ s.exportsByTerminal.keys := by
    rw [keys_exportsByTerminal, mem_foldl_addOnce]
    exact Or.inr (List.mem_map.mpr ⟨(e, x), Table.get?_eq_some_iff.mp h, rfl⟩)
  obtain ⟨l, hl⟩ := Table.mem_keys_iff_get?.mp hkey
  rw [hl, exportsByTerminal_eq_some hl]

theorem exportsFor_ne_nil {o : SymbolId} (h : o ∈ s.exportsByTerminal.keys) :
    s.exportsFor o ≠ [] := by
  rw [keys_exportsByTerminal, mem_foldl_addOnce] at h
  obtain ⟨⟨e, x⟩, hx, rfl⟩ := List.mem_map.mp (h.resolve_left (by simp))
  exact List.ne_nil_of_mem (mem_exportsFor.mpr ⟨x, Table.get?_eq_some_iff.mpr hx, rfl⟩)

/-- The lists of the index hold every export once. -/
theorem flatten_exportsByTerminal_perm (s : Surface) :
    s.exportsByTerminal.values.flatten.Perm s.exports.keys := by
  have hvalues : s.exportsByTerminal.values = s.exportsByTerminal.keys.map s.exportsFor := by
    rw [Table.values, Table.keys, List.map_map]
    refine List.map_congr_left ?_
    rintro ⟨o, l⟩ hl
    exact exportsByTerminal_eq_some (Table.get?_eq_some_iff.mpr hl)
  have hnodup : (s.exportsByTerminal.keys.map s.exportsFor).flatten.Nodup := by
    refine List.nodup_flatten.mpr ⟨?_, List.pairwise_map.mpr ?_⟩
    · intro l hl
      obtain ⟨o, _, rfl⟩ := List.mem_map.mp hl
      exact s.exports.nodup.sublist (s.exportsFor_sublist o)
    · refine s.exportsByTerminal.nodup.imp ?_
      intro o o' hne e he he'
      obtain ⟨x, hx, rfl⟩ := mem_exportsFor.mp he
      obtain ⟨x', hx', rfl⟩ := mem_exportsFor.mp he'
      obtain rfl := Option.some.inj (hx.symm.trans hx')
      exact hne rfl
  rw [hvalues]
  refine (List.perm_ext_iff_of_nodup hnodup s.exports.nodup).mpr fun e => ?_
  rw [List.mem_flatten]
  constructor
  · rintro ⟨l, hl, he⟩
    obtain ⟨o, _, rfl⟩ := List.mem_map.mp hl
    exact (s.exportsFor_sublist o).subset he
  · intro he
    obtain ⟨x, hx⟩ := Table.mem_keys_iff_get?.mp he
    have hkey := Table.mem_keys_iff_get?.mpr ⟨_, get?_exportsByTerminal hx⟩
    exact ⟨_, List.mem_map_of_mem hkey, mem_exportsFor.mpr ⟨x, hx, rfl⟩⟩

/-! ### The order of the index -/

/-- Values are in the order of the first elements that have them. -/
theorem pairwise_head?_filter {α β : Type} [DecidableEq β] {related : α → α → Prop} (f : α → β)
    {l : List α} (h : l.Pairwise related) :
    ((l.map f).foldl addOnce []).Pairwise fun b b' =>
      ∀ x ∈ (l.filter fun a => f a = b).head?, ∀ x' ∈ (l.filter fun a => f a = b').head?,
        related x x' := by
  -- from the back: one more element is the first of its value only if that one is new
  induction l using List.reverseRecOn with
  | nil => exact .nil
  | append_singleton l a ih =>
    obtain ⟨hl, _, hlast⟩ := List.pairwise_append.mp h
    have hold (b : β) (hb : b ∈ (l.map f).foldl addOnce []) :
        ((l ++ [a]).filter fun x => f x = b).head? = (l.filter fun x => f x = b).head? := by
      obtain ⟨x, hx, hxb⟩ := List.mem_map.mp ((mem_foldl_addOnce.mp hb).resolve_left (by simp))
      have hne : (l.filter fun x => f x = b) ≠ [] :=
        List.ne_nil_of_mem (List.mem_filter.mpr ⟨hx, decide_eq_true hxb⟩)
      rw [List.filter_append, List.head?_append_of_ne_nil _ hne]
    have hpairs := (ih hl).imp_of_mem (S := fun b b' =>
      ∀ x ∈ ((l ++ [a]).filter fun a => f a = b).head?,
        ∀ x' ∈ ((l ++ [a]).filter fun a => f a = b').head?, related x x')
      fun {b b'} hb hb' hrel => by rwa [hold b hb, hold b' hb']
    rw [List.map_append, List.foldl_append, List.map_singleton, List.foldl_cons, List.foldl_nil,
      addOnce]
    split
    · exact hpairs
    · rename_i hnew
      refine List.pairwise_append.mpr ⟨hpairs, List.pairwise_singleton .., ?_⟩
      intro b hb b' hb' x hx x' hx'
      obtain rfl := List.mem_singleton.mp hb'
      rw [hold b hb] at hx
      have hx := List.mem_of_mem_filter (List.mem_of_mem_head? hx)
      obtain ⟨hx', hvalue⟩ := List.mem_filter.mp (List.mem_of_mem_head? hx')
      refine hlast x hx x' ((List.mem_append.mp hx').resolve_left fun hmem => ?_)
      rw [← of_decide_eq_true hvalue] at hnew
      exact hnew (mem_foldl_addOnce.mpr (Or.inr (List.mem_map_of_mem hmem)))

/-- The indexes of a surface agree with its exports, which have been discovered in an order. -/
structure Indexed (s : Surface) (discovered : List SymbolId) : Prop where
  terminals : s.terminals = s.exportsByTerminal.keys
  once : ∀ e x, s.exports.get? e = some x →
    e ∈ discovered ∧ ∃ l, s.exportsByTerminal.get? x.terminal = some l ∧ l.count e = 1
  only : ∀ o l, s.exportsByTerminal.get? o = some l →
    l ≠ [] ∧ ∀ e ∈ l, ∃ x, s.exports.get? e = some x ∧ x.terminal = o
  divides : s.exportsByTerminal.values.flatten.Perm s.exports.keys
  ordered : ∀ o l, s.exportsByTerminal.get? o = some l →
    l.Pairwise fun a b => discovered.idxOf a < discovered.idxOf b
  firsts : s.exportsByTerminal.entries.Pairwise fun x y => ∀ a ∈ x.2.head?, ∀ b ∈ y.2.head?,
    discovered.idxOf a < discovered.idxOf b

/-- Exports that keep an order of discovery are indexed in that order. -/
theorem indexed_of_pairwise {discovered : List SymbolId}
    (hmem : ∀ e ∈ s.exports.keys, e ∈ discovered)
    (h : s.exports.keys.Pairwise fun a b => discovered.idxOf a < discovered.idxOf b) :
    s.Indexed discovered where
  terminals := s.terminals_eq_keys
  once e x hx := by
    refine ⟨hmem e (Table.mem_keys_iff_get?.mpr ⟨x, hx⟩), _, get?_exportsByTerminal hx, ?_⟩
    exact List.count_eq_one_of_mem (s.exports.nodup.sublist (s.exportsFor_sublist _))
      (mem_exportsFor.mpr ⟨x, hx, rfl⟩)
  only o l hl := by
    have hne := exportsFor_ne_nil (Table.mem_keys_iff_get?.mpr ⟨l, hl⟩)
    obtain rfl := exportsByTerminal_eq_some hl
    exact ⟨hne, fun e => mem_exportsFor.mp⟩
  divides := s.flatten_exportsByTerminal_perm
  ordered o l hl := by
    obtain rfl := exportsByTerminal_eq_some hl
    exact h.sublist (s.exportsFor_sublist o)
  firsts := by
    have hfirsts := pairwise_head?_filter (fun e => e.2.terminal) (List.pairwise_map.mp h)
    rw [← keys_exportsByTerminal] at hfirsts
    refine (List.pairwise_map.mp hfirsts).imp_of_mem fun {x y} hx hy hrel a ha b hb => ?_
    rw [exportsByTerminal_eq_some (Table.get?_eq_some_iff.mpr hx), exportsFor, List.head?_map] at ha
    rw [exportsByTerminal_eq_some (Table.get?_eq_some_iff.mpr hy), exportsFor, List.head?_map] at hb
    obtain ⟨a, hfirst, rfl⟩ := Option.map_eq_some_iff.mp ha
    obtain ⟨b, hfirst', rfl⟩ := Option.map_eq_some_iff.mp hb
    exact hrel a hfirst b hfirst'

end Surface

namespace Program

variable {p : Program} {file : NodeId} {s : Surface} {e : SymbolId} {x : Export}

/-- What a surface of any program is made of. -/
theorem surface_parts (hs : p.surface file = .ok s) : ∃ entry b discovered warnings,
    p.symbolAt file = some entry ∧ p.boundary entry = .ok b ∧
      p.discover file entry b.symbols = .ok (discovered, warnings) ∧
      (discovered.foldlM p.exportStep ∅).result = .ok s.exports := by
  obtain ⟨s, hc, rfl⟩ := surface_eq_ok_iff.mp hs
  unfold collection at hc
  split at hc
  · obtain ⟨_, _, hc⟩ := Pass.result_lift_bind_eq_ok.mp hc
    cases hc
  · rename_i entry hentry
    obtain ⟨b, hb, hc⟩ := Pass.result_lift_bind_eq_ok.mp hc
    obtain ⟨discovered, hd, hc⟩ := Pass.result_bind_eq_ok.mp hc
    obtain ⟨t, ht, hc⟩ := Pass.result_bind_eq_ok.mp hc
    obtain ⟨_, _, hc⟩ := Pass.result_lift_bind_eq_ok.mp hc
    obtain ⟨_, _, hc⟩ := Pass.result_bind_eq_ok.mp hc
    obtain ⟨_, _, hc⟩ := Pass.result_lift_bind_eq_ok.mp hc
    obtain rfl := Except.ok.inj hc
    refine ⟨entry, b, discovered, (p.discovery file entry b.symbols).delivered, hentry, hb, ?_, ht⟩
    rw [discover, Pass.outcome, hd]
    rfl

/-- What is collected from discovered symbols are declared ones in the order of discovery. -/
theorem pairwise_idxOf_exports {discovered : List SymbolId}
    (h : (discovered.foldlM p.exportStep ∅).result = .ok s.exports) :
    (∀ e ∈ s.exports.keys, e ∈ discovered) ∧
      s.exports.keys.Pairwise fun a b => discovered.idxOf a < discovered.idxOf b := by
  have hkeys := (foldlM_exportStep_cases h).1
  have hmem (e : SymbolId) (he : e ∈ s.exports.keys) : e ∈ discovered.filter p.isDeclared := by
    rw [hkeys] at he
    exact (mem_foldl_addOnce.mp he).resolve_left List.not_mem_nil
  refine ⟨fun e he => List.mem_of_mem_filter (hmem e he), ?_⟩
  have hpairs := pairwise_idxOf_foldl_addOnce (discovered.filter p.isDeclared)
  change s.exports.keys = (discovered.filter p.isDeclared).foldl addOnce [] at hkeys
  rw [← hkeys] at hpairs
  exact hpairs.imp_of_mem fun ha hb hlt => idxOf_lt_of_filter (hmem _ ha) (hmem _ hb) hlt

/-! ### What exports stand for -/

/-- An export tells by what it stands for whether it is an alias: it stands for a symbol that is
none, which is itself exactly if it is no alias, and a report says so. -/
structure Original (p : Program) (e : SymbolId) (x : Export) : Prop where
  end_of_chain : p.isAlias x.terminal = false
  own_iff : x.terminal = e ↔ p.isAlias e = false
  reported : ∀ limit item, p.exportJson limit e x = .ok item →
    Snapshot.memberOf item "is_alias" = some (.bool (p.isAlias e))

theorem original_of_not_isAlias (hx : x.terminal = p.terminal e)
    (h : p.isAlias x.terminal = false) : p.Original e x := by
  have hown : x.terminal = e ↔ p.isAlias e = false := by
    constructor
    · intro he
      rwa [he] at h
    · intro he
      rw [hx, terminal_of_not_isAlias he]
  refine ⟨h, hown, fun limit item hitem => ?_⟩
  obtain ⟨original, _, hitem⟩ := bind_eq_ok_iff.mp hitem
  obtain rfl := Except.ok.inj hitem
  have hmember : decide (x.terminal ≠ e) = p.isAlias e := by
    cases ha : p.isAlias e with
    | true => simpa [ha] using hown
    | false => simpa [ha] using hown
  change some (Json.bool (decide (x.terminal ≠ e))) = _
  rw [hmember]

/-- Only where the unknown symbol has been made an alias can an export stand for an alias. -/
theorem original_iff (hx : x.terminal = p.terminal e) : p.Original e x ↔
    ¬(p.isAlias .unknown = true ∧ (p.BreaksOff e ∨ p.Circles e)) := by
  constructor
  · rintro h ⟨hunknown, hendless⟩
    have hend := h.end_of_chain
    rw [hx, terminal_of_endless hendless, hunknown] at hend
    cases hend
  · intro h
    refine original_of_not_isAlias hx ?_
    rcases p.terminal_cases e with hend | ⟨hunknown, hendless⟩
    · rw [hx]
      exact hend.2
    · rw [hx, hunknown]
      exact Bool.eq_false_iff.mpr fun ha => h ⟨ha, hendless⟩

/-- The indexes of every surface agree with its exports. Each export stands for something declared,
which is no alias, and for itself exactly if it is no alias, except where a program has made the
unknown symbol an alias and the chain of the export does not end. Loading never does that. -/
theorem surface_indexed (hs : p.surface file = .ok s) :
    (∃ entry b discovered warnings, p.symbolAt file = some entry ∧ p.boundary entry = .ok b ∧
      p.discover file entry b.symbols = .ok (discovered, warnings) ∧ s.Indexed discovered) ∧
    (∀ e x, s.exports.get? e = some x → (p.symbol x.terminal).declarations ≠ [] ∧
      (p.Original e x ↔ ¬(p.isAlias .unknown = true ∧ (p.BreaksOff e ∨ p.Circles e)))) ∧
    ∀ doc, Snapshot.load doc = .ok p → ∀ e x, s.exports.get? e = some x → p.Original e x := by
  obtain ⟨entry, b, discovered, warnings, hentry, hb, hd, hexports⟩ := surface_parts hs
  have hexport (e : SymbolId) (x : Export) (hx : s.exports.get? e = some x) :
      p.isDeclared e = true ∧ x.terminal = p.terminal e :=
    ((foldlM_exportStep_cases hexports).2 e x hx).resolve_left nofun
  obtain ⟨hmem, hordered⟩ := pairwise_idxOf_exports hexports
  refine ⟨⟨entry, b, discovered, warnings, hentry, hb, hd,
    Surface.indexed_of_pairwise hmem hordered⟩, fun e x hx => ?_, fun doc hp e x hx => ?_⟩
  · obtain ⟨hdeclared, hterminal⟩ := hexport e x hx
    rw [hterminal]
    exact ⟨isDeclared_iff.mp hdeclared, original_iff hterminal⟩
  · have h := Snapshot.wellFormed_of_load (Snapshot.conforms_any doc) hp
    refine (original_iff (hexport e x hx).2).mpr fun hunknown => ?_
    rw [h.isAlias_unknown] at hunknown
    cases hunknown.1

end Program

/-! ### Exports of one symbol -/

namespace Snapshot

/-- A module that exports two symbols and, besides one of them, an alias of it and an alias of that
alias. The second alias is declared before all others. -/
def sharedOriginal : Json :=
  .obj [("symbols", .arr [declaredEntry "X", declaredEntry "Y", aliasEntry "A" "X",
      .obj [("id", .str "B"), ("name", .str "B"), ("aliasOf", .str "A"),
        ("declarations", .arr [.str "b"])]]),
    ("files", .arr [.obj [("fileName", .str "main"),
      ("statements", .arr [placedEntry "X" 5, placedEntry "Y" 2,
        .obj [("id", .str "b"), ("kind", .str "export_specifier"), ("start", .int 0)]]),
      ("exports", .obj [("A", .str "A"), ("X", .str "X"), ("Y", .str "Y"), ("B", .str "B")])]])]

end Snapshot

/-- The symbol that is exported three times comes first, by the alias that is declared first, and
its own export is one of the three. -/
theorem indexed_sharedOriginal : ∃ p f s discovered,
    Snapshot.load Snapshot.sharedOriginal = .ok p ∧ f ∈ p.sources ∧ p.surface f.id = .ok s ∧
    s.exportsByTerminal.entries = [("X", ["B", "X", "A"]), ("Y", ["Y"])].map (fun e =>
      (.listed (.text e.1), e.2.map fun x => .listed (.text x))) ∧
    s.Indexed discovered ∧ ∀ e x, s.exports.get? e = some x → p.Original e x := by
  have hrun : ((Snapshot.load Snapshot.sharedOriginal).toOption.map fun p =>
      p.sources.head?.map fun f => (p.surface f.id).toOption.map fun s =>
        s.exportsByTerminal.entries) =
      some (some (some ([("X", ["B", "X", "A"]), ("Y", ["Y"])].map fun e =>
        (.listed (.text e.1), e.2.map fun x => .listed (.text x))))) := by cbv
  obtain ⟨p, hload, hrun⟩ := map_toOption_eq_some_iff.mp hrun
  obtain ⟨f, hf, hrun⟩ := Option.map_eq_some_iff.mp hrun
  obtain ⟨s, hs, hentries⟩ := map_toOption_eq_some_iff.mp hrun
  obtain ⟨⟨_, _, discovered, _, _, _, _, hindexed⟩, _, horiginal⟩ := surface_indexed hs
  exact ⟨p, f, s, discovered, hload, List.mem_of_head? hf, hs, hentries, hindexed,
    horiginal _ hload⟩

namespace Snapshot

/-- A module that exports an alias of itself. -/
def selfAlias : Json :=
  .obj [("symbols", .arr [aliasEntry "L" "L"]),
    ("files", .arr [.obj [("fileName", .str "a"),
      ("statements", .arr [.obj [("kind", .str "class_declaration"), ("start", .int 4)]]),
      ("exports", .obj [("L", .str "L")])]])]

end Snapshot

/-- The unknown symbol with a declaration, and as an alias of a symbol. -/
def Program.disguiseUnknown (p : Program) (n : NodeId) (s : SymbolId) : Program :=
  (p.addDeclaration .unknown n).setAliasTarget .unknown s

/-- What the alias of itself stands for is then declared and an alias. -/
theorem not_original_selfAlias : ∃ p q s x, Snapshot.load Snapshot.selfAlias = .ok p ∧
    q = p.disguiseUnknown (.node 1) (.listed (.text "L")) ∧ q.surface (.node 0) = .ok s ∧
    s.exports.get? (.listed (.text "L")) = some x ∧ q.isAlias x.terminal = true ∧
    ¬q.Original (.listed (.text "L")) x := by
  have hrun : ((Snapshot.load Snapshot.selfAlias).toOption.map fun p =>
      ((p.disguiseUnknown (.node 1) (.listed (.text "L"))).surface (.node 0)).toOption.map fun s =>
        (s.exports.get? (.listed (.text "L"))).map fun x =>
          (p.disguiseUnknown (.node 1) (.listed (.text "L"))).isAlias x.terminal) =
      some (some (some true)) := by cbv
  obtain ⟨p, hload, hrun⟩ := map_toOption_eq_some_iff.mp hrun
  obtain ⟨s, hs, hrun⟩ := map_toOption_eq_some_iff.mp hrun
  obtain ⟨x, hx, halias⟩ := Option.map_eq_some_iff.mp hrun
  refine ⟨p, _, s, x, hload, rfl, hs, hx, halias, fun h => ?_⟩
  rw [h.end_of_chain] at halias
  cases halias

end ApiSurface
