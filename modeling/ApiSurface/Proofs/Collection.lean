import ApiSurface.Proofs.Dependencies
import ApiSurface.Proofs.Exposure
import ApiSurface.Proofs.Sorting
import ApiSurface.Proofs.Trails
import ApiSurface.Surface

/-! The parts of a collection in a well-formed program: what the boundary holds, which exports
are discovered, and which of them are collected or reported as not declared. -/

namespace ApiSurface

/-! ### Passes -/

namespace Pass

variable {α β : Type} {x : Pass α} {f : α → Pass β}

theorem bind_of_ok {a : α} (h : x.result = .ok a) (f : α → Pass β) :
    x >>= f = ⟨x.delivered ++ (f a).delivered, (f a).result⟩ := by
  obtain ⟨delivered, result⟩ := x
  subst h
  rfl

theorem bind_of_error {e : Fault} (h : x.result = .error e) (f : α → Pass β) :
    x >>= f = ⟨x.delivered, .error e⟩ := by
  obtain ⟨delivered, result⟩ := x
  subst h
  rfl

theorem mem_delivered_bind {w : Warning} (h : w ∈ (x >>= f).delivered) :
    w ∈ x.delivered ∨ ∃ a, x.result = .ok a ∧ w ∈ (f a).delivered := by
  cases hx : x.result with
  | ok a =>
    rw [bind_of_ok hx, List.mem_append] at h
    exact h.imp id fun h => ⟨a, rfl, h⟩
  | error e =>
    rw [bind_of_error hx] at h
    exact Or.inl h

theorem delivered_lift (y : Except Fault α) : (liftM y : Pass α).delivered = [] :=
  rfl

theorem result_lift (y : Except Fault α) : (liftM y : Pass α).result = y :=
  rfl

/-- What cannot warn only adds its fault to a pass. -/
theorem lift_ok_bind (a : α) (f : α → Pass β) :
    (liftM (Except.ok a : Except Fault α) : Pass α) >>= f = f a :=
  rfl

theorem lift_error_bind (e : Fault) (f : α → Pass β) :
    (liftM (Except.error e : Except Fault α) : Pass α) >>= f = ⟨[], .error e⟩ :=
  rfl

theorem result_bind_eq_ok {b : β} :
    (x >>= f).result = .ok b ↔ ∃ a, x.result = .ok a ∧ (f a).result = .ok b := by
  cases h : x.result with
  | ok a => simp [bind_of_ok h]
  | error e => simp [bind_of_error h]

theorem result_lift_bind_eq_ok {y : Except Fault α} {b : β} :
    ((liftM y : Pass α) >>= f).result = .ok b ↔ ∃ a, y = .ok a ∧ (f a).result = .ok b :=
  result_bind_eq_ok

end Pass

namespace Program

variable {S : Shape} {p : Program}

/-! ### Boundaries -/

/-- A module exports a symbol under a name. -/
def Exposes (p : Program) (m : SymbolId) (n : Key) (s : SymbolId) : Prop :=
  ∃ t, p.exportTable m = .ok t ∧ t.get? n = some s

theorem exposes_iff_mem {m s : SymbolId} {n : Key} {entries : List (Key × SymbolId)}
    (h : (p.exportTable m).toOption.map Table.entries = some entries) :
    p.Exposes m n s ↔ (n, s) ∈ entries := by
  obtain ⟨t, ht, rfl⟩ := map_toOption_eq_some_iff.mp h
  simp [Exposes, ht, Table.get?_eq_some_iff]

theorem mem_exportsOf {m s : SymbolId} {l : List SymbolId} (h : p.exportsOf m = .ok l) :
    s ∈ l ↔ ∃ n, p.Exposes m n s := by
  obtain ⟨t, ht, rfl⟩ := map_eq_ok_iff.mp h
  rw [Table.mem_values_iff]
  constructor
  · rintro ⟨n, hn⟩
    exact ⟨n, t, ht, Table.get?_eq_some_iff.mpr hn⟩
  · rintro ⟨n, t', ht', hn⟩
    obtain rfl : t = t' := Except.ok.inj (ht.symm.trans ht')
    exact ⟨n, Table.get?_eq_some_iff.mp hn⟩

theorem mem_foldl_addOnce {α : Type} [DecidableEq α] {l acc : List α} {a : α} :
    a ∈ l.foldl addOnce acc ↔ a ∈ acc ∨ a ∈ l := by
  induction l generalizing acc with
  | nil => simp
  | cons b l ih =>
    have hb : a ∈ addOnce acc b ↔ a ∈ acc ∨ a = b := by
      unfold addOnce
      split
      · rename_i hm
        exact ⟨Or.inl, fun h => h.elim id fun he => he ▸ hm⟩
      · simp
    rw [List.foldl_cons, ih, hb, List.mem_cons, or_assoc]

/-- The boundary after a list of links: the symbols and the specifiers of those that lead to a
library, each specifier as it comes up first. -/
theorem foldlM_boundaryStep {links : List Link} {b b' : Boundary}
    (h : links.foldlM p.boundaryStep b = .ok b') :
    (∀ s, s ∈ b'.symbols ↔ s ∈ b.symbols ∨
      ∃ l ∈ links, l.target.isExternal = true ∧ ∃ n, p.Exposes l.target.root n s) ∧
      b'.specifiers.entries = Table.firsts (b.specifiers.entries ++
        (links.filter fun l => l.target.isExternal).map fun l =>
          (l.target.specifier.key, l.target.specifier)) := by
  induction links generalizing b with
  | nil =>
    obtain rfl := Except.ok.inj h
    simp [Table.firsts_of_nodup b.specifiers.nodup]
  | cons l links ih =>
    rw [List.foldlM_cons] at h
    obtain ⟨b₁, hb₁, h⟩ := bind_eq_ok_iff.mp h
    obtain ⟨hsyms, hspecs⟩ := ih h
    unfold boundaryStep at hb₁
    split at hb₁
    · rename_i hext
      obtain ⟨exported, he, hb₁⟩ := bind_eq_ok_iff.mp hb₁
      obtain rfl := Except.ok.inj hb₁
      constructor
      · intro s
        rw [hsyms, Boundary.add, mem_foldl_addOnce, mem_exportsOf he]
        simp [hext, or_assoc]
      · have hstep := Table.entries_foldl_insertNew
          [(l.target.specifier.key, l.target.specifier)] b.specifiers
        rw [List.foldl_cons, List.foldl_nil] at hstep
        rw [hspecs, Boundary.add, hstep, Table.firsts_firsts_append, List.append_assoc,
          List.filter_cons, if_pos hext]
        rfl
    · rename_i hext
      obtain rfl := Except.ok.inj hb₁
      simp [hsyms, hspecs, hext]

/-- A statement of the project leads to a library. It stands in a module that can be reached
from an entry without leaving the project. -/
def PassesThrough (p : Program) (entry : SymbolId) (t : WildcardTarget) : Prop :=
  ∃ m, p.internalNetwork.Reaches entry m ∧ ∃ d ∈ p.internalNetwork.edges m,
    p.resolveWildcard d = .ok t ∧ t.isExternal = true

theorem passesThrough_iff {entry : SymbolId} {t : WildcardTarget} : p.PassesThrough entry t ↔
    ∃ d ∈ p.passedStatements entry, p.resolveWildcard d = .ok t ∧ t.isExternal = true := by
  constructor
  · rintro ⟨m, hm, d, hd, ht⟩
    exact ⟨d, mem_passedStatements.mpr ⟨m, hm, hd⟩, ht⟩
  · rintro ⟨d, hd, ht⟩
    obtain ⟨m, hm, hd⟩ := mem_passedStatements.mp hd
    exact ⟨m, hm, d, hd, ht⟩

theorem exists_passesThrough_iff {m r : SymbolId} :
    (∃ t, p.PassesThrough m t ∧ t.root = r) ↔ some (r, true) ∈ (p.passedStatements m).map fun d =>
      (p.resolveWildcard d).toOption.map fun t => (t.root, t.isExternal) := by
  simp only [passesThrough_iff, List.mem_map, map_toOption_eq_some_iff, Prod.mk.injEq]
  constructor
  · rintro ⟨t, ⟨d, hd, ht, he⟩, hr⟩
    exact ⟨d, hd, t, ht, hr, he⟩
  · rintro ⟨d, hd, t, ht, hr, he⟩
    exact ⟨t, ⟨d, hd, ht, he⟩, hr⟩

theorem boundary_eq_ok_iff {m : SymbolId} {b : Boundary} : p.boundary m = .ok b ↔
    (p.trail m).links.foldlM p.boundaryStep {} = .ok b ∧ (p.trail m).fault = none := by
  rw [boundary_eq_foldM, Trail.foldM, bind_eq_ok_iff]
  constructor
  · rintro ⟨a, ha, h⟩
    split at h
    · cases h
    · exact ⟨Except.ok.inj h ▸ ha, ‹_›⟩
  · rintro ⟨hb, hf⟩
    exact ⟨b, hb, by rw [hf]; rfl⟩

theorem passesThrough_iff_link {m : SymbolId} (hfault : (p.trail m).fault = none)
    {t : WildcardTarget} :
    p.PassesThrough m t ↔ ∃ l ∈ (p.trail m).links, l.target = t ∧ t.isExternal = true := by
  constructor
  · rintro ⟨x, hx, d, hd, ht, he⟩
    obtain ⟨l, hl, _, hresolve⟩ := exists_link_of_edge hfault hx hd
    exact ⟨l, hl, Except.ok.inj (hresolve.symm.trans ht), he⟩
  · rintro ⟨l, hl, rfl, he⟩
    obtain ⟨x, hx, hd⟩ := edge_of_link hfault hl
    exact ⟨x, hx, l.declaration, hd, (links_trail hfault l hl).1, he⟩

/-- The boundary of an entry is what it passes through. -/
theorem mem_boundary {m : SymbolId} {b : Boundary} (hb : p.boundary m = .ok b) :
    (∀ s, s ∈ b.symbols ↔ ∃ t n, p.PassesThrough m t ∧ p.Exposes t.root n s) ∧
      (∀ k, k ∈ b.specifiers.keys ↔ ∃ t, p.PassesThrough m t ∧ t.specifier.key = k) ∧
      ∀ n ∈ b.specifiers.values, ∃ t, p.PassesThrough m t ∧ t.specifier = n := by
  obtain ⟨hfold, hfault⟩ := boundary_eq_ok_iff.mp hb
  obtain ⟨hsyms, hspecs⟩ := foldlM_boundaryStep hfold
  refine ⟨fun s => ?_, fun k => ?_, fun n hn => ?_⟩
  · rw [hsyms]
    constructor
    · rintro (hs | ⟨l, hl, he, n, hn⟩)
      · cases hs
      · exact ⟨l.target, n, (passesThrough_iff_link hfault).mpr ⟨l, hl, rfl, he⟩, hn⟩
    · rintro ⟨t, n, ht, hn⟩
      obtain ⟨l, hl, rfl, he⟩ := (passesThrough_iff_link hfault).mp ht
      exact Or.inr ⟨l, hl, he, n, hn⟩
  · rw [Table.keys, hspecs, Table.mem_keys_firsts]
    constructor
    · intro hk
      obtain ⟨l, hl, rfl⟩ := by simpa using hk
      exact ⟨l.target, (passesThrough_iff_link hfault).mpr ⟨l, hl.1, rfl, hl.2⟩, rfl⟩
    · rintro ⟨t, ht, rfl⟩
      obtain ⟨l, hl, rfl, he⟩ := (passesThrough_iff_link hfault).mp ht
      simpa using ⟨l, ⟨hl, he⟩, rfl⟩
  · obtain ⟨k, hk⟩ := Table.mem_values_iff.mp hn
    rw [hspecs] at hk
    obtain ⟨l, hl, heq⟩ := List.mem_map.mp (Table.mem_of_mem_firsts hk)
    obtain ⟨hl, he⟩ := List.mem_filter.mp hl
    exact ⟨l.target, (passesThrough_iff_link hfault).mpr ⟨l, hl, rfl, he⟩, (Prod.mk.inj heq).2⟩

/-- The exports of a library that is passed through have been listed for the boundary. -/
theorem legible_of_passesThrough {m : SymbolId} {b : Boundary} (hb : p.boundary m = .ok b)
    {t : WildcardTarget} (ht : p.PassesThrough m t) : p.Legible t.root := by
  obtain ⟨hfold, hfault⟩ := boundary_eq_ok_iff.mp hb
  obtain ⟨l, hl, rfl, hext⟩ := (passesThrough_iff_link hfault).mp ht
  obtain ⟨b₁, b₂, hstep⟩ := exists_step_of_foldlM hfold hl
  rw [boundaryStep, if_pos hext] at hstep
  obtain ⟨exported, he, _⟩ := bind_eq_ok_iff.mp hstep
  exact (exportsOf_eq_ok_iff.mp he).1

/-! ### Exports -/

/-- One more symbol among the collected exports. -/
def exportStep (p : Program) (t : Table SymbolId Export) (s : SymbolId) :
    Pass (Table SymbolId Export) := do
  match ← p.export? s with
  | some e => return t.insert s e
  | none => do
    Pass.warn (.noDeclaration s)
    return t

/-- An export is what a symbol stands for, if that is declared, with its references. -/
theorem export?_eq_ok {x : SymbolId} {r : Option Export} (h : p.export? x = .ok r) :
    p.isDeclared x = r.isSome ∧ ∀ e, r = some e →
      e.terminal = p.terminal x ∧ p.references (p.terminal x) = .ok e.references := by
  obtain ⟨terminal, hterminal, h⟩ := bind_eq_ok_iff.mp h
  obtain ⟨_, _, hterminal⟩ := bind_eq_ok_iff.mp hterminal
  obtain rfl := Except.ok.inj hterminal
  cases hd : p.isDeclared x with
  | true =>
    rw [hd, if_pos rfl] at h
    obtain ⟨rs, hrs, h⟩ := bind_eq_ok_iff.mp h
    obtain rfl := Except.ok.inj h
    refine ⟨rfl, ?_⟩
    rintro e ⟨⟩
    exact ⟨rfl, hrs⟩
  | false =>
    rw [hd, if_neg Bool.false_ne_true] at h
    obtain rfl := Except.ok.inj h
    exact ⟨rfl, nofun⟩

/-- A step that succeeds collects the export of the symbol, if it has one. -/
theorem exportStep_cases {x : SymbolId} {t t' : Table SymbolId Export}
    (h : (p.exportStep t x).result = .ok t') :
    (∃ e, p.export? x = .ok (some e) ∧ t' = t.insert x e) ∨ p.export? x = .ok none ∧ t' = t := by
  obtain ⟨r, hr, h⟩ := Pass.result_lift_bind_eq_ok.mp h
  cases r with
  | some e => exact Or.inl ⟨e, hr, (Except.ok.inj h).symm⟩
  | none => exact Or.inr ⟨hr, (Except.ok.inj h).symm⟩

/-- What is collected are the symbols that stand for something declared, in the order in which they
first occur, each with its export. -/
theorem foldlM_exportStep_eq_ok {l : List SymbolId} {t t' : Table SymbolId Export}
    (h : (l.foldlM p.exportStep t).result = .ok t') :
    t'.keys = (l.filter p.isDeclared).foldl addOnce t.keys ∧
      ∀ x e, t'.get? x = some e → t.get? x = some e ∨ p.export? x = .ok (some e) := by
  induction l generalizing t with
  | nil =>
    obtain rfl := Except.ok.inj h
    exact ⟨rfl, fun _ _ => Or.inl⟩
  | cons s l ih =>
    rw [List.foldlM_cons] at h
    obtain ⟨t₁, hstep, h⟩ := Pass.result_bind_eq_ok.mp h
    obtain ⟨hkeys, hget⟩ := ih h
    rcases exportStep_cases hstep with ⟨e₁, he₁, rfl⟩ | ⟨hnone, rfl⟩
    · have hd : p.isDeclared s = true := (export?_eq_ok he₁).1
      refine ⟨?_, fun x e hx => (hget x e hx).elim (fun hold => ?_) Or.inr⟩
      · rw [hkeys, List.filter_cons, if_pos hd, List.foldl_cons, Table.keys_insert]
        rfl
      · rw [Table.get?_insert] at hold
        split at hold
        · rename_i hs
          obtain rfl := hs
          obtain rfl := Option.some.inj hold
          exact Or.inr he₁
        · exact Or.inl hold
    · refine ⟨?_, hget⟩
      rw [hkeys, List.filter_cons, if_neg (by simp [(export?_eq_ok hnone).1])]

theorem foldlM_exportStep_cases {l : List SymbolId} {t t' : Table SymbolId Export}
    (h : (l.foldlM p.exportStep t).result = .ok t') :
    t'.keys = (l.filter p.isDeclared).foldl addOnce t.keys ∧
      ∀ x e, t'.get? x = some e →
        t.get? x = some e ∨ p.isDeclared x = true ∧ e.terminal = p.terminal x := by
  obtain ⟨hkeys, hget⟩ := foldlM_exportStep_eq_ok h
  refine ⟨hkeys, fun x e hx => (hget x e hx).imp_right fun he => ?_⟩
  obtain ⟨hd, he⟩ := export?_eq_ok he
  exact ⟨hd, (he e rfl).1⟩

/-- The export of a declared symbol is what it stands for, with its references. -/
theorem WellFormed.export?_eq (h : p.WellFormed S []) {s : SymbolId} (hs : s ∈ p.symbolIds) :
    ∃ rs, p.references (p.terminal s) = .ok rs ∧
      p.export? s = .ok (if p.isDeclared s then some ⟨p.terminal s, rs⟩ else none) := by
  obtain ⟨rs, hrs, _⟩ := h.references_spec (h.terminal_mem hs) (h.isAlias_terminal hs)
  refine ⟨rs, hrs, ?_⟩
  rw [export?, h.terminalOf_of_mem hs, ok_bind, hrs]
  cases p.isDeclared s <;> rfl

/-- A step collects a declared symbol and reports any other. -/
theorem WellFormed.exportStep_eq (h : p.WellFormed S []) {s : SymbolId} (hs : s ∈ p.symbolIds)
    (t : Table SymbolId Export) : ∃ t',
      p.exportStep t s = ⟨if p.isDeclared s then [] else [.noDeclaration s], .ok t'⟩ ∧
        t'.keys = (if p.isDeclared s then addOnce t.keys s else t.keys) ∧
        ∀ x e, t'.get? x = some e → t.get? x = some e ∨ p.export? x = .ok (some e) := by
  obtain ⟨rs, _, hexport⟩ := h.export?_eq hs
  unfold exportStep
  rw [hexport]
  cases hd : p.isDeclared s with
  | true =>
    refine ⟨t.insert s ⟨p.terminal s, rs⟩, rfl, Table.keys_insert .., fun x e hx => ?_⟩
    rw [Table.get?_insert] at hx
    split at hx
    · rename_i hxs
      obtain rfl := hxs
      right
      rw [hexport, hd, ← hx]
      rfl
    · exact Or.inl hx
  | false => exact ⟨t, rfl, rfl, fun _ _ => Or.inl⟩

theorem WellFormed.foldlM_exportStep (h : p.WellFormed S []) {l : List SymbolId}
    (hl : ∀ s ∈ l, s ∈ p.symbolIds) (t : Table SymbolId Export) : ∃ t',
      l.foldlM p.exportStep t =
          ⟨(l.filter fun s => !p.isDeclared s).map .noDeclaration, .ok t'⟩ ∧
        t'.keys = (l.filter p.isDeclared).foldl addOnce t.keys ∧
        ∀ x e, t'.get? x = some e → t.get? x = some e ∨ p.export? x = .ok (some e) := by
  induction l generalizing t with
  | nil => exact ⟨t, rfl, rfl, fun _ _ => Or.inl⟩
  | cons s l ih =>
    obtain ⟨t₁, hstep, hk₁, he₁⟩ := h.exportStep_eq (hl s (List.mem_cons_self ..)) t
    obtain ⟨t₂, hrest, hk₂, he₂⟩ := ih (fun x hx => hl x (List.mem_cons_of_mem _ hx)) t₁
    refine ⟨t₂, ?_, ?_, fun x e hx => (he₂ x e hx).elim (he₁ x e) Or.inr⟩
    · rw [List.foldlM_cons, Pass.bind_of_ok (congrArg Pass.result hstep), hrest, hstep]
      cases hd : p.isDeclared s <;> simp [hd]
    · rw [hk₂, hk₁]
      cases hd : p.isDeclared s <;> simp [hd]

/-- The declared symbols of a list are collected in the order in which they first occur, each
with its export, and the others are reported. -/
theorem WellFormed.exportAll_eq (h : p.WellFormed S []) {l : List SymbolId}
    (hl : ∀ s ∈ l, s ∈ p.symbolIds) : ∃ t,
      p.exportAll l = ⟨(l.filter fun s => !p.isDeclared s).map .noDeclaration, .ok t⟩ ∧
        t.keys = (l.filter p.isDeclared).foldl addOnce [] ∧
        ∀ x e, t.get? x = some e → p.export? x = .ok (some e) := by
  obtain ⟨t, ht, hk, he⟩ := h.foldlM_exportStep hl ∅
  exact ⟨t, ht, hk, fun x e hx => (he x e hx).resolve_left (by simp)⟩

/-- The declared symbols of a list are collected, and the others are reported. -/
theorem WellFormed.exportAll_spec (h : p.WellFormed S []) {l : List SymbolId}
    (hl : ∀ s ∈ l, s ∈ p.symbolIds) : ∃ t,
      p.exportAll l = ⟨(l.filter fun s => !p.isDeclared s).map .noDeclaration, .ok t⟩ ∧
        ∀ s, s ∈ t.keys ↔ s ∈ l ∧ p.isDeclared s = true := by
  obtain ⟨t, ht, hk, _⟩ := h.exportAll_eq hl
  refine ⟨t, ht, fun s => ?_⟩
  rw [hk, mem_foldl_addOnce, List.mem_filter]
  simp

/-! ### Discovery -/

theorem mem_ownExports {m s : SymbolId} {n : Key} (h : (n, s) ∈ (p.ownExports m).entries) :
    ∃ e, (p.tableOf m).get? n = some e ∧ e.symbol = s := by
  obtain ⟨⟨k, e⟩, he, heq⟩ := List.mem_map.mp h
  obtain ⟨rfl, rfl⟩ := Prod.mk.inj heq
  exact ⟨e, Table.get?_eq_some_iff.mpr (List.mem_of_mem_filter he), rfl⟩

/-- What a module exports is there. -/
theorem WellFormed.holds_of_exposes (h : p.WellFormed S []) {m s : SymbolId} {n : Key}
    (hs : p.Exposes m n s) : p.Holds s := by
  obtain ⟨t, ht, hn⟩ := hs
  obtain ⟨_, he⟩ := exportTable_eq_ok_iff.mp ht
  have hmem : (n, s) ∈ p.exposed m := he ▸ Table.get?_eq_some_iff.mp hn
  obtain ⟨x, _, hx⟩ := List.mem_flatMap.mp (Table.mem_of_mem_firsts hmem)
  have hown : (n, s) ∈ (p.ownExports x).entries := by
    split at hx
    · exact hx
    · exact List.mem_of_mem_filter hx
  obtain ⟨e, he, rfl⟩ := mem_ownExports hown
  exact h.holds_of_table he

/-- A module is not taken for the shared scope, whatever the name of its file. -/
theorem WellFormed.not_isGlobalScope (h : p.WellFormed S []) {f : SourceFile}
    (hf : f ∈ p.sources) (hm : f.isModule = true) :
    (p.symbol f.symbol).isGlobalScope = false := by
  have hs : f.symbol = .ofFile f.id := by rw [SourceFile.symbol, if_pos hm]
  obtain ⟨x, hx⟩ := mem_symbolIds_iff.mp (h.holds_fileSymbol hf).1
  rw [hs] at hx ⊢
  rw [symbol_of_get? hx, Symbol.isGlobalScope, h.modules f hf hm x hx]
  rw [SourceFile.moduleName, Json.isText, decide_eq_false_iff_not]
  intro he
  have := congrArg String.toList he
  simp [globalName] at this

theorem sortedBy_eq_ok_iff {α : Type} {before : α → α → Option Bool} {l r : List α} :
    sortedBy before l = .ok r ↔ sortBy? before l = some r := by
  unfold sortedBy
  cases sortBy? before l <;> simp

theorem sortedBy_perm {α : Type} {before : α → α → Option Bool} {l r : List α}
    (h : sortedBy before l = .ok r) : r.Perm l :=
  sortBy?_perm (sortedBy_eq_ok_iff.mp h)

/-- A symbol that has declarations and no place. -/
def isUnplaced (p : Program) (positions : Table SymbolId Json) (s : SymbolId) : Bool :=
  (positions.get? s).isNone && !(p.symbol s).declarations.isEmpty

theorem warnUnplaced_eq (positions : Table SymbolId Json) {l : List SymbolId}
    (hl : ∀ s ∈ l, s ∈ p.symbolIds) : p.warnUnplaced positions l =
      ⟨(l.filter (p.isUnplaced positions)).map .noPosition, .ok ()⟩ := by
  induction l with
  | nil => rfl
  | cons s l ih =>
    have ih := ih fun x hx => hl x (List.mem_cons_of_mem _ hx)
    unfold warnUnplaced at ih ⊢
    rw [List.forM_eq_forM] at ih ⊢
    rw [List.forM_cons, ih, symbolOf_of_mem (hl s (List.mem_cons_self ..)), Pass.lift_ok_bind]
    cases hp : (positions.get? s).isNone with
    | false => simp only [isUnplaced, hp, Bool.false_and, List.filter_cons]; rfl
    | true =>
      cases hd : (p.symbol s).declarations.isEmpty with
      | false => simp only [isUnplaced, hp, hd, List.filter_cons]; rfl
      | true => simp only [isUnplaced, hp, hd, List.filter_cons]; rfl

/-- The exports of a module in the order of their places, except for the excluded ones. -/
theorem WellFormed.orderedExports_eq (h : p.WellFormed S []) {entry : SymbolId}
    {exported : List SymbolId} {positions : Table SymbolId Json}
    (he : p.exportsOf entry = .ok exported) (hp : p.positions entry = .ok positions)
    (excluded : List SymbolId) : p.orderedExports entry excluded =
      ⟨((exported.filter (· ∉ excluded)).filter (p.isUnplaced positions)).map .noPosition,
        sortedBy (placedBefore? positions) (exported.filter (· ∉ excluded))⟩ := by
  have hmem : ∀ s ∈ exported.filter (· ∉ excluded), s ∈ p.symbolIds := by
    intro s hs
    obtain ⟨n, hn⟩ := (mem_exportsOf he).mp (List.mem_of_mem_filter hs)
    exact (h.holds_of_exposes hn).1
  rw [orderedExports, he, Pass.lift_ok_bind, hp, Pass.lift_ok_bind, warnUnplaced_eq _ hmem]
  rw [Pass.bind_of_ok rfl, Pass.delivered_lift, Pass.result_lift, List.append_nil]

theorem WellFormed.discovery_of_module (h : p.WellFormed S []) {f : SourceFile}
    (hf : f ∈ p.sources) (hm : f.isModule = true) (excluded : List SymbolId) :
    p.discovery f.id f.symbol excluded = p.orderedExports f.symbol excluded := by
  rw [discovery, symbolOf_of_mem (h.holds_fileSymbol hf).1, Pass.lift_ok_bind,
    h.not_isGlobalScope hf hm]
  rfl

/-- Which symbols are discovered at a module. None is reported as not declared yet. -/
theorem WellFormed.mem_discovery (h : p.WellFormed S []) {f : SourceFile} (hf : f ∈ p.sources)
    (hm : f.isModule = true) {excluded l : List SymbolId}
    (hl : (p.discovery f.id f.symbol excluded).result = .ok l) (s : SymbolId) :
    (s ∈ l ↔ (∃ n, p.Exposes f.symbol n s) ∧ s ∉ excluded) ∧
      .noDeclaration s ∉ (p.discovery f.id f.symbol excluded).delivered := by
  rw [h.discovery_of_module hf hm] at hl ⊢
  obtain ⟨exported, he, hl'⟩ := Pass.result_lift_bind_eq_ok.mp hl
  obtain ⟨positions, hp, -⟩ := Pass.result_lift_bind_eq_ok.mp hl'
  rw [h.orderedExports_eq he hp] at hl ⊢
  constructor
  · rw [(sortedBy_perm hl).mem_iff, List.mem_filter, mem_exportsOf he, decide_eq_true_eq]
  · simp

/-! ### Collection -/

theorem WellFormed.holds_scope (h : p.WellFormed S []) {f : SourceFile} {s : SymbolId}
    (hs : s ∈ p.scope f) : p.Holds s := by
  rcases mem_foldl_addOnce.mp hs with hs | hs
  · cases hl : p.locals.get? f.name.key with
    | none => simp [hl] at hs
    | some l => exact h.locals _ l hl s (by simpa [hl] using hs)
  · exact h.globals s hs

theorem WellFormed.holds_globalScope (h : p.WellFormed S []) {s : SymbolId}
    (hs : s ∈ p.globalScope) : p.Holds s := by
  unfold globalScope at hs
  split at hs
  · exact h.holds_scope hs
  · cases hs

theorem forM_symbolOf {l : List SymbolId} (h : ∀ s ∈ l, s ∈ p.symbolIds) :
    (l.forM fun s => do
      let _ ← (p.symbolOf s : Except Fault Symbol)) = (pure () : Pass Unit) := by
  induction l with
  | nil => rfl
  | cons s l ih =>
    rw [List.forM_eq_forM, List.forM_cons, symbolOf_of_mem (h s (List.mem_cons_self ..))]
    exact ih fun x hx => h x (List.mem_cons_of_mem _ hx)

/-- The collection at a file without what cannot fail. -/
theorem WellFormed.collection_eq (h : p.WellFormed S []) {f : SourceFile} (hf : f ∈ p.sources) :
    p.collection f.id = do
      let b ← p.boundary f.symbol
      let l ← p.discovery f.id f.symbol b.symbols
      let t ← p.exportAll l
      let names ← p.exportNames t.keys
      return { entry := f, externalModules := b.specifiers, exports := t, names
               globals := p.globalScope } := by
  have hglobals := forM_symbolOf (p := p) fun s hs => (h.holds_globalScope hs).1
  have hsource : p.sourceOf f.id = .ok f := by rw [sourceOf, h.source?_of_mem hf]
  rw [collection, h.symbolAt_file hf]
  simp only [hglobals, hsource]
  rfl

/-- What a collection that has succeeded is made of. -/
theorem WellFormed.collection_eq_ok (h : p.WellFormed S []) {f : SourceFile} (hf : f ∈ p.sources)
    {s : Surface} (hs : (p.collection f.id).result = .ok s) : ∃ b l,
      p.boundary f.symbol = .ok b ∧ (p.discovery f.id f.symbol b.symbols).result = .ok l ∧
      (p.exportAll l).result = .ok s.exports ∧ s.externalModules = b.specifiers ∧
      (p.collection f.id).delivered =
        (p.discovery f.id f.symbol b.symbols).delivered ++ (p.exportAll l).delivered := by
  rw [h.collection_eq hf] at hs ⊢
  obtain ⟨b, hb, hs⟩ := Pass.result_lift_bind_eq_ok.mp hs
  obtain ⟨l, hl, hs⟩ := Pass.result_bind_eq_ok.mp hs
  obtain ⟨t, ht, hs⟩ := Pass.result_bind_eq_ok.mp hs
  obtain ⟨names, hn, hs⟩ := Pass.result_lift_bind_eq_ok.mp hs
  obtain rfl := Except.ok.inj hs
  refine ⟨b, l, hb, hl, ht, rfl, ?_⟩
  rw [hb, Pass.lift_ok_bind, Pass.bind_of_ok hl, Pass.bind_of_ok ht, hn, Pass.lift_ok_bind]
  simp [pure]

end Program

end ApiSurface
