import ApiSurface.Program.Basic
import ApiSurface.Proofs.Tables
import Mathlib.Data.List.Forall2

/-! How computations with faults end, and what it takes to look something up in a program. -/

namespace ApiSurface

variable {α β : Type}

/-! ### Faults -/

@[simp] theorem pure_eq_ok (a : α) : (pure a : Except Fault α) = .ok a := rfl

@[simp] theorem throw_eq_error (e : Fault) : (throw e : Except Fault α) = .error e := rfl

@[simp] theorem ok_bind (a : α) (f : α → Except Fault β) : (Except.ok a >>= f) = f a := rfl

@[simp] theorem error_bind (e : Fault) (f : α → Except Fault β) :
    ((Except.error e : Except Fault α) >>= f) = .error e := rfl

theorem bind_eq_ok_iff {x : Except Fault α} {f : α → Except Fault β} {b : β} :
    (x >>= f) = .ok b ↔ ∃ a, x = .ok a ∧ f a = .ok b := by
  cases x with
  | error e => simp
  | ok a => simp

@[simp] theorem map_eq_ok_iff {x : Except Fault α} {f : α → β} {b : β} :
    x.map f = .ok b ↔ ∃ a, x = .ok a ∧ f a = b := by
  cases x with
  | error e => simp [Except.map]
  | ok a => simp [Except.map]

theorem map_toOption_eq_some_iff {ε : Type} {x : Except ε α} {f : α → β} {b : β} :
    x.toOption.map f = some b ↔ ∃ a, x = .ok a ∧ f a = b := by
  cases x with
  | error e => simp [Except.toOption]
  | ok a => simp [Except.toOption]

/-! ### Faults in lists -/

theorem mapM_eq_ok_iff {f : α → Except Fault β} {l : List α} {bs : List β} :
    l.mapM f = .ok bs ↔ List.Forall₂ (fun a b => f a = .ok b) l bs := by
  induction l generalizing bs with
  | nil => simp [eq_comm]
  | cons a l ih =>
    rw [List.mapM_cons, bind_eq_ok_iff, List.forall₂_cons_left_iff]
    refine exists_congr fun b => ?_
    simp only [bind_eq_ok_iff, ih, pure_eq_ok, Except.ok.injEq]
    constructor
    · rintro ⟨hb, bs', hl, rfl⟩
      exact ⟨bs', hb, hl, rfl⟩
    · rintro ⟨bs', hb, hl, rfl⟩
      exact ⟨hb, bs', hl, rfl⟩

/-- A list without a fault. -/
theorem exists_mapM {f : α → Except Fault β} {l : List α} (h : ∀ a ∈ l, ∃ b, f a = .ok b) :
    ∃ bs, l.mapM f = .ok bs := by
  induction l with
  | nil => exact ⟨[], rfl⟩
  | cons a l ih =>
    obtain ⟨b, hb⟩ := h a (List.mem_cons_self ..)
    obtain ⟨bs, hbs⟩ := ih fun x hx => h x (List.mem_cons_of_mem _ hx)
    exact ⟨b :: bs, by rw [List.mapM_cons, hb, ok_bind, hbs]; rfl⟩

/-- Two computations without a fault over one list, with related results at each element. -/
theorem exists_mapM₂ {γ : Type} {f : α → Except Fault β} {g : α → Except Fault γ}
    {R : β → γ → Prop} {l : List α} (h : ∀ a ∈ l, ∃ b c, f a = .ok b ∧ g a = .ok c ∧ R b c) :
    ∃ bs cs, l.mapM f = .ok bs ∧ l.mapM g = .ok cs ∧ List.Forall₂ R bs cs := by
  induction l with
  | nil => exact ⟨[], [], rfl, rfl, .nil⟩
  | cons a l ih =>
    obtain ⟨b, c, hb, hc, hR⟩ := h a (List.mem_cons_self ..)
    obtain ⟨bs, cs, hbs, hcs, hRs⟩ := ih fun x hx => h x (List.mem_cons_of_mem _ hx)
    refine ⟨b :: bs, c :: cs, ?_, ?_, .cons hR hRs⟩
    · rw [List.mapM_cons, hb, ok_bind, hbs]
      rfl
    · rw [List.mapM_cons, hc, ok_bind, hcs]
      rfl

/-- A run over a list whose steps keep an invariant and have no fault. -/
theorem exists_foldlM {f : β → α → Except Fault β} {inv : β → Prop} {l : List α} {b : β}
    (hb : inv b) (h : ∀ a ∈ l, ∀ b, inv b → ∃ b', f b a = .ok b' ∧ inv b') :
    ∃ b', l.foldlM f b = .ok b' ∧ inv b' := by
  induction l generalizing b with
  | nil => exact ⟨b, rfl, hb⟩
  | cons a l ih =>
    obtain ⟨b₁, hb₁, hi⟩ := h a (List.mem_cons_self ..) b hb
    obtain ⟨b₂, hb₂, hi⟩ := ih hi fun x hx => h x (List.mem_cons_of_mem _ hx)
    exact ⟨b₂, by rw [List.foldlM_cons, hb₁, ok_bind, hb₂], hi⟩

/-- A run whose steps lose no key of a table and add those that its elements ask for. -/
theorem exists_foldlM_keys {κ : Type} {f : Table κ β → α → Except Fault (Table κ β)}
    {asks : α → κ → Prop} {l : List α} (t : Table κ β)
    (h : ∀ a ∈ l, ∀ t, ∃ t', f t a = .ok t' ∧ ∀ k, k ∈ t.keys ∨ asks a k → k ∈ t'.keys) :
    ∃ t', l.foldlM f t = .ok t' ∧ ∀ k, (k ∈ t.keys ∨ ∃ a ∈ l, asks a k) → k ∈ t'.keys := by
  induction l generalizing t with
  | nil => exact ⟨t, rfl, by simp⟩
  | cons a l ih =>
    obtain ⟨t₁, ht₁, hk₁⟩ := h a (List.mem_cons_self ..) t
    obtain ⟨t₂, ht₂, hk₂⟩ := ih t₁ fun x hx => h x (List.mem_cons_of_mem _ hx)
    refine ⟨t₂, by rw [List.foldlM_cons, ht₁, ok_bind, ht₂], fun k hk => hk₂ k ?_⟩
    rcases hk with hk | ⟨x, hx, hk⟩
    · exact Or.inl (hk₁ k (Or.inl hk))
    · rcases List.mem_cons.mp hx with rfl | hx
      · exact Or.inl (hk₁ k (Or.inr hk))
      · exact Or.inr ⟨x, hx, hk⟩

/-- A fold that succeeds has taken every step. -/
theorem exists_step_of_foldlM {f : β → α → Except Fault β} {l : List α} {b b' : β}
    (h : l.foldlM f b = .ok b') {a : α} (ha : a ∈ l) : ∃ b₁ b₂, f b₁ a = .ok b₂ := by
  induction l generalizing b with
  | nil => cases ha
  | cons c l ih =>
    rw [List.foldlM_cons] at h
    obtain ⟨b₁, hb₁, h⟩ := bind_eq_ok_iff.mp h
    rcases List.mem_cons.mp ha with rfl | ha
    · exact ⟨b, b₁, hb₁⟩
    · exact ih h ha

/-- The results of a list without a fault are those of its elements. -/
theorem mem_of_mapM {f : α → Except Fault β} {l : List α} {bs : List β} (h : l.mapM f = .ok bs)
    {b : β} : b ∈ bs ↔ ∃ a ∈ l, f a = .ok b := by
  have hl := mapM_eq_ok_iff.mp h
  induction hl with
  | nil => simp
  | cons ha hl ih => simp [ih (mapM_eq_ok_iff.mpr hl), ha, eq_comm]

/-! ### Lookups -/

theorem Entity.present?_eq_some {e x : Entity} : e.present? = some x ↔ x = e ∧ e ≠ .nothing := by
  unfold Entity.present?
  split <;> simp_all [eq_comm]

namespace Program

variable {p : Program}

theorem symbolAt_eq_some {n : NodeId} {s : SymbolId} :
    p.symbolAt n = some s ↔ p.bindings.get? n = some s ∧ s ≠ .nothing := by
  simp only [symbolAt, Option.bind_eq_some_iff, Entity.present?_eq_some]
  constructor
  · rintro ⟨_, hb, rfl, hn⟩
    exact ⟨hb, hn⟩
  · rintro ⟨hb, hn⟩
    exact ⟨s, hb, rfl, hn⟩

theorem mem_symbolIds_iff {s : SymbolId} : s ∈ p.symbolIds ↔ ∃ x, p.symbols.get? s = some x :=
  Table.mem_keys_iff_get?

theorem symbol_of_get? {s : SymbolId} {x : Symbol} (h : p.symbols.get? s = some x) :
    p.symbol s = x := by
  rw [symbol, h, Option.getD_some]

theorem symbol_of_notMem {s : SymbolId} (h : s ∉ p.symbolIds) :
    p.symbol s = { name := .str "" } := by
  rw [symbol, (Table.get?_eq_none_iff ..).mpr h, Option.getD_none]

theorem symbolOf_of_mem {s : SymbolId} (h : s ∈ p.symbolIds) :
    p.symbolOf s = .ok (p.symbol s) := by
  obtain ⟨x, hx⟩ := mem_symbolIds_iff.mp h
  rw [symbolOf, hx, symbol_of_get? hx]

theorem symbolOf_eq_ok_iff {s : SymbolId} {x : Symbol} :
    p.symbolOf s = .ok x ↔ s ∈ p.symbolIds ∧ x = p.symbol s := by
  constructor
  · intro h
    unfold symbolOf at h
    split at h
    · rename_i y hy
      obtain rfl : y = x := Except.ok.inj h
      exact ⟨mem_symbolIds_iff.mpr ⟨y, hy⟩, (symbol_of_get? hy).symm⟩
    · cases h
  · rintro ⟨hs, rfl⟩
    exact symbolOf_of_mem hs

theorem siteOf_eq_ok_iff {n : NodeId} {s : Site} : p.siteOf n = .ok s ↔ p.site? n = some s := by
  unfold siteOf
  split <;> simp_all

theorem declaration?_eq_some_iff {x : Symbol} {s : Site} : p.declaration? x = .ok (some s) ↔
    ∃ d rest, x.declarations = d :: rest ∧ p.site? d = some s := by
  unfold declaration?
  split
  · simp_all
  · rename_i d rest hd
    simp [hd, siteOf_eq_ok_iff]

end Program

end ApiSurface
