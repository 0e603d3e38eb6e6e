/-! Tables that keep their keys in the order in which they were first written.
Writing to a key again changes its value and keeps its place. -/

namespace ApiSurface

/-- An association list in which no key occurs twice. -/
structure Table (κ : Type) (α : Type) where
  entries : List (κ × α)
  nodup : (entries.map Prod.fst).Nodup
deriving DecidableEq

namespace Table

variable {κ α : Type}

def empty : Table κ α := ⟨[], List.nodup_nil⟩

instance : EmptyCollection (Table κ α) := ⟨empty⟩

instance : Inhabited (Table κ α) := ⟨empty⟩

def keys (t : Table κ α) : List κ := t.entries.map Prod.fst

def values (t : Table κ α) : List α := t.entries.map Prod.snd

def size (t : Table κ α) : Nat := t.entries.length

/-- The entries whose key satisfies a test, in their order. -/
def filterKeys (keep : κ → Bool) (t : Table κ α) : Table κ α :=
  ⟨t.entries.filter fun e => keep e.1,
    t.nodup.sublist (List.filter_sublist.map Prod.fst)⟩

/-- Change every value. -/
def map {β : Type} (f : α → β) (t : Table κ α) : Table κ β :=
  ⟨t.entries.map fun e => (e.1, f e.2), by
    rw [List.map_map]
    exact t.nodup⟩

variable [DecidableEq κ]

/-- The value under a key. -/
def get? (t : Table κ α) (k : κ) : Option α :=
  (t.entries.find? fun e => e.1 = k).map Prod.snd

/-- Set the value under a key of a plain list of entries. -/
def put (k : κ) (a : α) : List (κ × α) → List (κ × α)
  | [] => [(k, a)]
  | e :: rest => if e.1 = k then (k, a) :: rest else e :: put k a rest

theorem mem_keys_put {k x : κ} {a : α} {l : List (κ × α)} :
    x ∈ (put k a l).map Prod.fst ↔ x = k ∨ x ∈ l.map Prod.fst := by
  induction l with
  | nil => simp [put]
  | cons e rest ih =>
    by_cases h : e.1 = k
    · simp [put, h]
    · simp only [put, h, ↓reduceIte, List.map_cons, List.mem_cons, ih]
      exact or_left_comm

theorem nodup_put {k : κ} {a : α} {l : List (κ × α)} (h : (l.map Prod.fst).Nodup) :
    ((put k a l).map Prod.fst).Nodup := by
  induction l with
  | nil => simp [put]
  | cons e rest ih =>
    rw [List.map_cons, List.nodup_cons] at h
    by_cases hk : e.1 = k
    · rw [put, if_pos hk, List.map_cons, List.nodup_cons]
      exact hk ▸ h
    · rw [put, if_neg hk, List.map_cons, List.nodup_cons, mem_keys_put]
      exact ⟨fun hm => hm.elim hk h.1, ih h.2⟩

/-- Set the value under a key. A new key goes last. -/
def insert (t : Table κ α) (k : κ) (a : α) : Table κ α :=
  ⟨put k a t.entries, nodup_put t.nodup⟩

theorem find?_put (k x : κ) (a : α) (l : List (κ × α)) :
    ((put k a l).find? fun e => e.1 = x).map Prod.snd =
      if k = x then some a else (l.find? fun e => e.1 = x).map Prod.snd := by
  induction l with
  | nil => by_cases hx : k = x <;> simp [put, hx]
  | cons e rest ih =>
    by_cases he : e.1 = k
    · rw [put, if_pos he, List.find?_cons, List.find?_cons, he]
      by_cases hx : k = x <;> simp [hx]
    · rw [put, if_neg he, List.find?_cons, List.find?_cons]
      by_cases hx : e.1 = x
      · rw [if_neg fun hk => he (hx.trans hk.symm)]
        simp [hx]
      · simpa [hx] using ih

theorem get?_insert (t : Table κ α) (k x : κ) (a : α) :
    (t.insert k a).get? x = if k = x then some a else t.get? x :=
  find?_put k x a t.entries

theorem get?_eq_none_iff (t : Table κ α) (k : κ) : t.get? k = none ↔ k ∉ t.keys := by
  simp only [get?, keys, Option.map_eq_none_iff, List.find?_eq_none, List.mem_map,
    decide_eq_true_eq]
  exact ⟨fun h ⟨e, he, hk⟩ => h e he hk, fun h e he hk => h ⟨e, he, hk⟩⟩

theorem keys_put (k : κ) (a : α) (l : List (κ × α)) :
    (put k a l).map Prod.fst =
      if k ∈ l.map Prod.fst then l.map Prod.fst else l.map Prod.fst ++ [k] := by
  induction l with
  | nil => rfl
  | cons e rest ih =>
    by_cases he : e.1 = k
    · rw [put, if_pos he, List.map_cons, List.map_cons, he, if_pos List.mem_cons_self]
    · have hk : ¬k = e.1 := fun hk => he hk.symm
      rw [put, if_neg he, List.map_cons, ih]
      simp only [List.map_cons, List.mem_cons, hk, false_or]
      split <;> rfl

theorem keys_insert (t : Table κ α) (k : κ) (a : α) :
    (t.insert k a).keys = if k ∈ t.keys then t.keys else t.keys ++ [k] :=
  keys_put k a t.entries

/-- Add an entry unless its key is already there. -/
def insertNew (t : Table κ α) (k : κ) (a : α) : Table κ α :=
  if k ∈ t.keys then t else t.insert k a

/-- Add the entries of another table whose keys are not yet there. -/
def union (t u : Table κ α) : Table κ α :=
  u.entries.foldl (fun acc e => acc.insertNew e.1 e.2) t

end Table

end ApiSurface
