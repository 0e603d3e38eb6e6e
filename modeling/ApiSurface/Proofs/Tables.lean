import ApiSurface.Table
import Mathlib.Data.List.Nodup

/-! Tables as lists of entries: what a table holds under a key, and what remains of a list of
entries if only the first one of each key is kept. Joining two tables keeps the first entries
of both lists behind each other. -/

namespace ApiSurface

namespace Table

variable {κ α : Type}

theorem mem_keys_iff {t : Table κ α} {k : κ} : k ∈ t.keys ↔ ∃ a, (k, a) ∈ t.entries := by
  simp [keys]

theorem mem_values_iff {t : Table κ α} {a : α} : a ∈ t.values ↔ ∃ k, (k, a) ∈ t.entries := by
  simp [values]

@[simp] theorem entries_empty : (∅ : Table κ α).entries = [] := rfl

@[simp] theorem keys_empty : (∅ : Table κ α).keys = [] := rfl

variable [DecidableEq κ]

@[simp] theorem get?_empty (k : κ) : (∅ : Table κ α).get? k = none := rfl

theorem get?_eq_some_iff {t : Table κ α} {k : κ} {a : α} :
    t.get? k = some a ↔ (k, a) ∈ t.entries := by
  obtain ⟨entries, nodup⟩ := t
  unfold get?
  induction entries with
  | nil => simp
  | cons e rest ih =>
    rw [List.map_cons, List.nodup_cons] at nodup
    have ih := ih nodup.2
    by_cases he : e.1 = k
    · subst he
      have hr : (e.1, a) ∉ rest := fun hm => nodup.1 (List.mem_map.mpr ⟨_, hm, rfl⟩)
      rw [List.find?_cons_of_pos (by simp)]
      simp [hr, Prod.ext_iff, eq_comm]
    · rw [List.find?_cons_of_neg (by simpa using he), ih, List.mem_cons]
      refine ⟨Or.inr, ?_⟩
      rintro (rfl | hm)
      · exact absurd rfl he
      · exact hm

theorem mem_keys_iff_get? {t : Table κ α} {k : κ} : k ∈ t.keys ↔ ∃ a, t.get? k = some a := by
  simp only [mem_keys_iff, get?_eq_some_iff]

theorem mem_keys_insert {t : Table κ α} {k x : κ} {a : α} :
    x ∈ (t.insert k a).keys ↔ x = k ∨ x ∈ t.keys :=
  mem_keys_put

theorem mem_keys_foldl_insert {l : List κ} {a : α} {t : Table κ α} {x : κ} :
    x ∈ (l.foldl (fun t k => t.insert k a) t).keys ↔ x ∈ t.keys ∨ x ∈ l := by
  induction l generalizing t with
  | nil => simp
  | cons k l ih => rw [List.foldl_cons, ih, mem_keys_insert, List.mem_cons]; tauto

theorem get?_foldl_insert (l : List κ) (a : α) (t : Table κ α) (x : κ) :
    (l.foldl (fun t k => t.insert k a) t).get? x = if x ∈ l then some a else t.get? x := by
  induction l generalizing t with
  | nil => simp
  | cons k l ih =>
    rw [List.foldl_cons, ih, get?_insert]
    by_cases hx : x ∈ l
    · simp [hx]
    · simp [hx, eq_comm]

/-- Values of a kind do not repeat if and only if none of them is there under two keys. -/
theorem nodup_filter_values_iff {t : Table κ α} {keep : α → Bool} :
    (t.values.filter keep).Nodup ↔
      ∀ k k' a, t.get? k = some a → t.get? k' = some a → keep a = true → k = k' := by
  have hentries : t.entries.Nodup := t.nodup.of_map _
  rw [values, List.filter_map, List.nodup_map_iff_inj_on (hentries.filter _)]
  simp only [List.mem_filter, Function.comp_apply, get?_eq_some_iff]
  constructor
  · intro h k k' a hk hk' ha
    exact congrArg Prod.fst (h (k, a) ⟨hk, ha⟩ (k', a) ⟨hk', ha⟩ rfl)
  · rintro h ⟨k, a⟩ ⟨hk, ha⟩ ⟨k', a'⟩ ⟨hk', _⟩ rfl
    rw [h k k' a hk hk' ha]

theorem put_of_notMem {k : κ} {a : α} {l : List (κ × α)} (h : k ∉ l.map Prod.fst) :
    put k a l = l ++ [(k, a)] := by
  induction l with
  | nil => rfl
  | cons e rest ih =>
    simp only [List.map_cons, List.mem_cons, not_or] at h
    rw [put, if_neg fun he => h.1 he.symm, ih h.2, List.cons_append]

theorem entries_insertNew (t : Table κ α) (k : κ) (a : α) :
    (t.insertNew k a).entries = t.entries ++ if k ∈ t.keys then [] else [(k, a)] := by
  unfold insertNew
  split
  · simp
  · rename_i h
    exact put_of_notMem h

theorem mem_keys_insertNew {t : Table κ α} {k x : κ} {a : α} :
    x ∈ (t.insertNew k a).keys ↔ x = k ∨ x ∈ t.keys := by
  unfold insertNew
  split
  · rename_i h
    exact ⟨Or.inr, fun hx => hx.elim (fun he => he ▸ h) id⟩
  · exact mem_keys_insert

/-! ### The first entry of each key -/

/-- The entries of a list in their order, without those whose key has come before. -/
def firsts : List (κ × α) → List (κ × α)
  | [] => []
  | e :: rest => e :: (firsts rest).filter fun x => x.1 ≠ e.1

theorem mem_keys_firsts {l : List (κ × α)} {k : κ} :
    k ∈ (firsts l).map Prod.fst ↔ k ∈ l.map Prod.fst := by
  induction l with
  | nil => rfl
  | cons e rest ih =>
    simp only [List.mem_map] at ih
    by_cases hk : k = e.1
    · simp [firsts, hk]
    · simp only [firsts, List.map_cons, List.mem_cons, hk, false_or, List.mem_map,
        List.mem_filter, decide_eq_true_eq]
      rw [← ih]
      constructor
      · rintro ⟨x, ⟨hx, _⟩, rfl⟩
        exact ⟨x, hx, rfl⟩
      · rintro ⟨x, hx, rfl⟩
        exact ⟨x, ⟨hx, hk⟩, rfl⟩

theorem nodup_firsts (l : List (κ × α)) : ((firsts l).map Prod.fst).Nodup := by
  induction l with
  | nil => exact List.nodup_nil
  | cons e rest ih =>
    rw [firsts, List.map_cons, List.nodup_cons]
    exact ⟨by simp, ih.sublist (List.filter_sublist.map Prod.fst)⟩

theorem mem_of_mem_firsts {l : List (κ × α)} {e : κ × α} (h : e ∈ firsts l) : e ∈ l := by
  induction l with
  | nil => exact h
  | cons d rest ih =>
    rcases List.mem_cons.mp h with rfl | h
    · exact List.mem_cons_self ..
    · exact List.mem_cons_of_mem _ (ih (List.mem_filter.mp h).1)

theorem firsts_of_nodup {l : List (κ × α)} (h : (l.map Prod.fst).Nodup) : firsts l = l := by
  induction l with
  | nil => rfl
  | cons e rest ih =>
    rw [List.map_cons, List.nodup_cons] at h
    rw [firsts, ih h.2, List.filter_eq_self.mpr]
    intro x hx
    rw [decide_eq_true_eq]
    exact fun he => h.1 (he ▸ List.mem_map_of_mem hx)

theorem firsts_append (l more : List (κ × α)) :
    firsts (l ++ more) =
      firsts l ++ (firsts more).filter fun x => x.1 ∉ l.map Prod.fst := by
  induction l with
  | nil => simp [firsts]
  | cons e rest ih =>
    rw [List.cons_append, firsts, ih, firsts, List.filter_append, List.filter_filter,
      List.cons_append]
    congr 2
    apply List.filter_congr
    intro x _
    rw [← Bool.decide_and, decide_eq_decide, List.map_cons, List.mem_cons, not_or]

theorem firsts_filter (keep : κ → Bool) (l : List (κ × α)) :
    firsts (l.filter fun e => keep e.1) = (firsts l).filter fun e => keep e.1 := by
  induction l with
  | nil => rfl
  | cons e rest ih =>
    by_cases he : keep e.1 = true
    · rw [List.filter_cons_of_pos (by exact he), firsts, firsts,
        List.filter_cons_of_pos (by exact he), ih, List.filter_filter, List.filter_filter]
      congr 2
      funext x
      exact Bool.and_comm ..
    · rw [List.filter_cons_of_neg (by exact he), ih, firsts,
        List.filter_cons_of_neg (by exact he), List.filter_filter]
      apply List.filter_congr
      intro x _
      by_cases hx : x.1 = e.1
      · simp [hx, he]
      · simp [hx]

theorem firsts_firsts (l : List (κ × α)) : firsts (firsts l) = firsts l :=
  firsts_of_nodup (nodup_firsts l)

theorem firsts_firsts_append (l more : List (κ × α)) :
    firsts (firsts l ++ more) = firsts (l ++ more) := by
  rw [firsts_append, firsts_append, firsts_firsts]
  congr 1
  apply List.filter_congr
  intro x _
  rw [decide_eq_decide, mem_keys_firsts]

theorem firsts_append_firsts (l more : List (κ × α)) :
    firsts (l ++ firsts more) = firsts (l ++ more) := by
  rw [firsts_append, firsts_append, firsts_firsts]

theorem firsts_append_congr {l l' more more' : List (κ × α)} (h : firsts l = firsts l')
    (hm : firsts more = firsts more') : firsts (l ++ more) = firsts (l' ++ more') := by
  rw [← firsts_firsts_append, ← firsts_append_firsts, h, hm, firsts_append_firsts,
    firsts_firsts_append]

/-- Of the entries of a list of parts, a part that comes again has nothing to add. -/
theorem firsts_flatMap_append {β : Type} [DecidableEq β] (f : β → List (κ × α)) (l more : List β) :
    firsts (l.flatMap f ++ more.flatMap f) =
      firsts (l.flatMap f ++ (more.filter (· ∉ l)).flatMap f) := by
  have hfilter : (more.flatMap f).filter (fun e => e.1 ∉ (l.flatMap f).map Prod.fst) =
      ((more.filter (· ∉ l)).flatMap f).filter (fun e => e.1 ∉ (l.flatMap f).map Prod.fst) := by
    induction more with
    | nil => rfl
    | cons b more ih =>
      rw [List.flatMap_cons, List.filter_append, ih]
      by_cases hb : b ∈ l
      · have hnone : (f b).filter (fun e => e.1 ∉ (l.flatMap f).map Prod.fst) = [] := by
          rw [List.filter_eq_nil_iff]
          intro e he
          rw [decide_eq_true_eq, not_not]
          exact List.mem_map_of_mem (List.mem_flatMap.mpr ⟨b, hb, he⟩)
        rw [hnone, List.nil_append, List.filter_cons_of_neg (by simpa using hb)]
      · rw [List.filter_cons_of_pos (by simpa using hb), List.flatMap_cons, List.filter_append]
  have hfirsts := firsts_filter (α := α) fun k => decide (k ∉ (l.flatMap f).map Prod.fst)
  rw [firsts_append, firsts_append, ← hfirsts, hfilter, hfirsts]

/-- An entry counts exactly if it stands in the first part that has its key. -/
theorem mem_firsts_flatMap {β : Type} {f : β → List (κ × α)} {l : List β} {k : κ} {a : α}
    (hf : ∀ b ∈ l, ((f b).map Prod.fst).Nodup) : (k, a) ∈ firsts (l.flatMap f) ↔
      ∃ b, l.find? (fun b => k ∈ (f b).map Prod.fst) = some b ∧ (k, a) ∈ f b := by
  induction l with
  | nil => simp [firsts]
  | cons b l ih =>
    obtain ⟨hb, hl⟩ := List.forall_mem_cons.mp hf
    have ih := ih hl
    rw [List.flatMap_cons, firsts_append, firsts_of_nodup hb, List.mem_append, List.mem_filter,
      decide_eq_true_eq, ih]
    by_cases hk : k ∈ (f b).map Prod.fst
    · rw [List.find?_cons_of_pos (by simpa using hk)]
      simp [hk]
    · have hnot : (k, a) ∉ f b := fun hm => hk (List.mem_map_of_mem hm)
      rw [List.find?_cons_of_neg (by simpa using hk)]
      simp [hk, hnot]

theorem entries_foldl_insertNew (l : List (κ × α)) (t : Table κ α) :
    (l.foldl (fun acc e => acc.insertNew e.1 e.2) t).entries = firsts (t.entries ++ l) := by
  induction l generalizing t with
  | nil => rw [List.append_nil, firsts_of_nodup t.nodup, List.foldl_nil]
  | cons e rest ih =>
    have step : (t.insertNew e.1 e.2).entries = firsts (t.entries ++ [e]) := by
      rw [entries_insertNew, firsts_append, firsts_of_nodup t.nodup]
      by_cases hk : e.1 ∈ t.keys
      · rw [if_pos hk, firsts, List.filter_cons_of_neg (by simpa [keys] using hk)]
        rfl
      · rw [if_neg hk, firsts, List.filter_cons_of_pos (by simpa [keys] using hk)]
        rfl
    rw [List.foldl_cons, ih, step, firsts_firsts_append, List.append_assoc,
      List.singleton_append]

/-- Joining two tables keeps the first entry of each key. -/
theorem entries_union (t u : Table κ α) : (t.union u).entries = firsts (t.entries ++ u.entries) :=
  entries_foldl_insertNew u.entries t

end Table

end ApiSurface
