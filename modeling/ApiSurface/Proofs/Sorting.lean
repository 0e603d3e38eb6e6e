import ApiSurface.Sorting
import Mathlib.Data.List.Perm.Basic

/-! Sorting keeps what it sorts: a sorted list is a permutation of the list, whatever the test
answers. If the test has an answer for any two elements of a list, there is a sorted list. -/

namespace ApiSurface

open scoped List

variable {α : Type}

/-- A test that has an answer for all elements of a list. -/
def AnswersOn {β : Type} (test : α → Option β) (l : List α) : Prop := ∀ a ∈ l, ∃ b, test a = some b

theorem AnswersOn.mono {β : Type} {test : α → Option β} {l m : List α} (h : AnswersOn test l)
    (hm : m ⊆ l) : AnswersOn test m :=
  fun a ha => h a (hm ha)

/-- A test that has an answer for any two elements of a list. -/
def Compares (before : α → α → Option Bool) (l : List α) : Prop := ∀ a ∈ l, AnswersOn (before a) l

theorem Compares.mono {before : α → α → Option Bool} {l m : List α} (h : Compares before l)
    (hm : m ⊆ l) : Compares before m :=
  fun a ha => (h a (hm ha)).mono hm

/-! ### Searching -/

theorem searchByHalves_answers (early : Bool) {holds : α → Option Bool} {l : List α}
    (h : AnswersOn holds l) : ∃ n, searchByHalves early holds l = some n := by
  fun_induction searchByHalves early holds l with
  | case1 l half hl => exact ⟨0, rfl⟩
  | case2 l half x right hx ih₁ ih₂ =>
    have hdrop : x :: right ⊆ l := hx ▸ List.drop_subset half l
    obtain ⟨b, hb⟩ := h x (hdrop List.mem_cons_self)
    obtain ⟨n, hn⟩ := ih₁ (h.mono fun y hy => hdrop (List.mem_cons_of_mem x hy))
    obtain ⟨m, hm⟩ := ih₂ (h.mono (List.take_subset half l))
    cases b <;> simp [hb, hn, hm]

theorem searchAhead_answers (early : Bool) {holds : α → Option Bool} (leap : Nat) {l : List α}
    (h : AnswersOn holds l) : ∃ n, searchAhead early holds leap l = some n := by
  fun_induction searchAhead early holds leap l with
  | case1 leap l hl => exact searchByHalves_answers early h
  | case2 leap l x right hx ih =>
    have hdrop : x :: right ⊆ l := hx ▸ List.drop_subset leap l
    obtain ⟨b, hb⟩ := h x (hdrop List.mem_cons_self)
    obtain ⟨n, hn⟩ := ih (h.mono fun y hy => hdrop (List.mem_cons_of_mem x hy))
    obtain ⟨m, hm⟩ := searchByHalves_answers early (h.mono (List.take_subset leap l))
    cases b <;> simp [hb, hn, hm]

theorem searchInLeaps_answers (early : Bool) {holds : α → Option Bool} {l : List α}
    (h : AnswersOn holds l) : ∃ n, searchInLeaps early holds l = some n := by
  cases l with
  | nil => exact ⟨0, rfl⟩
  | cons x rest =>
    obtain ⟨b, hb⟩ := h x List.mem_cons_self
    obtain ⟨n, hn⟩ := searchAhead_answers early 0 (h.mono (List.subset_cons_self x rest))
    cases b <;> simp [searchInLeaps, hb, hn]

/-! ### Runs -/

section

variable {before : α → α → Option Bool}

/-- A test that can be negated still has an answer. -/
theorem answersOn_not {test : α → Option Bool} {l : List α} (h : AnswersOn test l) :
    AnswersOn (fun x => (test x).map not) l := by
  intro x hx
  obtain ⟨b, hb⟩ := h x hx
  exact ⟨!b, by simp [hb]⟩

theorem continued_answers (falling : Bool) {last : α} {l : List α}
    (h : Compares before (last :: l)) : ∃ n, continued before falling last l = some n := by
  induction l generalizing last with
  | nil => exact ⟨0, rfl⟩
  | cons x rest ih =>
    obtain ⟨b, hb⟩ := h x (.tail _ (.head _)) last (.head _)
    obtain ⟨n, hn⟩ := ih (h.mono (List.subset_cons_self last (x :: rest)))
    by_cases hf : b = falling <;> simp [continued, hb, hn, hf]

theorem insertSorted_answers {l : List α} {x : α} (h : Compares before (x :: l)) :
    ∃ r, insertSorted before l x = some r := by
  have hx := (h x (.head _)).mono (List.subset_cons_self x l)
  obtain ⟨n, hn⟩ := searchByHalves_answers false (answersOn_not hx)
  simp [insertSorted, hn]

theorem insertSorted_perm {l : List α} {x : α} {r : List α}
    (h : insertSorted before l x = some r) : r.Perm (l ++ [x]) := by
  obtain ⟨n, _, hn⟩ := Option.bind_eq_some_iff.mp h
  obtain rfl := Option.some.inj hn
  calc l.take n ++ x :: l.drop n
    _ ~ l.take n ++ (l.drop n ++ [x]) := (List.perm_append_singleton x _).symm.append_left _
    _ = l ++ [x] := by rw [← List.append_assoc, List.take_append_drop]

theorem foldlM_insertSorted_answers {run l : List α} (h : Compares before (run ++ l)) :
    ∃ r, l.foldlM (insertSorted before) run = some r := by
  induction l generalizing run with
  | nil => exact ⟨run, rfl⟩
  | cons x l ih =>
    have hx : x :: run ⊆ run ++ x :: l := fun y hy => by
      rcases List.mem_cons.mp hy with rfl | hy
      · exact List.mem_append_right _ List.mem_cons_self
      · exact List.mem_append_left _ hy
    obtain ⟨r, hr⟩ := insertSorted_answers (h.mono hx)
    have hperm : r ++ l ~ run ++ x :: l :=
      ((insertSorted_perm hr).append_right l).trans (.of_eq (by simp))
    obtain ⟨r', hr'⟩ := ih (h.mono hperm.subset)
    refine ⟨r', ?_⟩
    rw [List.foldlM_cons, hr]
    exact hr'

theorem foldlM_insertSorted_perm {l run r : List α}
    (h : l.foldlM (insertSorted before) run = some r) : r.Perm (run ++ l) := by
  induction l generalizing run with
  | nil => simpa using (Option.some.inj h).symm ▸ List.Perm.refl run
  | cons x l ih =>
    rw [List.foldlM_cons] at h
    obtain ⟨run', hx, hl⟩ := Option.bind_eq_some_iff.mp h
    calc r
      _ ~ run' ++ l := ih hl
      _ ~ run ++ [x] ++ l := (insertSorted_perm hx).append_right l
      _ = run ++ x :: l := by simp

theorem firstRun_answers (least : Nat) {l : List α} (h : Compares before l) :
    ∃ r, firstRun before least l = some r := by
  match l with
  | [] => exact ⟨_, rfl⟩
  | [x] => exact ⟨_, rfl⟩
  | x :: y :: rest =>
    obtain ⟨falling, hf⟩ := h y (.tail _ (.head _)) x (.head _)
    obtain ⟨n, hn⟩ := continued_answers falling (h.mono (List.subset_cons_self x (y :: rest)))
    have hrun : (if falling then ((x :: y :: rest).take (n + 2)).reverse
        else (x :: y :: rest).take (n + 2)) ++ ((x :: y :: rest).drop (n + 2)).take
          (least - (n + 2)) ⊆ x :: y :: rest := by
      refine List.append_subset.mpr ⟨?_, fun z hz => List.mem_of_mem_drop (List.mem_of_mem_take hz)⟩
      cases falling
      · exact List.take_subset _ _
      · exact fun z hz => List.mem_of_mem_take (List.mem_reverse.mp hz)
    obtain ⟨run, hrun⟩ := foldlM_insertSorted_answers (h.mono hrun)
    rw [firstRun, hf]
    simp only [Option.bind_eq_bind, Option.bind_some, hn] at hrun ⊢
    rw [hrun]
    exact ⟨_, rfl⟩

/-- The first run is made of the elements that it takes up, and there is at least one. -/
theorem firstRun_perm {least size : Nat} {l run : List α}
    (h : firstRun before least l = some (run, size)) :
    run.Perm (l.take size) ∧ (l ≠ [] → 1 ≤ size) := by
  match l with
  | [] =>
    obtain ⟨rfl, rfl⟩ := Prod.mk.inj (Option.some.inj h)
    simp
  | [x] =>
    obtain ⟨rfl, rfl⟩ := Prod.mk.inj (Option.some.inj h)
    simp
  | x :: y :: rest =>
    obtain ⟨falling, hf, h⟩ := Option.bind_eq_some_iff.mp h
    obtain ⟨n, hn, h⟩ := Option.bind_eq_some_iff.mp h
    obtain ⟨run', hrun, h⟩ := Option.bind_eq_some_iff.mp h
    obtain ⟨rfl, rfl⟩ := Prod.mk.inj (Option.some.inj h)
    refine ⟨?_, fun _ => by omega⟩
    have hnat : (if falling then ((x :: y :: rest).take (n + 2)).reverse
        else (x :: y :: rest).take (n + 2)) ~ (x :: y :: rest).take (n + 2) := by
      cases falling
      · exact .refl _
      · exact List.reverse_perm _
    refine (foldlM_insertSorted_perm hrun).trans ((hnat.append_right _).trans (.of_eq ?_))
    rw [List.length_take, List.take_add (i := n + 2), ← List.take_eq_take_min]

/-! ### Merging -/

theorem takesLong_answers {l : List α} (h : Compares before l) (backward : Bool) {long short : α}
    (hlong : long ∈ l) (hshort : short ∈ l) :
    ∃ b, takesLong before backward long short = some b := by
  cases backward
  · exact h long hlong short hshort
  · exact h short hshort long hlong

theorem mergeOnward_answers (backward : Bool) (kept patience : Nat) (pace : Pace)
    {short long : List α} (h : Compares before (short ++ long)) :
    ∃ r, mergeOnward before backward kept patience pace short long = some r := by
  fun_induction mergeOnward before backward kept patience pace short long with
  | case1 => exact ⟨_, rfl⟩
  | case2 => exact ⟨_, rfl⟩
  | case3 => exact ⟨_, rfl⟩
  | case4 kept patience s s' short l long shortWins longWins ih₁ ih₂ =>
    have hs : s ∈ s :: s' :: short ++ l :: long := by simp
    have hl : l ∈ s :: s' :: short ++ l :: long := by simp
    obtain ⟨b, hb⟩ := takesLong_answers h backward hl hs
    obtain ⟨r₁, h₁⟩ := ih₁ (h.mono (by intro x; simp; tauto))
    obtain ⟨r₂, h₂⟩ := ih₂ (h.mono (by intro x; simp; tauto))
    simp only [dite_eq_ite] at h₁ h₂
    cases b <;> simp [hb, h₁, h₂]
  | case5 kept patience s s' short l long pace hp hl all ih =>
    have hall : all ⊆ all ++ l :: long := List.subset_append_left _ _
    have hnext : l ∈ all ++ l :: long := by simp
    obtain ⟨n, hn⟩ := searchInLeaps_answers backward (answersOn_not fun x hx =>
      takesLong_answers h backward hnext (hall hx))
    have hrest : all.drop n ++ long ⊆ all ++ l :: long := List.append_subset.mpr
      ⟨fun x hx => hall (List.mem_of_mem_drop hx), by intro x; simp; tauto⟩
    obtain ⟨r, hr⟩ := ih n (h.mono hrest)
    simp [hn, hr]
  | case6 kept patience s s' short l long pace hp hl all ih =>
    have hall : all ⊆ s :: s' :: short ++ all := List.subset_append_right _ _
    have hnext : s ∈ s :: s' :: short ++ all := by simp
    obtain ⟨n, hn⟩ := searchInLeaps_answers backward fun x hx =>
      takesLong_answers h backward (hall hx) hnext
    have hrest : s' :: short ++ all.drop n ⊆ s :: s' :: short ++ all := List.append_subset.mpr
      ⟨by intro x; simp; tauto, fun x hx => hall (List.mem_of_mem_drop hx)⟩
    obtain ⟨r, hr⟩ := ih n (h.mono hrest)
    simp [hn, hr]

theorem mergeOnward_perm {backward : Bool} {kept patience q : Nat} {pace : Pace}
    {short long r : List α}
    (h : mergeOnward before backward kept patience pace short long = some (r, q)) :
    r ~ short ++ long := by
  fun_induction mergeOnward before backward kept patience pace short long generalizing r q with
  | case1 => simp_all
  | case2 kept patience pace long s =>
    obtain ⟨rfl, _⟩ := Prod.mk.inj (Option.some.inj h)
    exact List.perm_append_comm
  | case3 => simp_all
  | case4 kept patience s s' short l long shortWins longWins ih₁ ih₂ =>
    obtain ⟨b, _, h⟩ := Option.bind_eq_some_iff.mp h
    cases b
    · obtain ⟨⟨rest, _⟩, hr, h⟩ := Option.bind_eq_some_iff.mp h
      obtain ⟨rfl, _⟩ := Prod.mk.inj (Option.some.inj h)
      exact (ih₂ (by simpa only [dite_eq_ite] using hr)).cons s
    · obtain ⟨⟨rest, _⟩, hr, h⟩ := Option.bind_eq_some_iff.mp h
      obtain ⟨rfl, _⟩ := Prod.mk.inj (Option.some.inj h)
      have ih := ih₁ (by simpa only [dite_eq_ite] using hr)
      exact (ih.cons l).trans List.perm_middle.symm
  | case5 kept patience s s' short l long pace hp hl all =>
    rename_i ih
    obtain ⟨n, _, h⟩ := Option.bind_eq_some_iff.mp h
    obtain ⟨⟨rest, _⟩, hr, h⟩ := Option.bind_eq_some_iff.mp h
    obtain ⟨rfl, _⟩ := Prod.mk.inj (Option.some.inj h)
    calc all.take n ++ l :: rest
      _ ~ all.take n ++ l :: (all.drop n ++ long) := ((ih n hr).cons l).append_left _
      _ ~ all.take n ++ (all.drop n ++ l :: long) := List.perm_middle.symm.append_left _
      _ = all ++ l :: long := by rw [← List.append_assoc, List.take_append_drop]
  | case6 kept patience s s' short l long pace hp hl all =>
    rename_i ih
    obtain ⟨n, _, h⟩ := Option.bind_eq_some_iff.mp h
    obtain ⟨⟨rest, _⟩, hr, h⟩ := Option.bind_eq_some_iff.mp h
    obtain ⟨rfl, _⟩ := Prod.mk.inj (Option.some.inj h)
    calc all.take n ++ s :: rest
      _ ~ all.take n ++ s :: (s' :: short ++ all.drop n) := ((ih n hr).cons s).append_left _
      _ ~ s :: s' :: short ++ (all.take n ++ all.drop n) :=
        List.perm_append_comm_assoc _ (s :: s' :: short) _
      _ = s :: s' :: short ++ all := by rw [List.take_append_drop]

theorem mergeLists_answers (backward : Bool) (patience : Nat) {short long : List α}
    (h : Compares before (short ++ long)) :
    ∃ r, mergeLists before backward patience short long = some r := by
  cases long with
  | nil => exact ⟨_, rfl⟩
  | cons l long =>
    have hrest : short ++ long ⊆ short ++ l :: long := by intro x; simp; tauto
    obtain ⟨r, hr⟩ :=
      mergeOnward_answers backward patience patience (.steps 0 0) (h.mono hrest)
    simp [mergeLists, hr]

theorem mergeLists_perm {backward : Bool} {patience q : Nat} {short long r : List α}
    (h : mergeLists before backward patience short long = some (r, q)) : r ~ short ++ long := by
  cases long with
  | nil =>
    obtain ⟨rfl, _⟩ := Prod.mk.inj (Option.some.inj h)
    simp
  | cons l long =>
    obtain ⟨⟨rest, _⟩, hr, h⟩ := Option.bind_eq_some_iff.mp h
    obtain ⟨rfl, _⟩ := Prod.mk.inj (Option.some.inj h)
    exact ((mergeOnward_perm hr).cons l).trans List.perm_middle.symm

theorem mergeNeighbours_answers (patience : Nat) {left right : List α}
    (h : Compares before (left ++ right)) :
    ∃ r, mergeNeighbours before patience left right = some r := by
  unfold mergeNeighbours
  split
  · exact mergeLists_answers false patience h
  · have hsub : right.reverse ++ left.reverse ⊆ left ++ right := by intro x; simp; tauto
    obtain ⟨r, hr⟩ := mergeLists_answers true patience (h.mono hsub)
    simp [hr]

theorem mergeNeighbours_perm {patience q : Nat} {left right r : List α}
    (h : mergeNeighbours before patience left right = some (r, q)) : r ~ left ++ right := by
  unfold mergeNeighbours at h
  split at h
  · exact mergeLists_perm h
  · obtain ⟨⟨merged, _⟩, hm, h⟩ := Option.bind_eq_some_iff.mp h
    obtain ⟨rfl, _⟩ := Prod.mk.inj (Option.some.inj h)
    calc merged.reverse
      _ ~ merged := List.reverse_perm _
      _ ~ right.reverse ++ left.reverse := mergeLists_perm hm
      _ = (left ++ right).reverse := List.reverse_append.symm
      _ ~ left ++ right := List.reverse_perm _

theorem mergeRuns_answers (patience : Nat) {a b : List α} (h : Compares before (a ++ b)) :
    ∃ r, mergeRuns before patience a b = some r := by
  cases b with
  | nil => exact ⟨_, rfl⟩
  | cons first rest =>
    have ha : a ⊆ a ++ first :: rest := List.subset_append_left _ _
    have hb : first :: rest ⊆ a ++ first :: rest := List.subset_append_right _ _
    obtain ⟨n, hn⟩ := searchInLeaps_answers false
      (answersOn_not ((h first (hb (.head _))).mono ha))
    simp only [mergeRuns, hn, Option.bind_eq_bind, Option.bind_some]
    split
    · exact ⟨_, rfl⟩
    · rename_i last hlast
      have hlast := ha (List.mem_of_mem_drop (List.mem_of_getLast? hlast))
      have hback : AnswersOn (before · last) (first :: rest).reverse :=
        fun x hx => h x (hb (List.mem_reverse.mp hx)) last hlast
      obtain ⟨m, hm⟩ := searchInLeaps_answers true (answersOn_not hback)
      have hsub : a.drop n ++ (first :: rest).take ((first :: rest).length - m) ⊆
          a ++ first :: rest := List.append_subset.mpr
        ⟨fun x hx => ha (List.mem_of_mem_drop hx), fun x hx => hb (List.mem_of_mem_take hx)⟩
      obtain ⟨r, hr⟩ := mergeNeighbours_answers patience (h.mono hsub)
      simp only [hm, hr, Option.bind_some]
      exact ⟨_, rfl⟩

theorem mergeRuns_perm {patience q : Nat} {a b r : List α}
    (h : mergeRuns before patience a b = some (r, q)) : r ~ a ++ b := by
  cases b with
  | nil =>
    obtain ⟨rfl, _⟩ := Prod.mk.inj (Option.some.inj h)
    simp
  | cons first rest =>
    obtain ⟨n, _, h⟩ := Option.bind_eq_some_iff.mp h
    split at h
    · obtain ⟨rfl, _⟩ := Prod.mk.inj (Option.some.inj h)
      exact .refl _
    · obtain ⟨m, _, h⟩ := Option.bind_eq_some_iff.mp h
      obtain ⟨⟨merged, _⟩, hm, h⟩ := Option.bind_eq_some_iff.mp h
      obtain ⟨rfl, _⟩ := Prod.mk.inj (Option.some.inj h)
      refine (((mergeNeighbours_perm hm).append_left _).append_right _).trans (.of_eq ?_)
      rw [← List.append_assoc, List.take_append_drop, List.append_assoc, List.take_append_drop]

/-! ### Putting runs together -/

theorem mergeDeeper_answers (depth patience : Nat) {pending : List (Pending α)}
    (h : Compares before (pending.flatMap Pending.run)) :
    ∃ r, mergeDeeper before depth patience pending = some r := by
  fun_induction mergeDeeper before depth patience pending with
  | case1 patience last left rest hd ih =>
    obtain ⟨⟨run, q⟩, hr⟩ := mergeRuns_answers (a := left.run) (b := last.run) patience
      (h.mono (by intro x; simp; tauto))
    have hrun : run ++ rest.flatMap Pending.run ⊆
        (last :: left :: rest).flatMap Pending.run := by
      intro x
      simp only [List.mem_append, (mergeRuns_perm hr).mem_iff, List.flatMap_cons]
      tauto
    obtain ⟨r, hr'⟩ := ih run q (h.mono hrun)
    exact ⟨r, by rw [hr]; exact hr'⟩
  | case2 => exact ⟨_, rfl⟩
  | case3 => exact ⟨_, rfl⟩

theorem mergeDeeper_perm {depth patience q : Nat} {pending r : List (Pending α)}
    (h : mergeDeeper before depth patience pending = some (r, q)) :
    r.flatMap Pending.run ~ pending.flatMap Pending.run := by
  fun_induction mergeDeeper before depth patience pending with
  | case1 patience last left rest hd ih =>
    obtain ⟨⟨run, q'⟩, hr, h⟩ := Option.bind_eq_some_iff.mp h
    refine (ih run q' h).trans ?_
    simp only [List.flatMap_cons, ← List.append_assoc]
    exact ((mergeRuns_perm hr).trans List.perm_append_comm).append_right _
  | case2 =>
    obtain ⟨rfl, _⟩ := Prod.mk.inj (Option.some.inj h)
    exact .refl _
  | case3 =>
    obtain ⟨rfl, _⟩ := Prod.mk.inj (Option.some.inj h)
    exact .refl _

/-- What a run takes up and what is left of a list make up the list. -/
theorem firstRun_append_drop {least size : Nat} {x : α} {rest run : List α}
    (h : firstRun before least (x :: rest) = some (run, size)) :
    run ++ rest.drop (size - 1) ~ x :: rest := by
  obtain ⟨hrun, hsize⟩ := firstRun_perm h
  obtain ⟨n, rfl⟩ := Nat.exists_eq_add_of_le' (hsize (by simp))
  calc run ++ rest.drop (n + 1 - 1)
    _ ~ (x :: rest).take (n + 1) ++ rest.drop n := hrun.append_right _
    _ = x :: rest := by rw [List.take_succ_cons, List.cons_append, List.take_append_drop]

theorem cutRuns_answers (whole least patience : Nat) {pending : List (Pending α)} {l : List α}
    (h : Compares before (pending.flatMap Pending.run ++ l)) :
    ∃ r, cutRuns before whole least patience pending l = some r := by
  fun_induction cutRuns before whole least patience pending l with
  | case1 => exact ⟨_, rfl⟩
  | case2 patience pending x rest ih₁ ih₂ =>
    obtain ⟨⟨run, size⟩, hrun⟩ := firstRun_answers least (h.mono (List.subset_append_right _ _))
    have hlist := (firstRun_append_drop hrun).subset
    simp only [hrun, Option.bind_eq_bind, Option.bind_some]
    split
    · exact ih₁ run size (h.mono (by simpa using hlist))
    · rename_i last others
      obtain ⟨⟨merged, q⟩, hm⟩ := mergeDeeper_answers
        (boundaryDepth whole (whole - (rest.length + 1)) last.run.length size) patience
        (h.mono (List.subset_append_left _ _))
      simp only [hm, Option.bind_some]
      refine ih₂ run size last merged q (h.mono ?_)
      intro y hy
      rw [List.flatMap_cons, List.append_assoc, List.mem_append, List.mem_append,
        (mergeDeeper_perm hm).mem_iff] at hy
      rw [List.mem_append]
      rcases hy with hy | hy | hy
      · exact Or.inr (hlist (List.mem_append_left _ hy))
      · exact Or.inl hy
      · exact Or.inr (hlist (List.mem_append_right _ hy))

theorem cutRuns_perm {whole least patience q : Nat} {pending r : List (Pending α)} {l : List α}
    (h : cutRuns before whole least patience pending l = some (r, q)) :
    r.flatMap Pending.run ~ pending.flatMap Pending.run ++ l := by
  fun_induction cutRuns before whole least patience pending l with
  | case1 =>
    obtain ⟨rfl, _⟩ := Prod.mk.inj (Option.some.inj h)
    simp
  | case2 patience pending x rest ih₁ ih₂ =>
    obtain ⟨⟨run, size⟩, hrun, h⟩ := Option.bind_eq_some_iff.mp h
    have hrest := firstRun_append_drop hrun
    dsimp only at h
    split at h
    · exact (ih₁ run size h).trans (by simpa using hrest)
    · rename_i last others _
      obtain ⟨⟨merged, q'⟩, hm, h⟩ := Option.bind_eq_some_iff.mp h
      calc r.flatMap Pending.run
        _ ~ run ++ merged.flatMap Pending.run ++ rest.drop (size - 1) :=
          ih₂ run size last merged q' h
        _ ~ merged.flatMap Pending.run ++ run ++ rest.drop (size - 1) :=
          List.perm_append_comm.append_right _
        _ = merged.flatMap Pending.run ++ (run ++ rest.drop (size - 1)) := List.append_assoc ..
        _ ~ (last :: others).flatMap Pending.run ++ (x :: rest) :=
          (mergeDeeper_perm hm).append hrest

theorem mergeAll_answers (patience : Nat) {runs : List (List α)}
    (h : Compares before runs.flatten) : ∃ r, mergeAll before patience runs = some r := by
  fun_induction mergeAll before patience runs with
  | case1 => exact ⟨_, rfl⟩
  | case2 => exact ⟨_, rfl⟩
  | case3 patience last left =>
    obtain ⟨r, hr⟩ := mergeRuns_answers (a := left) (b := last) patience
      (h.mono (by intro x; simp; tauto))
    simp [hr]
  | case4 patience last left further rest hl ih =>
    obtain ⟨⟨run, q⟩, hr⟩ := mergeRuns_answers (a := further) (b := left) patience
      (h.mono (by intro x; simp; tauto))
    have hruns : (last :: run :: rest).flatten ⊆ (last :: left :: further :: rest).flatten := by
      intro x
      simp only [List.flatten_cons, List.mem_append, (mergeRuns_perm hr).mem_iff]
      tauto
    obtain ⟨r, hr'⟩ := ih run q (h.mono hruns)
    exact ⟨r, by rw [hr]; exact hr'⟩
  | case5 patience last left further rest hl ih =>
    obtain ⟨⟨run, q⟩, hr⟩ := mergeRuns_answers (a := left) (b := last) patience
      (h.mono (by intro x; simp; tauto))
    have hruns : (run :: further :: rest).flatten ⊆ (last :: left :: further :: rest).flatten := by
      intro x
      simp only [List.flatten_cons, List.mem_append, (mergeRuns_perm hr).mem_iff]
      tauto
    obtain ⟨r, hr'⟩ := ih run q (h.mono hruns)
    exact ⟨r, by rw [hr]; exact hr'⟩

theorem mergeAll_perm {patience : Nat} {runs : List (List α)} {r : List α}
    (h : mergeAll before patience runs = some r) : r ~ runs.flatten := by
  fun_induction mergeAll before patience runs with
  | case1 => simp_all
  | case2 => simp_all
  | case3 patience last left =>
    obtain ⟨⟨run, q⟩, hr, rfl⟩ := Option.map_eq_some_iff.mp h
    simpa using (mergeRuns_perm hr).trans List.perm_append_comm
  | case4 patience last left further rest hl ih =>
    obtain ⟨⟨run, q⟩, hr, h⟩ := Option.bind_eq_some_iff.mp h
    have hrun : run ~ left ++ further := (mergeRuns_perm hr).trans List.perm_append_comm
    refine (ih run q h).trans ?_
    simp only [List.flatten_cons, ← List.append_assoc left]
    exact (hrun.append_right _).append_left _
  | case5 patience last left further rest hl ih =>
    obtain ⟨⟨run, q⟩, hr, h⟩ := Option.bind_eq_some_iff.mp h
    have hrun : run ~ last ++ left := (mergeRuns_perm hr).trans List.perm_append_comm
    refine (ih run q h).trans ?_
    simp only [List.flatten_cons, ← List.append_assoc last]
    exact hrun.append_right _

/-! ### Sorting -/

/-- A list has a sorted one if the test has an answer for any two elements. -/
theorem sortBy?_answers {l : List α} (h : Compares before l) : ∃ r, sortBy? before l = some r := by
  have hall : Compares before (([] : List (Pending α)).flatMap Pending.run ++ l) := h
  obtain ⟨⟨pending, patience⟩, hc⟩ :=
    cutRuns_answers l.length (leastRun false l.length) worthwhile hall
  have hpending : (pending.map Pending.run).flatten ~ l := by
    rw [← List.flatMap_def]
    exact cutRuns_perm hc
  obtain ⟨r, hr⟩ := mergeAll_answers patience (h.mono hpending.subset)
  exact ⟨r, by rw [sortBy?, hc]; exact hr⟩

/-- A sorted list has the elements of the list. -/
theorem sortBy?_perm {l r : List α} (h : sortBy? before l = some r) : r ~ l := by
  obtain ⟨⟨pending, patience⟩, hc, h⟩ := Option.bind_eq_some_iff.mp h
  calc r
    _ ~ (pending.map Pending.run).flatten := mergeAll_perm h
    _ = pending.flatMap Pending.run := (List.flatMap_def ..).symm
    _ ~ [] ++ l := cutRuns_perm hc

end

end ApiSurface
