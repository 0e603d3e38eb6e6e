import ApiSurface.Proofs.Sorting
import Mathlib.Data.List.Pairwise

/-! Sorting puts a list in order and is stable. The order need not be total, and the test need
not have an answer for every two elements: the answers that it gives are enough, since sorting
puts no element in front of another one without an answer that says so, or answers from which
this follows. What moves, moves only past elements that it goes before. So elements none of
which goes before another one stay in the order in which they were. -/

namespace ApiSurface

open scoped List

variable {α : Type}

/-- An order that need not be total. Elements may be tied: then each is at most the other one,
and they have the same elements below and above them. -/
structure Ranking (α : Type) where
  le : α → α → Prop
  lt : α → α → Prop
  le_trans {x y z : α} : le x y → le y z → le x z
  lt_of_le_of_lt {x y z : α} : le x y → lt y z → lt x z
  lt_of_lt_of_le {x y z : α} : lt x y → le y z → lt x z
  le_of_lt {x y : α} : lt x y → le x y
  lt_irrefl (x : α) : ¬lt x x

namespace Ranking

variable (R : Ranking α)

/-- The order from above. -/
def flip : Ranking α where
  le x y := R.le y x
  lt x y := R.lt y x
  le_trans h h' := R.le_trans h' h
  lt_of_le_of_lt h h' := R.lt_of_lt_of_le h' h
  lt_of_lt_of_le h h' := R.lt_of_le_of_lt h' h
  le_of_lt h := R.le_of_lt h
  lt_irrefl := R.lt_irrefl

/-- What the answer to a test says about two elements. -/
def Told (x y : α) (answer : Option Bool) : Prop :=
  (answer = some true → R.lt x y) ∧ (answer = some false → R.le y x)

/-- What the negated answer says. -/
theorem Told.not {x y : α} {answer : Option Bool} (h : R.Told x y answer) :
    (answer.map Bool.not = some true → R.le y x) ∧
      (answer.map Bool.not = some false → R.lt x y) := by
  simpa using h.symm

/-- A list becomes another one by moves of elements past ones in front that they go before. -/
inductive Moves : List α → List α → Prop
  | refl (l : List α) : Moves l l
  | cons (x : α) {l r : List α} : Moves l r → Moves (x :: l) (x :: r)
  | swap {x y : α} (l : List α) : R.lt y x → Moves (x :: y :: l) (y :: x :: l)
  | trans {l m r : List α} : Moves l m → Moves m r → Moves l r

/-- A list is sorted from another one. -/
structure Sorts (l r : List α) : Prop where
  moves : R.Moves l r
  sorted : r.Pairwise R.le

variable {R}

namespace Moves

theorem perm {l r : List α} (h : R.Moves l r) : r ~ l := by
  induction h with
  | refl => exact .refl _
  | cons x _ ih => exact ih.cons x
  | swap => exact .swap ..
  | trans _ _ ih₁ ih₂ => exact ih₂.trans ih₁

theorem append_left {l r : List α} (h : R.Moves l r) (front : List α) :
    R.Moves (front ++ l) (front ++ r) := by
  induction front with
  | nil => exact h
  | cons x front ih => exact ih.cons x

theorem append_right {l r : List α} (h : R.Moves l r) (back : List α) :
    R.Moves (l ++ back) (r ++ back) := by
  induction h with
  | refl => exact .refl _
  | cons x _ ih => exact ih.cons x
  | swap l hlt => exact .swap _ hlt
  | trans _ _ ih₁ ih₂ => exact ih₁.trans ih₂

/-- An element moves to the front. -/
theorem forward {x : α} {l : List α} (h : ∀ y ∈ l, R.lt x y) (back : List α) :
    R.Moves (l ++ x :: back) (x :: (l ++ back)) := by
  induction l with
  | nil => exact .refl _
  | cons y l ih =>
    exact ((ih fun z hz => h z (.tail _ hz)).cons y).trans (.swap _ (h y (.head _)))

/-- A list moves in front of another one. -/
theorem exchange {l m : List α} (h : ∀ x ∈ l, ∀ y ∈ m, R.lt y x) (back : List α) :
    R.Moves (l ++ (m ++ back)) (m ++ (l ++ back)) := by
  induction m with
  | nil => exact .refl _
  | cons y m ih =>
    have hy := forward (fun x hx => h x hx y (.head _)) (m ++ back)
    exact hy.trans ((ih fun x hx z hz => h x hx z (.tail _ hz)).cons y)

theorem reverse {l r : List α} (h : R.flip.Moves l r) : R.Moves l.reverse r.reverse := by
  induction h with
  | refl => exact .refl _
  | cons x _ ih => simpa using ih.append_right [x]
  | swap l hlt => simpa using (Moves.swap (R := R) [] hlt).append_left l.reverse
  | trans _ _ ih₁ ih₂ => exact ih₁.trans ih₂

/-- What falls moves into its reverse. -/
theorem reverse_of_falling {l : List α} (h : l.Pairwise R.flip.lt) : R.Moves l l.reverse := by
  induction l with
  | nil => exact .refl _
  | cons x l ih =>
    obtain ⟨hx, hl⟩ := List.pairwise_cons.mp h
    rw [List.reverse_cons]
    have hpast := exchange (l := [x]) (m := l.reverse)
      (fun _ hz y hy => List.mem_singleton.mp hz ▸ hx y (List.mem_reverse.mp hy)) []
    exact ((ih hl).cons x).trans (by simpa using hpast)

/-- Elements none of which goes before another one keep their order. -/
theorem filter_eq {l r : List α} (h : R.Moves l r) {keep : α → Bool}
    (hk : ∀ x ∈ l, ∀ y ∈ l, keep x = true → keep y = true → ¬R.lt x y) :
    r.filter keep = l.filter keep := by
  induction h with
  | refl => rfl
  | cons x _ ih =>
    rw [List.filter_cons, List.filter_cons,
      ih fun y hy z hz => hk y (.tail _ hy) z (.tail _ hz)]
  | @swap x y l hlt =>
    have hxy : keep x = true → keep y ≠ true := fun hx hy =>
      hk y (.tail _ (.head _)) x (.head _) hy hx hlt
    cases hx : keep x <;> cases hy : keep y <;> simp_all
  | trans h₁ _ ih₁ ih₂ =>
    rw [ih₂ fun x hx y hy => hk x (h₁.perm.subset hx) y (h₁.perm.subset hy), ih₁ hk]

end Moves

theorem Sorts.refl {l : List α} (h : l.Pairwise R.le) : R.Sorts l l := ⟨.refl l, h⟩

/-- What goes first is put in front, and the rest is sorted. -/
theorem Sorts.of_moves {l m front rest : List α} (hmoves : R.Moves l (front ++ m))
    (hfront : front.Pairwise R.le) (hle : ∀ x ∈ front, ∀ y ∈ m, R.le x y) (h : R.Sorts m rest) :
    R.Sorts l (front ++ rest) :=
  ⟨hmoves.trans (h.moves.append_left front), List.pairwise_append.mpr
    ⟨hfront, h.sorted, fun x hx y hy => hle x hx y (h.moves.perm.subset hy)⟩⟩

/-- What goes last stays at the end, and the rest is sorted. -/
theorem Sorts.append {l m back : List α} (h : R.Sorts l m) (hback : back.Pairwise R.le)
    (hle : ∀ x ∈ l, ∀ y ∈ back, R.le x y) : R.Sorts (l ++ back) (m ++ back) :=
  ⟨h.moves.append_right back, List.pairwise_append.mpr
    ⟨h.sorted, hback, fun x hx y hy => hle x (h.moves.perm.subset hx) y hy⟩⟩

end Ranking

variable {R : Ranking α}

/-! ### Searching -/

/-- A property that goes over to what is in front, and another one that goes over to what is
behind. -/
def Graded (low high : α → Prop) (l : List α) : Prop :=
  l.Pairwise fun x y => (low y → low x) ∧ (high x → high y)

/-- A place with the one property in front of it and the other one behind it. -/
def SplitsAt (low high : α → Prop) (l : List α) (n : Nat) : Prop :=
  ∃ a b, l = a ++ b ∧ a.length = n ∧ (∀ x ∈ a, low x) ∧ ∀ x ∈ b, high x

theorem Ranking.graded_le {l : List α} (h : l.Pairwise R.le) (x : α) :
    Graded (R.le · x) (R.lt x) l :=
  h.imp fun hle => ⟨R.le_trans hle, fun hlt => R.lt_of_lt_of_le hlt hle⟩

theorem Ranking.graded_lt {l : List α} (h : l.Pairwise R.le) (x : α) :
    Graded (R.lt · x) (R.le x) l :=
  h.imp fun hle => ⟨R.lt_of_le_of_lt hle, fun hlt => R.le_trans hlt hle⟩

section

variable {low high : α → Prop}

/-- In front of an element with the first property all have it, so that what is behind is left
to be searched. -/
theorem SplitsAt.behind {l m : List α} {x : α} {n : Nat}
    (hl : Graded low high (l ++ x :: m)) (hx : low x) (h : SplitsAt low high m n) :
    SplitsAt low high (l ++ x :: m) (l.length + 1 + n) := by
  obtain ⟨a, b, rfl, rfl, ha, hb⟩ := h
  refine ⟨l ++ x :: a, b, by simp, by simp; omega, fun y hy => ?_, hb⟩
  rcases List.mem_append.mp hy with hy | hy
  · exact ((List.pairwise_append.mp hl).2.2 y hy x (.head _)).1 hx
  · rcases List.mem_cons.mp hy with rfl | hy
    · exact hx
    · exact ha y hy

/-- Behind an element with the second property all have it, so that what is in front is left to
be searched. -/
theorem SplitsAt.front {l m : List α} {x : α} {n : Nat}
    (hl : Graded low high (l ++ x :: m)) (hx : high x) (h : SplitsAt low high l n) :
    SplitsAt low high (l ++ x :: m) n := by
  obtain ⟨a, b, rfl, rfl, ha, hb⟩ := h
  refine ⟨a, b ++ x :: m, by simp, rfl, ha, fun y hy => ?_⟩
  rcases List.mem_append.mp hy with hy | hy
  · exact hb y hy
  · rcases List.mem_cons.mp hy with rfl | hy
    · exact hx
    · exact (List.rel_of_pairwise_cons (List.pairwise_append.mp hl).2.1 hy).2 hx

theorem SplitsAt.reverse {l : List α} {n : Nat} (h : SplitsAt low high l.reverse n) :
    SplitsAt high low l (l.length - n) := by
  obtain ⟨a, b, hl, rfl, ha, hb⟩ := h
  obtain rfl : l = b.reverse ++ a.reverse := by
    rw [← List.reverse_append, ← hl, List.reverse_reverse]
  exact ⟨_, _, rfl, by simp, fun x hx => hb x (List.mem_reverse.mp hx),
    fun x hx => ha x (List.mem_reverse.mp hx)⟩

variable {holds : α → Option Bool} {early : Bool}

/-- One test of a search, which goes on in front of the element or behind it. -/
theorem SplitsAt.test {l m : List α} {x : α} {n : Nat} {further nearer : Option Nat}
    (hl : Graded low high (l ++ x :: m))
    (hx : (holds x = some true → low x) ∧ (holds x = some false → high x))
    (hfurther : ∀ k, further = some k → SplitsAt low high m k)
    (hnearer : ∀ k, nearer = some k → SplitsAt low high l k)
    (h : (do if ← holds x then return l.length + 1 + (← further) else nearer) = some n) :
    SplitsAt low high (l ++ x :: m) n := by
  obtain ⟨b, hb, h⟩ := Option.bind_eq_some_iff.mp h
  cases b with
  | true =>
    obtain ⟨k, hk, h⟩ := Option.bind_eq_some_iff.mp h
    obtain rfl := Option.some.inj h
    exact (hfurther k hk).behind hl (hx.1 hb)
  | false => exact (hnearer n h).front hl (hx.2 hb)

/-- A part of a list that begins with an element follows what was left out. -/
theorem eq_append_of_drop {l right : List α} {x : α} {n : Nat} (h : l.drop n = x :: right) :
    ∃ front, l.take n = front ∧ front.length = n ∧ l = front ++ x :: right := by
  refine ⟨_, rfl, List.length_take_of_le ?_, by rw [← h, List.take_append_drop]⟩
  have := congrArg List.length h
  simp only [List.length_drop, List.length_cons] at this
  omega

theorem searchByHalves_splits {l : List α} {n : Nat} (hl : Graded low high l)
    (ht : ∀ x ∈ l, (holds x = some true → low x) ∧ (holds x = some false → high x))
    (h : searchByHalves early holds l = some n) : SplitsAt low high l n := by
  fun_induction searchByHalves early holds l generalizing n with
  | case1 l half =>
    rename_i hd
    obtain rfl := Option.some.inj h
    have hnil : l = [] := by
      have := List.drop_eq_nil_iff.mp hd
      exact List.length_eq_zero_iff.mp (by omega)
    exact ⟨[], [], hnil, rfl, by simp, by simp⟩
  | case2 l half x right hd ih₁ =>
    rename_i ih₂
    obtain ⟨front, htake, hlen, rfl⟩ := eq_append_of_drop hd
    rw [htake] at ih₂ h
    rw [← hlen] at h
    obtain ⟨hfront, hright, _⟩ := List.pairwise_append.mp hl
    exact .test hl (ht x (by simp)) (fun k => ih₁ hright.of_cons fun y hy => ht y (by simp [hy]))
      (fun k => ih₂ hfront fun y hy => ht y (by simp [hy])) h

theorem searchAhead_splits {leap : Nat} {l : List α} {n : Nat} (hl : Graded low high l)
    (ht : ∀ x ∈ l, (holds x = some true → low x) ∧ (holds x = some false → high x))
    (h : searchAhead early holds leap l = some n) : SplitsAt low high l n := by
  fun_induction searchAhead early holds leap l generalizing n with
  | case1 leap l => exact searchByHalves_splits hl ht h
  | case2 leap l x right hd =>
    rename_i ih
    obtain ⟨front, htake, rfl, rfl⟩ := eq_append_of_drop hd
    rw [htake] at h
    obtain ⟨hfront, hright, _⟩ := List.pairwise_append.mp hl
    exact .test hl (ht x (by simp)) (fun k => ih hright.of_cons fun y hy => ht y (by simp [hy]))
      (fun k => searchByHalves_splits hfront fun y hy => ht y (by simp [hy])) h

theorem searchInLeaps_splits {l : List α} {n : Nat} (hl : Graded low high l)
    (ht : ∀ x ∈ l, (holds x = some true → low x) ∧ (holds x = some false → high x))
    (h : searchInLeaps early holds l = some n) : SplitsAt low high l n := by
  cases l with
  | nil =>
    obtain rfl := Option.some.inj h
    exact ⟨[], [], rfl, rfl, by simp, by simp⟩
  | cons x rest =>
    have hrest (k : Nat) : searchAhead early holds 0 rest = some k → SplitsAt low high rest k :=
      searchAhead_splits hl.of_cons fun y hy => ht y (.tail _ hy)
    have hnil (k : Nat) (hk : some 0 = some k) : SplitsAt low high [] k := by
      obtain rfl := Option.some.inj hk
      exact ⟨[], [], rfl, rfl, by simp, by simp⟩
    exact .test (l := []) hl (ht x (.head _)) hrest hnil (by simpa [searchInLeaps] using h)

end

/-! ### Runs -/

section

variable {before : α → α → Option Bool}

/-- A test tells how the elements of a list are ordered, as far as it has answers. -/
def Ranking.Tells (R : Ranking α) (before : α → α → Option Bool) (l : List α) : Prop :=
  ∀ x ∈ l, ∀ y ∈ l, R.Told x y (before x y)

theorem Ranking.Tells.mono {l m : List α} (h : R.Tells before l) (hm : m ⊆ l) :
    R.Tells before m :=
  fun x hx y hy => h x (hm hx) y (hm hy)

theorem insertSorted_sorts {l r : List α} {x : α} (hl : l.Pairwise R.le)
    (ht : ∀ y ∈ l, R.Told x y (before x y)) (h : insertSorted before l x = some r) :
    R.Sorts (l ++ [x]) r := by
  obtain ⟨n, hn, h⟩ := Option.bind_eq_some_iff.mp h
  obtain rfl := Option.some.inj h
  obtain ⟨a, b, rfl, rfl, ha, hb⟩ := searchByHalves_splits (Ranking.graded_le hl x)
    (fun y hy => (ht y hy).not) hn
  simp only [List.take_left, List.drop_left, List.append_assoc]
  refine ⟨by simpa using (Ranking.Moves.forward hb []).append_left a, ?_⟩
  obtain ⟨hla, hlb, hab⟩ := List.pairwise_append.mp hl
  refine List.pairwise_append.mpr ⟨hla, hlb.cons fun y hy => R.le_of_lt (hb y hy), ?_⟩
  intro y hy z hz
  rcases List.mem_cons.mp hz with rfl | hz
  · exact ha y hy
  · exact hab y hy z hz

theorem foldlM_insertSorted_sorts {l run r : List α} (hrun : run.Pairwise R.le)
    (ht : R.Tells before (run ++ l)) (h : l.foldlM (insertSorted before) run = some r) :
    R.Sorts (run ++ l) r := by
  induction l generalizing run with
  | nil =>
    obtain rfl := Option.some.inj h
    exact ⟨by simpa using .refl run, hrun⟩
  | cons x l ih =>
    rw [List.foldlM_cons] at h
    obtain ⟨run', hx, h⟩ := Option.bind_eq_some_iff.mp h
    have hinsert := insertSorted_sorts hrun (fun y hy => ht x (by simp) y (by simp [hy])) hx
    have hmoves : R.Moves (run ++ x :: l) (run' ++ l) := by
      simpa using hinsert.moves.append_right l
    have hrest := ih hinsert.sorted (ht.mono hmoves.perm.subset) h
    exact ⟨hmoves.trans hrest.moves, hrest.sorted⟩

/-- What continues a run is related to all that is in front of it. -/
theorem continued_pairwise (related : α → α → Prop) {falling : Bool} {last : α} {l : List α}
    {n : Nat} (htrans : ∀ {x y z}, related x y → related y z → related x z)
    (hstep : ∀ x ∈ last :: l, ∀ y ∈ last :: l, before y x = some falling → related x y)
    (h : continued before falling last l = some n) : (last :: l.take n).Pairwise related := by
  induction l generalizing last n with
  | nil => simp
  | cons x l ih =>
    obtain ⟨b, hb, h⟩ := Option.bind_eq_some_iff.mp h
    split at h
    · rename_i hf
      obtain ⟨k, hk, h⟩ := Option.bind_eq_some_iff.mp h
      obtain rfl := Option.some.inj h
      have hlast : related last x := hstep last (.head _) x (.tail _ (.head _)) (hf ▸ hb)
      have hrest := ih (fun y hy z hz => hstep y (.tail _ hy) z (.tail _ hz)) hk
      refine hrest.cons fun y hy => ?_
      rcases List.mem_cons.mp hy with rfl | hy
      · exact hlast
      · exact htrans hlast (List.rel_of_pairwise_cons hrest hy)
    · obtain rfl := Option.some.inj h
      simp

theorem firstRun_sorts {least size : Nat} {l run : List α} (ht : R.Tells before l)
    (h : firstRun before least l = some (run, size)) : R.Sorts (l.take size) run := by
  match l with
  | [] =>
    obtain ⟨rfl, rfl⟩ := Prod.mk.inj (Option.some.inj h)
    exact ⟨.refl _, .nil⟩
  | [x] =>
    obtain ⟨rfl, rfl⟩ := Prod.mk.inj (Option.some.inj h)
    exact ⟨.refl _, List.pairwise_singleton ..⟩
  | x :: y :: rest =>
    obtain ⟨falling, hf, h⟩ := Option.bind_eq_some_iff.mp h
    obtain ⟨n, hn, h⟩ := Option.bind_eq_some_iff.mp h
    obtain ⟨run', hrun, h⟩ := Option.bind_eq_some_iff.mp h
    obtain ⟨rfl, rfl⟩ := Prod.mk.inj (Option.some.inj h)
    have hcont : continued before falling x (y :: rest) = some (n + 1) := by
      simp [continued, hf, hn]
    have hnat : R.Sorts ((x :: y :: rest).take (n + 2))
        (if falling then ((x :: y :: rest).take (n + 2)).reverse
          else (x :: y :: rest).take (n + 2)) := by
      cases falling with
      | true =>
        have hfall : ((x :: y :: rest).take (n + 2)).Pairwise R.flip.lt :=
          continued_pairwise R.flip.lt (fun h h' => R.lt_of_le_of_lt (R.le_of_lt h') h)
            (fun u hu v hv => (ht v hv u hu).1) hcont
        exact ⟨.reverse_of_falling hfall,
          List.pairwise_reverse.mpr (hfall.imp fun hlt => R.le_of_lt hlt)⟩
      | false =>
        exact ⟨.refl _,
          continued_pairwise R.le R.le_trans (fun u hu v hv => (ht v hv u hu).2) hcont⟩
    have htake : (x :: y :: rest).take (n + 2 +
          (((x :: y :: rest).drop (n + 2)).take (least - (n + 2))).length) =
        (x :: y :: rest).take (n + 2) ++
          ((x :: y :: rest).drop (n + 2)).take (least - (n + 2)) := by
      rw [List.length_take, List.take_add (i := n + 2), ← List.take_eq_take_min]
    have hmoves := hnat.moves.append_right
      (((x :: y :: rest).drop (n + 2)).take (least - (n + 2)))
    rw [← htake] at hmoves
    have hsorts := foldlM_insertSorted_sorts hnat.sorted
      (ht.mono fun z hz => List.mem_of_mem_take (hmoves.perm.subset hz)) hrun
    exact ⟨hmoves.trans hsorts.moves, hsorts.sorted⟩

/-! ### Merging -/

/-- A short list and a long one that can be merged. The last element of the short list goes
behind the whole long one, where it is put without a test. -/
structure Mergeable (R : Ranking α) (test : α → α → Option Bool) (short long : List α) :
    Prop where
  short_sorted : short.Pairwise R.le
  long_sorted : long.Pairwise R.le
  last : ∀ x ∈ long, ∀ z ∈ short.getLast?, R.lt x z
  told : ∀ x ∈ long, ∀ y ∈ short, R.Told x y (test x y)

theorem Mergeable.of_suffix {test : α → α → Option Bool} {short long m n : List α}
    (h : Mergeable R test short long) (hm : m <:+ short) (hn : n <:+ long) :
    Mergeable R test m n where
  short_sorted := h.short_sorted.sublist hm.sublist
  long_sorted := h.long_sorted.sublist hn.sublist
  last x hx z hz := by
    obtain ⟨front, rfl⟩ := hm
    refine h.last x (hn.subset hx) z ?_
    rw [List.getLast?_append, Option.mem_def.mp hz]
    rfl
  told x hx y hy := h.told x (hn.subset hx) y (hm.subset hy)

/-- The front of the short list goes first, and then the first element of the long one. -/
theorem Ranking.Sorts.long_next {a b long rest : List α} {l : α}
    (hshort : (a ++ b).Pairwise R.le) (hlong : (l :: long).Pairwise R.le)
    (ha : ∀ x ∈ a, R.le x l) (hb : ∀ x ∈ b, R.lt l x) (h : R.Sorts (b ++ long) rest) :
    R.Sorts (a ++ b ++ l :: long) (a ++ l :: rest) := by
  obtain ⟨hl, _⟩ := List.pairwise_cons.mp hlong
  obtain ⟨hsa, _, hab⟩ := List.pairwise_append.mp hshort
  have hmoves : R.Moves (a ++ b ++ l :: long) (a ++ [l] ++ (b ++ long)) := by
    simpa using (Ranking.Moves.forward hb long).append_left a
  have hfront : (a ++ [l]).Pairwise R.le := List.pairwise_append.mpr
    ⟨hsa, List.pairwise_singleton .., fun x hx y hy => List.mem_singleton.mp hy ▸ ha x hx⟩
  have hsorts := h.of_moves hmoves hfront fun x hx y hy => ?_
  · simpa using hsorts
  rcases List.mem_append.mp hx with hx | hx <;> rcases List.mem_append.mp hy with hy | hy
  · exact hab x hx y hy
  · exact R.le_trans (ha x hx) (hl y hy)
  · exact R.le_of_lt (List.mem_singleton.mp hx ▸ hb y hy)
  · exact List.mem_singleton.mp hx ▸ hl y hy

/-- The front of the long list goes first, and then the first element of the short one. -/
theorem Ranking.Sorts.short_next {a b short rest : List α} {s : α}
    (hshort : (s :: short).Pairwise R.le) (hlong : (a ++ b).Pairwise R.le)
    (ha : ∀ x ∈ a, R.lt x s) (hb : ∀ x ∈ b, R.le s x) (h : R.Sorts (short ++ b) rest) :
    R.Sorts (s :: short ++ (a ++ b)) (a ++ s :: rest) := by
  obtain ⟨hs, _⟩ := List.pairwise_cons.mp hshort
  obtain ⟨hla, _, hab⟩ := List.pairwise_append.mp hlong
  have hahead (x : α) (hx : x ∈ s :: short) (y : α) (hy : y ∈ a) : R.lt y x := by
    rcases List.mem_cons.mp hx with rfl | hx
    · exact ha y hy
    · exact R.lt_of_lt_of_le (ha y hy) (hs x hx)
  have hmoves : R.Moves (s :: short ++ (a ++ b)) (a ++ [s] ++ (short ++ b)) := by
    simpa using Ranking.Moves.exchange hahead b
  have hfront : (a ++ [s]).Pairwise R.le := List.pairwise_append.mpr
    ⟨hla, List.pairwise_singleton .., fun x hx y hy =>
      List.mem_singleton.mp hy ▸ R.le_of_lt (ha x hx)⟩
  have hsorts := h.of_moves hmoves hfront fun x hx y hy => ?_
  · simpa using hsorts
  rcases List.mem_append.mp hx with hx | hx <;> rcases List.mem_append.mp hy with hy | hy
  · exact R.le_of_lt (hahead y (.tail _ hy) x hx)
  · exact hab x hx y hy
  · exact List.mem_singleton.mp hx ▸ hs y hy
  · exact List.mem_singleton.mp hx ▸ hb y hy

theorem mergeOnward_sorts {backward : Bool} {kept patience q : Nat} {pace : Pace}
    {short long r : List α} (hm : Mergeable R (takesLong before backward) short long)
    (h : mergeOnward before backward kept patience pace short long = some (r, q)) :
    R.Sorts (short ++ long) r := by
  fun_induction mergeOnward before backward kept patience pace short long generalizing r q with
  | case1 =>
    obtain ⟨rfl, _⟩ := Prod.mk.inj (Option.some.inj h)
    exact .refl hm.long_sorted
  | case2 kept patience pace s long =>
    obtain ⟨rfl, _⟩ := Prod.mk.inj (Option.some.inj h)
    simpa using Ranking.Sorts.short_next (b := []) hm.short_sorted (by simpa using hm.long_sorted)
      (fun x hx => hm.last x hx s rfl) (by simp) (.refl .nil)
  | case3 =>
    obtain ⟨rfl, _⟩ := Prod.mk.inj (Option.some.inj h)
    simpa using .refl hm.short_sorted
  | case4 kept patience s s' short l long shortWins longWins ih₁ ih₂ =>
    -- a single step is a leap over nothing
    obtain ⟨hs, _⟩ := List.pairwise_cons.mp hm.short_sorted
    obtain ⟨hl, _⟩ := List.pairwise_cons.mp hm.long_sorted
    obtain ⟨b, hb, h⟩ := Option.bind_eq_some_iff.mp h
    obtain ⟨htrue, hfalse⟩ := hm.told l (.head _) s (.head _)
    cases b with
    | true =>
      obtain ⟨⟨rest, _⟩, hr, h⟩ := Option.bind_eq_some_iff.mp h
      obtain ⟨rfl, _⟩ := Prod.mk.inj (Option.some.inj h)
      have hrest := ih₁ (hm.of_suffix (List.suffix_refl _) (List.suffix_cons _ _))
        (by simpa only [dite_eq_ite] using hr)
      exact .long_next (a := []) hm.short_sorted hm.long_sorted (by simp)
        (List.forall_mem_cons.mpr ⟨htrue hb, fun x hx => R.lt_of_lt_of_le (htrue hb) (hs x hx)⟩)
        hrest
    | false =>
      obtain ⟨⟨rest, _⟩, hr, h⟩ := Option.bind_eq_some_iff.mp h
      obtain ⟨rfl, _⟩ := Prod.mk.inj (Option.some.inj h)
      have hrest := ih₂ (hm.of_suffix (List.suffix_cons _ _) (List.suffix_refl _))
        (by simpa only [dite_eq_ite] using hr)
      exact .short_next (a := []) hm.short_sorted hm.long_sorted (by simp)
        (List.forall_mem_cons.mpr ⟨hfalse hb, fun x hx => R.le_trans (hfalse hb) (hl x hx)⟩)
        hrest
  | case5 kept patience s s' short l long pace hp hl all =>
    rename_i ih
    obtain ⟨n, hn, h⟩ := Option.bind_eq_some_iff.mp h
    obtain ⟨⟨rest, _⟩, hr, h⟩ := Option.bind_eq_some_iff.mp h
    obtain ⟨rfl, _⟩ := Prod.mk.inj (Option.some.inj h)
    obtain ⟨a, b, hall, rfl, ha, hb⟩ := searchInLeaps_splits
      (Ranking.graded_le hm.short_sorted l)
      (fun y hy => (hm.told l (.head _) y hy).not) hn
    have hrest := ih a.length (hm.of_suffix (List.drop_suffix _ _) (List.suffix_cons _ _)) hr
    change all = a ++ b at hall
    rw [hall, List.drop_left] at hrest
    change R.Sorts (all ++ l :: long) _
    rw [hall, List.take_left]
    exact .long_next (hall ▸ hm.short_sorted) hm.long_sorted ha hb hrest
  | case6 kept patience s s' short l long pace hp hl all =>
    rename_i ih
    obtain ⟨n, hn, h⟩ := Option.bind_eq_some_iff.mp h
    obtain ⟨⟨rest, _⟩, hr, h⟩ := Option.bind_eq_some_iff.mp h
    obtain ⟨rfl, _⟩ := Prod.mk.inj (Option.some.inj h)
    obtain ⟨a, b, hall, rfl, ha, hb⟩ := searchInLeaps_splits
      (Ranking.graded_lt hm.long_sorted s) (fun y hy => hm.told y hy s (.head _)) hn
    have hrest := ih a.length (hm.of_suffix (List.suffix_cons _ _) (List.drop_suffix _ _)) hr
    change all = a ++ b at hall
    rw [hall, List.drop_left] at hrest
    change R.Sorts (s :: s' :: short ++ all) _
    rw [hall, List.take_left]
    exact .short_next hm.short_sorted (hall ▸ hm.long_sorted) ha hb hrest

/-- The long list goes first, as its first element does. -/
theorem mergeLists_sorts {backward : Bool} {patience q : Nat} {short long r : List α}
    (hm : Mergeable R (takesLong before backward) short long)
    (hfirst : ∀ l ∈ long.head?, ∀ s ∈ short, R.lt l s)
    (h : mergeLists before backward patience short long = some (r, q)) :
    R.Sorts (short ++ long) r := by
  cases long with
  | nil =>
    obtain ⟨rfl, _⟩ := Prod.mk.inj (Option.some.inj h)
    simpa using .refl hm.short_sorted
  | cons l long =>
    obtain ⟨⟨rest, _⟩, hr, h⟩ := Option.bind_eq_some_iff.mp h
    obtain ⟨rfl, _⟩ := Prod.mk.inj (Option.some.inj h)
    have hrest := mergeOnward_sorts (hm.of_suffix (List.suffix_refl _) (List.suffix_cons _ _)) hr
    exact .long_next (a := []) hm.short_sorted hm.long_sorted (by simp) (hfirst l rfl) hrest

/-- Merging works from the front if the first list is not the longer one, and otherwise from the
back, where the order is that from above. -/
theorem mergeNeighbours_sorts {patience q : Nat} {left right r : List α}
    (hleft : left.Pairwise R.le) (hright : right.Pairwise R.le)
    (hfirst : ∀ x ∈ right.head?, ∀ y ∈ left, R.lt x y)
    (hlast : ∀ x ∈ right, ∀ y ∈ left.getLast?, R.lt x y) (ht : R.Tells before (left ++ right))
    (h : mergeNeighbours before patience left right = some (r, q)) :
    R.Sorts (left ++ right) r := by
  unfold mergeNeighbours at h
  split at h
  · have htold (x : α) (hx : x ∈ right) (y : α) (hy : y ∈ left) :
        R.Told x y (takesLong before false x y) := ht x (by simp [hx]) y (by simp [hy])
    exact mergeLists_sorts ⟨hleft, hright, hlast, htold⟩ hfirst h
  · obtain ⟨⟨merged, _⟩, hm, h⟩ := Option.bind_eq_some_iff.mp h
    obtain ⟨rfl, _⟩ := Prod.mk.inj (Option.some.inj h)
    have hsorts : R.flip.Sorts (right.reverse ++ left.reverse) merged := by
      refine mergeLists_sorts ⟨List.pairwise_reverse.mpr hright, List.pairwise_reverse.mpr hleft,
        fun x hx z hz => ?_, fun x hx y hy => ?_⟩ (fun l hl s hs => ?_) hm
      · exact hfirst z (by simpa using hz) x (List.mem_reverse.mp hx)
      · exact ht y (by simp_all) x (by simp_all)
      · exact hlast s (List.mem_reverse.mp hs) l (by simpa using hl)
    exact ⟨by simpa using hsorts.moves.reverse, List.pairwise_reverse.mpr hsorts.sorted⟩

/-- What goes up to the first element of a sorted list goes up to all. -/
theorem Ranking.le_of_head {x first : α} {l : List α} (h : (first :: l).Pairwise R.le)
    (hx : R.le x first) : ∀ y ∈ first :: l, R.le x y :=
  List.forall_mem_cons.mpr ⟨hx, fun _ hy => R.le_trans hx (List.rel_of_pairwise_cons h hy)⟩

/-- All elements of a sorted list go up to what its last one goes up to. -/
theorem Ranking.le_of_getLast? {y last : α} {l : List α} (h : l.Pairwise R.le)
    (hl : l.getLast? = some last) (hy : R.le last y) : ∀ x ∈ l, R.le x y := by
  obtain ⟨l, rfl⟩ := List.getLast?_eq_some_iff.mp hl
  intro x hx
  rcases List.mem_append.mp hx with hx | hx
  · exact R.le_trans ((List.pairwise_append.mp h).2.2 x hx last (.head _)) hy
  · exact List.mem_singleton.mp hx ▸ hy

/-- Merging leaves alone what the last element of the first run goes up to. -/
theorem mergeNeighbours_take_sorts {patience m q : Nat} {a b merged : List α} {last : α}
    (ha : a.Pairwise R.le) (hb : b.Pairwise R.le) (ht : R.Tells before (a ++ b))
    (hfirst : ∀ x ∈ b.head?, ∀ y ∈ a, R.lt x y) (hlast : a.getLast? = some last)
    (hm : searchInLeaps true (fun x => (before x last).map not) b.reverse = some m)
    (h : mergeNeighbours before patience a (b.take (b.length - m)) = some (merged, q)) :
    R.Sorts (a ++ b) (merged ++ b.drop (b.length - m)) := by
  have htold (y : α) (hy : y ∈ b.reverse) : R.Told y last (before y last) :=
    ht y (List.mem_append_right _ (List.mem_reverse.mp hy)) last
      (List.mem_append_left _ (List.mem_of_getLast? hlast))
  -- the search goes from the back, so it is one in the order from above
  obtain ⟨b₁, b₂, rfl, hlen, hb₁, hb₂⟩ := (searchInLeaps_splits
    (Ranking.graded_le (R := R.flip) (List.pairwise_reverse.mpr hb) last)
    (fun y hy => (htold y hy).not) hm).reverse
  rw [← hlen, List.take_left] at h
  rw [← hlen, List.drop_left]
  obtain ⟨hsb₁, hsb₂, hb₁₂⟩ := List.pairwise_append.mp hb
  have hmerged : R.Sorts (a ++ b₁) merged := by
    refine mergeNeighbours_sorts ha hsb₁ (fun x hx => hfirst x ?_) (fun x hx y hy => ?_)
      (ht.mono ?_) h
    · rw [List.head?_append, Option.mem_def.mp hx]
      rfl
    · obtain rfl := Option.some.inj (hlast.symm.trans hy)
      exact hb₁ x hx
    · rw [← List.append_assoc]
      exact List.subset_append_left _ _
  rw [← List.append_assoc]
  refine hmerged.append hsb₂ fun x hx y hy => ?_
  rcases List.mem_append.mp hx with hx | hx
  · exact Ranking.le_of_getLast? ha hlast (hb₂ y hy) x hx
  · exact hb₁₂ x hx y hy

theorem mergeRuns_sorts {patience q : Nat} {a b r : List α} (ha : a.Pairwise R.le)
    (hb : b.Pairwise R.le) (ht : R.Tells before (a ++ b))
    (h : mergeRuns before patience a b = some (r, q)) : R.Sorts (a ++ b) r := by
  cases b with
  | nil =>
    obtain ⟨rfl, _⟩ := Prod.mk.inj (Option.some.inj h)
    simpa using .refl ha
  | cons first rest =>
    obtain ⟨n, hn, h⟩ := Option.bind_eq_some_iff.mp h
    obtain ⟨a₁, a₂, rfl, rfl, ha₁, ha₂⟩ := searchInLeaps_splits (Ranking.graded_le ha first)
      (fun y hy => (ht first (by simp) y (by simp [hy])).not) hn
    obtain ⟨hsa₁, hsa₂, ha₁₂⟩ := List.pairwise_append.mp ha
    have hfront (x : α) (hx : x ∈ a₁) (y : α) (hy : y ∈ a₂ ++ first :: rest) : R.le x y := by
      rcases List.mem_append.mp hy with hy | hy
      · exact ha₁₂ x hx y hy
      · exact Ranking.le_of_head hb (ha₁ x hx) y hy
    rw [List.append_assoc] at ht ⊢
    rw [List.drop_left] at h
    split at h
    · rename_i hnil
      obtain rfl := List.getLast?_eq_none_iff.mp hnil
      obtain ⟨rfl, _⟩ := Prod.mk.inj (Option.some.inj h)
      rw [List.append_nil]
      exact .of_moves (.refl _) hsa₁ hfront (.refl hb)
    · rename_i last hlast
      obtain ⟨m, hm, h⟩ := Option.bind_eq_some_iff.mp h
      obtain ⟨⟨merged, _⟩, hmerged, h⟩ := Option.bind_eq_some_iff.mp h
      obtain ⟨rfl, _⟩ := Prod.mk.inj (Option.some.inj h)
      rw [List.take_left, List.append_assoc]
      refine .of_moves (.refl _) hsa₁ hfront (mergeNeighbours_take_sorts hsa₂ hb
        (ht.mono (List.subset_append_right _ _)) (fun x hx => ?_) hlast hm hmerged)
      exact Option.some.inj hx ▸ ha₂

/-! ### Putting runs together -/

/-- Sorted runs, the last one first, of which a list is made up. -/
structure Ranking.Runs (R : Ranking α) (l : List α) (runs : List (List α)) : Prop where
  moves : R.Moves l runs.reverse.flatten
  sorted : ∀ run ∈ runs, run.Pairwise R.le

theorem Ranking.Runs.push {l m run : List α} {runs : List (List α)} (h : R.Runs l runs)
    (hm : R.Sorts m run) : R.Runs (l ++ m) (run :: runs) := by
  refine ⟨?_, List.forall_mem_cons.mpr ⟨hm.sorted, h.sorted⟩⟩
  simpa using (h.moves.append_right m).trans (hm.moves.append_left _)

/-- Two runs that follow each other become one. -/
theorem mergeRuns_runs (front : List (List α)) {runs : List (List α)} {l a b run : List α}
    {patience q : Nat} (h : R.Runs l (front ++ b :: a :: runs)) (ht : R.Tells before l)
    (hr : mergeRuns before patience a b = some (run, q)) : R.Runs l (front ++ run :: runs) := by
  have hmem : a ++ b ⊆ l := by
    intro x hx
    have hx := List.mem_append.mp hx
    exact h.moves.perm.subset (by simp; tauto)
  have hrun := mergeRuns_sorts (h.sorted a (by simp)) (h.sorted b (by simp)) (ht.mono hmem) hr
  refine ⟨h.moves.trans ?_, fun m hm => ?_⟩
  · simpa using (hrun.moves.append_left runs.reverse.flatten).append_right front.reverse.flatten
  · rcases List.mem_append.mp hm with hm | hm
    · exact h.sorted m (by simp [hm])
    · rcases List.mem_cons.mp hm with rfl | hm
      · exact hrun.sorted
      · exact h.sorted m (by simp [hm])

theorem mergeDeeper_runs {depth patience q : Nat} {l : List α} {pending r : List (Pending α)}
    (hp : R.Runs l (pending.map Pending.run)) (ht : R.Tells before l)
    (h : mergeDeeper before depth patience pending = some (r, q)) :
    R.Runs l (r.map Pending.run) := by
  fun_induction mergeDeeper before depth patience pending with
  | case1 patience last left rest hd ih =>
    obtain ⟨⟨run, q'⟩, hr, h⟩ := Option.bind_eq_some_iff.mp h
    exact ih run q' (mergeRuns_runs [] hp ht hr) h
  | case2 =>
    obtain ⟨rfl, _⟩ := Prod.mk.inj (Option.some.inj h)
    exact hp
  | case3 =>
    obtain ⟨rfl, _⟩ := Prod.mk.inj (Option.some.inj h)
    exact hp

theorem cutRuns_runs {whole least patience q : Nat} {pending r : List (Pending α)} {l m : List α}
    (hp : R.Runs m (pending.map Pending.run)) (ht : R.Tells before (m ++ l))
    (h : cutRuns before whole least patience pending l = some (r, q)) :
    R.Runs (m ++ l) (r.map Pending.run) := by
  fun_induction cutRuns before whole least patience pending l generalizing m with
  | case1 =>
    obtain ⟨rfl, _⟩ := Prod.mk.inj (Option.some.inj h)
    simpa using hp
  | case2 patience pending x rest ih₁ =>
    rename_i ih₂
    obtain ⟨⟨run, size⟩, hrun, h⟩ := Option.bind_eq_some_iff.mp h
    have hsorts := firstRun_sorts (ht.mono (List.subset_append_right _ _)) hrun
    obtain ⟨n, rfl⟩ := Nat.exists_eq_add_of_le' ((firstRun_perm hrun).2 (by simp))
    have hrest : m ++ x :: rest = m ++ (x :: rest).take (n + 1) ++ rest.drop n := by simp
    rw [hrest] at ht ⊢
    dsimp only at h
    split at h
    · exact ih₁ run (n + 1) (hp.push hsorts) ht h
    · rename_i last others _
      obtain ⟨⟨merged, q'⟩, hm, h⟩ := Option.bind_eq_some_iff.mp h
      have hdeeper := mergeDeeper_runs hp (ht.mono (by simp)) hm
      exact ih₂ run (n + 1) last merged q' (hdeeper.push hsorts) ht h

theorem mergeAll_sorts {patience : Nat} {runs : List (List α)} {l r : List α}
    (hl : R.Runs l runs) (ht : R.Tells before l) (h : mergeAll before patience runs = some r) :
    R.Sorts l r := by
  fun_induction mergeAll before patience runs with
  | case1 =>
    obtain rfl := Option.some.inj h
    exact ⟨hl.moves, .nil⟩
  | case2 =>
    obtain rfl := Option.some.inj h
    exact ⟨by simpa using hl.moves, hl.sorted _ (.head _)⟩
  | case3 patience last left =>
    obtain ⟨⟨run, q⟩, hr, rfl⟩ := Option.map_eq_some_iff.mp h
    have hrun := mergeRuns_runs [] hl ht hr
    exact ⟨by simpa using hrun.moves, hrun.sorted _ (.head _)⟩
  | case4 patience last left further rest hlen ih =>
    obtain ⟨⟨run, q⟩, hr, h⟩ := Option.bind_eq_some_iff.mp h
    exact ih run q (mergeRuns_runs [last] hl ht hr) h
  | case5 patience last left further rest hlen ih =>
    obtain ⟨⟨run, q⟩, hr, h⟩ := Option.bind_eq_some_iff.mp h
    exact ih run q (mergeRuns_runs [] hl ht hr) h

/-! ### Sorting -/

/-- A list is sorted by moves of elements past ones that they go before, if the answers of the
test say how the elements are ordered. -/
theorem sortBy?_sorts {l r : List α} (ht : R.Tells before l) (h : sortBy? before l = some r) :
    R.Sorts l r := by
  obtain ⟨⟨pending, patience⟩, hc, h⟩ := Option.bind_eq_some_iff.mp h
  have hnone : R.Runs [] (([] : List (Pending α)).map Pending.run) := ⟨.refl _, by simp⟩
  exact mergeAll_sorts (cutRuns_runs hnone ht hc) ht h

end

/-! ### Tied elements -/

open Classical in
/-- Whether each of two elements is at most the other one. -/
noncomputable def Ranking.tied (R : Ranking α) (x y : α) : Bool := decide (R.le x y ∧ R.le y x)

theorem Ranking.tied_iff {x y : α} : R.tied x y = true ↔ R.le x y ∧ R.le y x := by
  simp [Ranking.tied]

/-- Elements that are tied to the same one keep their order. -/
theorem Ranking.Moves.filter_tied {l r : List α} (h : R.Moves l r) (x : α) :
    r.filter (R.tied x) = l.filter (R.tied x) := by
  refine h.filter_eq fun y _ z _ hy hz hlt => ?_
  have hxy := (Ranking.tied_iff.mp hy).1
  have hzx := (Ranking.tied_iff.mp hz).2
  exact R.lt_irrefl y (R.lt_of_lt_of_le hlt (R.le_trans hzx hxy))

/-- A sorted list is determined by the order of its tied elements. -/
theorem Ranking.eq_of_filter_tied {l m : List α} (hl : l.Pairwise R.le) (hm : m.Pairwise R.le)
    (hlm : l ~ m) (hrefl : ∀ x ∈ l, R.le x x)
    (h : ∀ x ∈ l, l.filter (R.tied x) = m.filter (R.tied x)) : l = m := by
  induction l generalizing m with
  | nil => exact (List.nil_perm.mp hlm).symm
  | cons a l ih =>
    cases m with
    | nil => exact absurd hlm.length_eq (by simp)
    | cons b m =>
      obtain ⟨ha, hl⟩ := List.pairwise_cons.mp hl
      obtain ⟨hb, hrest⟩ := List.pairwise_cons.mp hm
      have haa := hrefl a List.mem_cons_self
      -- the two heads are tied, so that they are the first ones of their class in both lists
      have hab : R.le a b := by
        rcases List.mem_cons.mp (hlm.symm.subset List.mem_cons_self) with rfl | hmem
        · exact haa
        · exact ha b hmem
      have hba : R.le b a := by
        rcases List.mem_cons.mp (hlm.subset List.mem_cons_self) with rfl | hmem
        · exact haa
        · exact hb a hmem
      have hheads := h a List.mem_cons_self
      rw [List.filter_cons_of_pos (Ranking.tied_iff.mpr ⟨haa, haa⟩),
        List.filter_cons_of_pos (Ranking.tied_iff.mpr ⟨hab, hba⟩)] at hheads
      obtain rfl := (List.cons.inj hheads).1
      congr 1
      refine ih hl hrest hlm.cons_inv (fun x hx => hrefl x (List.mem_cons_of_mem _ hx)) ?_
      intro x hx
      have hfilter := h x (List.mem_cons_of_mem _ hx)
      rw [List.filter_cons, List.filter_cons] at hfilter
      split at hfilter
      · exact (List.cons.inj hfilter).2
      · exact hfilter

/-- Lists that have the same elements, and tied ones in the same order, are sorted to the same
list. -/
theorem Ranking.Sorts.eq {l m r r' : List α} (h : R.Sorts l r) (h' : R.Sorts m r') (hlm : l ~ m)
    (hrefl : ∀ x ∈ l, R.le x x)
    (htied : ∀ x ∈ l, l.filter (R.tied x) = m.filter (R.tied x)) : r = r' := by
  have hperm : r ~ r' := h.moves.perm.trans (hlm.trans h'.moves.perm.symm)
  refine R.eq_of_filter_tied h.sorted h'.sorted hperm
    (fun x hx => hrefl x (h.moves.perm.subset hx)) fun x hx => ?_
  rw [h.moves.filter_tied, h'.moves.filter_tied, htied x (h.moves.perm.subset hx)]

/-- Of elements no two of which are tied, at most one is tied to an element, so that their order
makes no difference. -/
theorem Ranking.filter_tied_of_perm {l m : List α} (hlm : l ~ m)
    (h : l.Pairwise fun a b => ¬R.tied a b = true) (x : α) :
    l.filter (R.tied x) = m.filter (R.tied x) := by
  have hperm := hlm.filter (R.tied x)
  have hsome (a : α) (ha : a ∈ l.filter (R.tied x)) : R.le x a ∧ R.le a x :=
    Ranking.tied_iff.mp (List.of_mem_filter ha)
  have hpairs := h.filter (R.tied x)
  match hf : l.filter (R.tied x) with
  | [] =>
    rw [hf] at hperm
    exact (List.nil_perm.mp hperm).symm
  | [a] =>
    rw [hf] at hperm
    exact List.singleton_perm.mp hperm
  | a :: b :: rest =>
    rw [hf] at hpairs hsome
    obtain ⟨hxa, hax⟩ := hsome a (by simp)
    obtain ⟨hxb, hbx⟩ := hsome b (by simp)
    have hab := Ranking.tied_iff.mpr ⟨R.le_trans hax hxb, R.le_trans hbx hxa⟩
    exact absurd hab ((List.pairwise_cons.mp hpairs).1 b (by simp))

/-! ### First occurrences -/

section

variable [DecidableEq α] {l m : List α} {a b : α}

theorem idxOf_lt_iff_head?_filter (ha : a ∈ l) (hab : a ≠ b) :
    l.idxOf a < l.idxOf b ↔ (l.filter fun x => x = a || x = b).head? = some a := by
  induction l with
  | nil => cases ha
  | cons x l ih =>
    by_cases hxa : x = a
    · subst hxa
      simp [List.idxOf_cons, beq_eq_false_iff_ne.mpr hab]
    · by_cases hxb : x = b
      · subst hxb
        simp [hxa]
      · have ha := (List.mem_cons.mp ha).resolve_left fun h => hxa h.symm
        simp [hxa, hxb, ih ha]

/-- Which of two elements comes first depends only on where the two of them are. -/
theorem idxOf_lt_iff_of_filter_eq (ha : a ∈ l)
    (h : (l.filter fun x => x = a || x = b) = m.filter fun x => x = a || x = b) :
    l.idxOf a < l.idxOf b ↔ m.idxOf a < m.idxOf b := by
  by_cases hab : a = b
  · simp [hab]
  · have hm : a ∈ m := List.mem_of_mem_filter (h ▸ List.mem_filter.mpr ⟨ha, by simp⟩)
    rw [idxOf_lt_iff_head?_filter ha hab, idxOf_lt_iff_head?_filter hm hab, h]

/-- Which of two elements comes first is the same in a part of a list that holds both. -/
theorem idxOf_lt_of_filter {keep : α → Bool} (ha : a ∈ l.filter keep) (hb : b ∈ l.filter keep)
    (h : (l.filter keep).idxOf a < (l.filter keep).idxOf b) : l.idxOf a < l.idxOf b := by
  refine (idxOf_lt_iff_of_filter_eq ha ?_).mp h
  rw [List.filter_filter]
  refine List.filter_congr fun x _ => ?_
  by_cases hx : x = a ∨ x = b
  · have hkeep : keep x = true := by
      rcases hx with rfl | rfl
      · exact List.of_mem_filter ha
      · exact List.of_mem_filter hb
    simp [hkeep]
  · simp [not_or.mp hx]

/-- Elements that are tied come first in the same order before and after sorting. -/
theorem Ranking.Sorts.idxOf_lt_iff (h : R.Sorts l m) (ha : a ∈ m) (hab : R.le a b)
    (hba : R.le b a) : m.idxOf a < m.idxOf b ↔ l.idxOf a < l.idxOf b := by
  refine idxOf_lt_iff_of_filter_eq ha (h.moves.filter_eq fun x _ y _ hx hy hlt => ?_)
  simp only [Bool.or_eq_true, decide_eq_true_eq] at hx hy
  rcases hx with rfl | rfl <;> rcases hy with rfl | rfl
  · exact R.lt_irrefl _ hlt
  · exact R.lt_irrefl _ (R.lt_of_lt_of_le hlt hba)
  · exact R.lt_irrefl _ (R.lt_of_lt_of_le hlt hab)
  · exact R.lt_irrefl _ hlt

theorem rel_of_idxOf_lt {related : α → α → Prop} (h : l.Pairwise related) (hb : b ∈ l)
    (hlt : l.idxOf a < l.idxOf b) : related a b := by
  have hbl := List.idxOf_lt_length_of_mem hb
  have hrel := List.pairwise_iff_getElem.mp h _ _ (Nat.lt_trans hlt hbl) hbl hlt
  rwa [List.getElem_idxOf, List.getElem_idxOf] at hrel

end

end ApiSurface
