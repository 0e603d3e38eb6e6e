/-! Lists as sets in the order of first sight. Walks over a finite domain that go to
no element twice end, because each step leaves fewer elements to go to. -/

namespace ApiSurface

variable {α : Type} [DecidableEq α]

/-- Add an element at the end unless it is there. -/
def addOnce (l : List α) (a : α) : List α := if a ∈ l then l else l ++ [a]

/-- The number of elements of a domain that a walk has not seen. -/
def unseen (domain seen : List α) : Nat := domain.countP (· ∉ seen)

theorem unseen_le_of_subset {domain seen more : List α} (h : seen ⊆ more) :
    unseen domain more ≤ unseen domain seen :=
  List.countP_mono_left fun x _ hx => by
    simp only [decide_not, Bool.not_eq_eq_eq_not, Bool.not_true, decide_eq_false_iff_not] at hx ⊢
    exact fun hs => hx (h hs)

theorem unseen_cons_lt {domain seen : List α} {a : α} (ha : a ∈ domain) (hs : a ∉ seen) :
    unseen domain (a :: seen) < unseen domain seen := by
  induction domain with
  | nil => cases ha
  | cons b domain ih =>
    have mono : unseen domain (a :: seen) ≤ unseen domain seen :=
      unseen_le_of_subset (List.subset_cons_self a seen)
    unfold unseen at mono ih ⊢
    rw [List.countP_cons, List.countP_cons]
    rcases List.mem_cons.mp ha with rfl | ha
    · rw [if_neg (by simp), if_pos (by simpa using hs)]
      omega
    · have := ih ha
      by_cases hb : b ∈ seen
      · rw [if_neg (by simp [hb]), if_neg (by simp [hb])]
        omega
      · have hb' : decide (b ∉ seen) = true := by simpa using hb
        rw [if_pos hb']
        split <;> omega

end ApiSurface
