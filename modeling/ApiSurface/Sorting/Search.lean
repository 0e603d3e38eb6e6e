/-! How far a property holds along a list, by a test that need not have an answer. If the
property holds in front of some place and nowhere behind it, every search finds that place.
The searches differ in which elements they test. -/

namespace ApiSurface

variable {α : Type}

/-- Search by halves. The element in the middle is tested, and of two in the middle the later
one, unless the earlier one is asked for. -/
def searchByHalves (early : Bool) (holds : α → Option Bool) (l : List α) : Option Nat :=
  let half := (l.length - early.toNat) / 2
  match _h : l.drop half with
  | [] => some 0
  | x :: right => do
    if ← holds x then return half + 1 + (← searchByHalves early holds right)
    else searchByHalves early holds (l.take half)
termination_by l.length
decreasing_by
  · have := congrArg List.length _h
    simp only [List.length_drop, List.length_cons] at this
    omega
  · have := congrArg List.length _h
    simp only [List.length_drop, List.length_cons] at this
    rw [List.length_take]
    omega

/-- Search in leaps, where the next leap passes over a number of elements and each one after
it over twice as many and one more. What the last leap passed over is searched by halves. -/
def searchAhead (early : Bool) (holds : α → Option Bool) (leap : Nat) (l : List α) :
    Option Nat :=
  match _h : l.drop leap with
  | [] => searchByHalves early holds l
  | x :: right => do
    if ← holds x then return leap + 1 + (← searchAhead early holds (2 * leap + 1) right)
    else searchByHalves early holds (l.take leap)
termination_by l.length
decreasing_by
  have := congrArg List.length _h
  simp only [List.length_drop, List.length_cons] at this
  omega

/-- Search in leaps from the front of a list. -/
def searchInLeaps (early : Bool) (holds : α → Option Bool) : List α → Option Nat
  | [] => some 0
  | x :: rest => do
    if ← holds x then return 1 + (← searchAhead early holds 0 rest) else return 0

end ApiSurface
