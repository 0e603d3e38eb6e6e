import ApiSurface.Sorting.Search

/-! Runs: the sorted pieces from which a list is put together. The front of a list is taken as
far as it is in order, and if that is short, the elements that follow are inserted one by one. -/

namespace ApiSurface

variable {α : Type}

/-- How many elements continue a run behind its last element: elements that each go before
the one in front if the run falls, and that do not if it rises. -/
def continued (before : α → α → Option Bool) (falling : Bool) (last : α) : List α → Option Nat
  | [] => some 0
  | x :: rest => do
    if (← before x last) = falling then return (← continued before falling x rest) + 1
    else return 0

/-- Insert an element into a sorted list, behind those that it does not go before. -/
def insertSorted (before : α → α → Option Bool) (l : List α) (x : α) : Option (List α) := do
  let n ← searchByHalves false (fun y => (before x y).map not) l
  return l.take n ++ x :: l.drop n

/-- The first run of a list, and how much of the list it takes up. A list is used up before
its run is shorter than the least length. -/
def firstRun (before : α → α → Option Bool) (least : Nat) : List α → Option (List α × Nat)
  | [] => some ([], 0)
  | [x] => some ([x], 1)
  | x :: y :: rest => do
    let falling ← before y x
    let size := (← continued before falling y rest) + 2
    let natural := (x :: y :: rest).take size
    let others := ((x :: y :: rest).drop size).take (least - size)
    let run ← others.foldlM (insertSorted before) (if falling then natural.reverse else natural)
    return (run, size + others.length)

/-- The least length of runs in a list: the length of the list halved until it is below 64,
and one more if a half was not even. So the list has a number of runs that is a power of two
or slightly less. -/
def leastRun (uneven : Bool) (length : Nat) : Nat :=
  if length < 64 then length + uneven.toNat
  else leastRun (uneven || length % 2 = 1) (length / 2)
termination_by length

end ApiSurface
