import ApiSurface.Sorting.Run

/-! Merging two runs that follow each other. Of two elements neither of which goes before the
other, the one of the first run stays in front. A merge works from the front or, on reversed
lists, from the back, so that the list that it looks at last is the shorter one. It takes one
element at a time until one list wins often enough, and then as many as a search finds. -/

namespace ApiSurface

variable {α : Type}

/-- How a merge goes on. -/
inductive Pace where
  /-- One element at a time. Counts how often each list has just won in a row. -/
  | steps (short long : Nat)
  /-- The first search of a pair. -/
  | leap
  /-- The second search of a pair, after one that went far or not. -/
  | secondLeap (far : Bool)

/-- How many elements make a search worth while. -/
def worthwhile : Nat := 7

/-- Whether the element of the long list goes next. From the front it does if it goes before
that of the short list, and from the back if that one goes before it. -/
def takesLong (before : α → α → Option Bool) (backward : Bool) (long short : α) : Option Bool :=
  if backward then before short long else before long short

/-- The pace and the patience after a search. As long as one search of a pair goes far,
patience shrinks, and otherwise it grows. -/
def Pace.after (patience found : Nat) : Pace → Pace × Nat
  | .secondLeap far =>
    if far || worthwhile ≤ found then (.leap, max 1 (patience - 1)) else (.steps 0 0, patience + 1)
  | _ => (.secondLeap (worthwhile ≤ found), patience)

/-- Merge a short list with a long one. Patience is how many wins in a row one list needs
before the merge leaps, and it is handed on to the next merge. What is kept for that is the
patience of the last search, since a change after it counts only if the merge goes on. -/
def mergeOnward (before : α → α → Option Bool) (backward : Bool) (kept patience : Nat)
    (pace : Pace) (short long : List α) : Option (List α × Nat) :=
  match short, long with
  | [], long => some (long, kept)
  | [s], long => some (long ++ [s], kept)
  | short, [] => some (short, kept)
  | s :: s' :: short, l :: long =>
    match pace with
    | .steps shortWins longWins => do
      if ← takesLong before backward l s then
        let pace := if patience ≤ longWins + 1 then .leap else .steps 0 (longWins + 1)
        let (rest, p) ←
          mergeOnward before backward patience patience pace (s :: s' :: short) long
        return (l :: rest, p)
      else
        let pace := if patience ≤ shortWins + 1 then .leap else .steps (shortWins + 1) 0
        let (rest, p) ←
          mergeOnward before backward patience patience pace (s' :: short) (l :: long)
        return (s :: rest, p)
    | pace => do
      if (pace matches .leap) = !backward then
        let all := s :: s' :: short
        let n ← searchInLeaps backward (fun x => (takesLong before backward l x).map not) all
        let next := pace.after patience n
        let (rest, p) ← mergeOnward before backward patience next.2 next.1 (all.drop n) long
        return (all.take n ++ l :: rest, p)
      else
        let all := l :: long
        let n ← searchInLeaps backward (fun x => takesLong before backward x s) all
        let next := pace.after patience n
        let (rest, p) ←
          mergeOnward before backward patience next.2 next.1 (s' :: short) (all.drop n)
        return (all.take n ++ s :: rest, p)
termination_by short.length + long.length
decreasing_by all_goals simp only [List.length_cons, List.length_drop]; omega

/-- Merge lists of which the long one is known to go first. -/
def mergeLists (before : α → α → Option Bool) (backward : Bool) (patience : Nat)
    (short : List α) : List α → Option (List α × Nat)
  | [] => some (short, patience)
  | l :: long => do
    let (rest, p) ← mergeOnward before backward patience patience (.steps 0 0) short long
    return (l :: rest, p)

/-- Merge two lists that follow each other, from the front if the first one is not the longer
one, and from the back if it is. -/
def mergeNeighbours (before : α → α → Option Bool) (patience : Nat) (left right : List α) :
    Option (List α × Nat) :=
  if left.length ≤ right.length then mergeLists before false patience left right
  else do
    let (merged, p) ← mergeLists before true patience right.reverse left.reverse
    return (merged.reverse, p)

/-- Merge two runs. What is in place already, in front and at the end, is left alone. -/
def mergeRuns (before : α → α → Option Bool) (patience : Nat) (a b : List α) :
    Option (List α × Nat) :=
  match b with
  | [] => some (a, patience)
  | first :: _ => do
    let n ← searchInLeaps false (fun x => (before first x).map not) a
    match (a.drop n).getLast? with
    | none => return (a ++ b, patience)
    | some last =>
      let m ← searchInLeaps true (fun x => (before x last).map not) b.reverse
      let (merged, p) ←
        mergeNeighbours before patience (a.drop n) (b.take (b.length - m))
      return (a.take n ++ merged ++ b.drop (b.length - m), p)

end ApiSurface
