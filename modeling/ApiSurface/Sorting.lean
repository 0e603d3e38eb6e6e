import ApiSurface.Sorting.Merge

/-! Stable sorting by a test that need not have an answer. The test is whether one element
goes before another one, and sorting has a result only if every test that it makes has an
answer. The list is cut into runs, which are merged with their neighbours so that runs of
about the same length meet. A list of less than 64 elements is one run. -/

namespace ApiSurface

variable {α : Type}

/-- A run that waits for being merged, and the depth of the boundary in front of it. -/
structure Pending (α : Type) where
  depth : Nat
  run : List α

/-- How deep the boundary between two runs is when the whole is halved again and again: the
first halving that puts the middles of the runs on different sides. The boundary is at a
place of the whole, and the two lengths are those of the runs on its sides. -/
def boundaryDepth (whole place left right : Nat) : Nat :=
  ((List.range whole).find? fun k =>
    (2 * place - left) <<< k / whole ≠ (2 * place + right) <<< k / whole).getD whole

/-- Merge the last runs as long as the boundary between them is deeper than a new one. -/
def mergeDeeper (before : α → α → Option Bool) (depth patience : Nat)
    (pending : List (Pending α)) : Option (List (Pending α) × Nat) :=
  match pending with
  | last :: left :: rest =>
    if depth < last.depth then do
      let (run, p) ← mergeRuns before patience left.run last.run
      mergeDeeper before depth p (⟨left.depth, run⟩ :: rest)
    else some (last :: left :: rest, patience)
  | pending => some (pending, patience)
termination_by pending.length

/-- Cut what is left of a whole into runs, on top of those that wait. -/
def cutRuns (before : α → α → Option Bool) (whole least patience : Nat)
    (pending : List (Pending α)) (l : List α) : Option (List (Pending α) × Nat) :=
  match l with
  | [] => some (pending, patience)
  | x :: rest => do
    let (run, size) ← firstRun before least (x :: rest)
    match pending with
    | [] => cutRuns before whole least patience [⟨0, run⟩] (rest.drop (size - 1))
    | last :: others =>
      let depth := boundaryDepth whole (whole - (rest.length + 1)) last.run.length size
      let (pending, p) ← mergeDeeper before depth patience (last :: others)
      cutRuns before whole least p (⟨depth, run⟩ :: pending) (rest.drop (size - 1))
termination_by l.length
decreasing_by all_goals simp only [List.length_cons, List.length_drop]; omega

/-- Merge all runs, the last one first, into one. A run between two others goes with the
shorter one of them. -/
def mergeAll (before : α → α → Option Bool) (patience : Nat) (runs : List (List α)) :
    Option (List α) :=
  match runs with
  | [] => some []
  | [run] => some run
  | [last, left] => (mergeRuns before patience left last).map Prod.fst
  | last :: left :: further :: rest =>
    if further.length < last.length then do
      let (run, p) ← mergeRuns before patience further left
      mergeAll before p (last :: run :: rest)
    else do
      let (run, p) ← mergeRuns before patience left last
      mergeAll before p (run :: further :: rest)
termination_by runs.length

/-- Sort a list. Elements neither of which goes before the other keep their order. -/
def sortBy? (before : α → α → Option Bool) (l : List α) : Option (List α) := do
  let (pending, patience) ←
    cutRuns before l.length (leastRun false l.length) worthwhile [] l
  mergeAll before patience (pending.map Pending.run)

end ApiSurface
