import ApiSurface.Proofs.Loading
import ApiSurface.Report.Page
import Mathlib.Data.List.Lex

/-! Reference trees as lines of text and as a document. Both show the references at the addresses
within the limit, in pre-order, and the lines say how many references are left out below those that
the document marks as truncated. -/

namespace ApiSurface

/-! ### Forests -/

namespace Forest

variable {α : Type} {children : α → List α}

/-- What stands at an address: the place of a tree in a forest, then the place of a child in that
tree, and so on. -/
def at? (children : α → List α) : List α → List Nat → Option α
  | _, [] => none
  | l, [i] => l[i]?
  | l, i :: j :: a => l[i]?.bind fun x => at? children (children x) (j :: a)

/-- The address of the next neighbour. -/
def next : List Nat → List Nat
  | [] => []
  | [i] => [i + 1]
  | i :: j :: a => i :: next (j :: a)

/-- Whether there is a later neighbour. -/
def hasLater (children : α → List α) (l : List α) (address : List Nat) : Bool :=
  (at? children l (next address)).isSome

/-- The elements of a forest in pre-order: each of them, then those below it, then those of the
trees behind it. -/
inductive Preorder (children : α → List α) : List α → List α → Prop where
  | nil : Preorder children [] []
  | cons {x : α} {l below behind : List α} (hx : Preorder children (children x) below)
      (hl : Preorder children l behind) : Preorder children (x :: l) (x :: (below ++ behind))

theorem next_concat (a : List Nat) (i : Nat) : next (a ++ [i]) = a ++ [i + 1] := by
  induction a with
  | nil => rfl
  | cons j a ih =>
    cases a with
    | nil => rfl
    | cons k a => rw [List.cons_append, List.cons_append, next, ← List.cons_append, ih]; rfl

@[simp] theorem at?_nil (a : List Nat) : at? children [] a = none := by
  match a with
  | [] => rfl
  | [i] => rfl
  | i :: j :: a => rfl

theorem at?_cons_succ (x : α) (l : List α) (i : Nat) (a : List Nat) :
    at? children (x :: l) ((i + 1) :: a) = at? children l (i :: a) := by
  cases a <;> simp [at?]

theorem at?_cons_zero (x : α) (l : List α) (i : Nat) (a : List Nat) :
    at? children (x :: l) (0 :: i :: a) = at? children (children x) (i :: a) := by
  simp [at?]

end Forest

namespace Reference

open Forest Snapshot

/-- Induction over forests. -/
@[elab_as_elim]
theorem forest_induction {motive : List Reference → Prop} (nil : motive [])
    (cons : ∀ m rs rest, motive rs → motive rest → motive (.mk m rs :: rest)) :
    ∀ rs, motive rs
  | [] => nil
  | .mk m rs :: rest =>
    cons m rs rest (forest_induction nil cons rs) (forest_induction nil cons rest)

theorem sizeAll_eq_length (rs : List Reference) : sizeAll rs = (preorderAll rs).length := by
  induction rs using forest_induction with
  | nil => rfl
  | cons m rs rest ih ihr =>
    rw [sizeAll, size, preorderAll, preorder, List.length_append, List.length_cons, ih, ihr]
    omega

theorem sizeAll_eq_sum (rs : List Reference) : sizeAll rs = (rs.map size).sum := by
  induction rs with
  | nil => rfl
  | cons r rs ih => rw [sizeAll, List.map_cons, List.sum_cons, ih]

/-! ### What is shown -/

section Shown

variable {limit : Option Int} {above : List Nat} {index : Nat} {rs : List Reference}

/-- A reference that is shown: where it stands, and the node of the document for it. -/
structure Shown where
  address : List Nat
  reference : Reference
  node : Json

/-- The references of a forest that are shown. The forest is made of the children of an address from
some index on. -/
def shownAll (limit : Option Int) (above : List Nat) (index : Nat) : List Reference → List Shown
  | [] => []
  | .mk m rs :: rest =>
    ⟨above ++ [index], .mk m rs, (view limit above.length (.mk m rs)).toJson⟩ ::
      ((if isLastLevel limit above.length then [] else shownAll limit (above ++ [index]) 0 rs) ++
        shownAll limit above (index + 1) rest)

/-- Below a reference at a depth, the references at an address are shown. -/
def Reaches (limit : Option Int) (depth : Nat) (a : List Nat) : Prop :=
  a = [] ∨ ∀ most ∈ limit, (depth + 1 + a.length : Int) ≤ most

theorem reaches_nil (depth : Nat) : Reaches limit depth [] := Or.inl rfl

/-- What is below a reference on the last level is not shown. -/
theorem reaches_cons {depth i : Nat} {a : List Nat} :
    Reaches limit depth (i :: a) ↔
      isLastLevel limit depth = false ∧ Reaches limit (depth + 1) a := by
  cases limit with
  | none => simp [Reaches, isLastLevel]
  | some most =>
    simp only [Reaches, isLastLevel, reduceCtorEq, false_or, Option.mem_def, Option.some.injEq,
      forall_eq', List.length_cons, decide_eq_false_iff_not, ← List.length_eq_zero_iff]
    omega

/-- An address is that of the first tree, one inside of it, or one in the trees behind it. -/
theorem exists_address_iff {P : Nat → List Nat → Prop} :
    (∃ i a, P i a) ↔ P 0 [] ∨ (∃ i a, P 0 (i :: a)) ∨ ∃ i a, P (i + 1) a := by
  constructor
  · rintro ⟨_ | i, _ | ⟨j, a⟩, h⟩
    · exact Or.inl h
    · exact Or.inr (Or.inl ⟨j, a, h⟩)
    · exact Or.inr (Or.inr ⟨i, [], h⟩)
    · exact Or.inr (Or.inr ⟨i, j :: a, h⟩)
  · rintro (h | ⟨i, a, h⟩ | ⟨i, a, h⟩)
    · exact ⟨0, [], h⟩
    · exact ⟨0, i :: a, h⟩
    · exact ⟨i + 1, a, h⟩

/-- The references that are shown, and where they stand. -/
theorem exists_shown_iff {b : List Nat} {r : Reference} :
    (∃ e ∈ shownAll limit above index rs, e.address = b ∧ e.reference = r) ↔
      ∃ i a, b = above ++ (index + i) :: a ∧ at? children rs (i :: a) = some r ∧
        Reaches limit above.length a := by
  induction rs using forest_induction generalizing above index with
  | nil => simp [shownAll]
  | cons m rs rest ih ihr =>
    rw [shownAll, List.exists_mem_cons_iff, exists_address_iff]
    simp only [List.mem_append, or_and_right, exists_or, ihr]
    -- the tree itself, what is below it, and the trees behind it
    refine or_congr ?_ (or_congr ?_ ?_)
    · simp [at?, reaches_nil, eq_comm]
    · simp only [at?_cons_zero, reaches_cons]
      cases isLastLevel limit above.length with
      | true => simp
      | false =>
        rw [if_neg (by simp), ih]
        simp [children]
    · simp only [at?_cons_succ, Nat.add_right_comm index, ← Nat.add_assoc]

/-- The node of a reference is the view of it at its depth. -/
theorem node_of_mem_shownAll {e : Shown} (he : e ∈ shownAll limit above index rs) :
    ∃ i a, e.address = above ++ i :: a ∧
      e.node = (view limit (above.length + a.length : Nat) e.reference).toJson := by
  induction rs using forest_induction generalizing above index with
  | nil => simp [shownAll] at he
  | cons m rs rest ih ihr =>
    rw [shownAll, List.mem_cons, List.mem_append] at he
    rcases he with rfl | he | he
    · exact ⟨index, [], rfl, rfl⟩
    · split at he
      · cases he
      · obtain ⟨i, a, ha, hn⟩ := ih he
        have hdepth : (above ++ [index]).length + a.length = above.length + (i :: a).length := by
          rw [List.length_append, List.length_singleton, List.length_cons]
          omega
        exact ⟨index, i :: a, by simp [ha], hdepth ▸ hn⟩
    · exact ihr he

/-- They come in the order of their addresses. -/
theorem pairwise_shownAll :
    (shownAll limit above index rs).Pairwise fun e e' => e.address < e'.address := by
  induction rs using forest_induction generalizing above index with
  | nil => simp [shownAll]
  | cons m rs rest ih ihr =>
    have hbelow : ∀ e ∈ (if isLastLevel limit above.length then [] else
        shownAll limit (above ++ [index]) 0 rs), ∃ i a, e.address = above ++ index :: i :: a := by
      intro e he
      split at he
      · cases he
      · obtain ⟨i, a, ha, _⟩ := exists_shown_iff.mp ⟨e, he, rfl, rfl⟩
        exact ⟨0 + i, a, by rw [ha, List.append_assoc]; rfl⟩
    have hbehind : ∀ e ∈ shownAll limit above (index + 1) rest,
        ∃ i a, index < i ∧ e.address = above ++ i :: a := by
      intro e he
      obtain ⟨i, a, ha, _⟩ := exists_shown_iff.mp ⟨e, he, rfl, rfl⟩
      exact ⟨index + 1 + i, a, by omega, ha⟩
    rw [shownAll, List.pairwise_cons, List.pairwise_append]
    refine ⟨fun e he => ?_, ?_, ihr, fun e he e' he' => ?_⟩
    · rcases List.mem_append.mp he with he | he
      · obtain ⟨i, a, ha⟩ := hbelow e he
        rw [ha]
        exact List.Lex.append_left _ (.cons .nil) above
      · obtain ⟨i, a, hi, ha⟩ := hbehind e he
        rw [ha]
        exact List.Lex.append_left _ (.rel hi) above
    · split
      · exact List.Pairwise.nil
      · exact ih
    · obtain ⟨i, a, ha⟩ := hbelow e he
      obtain ⟨j, b, hj, hb⟩ := hbehind e' he'
      rw [ha, hb]
      exact List.Lex.append_left _ (.rel hj) above

/-! ### The document -/

theorem entriesOf_toJson (depth : Int) (m : Mention) :
    entriesOf (view limit depth (.mk m rs)).toJson "children" =
      if isLastLevel limit depth then []
      else ReferenceView.toJsonAll (viewAll limit (depth + 1) rs) := by
  simp only [view, ReferenceView.toJson, entriesOf, memberOf, Json.member?]
  cases isLastLevel limit depth <;> simp [Json.items?, ReferenceView.toJsonAll]

/-- The nodes of the document in pre-order are those of the references that are shown. -/
theorem preorder_toJsonAll :
    Preorder (entriesOf · "children") (ReferenceView.toJsonAll (viewAll limit above.length rs))
      ((shownAll limit above index rs).map Shown.node) := by
  induction rs using forest_induction generalizing above index with
  | nil =>
    rw [shownAll]
    exact .nil
  | cons m rs rest ih ihr =>
    rw [viewAll, ReferenceView.toJsonAll, shownAll, List.map_cons, List.map_append]
    refine .cons ?_ ihr
    rw [entriesOf_toJson]
    split
    · exact .nil
    · simpa using @ih (above ++ [index]) 0

namespace Shown

/-- The node marks the reference as truncated. -/
def isTruncated (e : Shown) : Bool :=
  match memberOf e.node "truncated" with
  | some (.bool b) => b
  | _ => false

/-- The number of references below. -/
def descendants (e : Shown) : Nat := (preorderAll e.reference.children).length

/-- The number of references below that are left out. -/
def hidden (e : Shown) : Nat := if e.isTruncated then e.descendants else 0

end Shown

theorem isTruncated_view (depth : Int) (address : List Nat) (m : Mention) :
    (⟨address, .mk m rs, (view limit depth (.mk m rs)).toJson⟩ : Shown).isTruncated =
      (isLastLevel limit depth && !rs.isEmpty) := by
  simp [Shown.isTruncated, view, ReferenceView.toJson, memberOf, Json.member?]

/-- Every reference is shown or counted among those that are left out. -/
theorem length_shownAll_add_hidden : (shownAll limit above index rs).length +
    ((shownAll limit above index rs).map Shown.hidden).sum = sizeAll rs := by
  induction rs using forest_induction generalizing above index with
  | nil => simp [shownAll, sizeAll]
  | cons m rs rest ih ihr =>
    have hrest := @ihr above (index + 1)
    have hrs := @ih (above ++ [index]) 0
    have hlength := sizeAll_eq_length rs
    rw [shownAll, sizeAll, size]
    simp only [List.length_cons, List.length_append, List.map_cons, List.map_append, List.sum_cons,
      List.sum_append, Shown.hidden, isTruncated_view, Shown.descendants, children]
    cases isLastLevel limit above.length with
    | false => simp only [Bool.false_and, Bool.false_eq_true, if_false]; omega
    | true =>
      -- nothing below is shown, and the count of a truncated node stands for it
      cases rs with
      | nil => simp [sizeAll]; omega
      | cons r rs => simp; omega

/-! ### The lines -/

/-- For each reference above, whether it has a later neighbour. -/
def guidesAt (rs : List Reference) (above : List Nat) : List Bool :=
  (List.range above.length).map fun i => hasLater children rs (above.take (i + 1))

theorem guidesAt_concat (rs : List Reference) (above : List Nat) (index : Nat) :
    guidesAt rs (above ++ [index]) =
      guidesAt rs above ++ [hasLater children rs (above ++ [index])] := by
  have htake : ∀ i ∈ List.range above.length,
      hasLater children rs ((above ++ [index]).take (i + 1)) =
        hasLater children rs (above.take (i + 1)) := by
    intro i hi
    rw [List.take_append_of_le_length (List.mem_range.mp hi)]
  rw [guidesAt, List.length_append, List.length_singleton, List.range_succ, List.map_append,
    List.map_congr_left htake, List.map_singleton, List.take_of_length_le (by simp)]
  rfl

/-- The forest below an address of another one, from some index on. -/
def StandsAt (top : List Reference) (above : List Nat) (index : Nat) (rs : List Reference) : Prop :=
  ∀ i a, at? children top (above ++ (index + i) :: a) = at? children rs (i :: a)

namespace StandsAt

variable {top rs rest : List Reference} {above : List Nat} {index : Nat} {m : Mention}

theorem below (h : StandsAt top above index (.mk m rs :: rest)) :
    StandsAt top (above ++ [index]) 0 rs := by
  intro i a
  rw [List.append_assoc, List.singleton_append, Nat.zero_add, ← Nat.add_zero index, h 0,
    at?_cons_zero]
  rfl

theorem behind (h : StandsAt top above index (.mk m rs :: rest)) :
    StandsAt top above (index + 1) rest := by
  intro i a
  rw [Nat.add_right_comm, Nat.add_assoc, h (i + 1), at?_cons_succ]

theorem hasLater_eq (h : StandsAt top above index (.mk m rs :: rest)) :
    hasLater children top (above ++ [index]) = !rest.isEmpty := by
  rw [hasLater, next_concat, h 1 [], at?_cons_succ]
  cases rest <;> rfl

end StandsAt

/-- The lines of a reference that is shown. -/
def Shown.lines (rs : List Reference) (e : Shown) : List TreeLine :=
  .reference (guidesAt rs e.address.dropLast) (!hasLater children rs e.address) e.reference ::
    if e.isTruncated then [.more (guidesAt rs e.address) e.descendants] else []

theorem linesAll_eq {top : List Reference} (h : StandsAt top above index rs) :
    linesAll limit (guidesAt top above) above.length rs =
      (shownAll limit above index rs).flatMap (Shown.lines top) := by
  induction rs using forest_induction generalizing above index with
  | nil => rw [linesAll, shownAll, List.flatMap_nil]
  | cons m rs rest ih ihr =>
    -- the guides of the lines below end with one for the reference itself
    have hbelow := ih h.below
    rw [guidesAt_concat, h.hasLater_eq] at hbelow
    rw [linesAll, lines, shownAll, List.flatMap_cons, List.flatMap_append, ihr h.behind]
    simp only [Shown.lines, List.dropLast_concat, isTruncated_view, guidesAt_concat, h.hasLater_eq,
      Shown.descendants, children, ← sizeAll_eq_length, Bool.not_not]
    cases isLastLevel limit above.length with
    | true => cases rs <;> simp
    | false => simpa using hbelow

/-- What stands in front of the lines below an address: for each reference above, a line if it has a
later neighbour and a blank otherwise. -/
def margin (base : String) (rs : List Reference) (above : List Nat) : String :=
  base ++ String.join ((List.range above.length).map fun i =>
    if hasLater children rs (above.take (i + 1)) then "│  " else "   ")

theorem margin_eq (base : String) (rs : List Reference) (above : List Nat) :
    margin base rs above = base ++ TreeLine.guideText (guidesAt rs above) := by
  rw [margin, TreeLine.guideText, guidesAt, List.map_map]
  rfl

/-- The texts of a reference that is shown. Its own line has a branch, its label, the file and the
place, and the number of the declaration unless it is the first. A second line tells how many
references are left out if the node marks it as truncated. -/
def Shown.texts (base : String) (rs : List Reference) (e : Shown) : List String :=
  (margin base rs e.address.dropLast ++
      (if hasLater children rs e.address then "├─" else "└─") ++
      " [" ++ (if e.reference.isImport then "magenta" else "cyan") ++ "]" ++
      e.reference.label.shown ++ "[/] [dim]" ++ e.reference.mention.file.name.shown ++ ":" ++
      e.reference.mention.node.start.shown ++ "[/]" ++
      (if e.reference.mention.declarationIndex = 0 then ""
        else " [dim]#" ++ toString e.reference.mention.declarationIndex ++ "[/]")) ::
    if e.isTruncated then
      [margin base rs e.address ++ "[dim]… " ++ toString e.descendants ++ " more[/]"]
    else []

theorem map_text_lines (base : String) (rs : List Reference) (e : Shown) :
    (e.lines rs).map (TreeLine.text base) = e.texts base rs := by
  have hbranch : (if !hasLater children rs e.address then "└─" else "├─") =
      if hasLater children rs e.address then "├─" else "└─" := by
    cases hasLater children rs e.address <;> rfl
  unfold Shown.lines Shown.texts
  cases e.isTruncated <;>
    simp only [List.map_cons, List.map_nil, TreeLine.text, margin_eq, hbranch, ↓reduceIte,
      Bool.false_eq_true]

/-! ### Both together -/

/-- So many levels are shown, counted from the top. The first one always is. -/
def Within (limit : Option Int) (levels : Nat) : Prop := ∀ most ∈ limit, (levels : Int) ≤ max most 1

theorem reaches_zero_iff {a : List Nat} :
    Reaches limit 0 a ↔ Within limit (a.length + 1) := by
  cases limit with
  | none => simp [Reaches, Within]
  | some most =>
    simp only [Reaches, Within, Option.mem_def, Option.some.injEq, forall_eq',
      ← List.length_eq_zero_iff]
    omega

theorem isLastLevel_iff {depth : Nat} :
    isLastLevel limit depth = true ↔ ¬Within limit (depth + 2) := by
  cases limit with
  | none => simp [isLastLevel, Within]
  | some most =>
    simp only [isLastLevel, Within, decide_eq_true_eq, Option.mem_def, Option.some.injEq,
      forall_eq']
    omega

/-- The node of the document says what the reference is and at which depth it stands. It is marked
as truncated if there are references below it, and they are not shown. -/
structure Shown.Describes (limit : Option Int) (e : Shown) : Prop where
  name : memberOf e.node "name" = some e.reference.label
  kind : memberOf e.node "kind" =
    some (.str (if e.reference.isImport then "import_type" else "identifier"))
  declarationIndex : memberOf e.node "declaration_index" =
    some (.int e.reference.mention.declarationIndex)
  file : memberOf e.node "file" = some e.reference.mention.file.name.value
  start : memberOf e.node "start" = some e.reference.mention.node.start
  depth : memberOf e.node "depth" = some (.int e.address.dropLast.length)
  truncated : memberOf e.node "truncated" = some (.bool e.isTruncated)
  truncated_iff : e.isTruncated = true ↔
    e.reference.children ≠ [] ∧ ¬Within limit (e.address.length + 1)

theorem describes_of_mem {e : Shown} (he : e ∈ shownAll limit [] 0 rs) : e.Describes limit := by
  obtain ⟨i, a, ha, hn⟩ := node_of_mem_shownAll he
  obtain ⟨address, ⟨m, below⟩, node⟩ := e
  obtain rfl : address = i :: a := ha
  obtain rfl : node = (view limit a.length (.mk m below)).toJson := by simpa using hn
  have hdepth : (i :: a).dropLast.length = a.length := by simp
  have htruncated := @isTruncated_view limit below a.length (i :: a) m
  refine ⟨rfl, rfl, rfl, rfl, rfl, ?_, ?_, ?_⟩
  · rw [hdepth]
    rfl
  · rw [htruncated]
    rfl
  · rw [htruncated, Bool.and_eq_true, isLastLevel_iff, and_comm]
    simp [children]

end Shown

/-- The lines of reference trees and the document show the same references: those at the addresses
within the limit, in the order of the addresses, which is the pre-order of the document. A line is
indented by what is above it. Behind a reference that the document marks as truncated, a line tells
how many references are below it, so that every reference is shown or counted. -/
theorem draw_agrees (limit : Option Int) (base : String) (rs : List Reference) :
    ∃ shown : List Shown, shown.Pairwise (fun e e' => e.address < e'.address) ∧
      (∀ a r, (∃ e ∈ shown, e.address = a ∧ e.reference = r) ↔
        at? children rs a = some r ∧ Within limit a.length) ∧
      (∃ items, toJsonAll limit rs = .arr items ∧
        Preorder (entriesOf · "children") items (shown.map Shown.node)) ∧
      (∀ e ∈ shown, e.Describes limit) ∧
      draw limit base rs = shown.flatMap (Shown.texts base rs) ∧
      shown.length + (shown.map Shown.hidden).sum = (rs.map size).sum := by
  refine ⟨shownAll limit [] 0 rs, pairwise_shownAll, fun a r => ?_,
    ⟨_, rfl, @preorder_toJsonAll limit [] 0 rs⟩, fun e he => describes_of_mem he, ?_, ?_⟩
  · rw [exists_shown_iff]
    simp only [List.nil_append, Nat.zero_add, List.length_nil, reaches_zero_iff]
    constructor
    · rintro ⟨i, a, rfl, h⟩
      exact h
    · rintro ⟨hr, hw⟩
      cases a with
      | nil => simp [at?] at hr
      | cons i a => exact ⟨i, a, rfl, hr, hw⟩
  · have htop : StandsAt rs [] 0 rs := fun i a => by simp
    rw [draw, show linesAll limit [] 0 rs = _ from linesAll_eq htop, List.map_flatMap]
    simp only [map_text_lines]
  · rw [length_shownAll_add_hidden, sizeAll_eq_sum]

end Reference

end ApiSurface
