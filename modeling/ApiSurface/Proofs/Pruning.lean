import ApiSurface.Proofs.Drawing

/-! A limit of levels prunes the document of a reference tree. What is shown within a limit is the
whole document without the nodes that are too deep, in which those on the last level are marked as
truncated if something was below them. So a smaller limit can be applied to what a larger one has
left. -/

namespace ApiSurface

/-! ### Levels of forests -/

namespace Forest

variable {α : Type} {children : α → List α}

/-- What stands at a depth of a forest. -/
def level (children : α → List α) : Nat → List α → List α
  | 0, l => l
  | depth + 1, l => level children depth (l.flatMap children)

@[simp] theorem level_nil (depth : Nat) : level children depth [] = [] := by
  induction depth with
  | zero => rfl
  | succ depth ih => exact ih

end Forest

namespace Reference

open Forest

mutual

/-- The number of levels of a tree. -/
def height : Reference → Nat
  | .mk _ rs => 1 + heightAll rs

def heightAll : List Reference → Nat
  | [] => 0
  | r :: rs => max (height r) (heightAll rs)

end

theorem heightAll_append (rs more : List Reference) :
    heightAll (rs ++ more) = max (heightAll rs) (heightAll more) := by
  induction rs with
  | nil => simp [heightAll]
  | cons r rs ih => rw [List.cons_append, heightAll, heightAll, ih, Nat.max_assoc]

/-- Without its first level a forest has one level less. -/
theorem heightAll_eq_succ {rs : List Reference} (h : rs ≠ []) :
    heightAll rs = heightAll (rs.flatMap children) + 1 := by
  induction rs with
  | nil => exact absurd rfl h
  | cons r rs ih =>
    obtain ⟨m, below⟩ := r
    rw [List.flatMap_cons, heightAll_append, heightAll, height, children]
    cases rs with
    | nil => simp [heightAll]; omega
    | cons r rs =>
      rw [ih (List.cons_ne_nil r rs)]
      omega

/-- There is something on each level up to the height, and nothing below. -/
theorem level_ne_nil_iff {depth : Nat} {rs : List Reference} :
    level children depth rs ≠ [] ↔ depth < heightAll rs := by
  induction depth generalizing rs with
  | zero =>
    by_cases h : rs = []
    · simp [h, level, heightAll]
    · simp [h, level, heightAll_eq_succ h]
  | succ depth ih =>
    by_cases h : rs = []
    · simp [h, heightAll]
    · rw [level, ih, heightAll_eq_succ h]
      omega

end Reference

/-! ### Views -/

namespace ReferenceView

def head : ReferenceView → ReferenceHead
  | .mk head _ => head

def children : ReferenceView → List ReferenceView
  | .mk _ children => children

mutual

/-- Leave out every node below the root that is as deep as a limit, with all that is below it. -/
def prune (limit : Int) : ReferenceView → ReferenceView
  | .mk head children => .mk head (pruneAll limit children)

def pruneAll (limit : Int) : List ReferenceView → List ReferenceView
  | [] => []
  | v :: vs =>
    if v.head.depth < limit then prune limit v :: pruneAll limit vs else pruneAll limit vs

end

mutual

/-- Mark exactly the nodes as truncated that satisfy a test. -/
def flag (test : ReferenceHead → List ReferenceView → Bool) : ReferenceView → ReferenceView
  | .mk head children => .mk { head with truncated := test head children } (flagAll test children)

def flagAll (test : ReferenceHead → List ReferenceView → Bool) :
    List ReferenceView → List ReferenceView
  | [] => []
  | v :: vs => flag test v :: flagAll test vs

end

/-- Mark no node as truncated. -/
def unflag : ReferenceView → ReferenceView := flag fun _ _ => false

/-- A node on the last level above a limit with something below it. -/
def isCut (limit : Int) (head : ReferenceHead) (children : List ReferenceView) : Bool :=
  head.depth = limit - 1 && !children.isEmpty

/-- Induction over forests of views. -/
@[elab_as_elim]
theorem view_induction {motive : List ReferenceView → Prop} (nil : motive [])
    (cons : ∀ head below vs, motive below → motive vs → motive (.mk head below :: vs)) :
    ∀ vs, motive vs
  | [] => nil
  | .mk head below :: vs =>
    cons head below vs (view_induction nil cons below) (view_induction nil cons vs)

/-- Of two limits the smaller one counts. -/
theorem pruneAll_pruneAll {m n : Int} (h : m ≤ n) (vs : List ReferenceView) :
    pruneAll m (pruneAll n vs) = pruneAll m vs := by
  induction vs using view_induction with
  | nil => rfl
  | cons head below vs ihb ih =>
    by_cases hn : head.depth < n
    · by_cases hm : head.depth < m <;> simp [pruneAll, prune, ReferenceView.head, hn, hm, ihb, ih]
    · have hm : ¬head.depth < m := by omega
      simp [pruneAll, ReferenceView.head, hn, hm, ih]

/-- Marks do not matter to what is left out. -/
theorem flagAll_pruneAll (limit : Int) (vs : List ReferenceView) :
    flagAll (fun _ _ => false) (pruneAll limit vs) =
      pruneAll limit (flagAll (fun _ _ => false) vs) := by
  induction vs using view_induction with
  | nil => rfl
  | cons head below vs ihb ih =>
    by_cases h : head.depth < limit <;>
      simp [pruneAll, prune, flagAll, flag, ReferenceView.head, h, ihb, ih]

/-- Marks are replaced. -/
theorem flagAll_flagAll (test : ReferenceHead → List ReferenceView → Bool)
    (vs : List ReferenceView) :
    flagAll (fun _ _ => false) (flagAll test vs) = flagAll (fun _ _ => false) vs := by
  induction vs using view_induction with
  | nil => rfl
  | cons head below vs ihb ih => simp [flagAll, flag, ihb, ih]

theorem prune_prune {m n : Int} (h : m ≤ n) : (v : ReferenceView) →
    (v.prune n).prune m = v.prune m
  | .mk head below => by rw [prune, prune, prune, pruneAll_pruneAll h]

theorem unflag_prune (limit : Int) : (v : ReferenceView) →
    (v.prune limit).unflag = v.unflag.prune limit
  | .mk head below => by rw [unflag, prune, flag, flagAll_pruneAll, flag, prune]

theorem unflag_flag (test : ReferenceHead → List ReferenceView → Bool) : (v : ReferenceView) →
    (v.flag test).unflag = v.unflag
  | .mk head below => by rw [unflag, flag, flag, flagAll_flagAll, flag]

end ReferenceView

/-! ### Views within a limit -/

namespace Reference

open Forest ReferenceView

variable {limit : Option Int} {n depth : Int}

/-- What is shown of a mention at a depth, apart from what is below it. -/
def headOf (m : Mention) (depth : Int) (truncated : Bool) : ReferenceHead :=
  { name := m.node.label, isImport := m.node.kind = .importType
    declarationIndex := m.declarationIndex, file := m.file.name, start := m.node.start
    depth, truncated }

theorem view_mk (limit : Option Int) (depth : Int) (m : Mention) (rs : List Reference) :
    view limit depth (.mk m rs) =
      .mk (headOf m depth (isLastLevel limit depth && !rs.isEmpty))
        (if isLastLevel limit depth then [] else viewAll limit (depth + 1) rs) :=
  rfl

/-- The view of a mention with new marks. -/
theorem flag_mk (limit : Int) (m : Mention) (depth : Int) (truncated : Bool)
    (vs : List ReferenceView) : flag (isCut limit) (.mk (headOf m depth truncated) vs) =
      .mk (headOf m depth (depth = limit - 1 && !vs.isEmpty)) (flagAll (isCut limit) vs) :=
  rfl

theorem pruneAll_cons (limit : Int) (m : Mention) (depth : Int) (truncated : Bool)
    (below vs : List ReferenceView) :
    pruneAll limit (.mk (headOf m depth truncated) below :: vs) =
      if depth < limit then
        .mk (headOf m depth truncated) (pruneAll limit below) :: pruneAll limit vs
      else pruneAll limit vs := by
  rw [pruneAll, prune]
  rfl

theorem viewAll_eq_map (limit : Option Int) (depth : Int) (rs : List Reference) :
    viewAll limit depth rs = rs.map (view limit depth) := by
  induction rs with
  | nil => rfl
  | cons r rs ih => rw [viewAll, ih, List.map_cons]

@[simp] theorem depth_view (r : Reference) : (view limit depth r).head.depth = depth := by
  obtain ⟨m, rs⟩ := r
  rfl

/-- A limit below one shows as much as one. -/
theorem isLastLevel_some_iff (h : 0 ≤ depth) :
    isLastLevel (some n) depth = true ↔ max n 1 ≤ depth + 1 := by
  simp only [isLastLevel, decide_eq_true_eq]
  omega

/-- The views of the references at a depth are what is left of those without a limit. -/
theorem pruneAll_flagAll_viewAll (h : 0 ≤ depth) (rs : List Reference) :
    pruneAll (max n 1) (flagAll (isCut (max n 1)) (viewAll none depth rs)) =
      if depth < max n 1 then viewAll (some n) depth rs else [] := by
  induction rs using forest_induction generalizing depth with
  | nil => simp [viewAll, flagAll, pruneAll]
  | cons m rs rest ihb ih =>
    have hnone : isLastLevel none depth = false := rfl
    have hempty : (viewAll none (depth + 1) rs).isEmpty = rs.isEmpty := by
      rw [viewAll_eq_map, List.isEmpty_map]
    rw [viewAll, view_mk, hnone, if_neg Bool.false_ne_true, flagAll, flag_mk, hempty,
      pruneAll_cons, ih h]
    by_cases hd : depth < max n 1
    · -- the tree is shown, and it is on the last level if the limit is the next depth
      have hlast : isLastLevel (some n) depth = decide (depth = max n 1 - 1) := by
        rw [Bool.eq_iff_iff, isLastLevel_some_iff h, decide_eq_true_eq]
        omega
      rw [if_pos hd, if_pos hd, if_pos hd, viewAll, view_mk, hlast, ihb (by omega)]
      by_cases he : depth = max n 1 - 1
      · rw [if_neg (by omega), if_pos (by simpa using he)]
      · rw [if_pos (by omega), if_neg (by simpa using he)]
    · rw [if_neg hd, if_neg hd, if_neg hd]

theorem view_eq_prune (n : Int) (r : Reference) :
    r.view (some n) 0 = ((r.view none 0).flag (isCut (max n 1))).prune (max n 1) := by
  have hd : (0 : Int) < max n 1 := by omega
  have hr := pruneAll_flagAll_viewAll (n := n) (Int.le_refl 0) [r]
  obtain ⟨m, rs⟩ := r
  rw [if_pos hd, viewAll_eq_map, viewAll_eq_map, List.map_singleton, List.map_singleton,
    view_mk none, flagAll, flagAll, flag_mk, pruneAll_cons, if_pos hd] at hr
  exact (List.cons.inj hr).1.symm

/-- The next level of views, which there is none of below the last level. -/
theorem flatMap_children_viewAll (limit : Option Int) (depth : Int) (rs : List Reference) :
    (viewAll limit depth rs).flatMap ReferenceView.children =
      if isLastLevel limit depth then [] else viewAll limit (depth + 1) (rs.flatMap children) := by
  induction rs with
  | nil => simp [viewAll]
  | cons r rs ih =>
    obtain ⟨m, below⟩ := r
    rw [viewAll, view, List.flatMap_cons, ih, List.flatMap_cons]
    simp only [ReferenceView.children, children]
    cases isLastLevel limit depth <;> simp [viewAll_eq_map]

/-- Each level of the document that is shown is made of the references on that level. -/
theorem level_viewAll (limit : Option Int) (start : Nat) (depth : Nat) (rs : List Reference) :
    level ReferenceView.children depth (viewAll limit start rs) =
      if ∀ i < depth, isLastLevel limit (start + i : Nat) = false then
        viewAll limit (start + depth : Nat) (level children depth rs)
      else [] := by
  induction depth generalizing start rs with
  | zero => simp [level]
  | succ depth ih =>
    have hstep (i : Nat) : start + 1 + i = start + (i + 1) := by omega
    rw [level, level, flatMap_children_viewAll]
    by_cases hlast : isLastLevel limit start = true
    · rw [if_pos hlast, level_nil, if_neg]
      intro h
      simpa [hlast] using h 0 (by omega)
    · have ih := ih (start + 1) (rs.flatMap children)
      simp only [hstep] at ih
      rw [if_neg hlast, show ((start : Int) + 1) = ((start + 1 : Nat) : Int) by omega, ih]
      congr 1
      rw [eq_iff_iff]
      constructor
      · rintro h (_ | i) hi
        · simpa using hlast
        · exact h i (by omega)
      · exact fun h i hi => h (i + 1) (by omega)

/-- The depth of a node is the one at which it stands. -/
theorem depth_of_mem_level {d : Nat} {r : Reference} {v : ReferenceView}
    (h : v ∈ level ReferenceView.children d [r.view limit 0]) : v.head.depth = d := by
  have hlevel := level_viewAll limit 0 d [r]
  rw [viewAll, viewAll] at hlevel
  rw [show ((0 : Nat) : Int) = 0 from rfl, Nat.zero_add] at hlevel
  rw [hlevel] at h
  split at h
  · rw [viewAll_eq_map] at h
    obtain ⟨r', _, rfl⟩ := List.mem_map.mp h
    exact depth_view r'
  · cases h

/-- As many levels are shown as the limit says, if the tree has so many. -/
theorem level_view_ne_nil_iff (hn : 1 ≤ n) (d : Nat) (r : Reference) :
    level ReferenceView.children d [r.view (some n) 0] ≠ [] ↔ (d : Int) < min n r.height := by
  have hlevel := level_viewAll (some n) 0 d [r]
  rw [viewAll, viewAll] at hlevel
  rw [show ((0 : Nat) : Int) = 0 from rfl, Nat.zero_add] at hlevel
  have hheight : level children d [r] ≠ [] ↔ d < r.height := by
    rw [level_ne_nil_iff, heightAll, heightAll, Nat.max_zero]
  have hshown : (∀ i < d, isLastLevel (some n) (0 + i : Nat) = false) ↔ (d : Int) < n := by
    simp only [isLastLevel, decide_eq_false_iff_not, Nat.zero_add]
    constructor
    · intro h
      cases d with
      | zero => omega
      | succ d => have := h d (by omega); omega
    · intro h i hi
      omega
  rw [hlevel]
  simp only [hshown, viewAll_eq_map]
  by_cases hd : (d : Int) < n
  · rw [if_pos hd, ne_eq, List.map_eq_nil_iff, ← ne_eq, hheight]
    omega
  · rw [if_neg hd]
    simp
    omega

/-- What is shown of a reference tree within a limit is the whole document without the nodes at the
depth of the limit and below, in which exactly those on the last level that have references below
them are marked as truncated. At least the first level is shown. A limit of some levels shows so
many, or as many as there are, and from what it shows, apart from the marks, the view within any
smaller limit can be had. -/
theorem view_prunes (n : Int) (r : Reference) :
    r.view (some n) 0 = ((r.view none 0).flag (isCut (max n 1))).prune (max n 1) ∧
      (∀ limit d, ∀ v ∈ level ReferenceView.children d [r.view limit 0], v.head.depth = d) ∧
      (1 ≤ n → ∀ d : Nat, level ReferenceView.children d [r.view (some n) 0] ≠ [] ↔
        (d : Int) < min n r.height) ∧
      ∀ m, 1 ≤ m → m ≤ n →
        ((r.view (some n) 0).prune m).unflag = (r.view (some m) 0).unflag := by
  refine ⟨view_eq_prune n r, fun limit d v => depth_of_mem_level,
    fun hn d => level_view_ne_nil_iff hn d r, fun m hm hmn => ?_⟩
  have hle : m ≤ max n 1 := by omega
  have hmax : max m 1 = m := by omega
  calc ((r.view (some n) 0).prune m).unflag
      = (((r.view none 0).flag (isCut (max n 1))).prune m).unflag := by
        rw [view_eq_prune n, prune_prune hle]
    _ = (r.view none 0).unflag.prune m := by rw [unflag_prune, unflag_flag]
    _ = (((r.view none 0).flag (isCut m)).prune m).unflag := by rw [unflag_prune, unflag_flag]
    _ = (r.view (some m) 0).unflag := by rw [view_eq_prune m, hmax]

/-- A mention without anything special about it. -/
def plainMention : Mention :=
  ⟨0, { id := .node 1, kind := .identifier },
    { name := .ofText "main", tree := .mk { id := .node 0, kind := .sourceFile } [] }⟩

/-- A tree of three levels with two branches. -/
def threeLevels : Reference :=
  .mk plainMention [.mk plainMention [.mk plainMention []], .mk plainMention []]

/-- Two of three levels are shown, and one of these can be had from them. -/
theorem view_prunes_threeLevels : threeLevels.height = 3 ∧
    level ReferenceView.children 1 [threeLevels.view (some 2) 0] ≠ [] ∧
    level ReferenceView.children 2 [threeLevels.view (some 2) 0] = [] ∧
    ((threeLevels.view (some 2) 0).prune 1).unflag = (threeLevels.view (some 1) 0).unflag := by
  obtain ⟨_, _, hlevels, hsmaller⟩ := view_prunes 2 threeLevels
  have hheight : threeLevels.height = 3 := by decide
  rw [hheight] at hlevels
  refine ⟨hheight, (hlevels (by omega) 1).mpr (by decide), ?_, hsmaller 1 (by omega) (by omega)⟩
  exact not_ne_iff.mp fun h => absurd ((hlevels (by omega) 2).mp h) (by decide)

end Reference

end ApiSurface
