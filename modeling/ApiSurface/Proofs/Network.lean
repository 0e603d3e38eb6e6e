import ApiSurface.Walk
import Mathlib.Data.List.Nodup
import Mathlib.Logic.Relation

/-! Walks in depth first over a network: places, and edges that are listed at the place where
they start. An edge may lead nowhere. A walk passes the edges of a place in their order, and
behind an edge to a place that it has not seen it first passes the edges of that place. So it
enters every place that can be reached once, and passes exactly the edges of those places. What
it has finished elsewhere is only left out. -/

namespace ApiSurface

structure Network (ε α : Type) where
  places : List α
  edges : α → List ε
  target : ε → Option α
  target_mem : ∀ {e : ε} {a : α}, target e = some a → a ∈ places

namespace Network

variable {ε α : Type}

/-- An edge of one place leads to another one. -/
def Leads (G : Network ε α) (a b : α) : Prop := ∃ e ∈ G.edges a, G.target e = some b

def Reaches (G : Network ε α) : α → α → Prop := Relation.ReflTransGen G.Leads

variable [DecidableEq α]

/-- The edges that a walk passes in their order, each with the place that it enters over the
edge, if it enters one. -/
def walk (G : Network ε α) (seen : List α) (pending : List ε) : List (ε × Option α) :=
  match pending with
  | [] => []
  | e :: rest =>
    match _h : G.target e with
    | none => (e, none) :: G.walk seen rest
    | some a =>
      if _ : a ∈ seen then (e, none) :: G.walk seen rest
      else (e, some a) :: G.walk (a :: seen) (G.edges a ++ rest)
termination_by (unseen G.places seen, pending.length)
decreasing_by
  · exact Prod.Lex.right _ (by simp)
  · exact Prod.Lex.right _ (by simp)
  · rename_i hs
    exact Prod.Lex.left _ _ (unseen_cons_lt (G.target_mem _h) hs)

def passed (G : Network ε α) (seen : List α) (pending : List ε) : List ε :=
  (G.walk seen pending).map Prod.fst

def entered (G : Network ε α) (seen : List α) (pending : List ε) : List α :=
  (G.walk seen pending).filterMap Prod.snd

/-- The places in the order in which a walk from a place comes to them. -/
def order (G : Network ε α) (a : α) : List α := a :: G.entered [a] (G.edges a)

variable {G : Network ε α}

/-! ### Steps of a walk -/

@[simp] theorem walk_nil (seen : List α) : G.walk seen [] = [] := by
  rw [walk]

/-- An edge that leads nowhere, or to a place that has been seen, is only passed. -/
theorem walk_cons_of_seen {seen : List α} {e : ε} (rest : List ε)
    (h : ∀ a, G.target e = some a → a ∈ seen) :
    G.walk seen (e :: rest) = (e, none) :: G.walk seen rest := by
  rw [walk]
  split
  · rfl
  · rename_i a ha
    rw [dif_pos (h a ha)]

theorem walk_cons_of_notMem {seen : List α} {e : ε} {a : α} (rest : List ε)
    (h : G.target e = some a) (hs : a ∉ seen) :
    G.walk seen (e :: rest) = (e, some a) :: G.walk (a :: seen) (G.edges a ++ rest) := by
  rw [walk]
  split
  · simp_all
  · rename_i b hb
    obtain rfl : a = b := Option.some.inj (h.symm.trans hb)
    rw [dif_neg hs]

/-! ### What a walk passes and enters -/

/-- A walk passes what is pending, and the edges of every place that it enters. -/
theorem passed_perm (seen : List α) (pending : List ε) :
    (G.passed seen pending).Perm (pending ++ (G.entered seen pending).flatMap G.edges) := by
  unfold passed entered
  fun_induction walk G seen pending with
  | case1 => simp
  | case2 seen d rest h ih => simpa using ih
  | case3 seen d rest a h hs ih => simpa using ih
  | case4 seen d rest a h hs ih =>
    simp only [List.map_cons, List.filterMap_cons, List.flatMap_cons, List.cons_append,
      List.perm_cons]
    rw [List.append_assoc] at ih
    exact ih.trans (List.perm_append_comm_assoc ..)

theorem mem_passed {seen : List α} {pending : List ε} {e : ε} :
    e ∈ G.passed seen pending ↔
      e ∈ pending ∨ ∃ a ∈ G.entered seen pending, e ∈ G.edges a := by
  rw [(passed_perm seen pending).mem_iff, List.mem_append, List.mem_flatMap]

theorem nodup_entered (seen : List α) (pending : List ε) :
    (G.entered seen pending).Nodup ∧ ∀ a ∈ G.entered seen pending, a ∉ seen := by
  unfold entered
  fun_induction walk G seen pending with
  | case1 => simp
  | case2 seen d rest h ih => simpa using ih
  | case3 seen d rest a h hs ih => simpa using ih
  | case4 seen d rest a h hs ih =>
    obtain ⟨hn, hd⟩ := ih
    simp only [List.filterMap_cons, List.nodup_cons, List.mem_cons]
    refine ⟨⟨fun ha => hd a ha (List.mem_cons_self ..), hn⟩, ?_⟩
    rintro b (rfl | hb)
    · exact hs
    · exact fun hm => hd b hb (List.mem_cons_of_mem _ hm)

/-- Every place behind an edge that a walk passes is seen in the end. -/
theorem mem_entered_of_target {seen : List α} {pending : List ε} {e : ε} {b : α}
    (he : e ∈ G.passed seen pending) (hb : G.target e = some b) :
    b ∈ seen ∨ b ∈ G.entered seen pending := by
  unfold passed at he
  unfold entered
  fun_induction walk G seen pending with
  | case1 => simp at he
  | case2 seen d rest h ih =>
    rcases List.mem_cons.mp he with rfl | he
    · simp [h] at hb
    · simpa using ih he
  | case3 seen d rest a h hs ih =>
    rcases List.mem_cons.mp he with rfl | he
    · obtain rfl : a = b := Option.some.inj (h.symm.trans hb)
      exact Or.inl hs
    · simpa using ih he
  | case4 seen d rest a h hs ih =>
    rw [List.filterMap_cons, List.mem_cons]
    rcases List.mem_cons.mp he with rfl | he
    · obtain rfl : a = b := Option.some.inj (h.symm.trans hb)
      exact Or.inr (Or.inl rfl)
    · rcases ih he with hm | hm
      · rcases List.mem_cons.mp hm with rfl | hm
        · exact Or.inr (Or.inl rfl)
        · exact Or.inl hm
      · exact Or.inr (Or.inr hm)

/-- A walk comes only to places that can be reached over a pending edge. -/
theorem reaches_of_mem_entered {seen : List α} {pending : List ε} {b : α}
    (hb : b ∈ G.entered seen pending) :
    ∃ e ∈ pending, ∃ a, G.target e = some a ∧ G.Reaches a b := by
  unfold entered at hb
  fun_induction walk G seen pending with
  | case1 => simp at hb
  | case2 seen d rest h ih =>
    obtain ⟨e, he, ha⟩ := ih hb
    exact ⟨e, List.mem_cons_of_mem _ he, ha⟩
  | case3 seen d rest a h hs ih =>
    obtain ⟨e, he, ha⟩ := ih hb
    exact ⟨e, List.mem_cons_of_mem _ he, ha⟩
  | case4 seen d rest a h hs ih =>
    rcases List.mem_cons.mp hb with rfl | hb
    · exact ⟨d, List.mem_cons_self .., b, h, Relation.ReflTransGen.refl⟩
    · obtain ⟨e, he, c, hc, hr⟩ := ih hb
      rcases List.mem_append.mp he with he | he
      · exact ⟨d, List.mem_cons_self .., a, h, Relation.ReflTransGen.head ⟨e, he, hc⟩ hr⟩
      · exact ⟨e, List.mem_cons_of_mem _ he, c, hc, hr⟩

/-- A walk takes its pending edges one after the other. -/
theorem walk_append (seen : List α) (pending more : List ε) :
    G.walk seen (pending ++ more) =
      G.walk seen pending ++ G.walk ((G.entered seen pending).reverse ++ seen) more := by
  unfold entered
  fun_induction walk G seen pending with
  | case1 => simp
  | case2 seen d rest h ih =>
    rw [List.cons_append, walk_cons_of_seen _ (by simp [h]), ih]
    simp
  | case3 seen d rest a h hs ih =>
    rw [List.cons_append, walk_cons_of_seen _ (by simpa [h] using hs), ih]
    simp
  | case4 seen d rest a h hs ih =>
    rw [List.cons_append, walk_cons_of_notMem _ h hs, ← List.append_assoc, ih]
    simp

/-- What a walk has seen counts only as far as edges lead there. -/
theorem walk_congr {seen seen' : List α} (pending : List ε)
    (h : ∀ e a, G.target e = some a → (a ∈ seen ↔ a ∈ seen')) :
    G.walk seen pending = G.walk seen' pending := by
  fun_induction walk G seen pending generalizing seen' with
  | case1 => rw [walk_nil]
  | case2 seen d rest hd ih => rw [walk_cons_of_seen _ (by simp [hd]), ih h]
  | case3 seen d rest a hd hs ih =>
    rw [walk_cons_of_seen _ (by simpa [hd] using (h d a hd).mp hs), ih h]
  | case4 seen d rest a hd hs ih =>
    rw [walk_cons_of_notMem _ hd fun hm => hs ((h d a hd).mpr hm), ih]
    intro e b he
    rw [List.mem_cons, List.mem_cons, h e b he]

/-! ### Finished places -/

section Finished

variable {seen seen' : List α} {pending : List ε}

theorem entered_cons_of_seen {e : ε} (rest : List ε) (h : ∀ a, G.target e = some a → a ∈ seen) :
    G.entered seen (e :: rest) = G.entered seen rest := by
  rw [entered, walk_cons_of_seen rest h, List.filterMap_cons]
  rfl

theorem entered_cons_of_notMem {e : ε} {a : α} (rest : List ε) (h : G.target e = some a)
    (hs : a ∉ seen) :
    G.entered seen (e :: rest) = a :: G.entered (a :: seen) (G.edges a ++ rest) := by
  rw [entered, walk_cons_of_notMem rest h hs, List.filterMap_cons]
  rfl

theorem passed_cons_of_seen {e : ε} (rest : List ε) (h : ∀ a, G.target e = some a → a ∈ seen) :
    G.passed seen (e :: rest) = e :: G.passed seen rest := by
  rw [passed, walk_cons_of_seen rest h, List.map_cons]
  rfl

theorem passed_cons_of_notMem {e : ε} {a : α} (rest : List ε) (h : G.target e = some a)
    (hs : a ∉ seen) :
    G.passed seen (e :: rest) = e :: G.passed (a :: seen) (G.edges a ++ rest) := by
  rw [passed, walk_cons_of_notMem rest h hs, List.map_cons]
  rfl

theorem passed_cons (G : Network ε α) (seen : List α) (e : ε) (rest : List ε) :
    ∃ more, G.passed seen (e :: rest) = e :: more := by
  by_cases h : ∀ a, G.target e = some a → a ∈ seen
  · exact ⟨_, passed_cons_of_seen rest h⟩
  · push Not at h
    obtain ⟨a, ha, hs⟩ := h
    exact ⟨_, passed_cons_of_notMem rest ha hs⟩

theorem entered_append (seen : List α) (pending more : List ε) :
    G.entered seen (pending ++ more) =
      G.entered seen pending ++ G.entered ((G.entered seen pending).reverse ++ seen) more := by
  rw [entered, walk_append, List.filterMap_append]
  rfl

theorem passed_append (seen : List α) (pending more : List ε) :
    G.passed seen (pending ++ more) =
      G.passed seen pending ++ G.passed ((G.entered seen pending).reverse ++ seen) more := by
  rw [passed, walk_append, List.map_append]
  rfl

/-- All edges of a place lead to places that have been seen. -/
def Finished (G : Network ε α) (seen : List α) (a : α) : Prop :=
  ∀ e ∈ G.edges a, ∀ b, G.target e = some b → b ∈ seen

omit [DecidableEq α] in
theorem Finished.mono {a : α} (h : G.Finished seen a) (hsub : seen ⊆ seen') :
    G.Finished seen' a :=
  fun e he b hb => hsub (h e he b hb)

omit [DecidableEq α] in
theorem Finished.cons {a : α} (h : G.Finished seen a) (b : α) : G.Finished (b :: seen) a :=
  h.mono (List.subset_cons_self b seen)

/-- Edges to places that have been seen are only passed. -/
theorem walk_append_of_finished {a : α} (h : G.Finished seen a) (rest : List ε) :
    G.entered seen (G.edges a ++ rest) = G.entered seen rest ∧
      G.passed seen (G.edges a ++ rest) = G.edges a ++ G.passed seen rest := by
  have key : ∀ edges : List ε, (∀ e ∈ edges, ∀ b, G.target e = some b → b ∈ seen) →
      G.entered seen (edges ++ rest) = G.entered seen rest ∧
        G.passed seen (edges ++ rest) = edges ++ G.passed seen rest := by
    intro edges hedges
    induction edges with
    | nil => exact ⟨rfl, rfl⟩
    | cons e edges ih =>
      obtain ⟨he, hedges⟩ := List.forall_mem_cons.mp hedges
      obtain ⟨hentered, hpassed⟩ := ih hedges
      rw [List.cons_append, entered_cons_of_seen _ he, passed_cons_of_seen _ he, hpassed]
      exact ⟨hentered, rfl⟩
  exact key (G.edges a) h

/-- Places that are finished when a walk sets out are only left out of what it enters. Only
those count that are within reach of the walk. -/
theorem entered_of_finished {R : α → Prop} (hsub : seen ⊆ seen')
    (hp : ∀ e ∈ pending, ∀ a, G.target e = some a → R a)
    (hR : ∀ a, R a → ∀ e ∈ G.edges a, ∀ b, G.target e = some b → R b)
    (hf : ∀ a ∈ seen', a ∉ seen → R a → G.Finished seen' a) :
    G.entered seen' pending = (G.entered seen pending).filter (· ∉ seen') := by
  fun_induction walk G seen pending generalizing seen' with
  | case1 => simp [entered]
  | case2 seen d rest h ih =>
    rw [entered_cons_of_seen _ (by simp [h]), entered_cons_of_seen _ (by simp [h])]
    exact ih hsub (fun e he => hp e (List.mem_cons_of_mem _ he)) hf
  | case3 seen d rest a h hs ih =>
    rw [entered_cons_of_seen _ (by simpa [h] using hsub hs),
      entered_cons_of_seen _ (by simpa [h] using hs)]
    exact ih hsub (fun e he => hp e (List.mem_cons_of_mem _ he)) hf
  | case4 seen d rest a h hs ih =>
    have ha := hp d (List.mem_cons_self ..) a h
    have hp : ∀ e ∈ G.edges a ++ rest, ∀ b, G.target e = some b → R b :=
      List.forall_mem_append.mpr ⟨hR a ha, fun e he => hp e (List.mem_cons_of_mem _ he)⟩
    rw [entered_cons_of_notMem rest h hs]
    by_cases hs' : a ∈ seen'
    · -- the longer walk only passes the edges of the place, which is finished
      have ih := ih (List.cons_subset.mpr ⟨hs', hsub⟩) hp fun b hb hn =>
        hf b hb fun hm => hn (List.mem_cons_of_mem _ hm)
      rw [entered_cons_of_seen _ (by simpa [h] using hs'),
        List.filter_cons_of_neg (by simpa using hs'), ← ih]
      exact (walk_append_of_finished (hf a hs' hs ha) rest).1.symm
    · have ih := ih (List.cons_subset_cons a hsub) hp fun b hb hn hRb => by
        have hne : b ≠ a := fun hba => hn (hba ▸ List.mem_cons_self ..)
        have hb := (List.mem_cons.mp hb).resolve_left hne
        exact (hf b hb (fun hm => hn (List.mem_cons_of_mem _ hm)) hRb).cons a
      rw [entered_cons_of_notMem rest h hs', List.filter_cons_of_pos (by simpa using hs'), ih]
      congr 1
      apply List.filter_congr
      intro b hb
      have hne : b ≠ a := fun hba =>
        (nodup_entered (a :: seen) (G.edges a ++ rest)).2 b hb (hba ▸ List.mem_cons_self ..)
      simp [hne]

/-- What is searched for along the edges of a walk, and is not at the edges of finished places,
is found with or without those places. -/
theorem findSome?_passed_of_finished {φ : Type} {f : ε → Option φ} (hsub : seen ⊆ seen')
    (hf : ∀ a ∈ seen', a ∉ seen → G.Finished seen' a ∧ ∀ e ∈ G.edges a, f e = none) :
    (G.passed seen' pending).findSome? f = (G.passed seen pending).findSome? f := by
  fun_induction walk G seen pending generalizing seen' with
  | case1 => simp [passed]
  | case2 seen d rest h ih =>
    rw [passed_cons_of_seen _ (by simp [h]), passed_cons_of_seen _ (by simp [h]),
      List.findSome?_cons, List.findSome?_cons, ih hsub hf]
  | case3 seen d rest a h hs ih =>
    rw [passed_cons_of_seen _ (by simpa [h] using hsub hs),
      passed_cons_of_seen _ (by simpa [h] using hs), List.findSome?_cons, List.findSome?_cons,
      ih hsub hf]
  | case4 seen d rest a h hs ih =>
    rw [passed_cons_of_notMem rest h hs]
    by_cases hs' : a ∈ seen'
    · obtain ⟨hfin, hnone⟩ := hf a hs' hs
      have ih := ih (List.cons_subset.mpr ⟨hs', hsub⟩) fun b hb hn =>
        hf b hb fun hm => hn (List.mem_cons_of_mem _ hm)
      rw [(walk_append_of_finished hfin rest).2, List.findSome?_append,
        List.findSome?_eq_none_iff.mpr hnone, Option.none_or] at ih
      rw [passed_cons_of_seen _ (by simpa [h] using hs'), List.findSome?_cons,
        List.findSome?_cons, ih]
    · have ih := ih (List.cons_subset_cons a hsub) fun b hb hn => by
        have hne : b ≠ a := fun hba => hn (hba ▸ List.mem_cons_self ..)
        have hb := (List.mem_cons.mp hb).resolve_left hne
        obtain ⟨hfin, hnone⟩ := hf b hb fun hm => hn (List.mem_cons_of_mem _ hm)
        exact ⟨hfin.cons a, hnone⟩
      rw [passed_cons_of_notMem rest h hs', List.findSome?_cons, List.findSome?_cons, ih]

/-- A place and all that a walk enters behind it are finished after that walk. -/
theorem finished_of_entered {a b : α} (hb : b ∈ a :: G.entered (a :: seen) (G.edges a)) :
    G.Finished ((G.entered (a :: seen) (G.edges a)).reverse ++ a :: seen) b := by
  intro e he c hc
  have hp : e ∈ G.passed (a :: seen) (G.edges a) := by
    rw [mem_passed]
    rcases List.mem_cons.mp hb with rfl | hb
    · exact Or.inl he
    · exact Or.inr ⟨b, hb, he⟩
  rw [List.mem_append, List.mem_reverse, or_comm]
  exact mem_entered_of_target hp hc

end Finished

/-! ### A walk from a place -/

theorem mem_order {a b : α} : b ∈ G.order a ↔ G.Reaches a b := by
  constructor
  · intro hb
    rcases List.mem_cons.mp hb with rfl | hb
    · exact Relation.ReflTransGen.refl
    · obtain ⟨e, he, c, hc, hr⟩ := reaches_of_mem_entered hb
      exact Relation.ReflTransGen.head ⟨e, he, hc⟩ hr
  · intro hr
    induction hr with
    | refl => exact List.mem_cons_self ..
    | tail _ hl ih =>
      obtain ⟨e, he, ht⟩ := hl
      -- the edge is pending at the start, or belongs to a place that was entered
      have hp : e ∈ G.passed [a] (G.edges a) := by
        rw [mem_passed]
        rcases List.mem_cons.mp ih with rfl | hc
        · exact Or.inl he
        · exact Or.inr ⟨_, hc, he⟩
      rcases mem_entered_of_target hp ht with hm | hm
      · rw [List.mem_singleton] at hm
        exact hm ▸ List.mem_cons_self ..
      · exact List.mem_cons_of_mem _ hm

theorem nodup_order (a : α) : (G.order a).Nodup := by
  obtain ⟨hn, hd⟩ := nodup_entered (G := G) [a] (G.edges a)
  exact List.nodup_cons.mpr ⟨fun ha => hd a ha (List.mem_singleton.mpr rfl), hn⟩

/-- A walk from a place passes the edges of all places that can be reached. -/
theorem mem_passed_iff_reaches {a : α} {e : ε} :
    e ∈ G.passed [a] (G.edges a) ↔ ∃ b, G.Reaches a b ∧ e ∈ G.edges b := by
  rw [mem_passed]
  constructor
  · rintro (he | ⟨b, hb, he⟩)
    · exact ⟨a, Relation.ReflTransGen.refl, he⟩
    · exact ⟨b, mem_order.mp (List.mem_cons_of_mem _ hb), he⟩
  · rintro ⟨b, hr, he⟩
    rcases List.mem_cons.mp (mem_order.mpr hr) with rfl | hb
    · exact Or.inl he
    · exact Or.inr ⟨b, hb, he⟩

/-! ### Ways out -/

section Apart

variable {seen : List α}

/-- An edge leads out of a part of a network to a place. -/
def LeadsOut (G : Network ε α) (C : α → Prop) (a : α) : Prop := ¬ C a ∧ ∃ c, C c ∧ G.Leads c a

/-- If all that has been seen behind a place is finished, a walk enters the place and what is
behind it in the order of a walk of its own. -/
theorem filter_order {a : α} (ha : a ∉ seen)
    (hf : ∀ b ∈ seen, G.Reaches a b → G.Finished seen b) :
    (G.order a).filter (· ∉ seen) = a :: G.entered (a :: seen) (G.edges a) := by
  have hsub : [a] ⊆ a :: seen := List.cons_subset_cons a (List.nil_subset seen)
  rw [order, List.filter_cons_of_pos (by simpa using ha),
    entered_of_finished (R := G.Reaches a) hsub]
  · congr 1
    apply List.filter_congr
    intro b hb
    have hne : b ≠ a := fun h => (nodup_entered [a] (G.edges a)).2 b hb (List.mem_singleton.mpr h)
    simp [hne]
  · exact fun e he b hb => Relation.ReflTransGen.single ⟨e, he, hb⟩
  · exact fun b hb e he c hc => hb.tail ⟨e, he, hc⟩
  · intro b hb hne hr
    have hb := (List.mem_cons.mp hb).resolve_left fun h => hne (List.mem_singleton.mpr h)
    exact (hf b hb hr).cons a

/-- What a walk finds first stands in the part of the network where its edges start, or it is
what a walk from some way out of that part finds first, provided that no way out leads back. -/
theorem find?_entered_of_apart {C : α → Prop} {own : α → Bool}
    (hout : ∀ a, G.LeadsOut C a → ∀ b, G.Reaches a b → ¬ C b) (seen : List α) (pending : List ε)
    (hp : ∀ e ∈ pending, ∃ c, C c ∧ e ∈ G.edges c)
    (hs : ∀ b ∈ seen, own b = false ∧ (¬ C b → G.Finished seen b)) {x : α}
    (hx : (G.entered seen pending).find? own = some x) :
    C x ∨ ∃ a, G.LeadsOut C a ∧ (G.order a).find? own = some x := by
  match pending with
  | [] => simp [entered] at hx
  | e :: rest =>
    obtain ⟨⟨c, hc, he⟩, hrest⟩ := List.forall_mem_cons.mp hp
    by_cases hseen : ∀ a, G.target e = some a → a ∈ seen
    · rw [entered_cons_of_seen rest hseen] at hx
      exact find?_entered_of_apart hout seen rest hrest hs hx
    · push Not at hseen
      obtain ⟨a, ha, hn⟩ := hseen
      have hlt := unseen_cons_lt (G.target_mem ha) hn
      rw [entered_cons_of_notMem rest ha hn] at hx
      by_cases hC : C a
      · cases hown : own a with
        | true =>
          rw [List.find?_cons_of_pos hown] at hx
          exact Or.inl (Option.some.inj hx ▸ hC)
        | false =>
          rw [List.find?_cons_of_neg (by simp [hown])] at hx
          refine find?_entered_of_apart hout (a :: seen) (G.edges a ++ rest) ?_ ?_ hx
          · exact List.forall_mem_append.mpr ⟨fun e he => ⟨a, hC, he⟩, hrest⟩
          · refine List.forall_mem_cons.mpr ⟨⟨hown, fun h => absurd hC h⟩, fun b hb => ?_⟩
            exact ⟨(hs b hb).1, fun h => ((hs b hb).2 h).cons a⟩
      · -- all that is behind the way out is entered before the walk comes back to its edges
        have hlead : G.LeadsOut C a := ⟨hC, c, hc, e, he, ha⟩
        have horder := filter_order hn fun b hb hr => (hs b hb).2 (hout a hlead b hr)
        rw [entered_append, ← List.cons_append, List.find?_append, ← horder] at hx
        cases hfound : ((G.order a).filter (· ∉ seen)).find? own with
        | some y =>
          rw [hfound, Option.some_or] at hx
          refine Or.inr ⟨a, hlead, ?_⟩
          rw [← hx, ← hfound, ← List.head?_filter, ← List.head?_filter, List.filter_filter]
          congr 1
          apply List.filter_congr
          intro b _
          by_cases hb : b ∈ seen
          · simp [hb, (hs b hb).1]
          · simp [hb]
        | none =>
          rw [hfound, Option.none_or] at hx
          rw [horder, List.find?_eq_none] at hfound
          refine find?_entered_of_apart hout _ rest hrest (fun b hb => ?_) hx
          by_cases hm : b ∈ seen
          · refine ⟨(hs b hm).1, fun h => ((hs b hm).2 h).mono ?_⟩
            exact fun d hd => List.mem_append_right _ (List.mem_cons_of_mem _ hd)
          · have hb : b ∈ a :: G.entered (a :: seen) (G.edges a) := by
              simpa [hm, or_comm] using hb
            exact ⟨by simpa using hfound b hb, fun _ => finished_of_entered hb⟩
termination_by (unseen G.places seen, pending.length)
decreasing_by
  · exact Prod.Lex.right _ (by simp)
  · exact Prod.Lex.left _ _ hlt
  · refine Prod.Lex.left _ _ (Nat.lt_of_le_of_lt (unseen_le_of_subset ?_) hlt)
    exact List.subset_append_right _ _

theorem find?_order_of_apart {C : α → Prop} {own : α → Bool}
    (hout : ∀ a, G.LeadsOut C a → ∀ b, G.Reaches a b → ¬ C b) {a x : α} (ha : C a)
    (hx : (G.order a).find? own = some x) :
    C x ∨ ∃ b, G.LeadsOut C b ∧ (G.order b).find? own = some x := by
  rw [order] at hx
  cases hown : own a with
  | true =>
    rw [List.find?_cons_of_pos hown] at hx
    exact Or.inl (Option.some.inj hx ▸ ha)
  | false =>
    rw [List.find?_cons_of_neg (by simp [hown])] at hx
    refine find?_entered_of_apart hout [a] _ (fun e he => ⟨a, ha, he⟩) ?_ hx
    exact List.forall_mem_singleton.mpr ⟨hown, fun h => absurd ha h⟩

end Apart

end Network

end ApiSurface
