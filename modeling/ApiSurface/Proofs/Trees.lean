import ApiSurface.Program.Edit
import ApiSurface.Proofs.Outcome
import Mathlib.Data.List.Pairwise

/-! Trees by the identities of their nodes: where a node stands in a list of trees, that it
stands nowhere else if no identity occurs twice, and what changing one tree leaves alone. -/

namespace ApiSurface

namespace Tree

theorem descendants_eq (t : Tree) : t.descendants = preorder t.children := by
  cases t
  rw [descendants, children]

theorem preorder_append (ts us : List Tree) :
    preorder (ts ++ us) = preorder ts ++ preorder us := by
  induction ts with
  | nil => rw [preorder, List.nil_append, List.nil_append]
  | cons t ts ih => rw [List.cons_append, preorder, ih, preorder]; simp

theorem preorder_singleton (t : Tree) : preorder [t] = t :: t.descendants := by
  rw [preorder, preorder, List.append_nil]

theorem mem_preorder {u : Tree} {ts : List Tree} :
    u ∈ preorder ts ↔ ∃ t ∈ ts, u = t ∨ u ∈ t.descendants := by
  induction ts with
  | nil => simp [preorder]
  | cons t ts ih => simp [preorder, ih, or_assoc]

mutual

/-- What is below something below a tree is below that tree. -/
theorem descendants_subset (t : Tree) :
    ∀ u ∈ t.descendants, u.descendants ⊆ t.descendants := by
  match t with
  | .mk n ts =>
    rw [descendants]
    exact preorder_subset ts

theorem preorder_subset (ts : List Tree) : ∀ u ∈ preorder ts, u.descendants ⊆ preorder ts := by
  match ts with
  | [] => simp [preorder]
  | t :: ts =>
    intro u hu x hx
    rw [preorder, List.mem_cons, List.mem_append] at hu ⊢
    rcases hu with rfl | hu | hu
    · exact Or.inr (Or.inl hx)
    · exact Or.inr (Or.inl (descendants_subset t u hu hx))
    · exact Or.inr (Or.inr (preorder_subset ts u hu hx))

end

/-! ### Identities -/

/-- The identities of the nodes of a list of trees. -/
def ids (ts : List Tree) : List NodeId := (preorder ts).map fun t => t.node.id

@[simp] theorem ids_nil : ids [] = [] := rfl

theorem ids_append (ts us : List Tree) : ids (ts ++ us) = ids ts ++ ids us := by
  rw [ids, preorder_append, List.map_append]
  rfl

theorem ids_cons (t : Tree) (ts : List Tree) : ids (t :: ts) = ids [t] ++ ids ts :=
  ids_append [t] ts

theorem ids_mk (n : Node) (ts : List Tree) : ids [.mk n ts] = n.id :: ids ts := by
  rw [ids, preorder_singleton, List.map_cons, descendants]
  rfl

theorem find?_eq_some {ts : List Tree} {n : NodeId} {t : Tree} (h : find? ts n = some t) :
    t ∈ preorder ts ∧ t.node.id = n :=
  ⟨List.mem_of_find?_eq_some h, by simpa using List.find?_some h⟩

theorem exists_find? {ts : List Tree} {n : NodeId} (h : n ∈ ids ts) : ∃ t, find? ts n = some t := by
  obtain ⟨t, ht, rfl⟩ := List.mem_map.mp h
  cases hf : find? ts t.node.id with
  | none =>
    have := List.find?_eq_none.mp hf t ht
    simp at this
  | some u => exact ⟨u, rfl⟩

theorem eq_of_mem_preorder {ts : List Tree} (hn : (ids ts).Nodup) {t u : Tree}
    (ht : t ∈ preorder ts) (hu : u ∈ preorder ts) (he : t.node.id = u.node.id) : t = u :=
  List.inj_on_of_nodup_map hn ht hu he

/-! ### Changing a tree -/

mutual

theorem modify_of_notMem {n : NodeId} (f : Tree → Tree) (t : Tree) (h : n ∉ ids [t]) :
    modify n f t = t := by
  match t with
  | .mk node ts =>
    rw [ids_mk, List.mem_cons, not_or] at h
    rw [modify, if_neg fun he => h.1 he.symm, modifyAll_of_notMem f ts h.2]

theorem modifyAll_of_notMem {n : NodeId} (f : Tree → Tree) (ts : List Tree) (h : n ∉ ids ts) :
    modifyAll n f ts = ts := by
  match ts with
  | [] => rw [modifyAll]
  | t :: ts =>
    rw [ids_cons, List.mem_append, not_or] at h
    rw [modifyAll, modify_of_notMem f t h.1, modifyAll_of_notMem f ts h.2]

end

end Tree

/-! ### Sites -/

namespace Program

variable {p : Program}

/-- The identities of the nodes of all files. -/
def nodeIds (p : Program) : List NodeId := p.sources.flatMap fun f => Tree.ids [f.tree]

theorem mem_nodeIds {n : NodeId} : n ∈ p.nodeIds ↔ ∃ f ∈ p.sources, n ∈ Tree.ids [f.tree] := by
  rw [nodeIds, List.mem_flatMap]

theorem mem_nodeIds_of_mem_preorder {f : SourceFile} {t : Tree} (hf : f ∈ p.sources)
    (ht : t ∈ Tree.preorder [f.tree]) : t.node.id ∈ p.nodeIds :=
  mem_nodeIds.mpr ⟨f, hf, List.mem_map_of_mem ht⟩

theorem exists_site? {n : NodeId} (h : n ∈ p.nodeIds) : ∃ f ∈ p.sources,
    ∃ t ∈ Tree.preorder [f.tree], t.node.id = n ∧ p.site? n = some ⟨t, some f⟩ := by
  obtain ⟨f, hf, hn⟩ := mem_nodeIds.mp h
  obtain ⟨t, ht⟩ := Tree.exists_find? hn
  have hs : (p.sources.findSome? fun f =>
      (Tree.find? [f.tree] n).map fun t => (⟨t, some f⟩ : Site)).isSome := by
    rw [List.findSome?_isSome_iff]
    exact ⟨f, hf, by simp [ht]⟩
  obtain ⟨s, hs⟩ := Option.isSome_iff_exists.mp hs
  obtain ⟨g, hg, hs'⟩ := List.exists_of_findSome?_eq_some hs
  obtain ⟨u, hu, rfl⟩ := Option.map_eq_some_iff.mp hs'
  obtain ⟨hm, hi⟩ := Tree.find?_eq_some hu
  exact ⟨g, hg, u, hm, hi, by rw [site?, hs, Option.some_or]⟩

/-- If no identity occurs twice, a node stands only at one place. -/
theorem site?_of_mem_preorder (hn : p.nodeIds.Nodup) {f : SourceFile} {t : Tree}
    (hf : f ∈ p.sources) (ht : t ∈ Tree.preorder [f.tree]) :
    p.site? t.node.id = some ⟨t, some f⟩ := by
  obtain ⟨g, hg, u, hu, hi, hs⟩ := exists_site? (mem_nodeIds_of_mem_preorder hf ht)
  obtain ⟨hids, hfiles⟩ := List.nodup_flatMap.mp hn
  have hfg : g = f := by
    by_contra hne
    have : Std.Symm (Function.onFun List.Disjoint fun f : SourceFile => Tree.ids [f.tree]) :=
      ⟨fun _ _ h _ ha hb => h hb ha⟩
    have hd : List.Disjoint (Tree.ids [g.tree]) (Tree.ids [f.tree]) := hfiles.forall hg hf hne
    exact hd (List.mem_map_of_mem hu) (hi ▸ List.mem_map_of_mem ht)
  subst hfg
  rw [hs, Tree.eq_of_mem_preorder (hids g hf) hu ht hi]

theorem mem_of_site? (hl : p.loose = []) {n : NodeId} {s : Site} (h : p.site? n = some s) :
    ∃ f ∈ p.sources, s.file = some f ∧ s.tree ∈ Tree.preorder [f.tree] ∧ s.node.id = n := by
  rw [site?, hl, Option.or_eq_some_iff] at h
  rcases h with h | ⟨_, h⟩
  · obtain ⟨f, hf, hs⟩ := List.exists_of_findSome?_eq_some h
    obtain ⟨t, ht, rfl⟩ := Option.map_eq_some_iff.mp hs
    obtain ⟨hm, hi⟩ := Tree.find?_eq_some ht
    exact ⟨f, hf, rfl, hm, hi⟩
  · simp [Tree.find?, Tree.preorder] at h

end Program

end ApiSurface
