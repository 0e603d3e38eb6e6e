import ApiSurface.Proofs.Loading

/-! The nodes of a loaded file one by one, each with the entry of the document that it comes from.
The trees below a node are visited along with the entries below its entry, in their order. What is
left over is the literal of a specifier, which has no entry of its own. -/

namespace ApiSurface

namespace Snapshot

/-- A tree and the entry that it comes from, with the node of the file and the entries around, from
the inside out, each with its node. -/
structure Visit where
  root : NodeId
  around : List (Json × NodeId)
  entry : Json
  tree : Tree

mutual

/-- A tree and everything below it, in the order of the document. -/
def visits (root : NodeId) (around : List (Json × NodeId)) (j : Json) : Tree → List Visit
  | .mk n ts =>
    ⟨root, around, j, .mk n ts⟩ :: visitsAll root ((j, n.id) :: around) (entriesOf j "children") ts

/-- Trees that come from entries one by one. -/
def visitsAll (root : NodeId) (around : List (Json × NodeId)) : List Json → List Tree → List Visit
  | j :: js, t :: ts => visits root around j t ++ visitsAll root around js ts
  | _, _ => []

end

/-- The nodes of a file. -/
def fileVisits (j : Json) (f : SourceFile) : List Visit :=
  visitsAll f.id [] (entriesOf j "statements") f.tree.children

/-- The nodes of all files, in the order of the document. -/
def programVisits (doc : Json) (p : Program) : List Visit :=
  (List.zipWith fileVisits (entriesOf doc "files") p.sources).flatten

@[simp] theorem visitsAll_nil (root : NodeId) (around : List (Json × NodeId)) (js : List Json) :
    visitsAll root around js [] = [] := by
  rw [visitsAll]
  simp

theorem visitsAll_cons (root : NodeId) (around : List (Json × NodeId)) (j : Json) (js : List Json)
    (t : Tree) (ts : List Tree) : visitsAll root around (j :: js) (t :: ts) =
      visitsAll root around [j] [t] ++ visitsAll root around js ts := by
  rw [visitsAll, visitsAll, visitsAll_nil, List.append_nil]

/-- The node comes first. -/
theorem visitsAll_singleton (root : NodeId) (around : List (Json × NodeId)) (j : Json) (n : Node)
    (ts : List Tree) : visitsAll root around [j] [.mk n ts] =
      ⟨root, around, j, .mk n ts⟩ ::
        visitsAll root ((j, n.id) :: around) (entriesOf j "children") ts := by
  rw [visitsAll, visitsAll_nil, List.append_nil, visits]

/-- Trees without an entry are not visited. -/
theorem visitsAll_append (root : NodeId) (around : List (Json × NodeId)) {js : List Json}
    {ts : List Tree} (h : ts.length = js.length) (us : List Tree) :
    visitsAll root around js (ts ++ us) = visitsAll root around js ts := by
  induction ts generalizing js with
  | nil =>
    obtain rfl := List.length_eq_zero_iff.mp h.symm
    rw [List.nil_append, visitsAll_nil, visitsAll]
    simp
  | cons t ts ih =>
    cases js with
    | nil => cases h
    | cons j js =>
      rw [List.cons_append, visitsAll, visitsAll, ih (Nat.succ.inj h)]

/-! ### What a node shows -/

/-- The start that the nearest of some entries gives, from the inside out. -/
def nearestStart (entries : List Json) : Json :=
  (entries.findSome? fun j => (memberOf j "start").bind Json.given?).getD (.int 0)

namespace Visit

/-- The specifier that the entry gives. -/
def specifier? (v : Visit) : Option Json := (memberOf v.entry "moduleSpecifier").bind Json.given?

theorem specifier?_obj {root : NodeId} {around : List (Json × NodeId)}
    {members : List (String × Json)} {t : Tree} :
    Visit.specifier? ⟨root, around, .obj members, t⟩ = given? members "moduleSpecifier" := rfl

/-- The tree of the specifier, which is the last one below the node. -/
def literal? (v : Visit) : Option Tree :=
  v.specifier?.map fun text =>
    .mk { id := v.tree.node.specifier, kind := .stringLiteral, start := v.tree.node.start
          text := some text } []

/-- A node as its entry describes it, with one tree below it for each entry below, and the literal
of the specifier behind them, if there is one. -/
structure Drawn (v : Visit) : Prop where
  kind : memberOf v.entry "kind" = some (.str v.tree.node.kind.label)
  text : v.tree.node.text = (memberOf v.entry "text").bind Json.given?
  start : v.tree.node.start = nearestStart (v.entry :: v.around.map Prod.fst)
  children : ∃ below, below.length = (entriesOf v.entry "children").length ∧
    v.tree.children = below ++ v.literal?.toList

end Visit

/-- A file has one tree for each entry of a statement, and its nodes are as their entries describe
them. -/
structure DrawsFile (j : Json) (f : SourceFile) : Prop where
  name : ∃ v, memberOf j "fileName" = some v ∧ nameOf v = .ok f.name
  isModule : f.isModule = ((memberOf j "module").map Json.isSet).getD true
  statements : f.tree.children.length = (entriesOf j "statements").length
  nodes : ∀ v ∈ fileVisits j f, v.Drawn

theorem nearestStart_cons (members : List (String × Json)) (entries : List Json) :
    nearestStart (.obj members :: entries) = startOf (nearestStart entries) members := by
  unfold nearestStart startOf given?
  rw [List.findSome?_cons, memberOf]
  cases (Json.member? members "start").bind Json.given? <;> rfl

theorem drawn_literalOf {start : Json} {members : List (String × Json)} {d : Draft} :
    Yields (literalOf start members) d fun literal _ => literal =
      (given? members "moduleSpecifier").map fun text =>
        { id := (literal.map Node.id).getD .nothing, kind := .stringLiteral, start
          text := some text } := by
  unfold literalOf
  split
  · rename_i hg
    rw [hg]
    exact yields_pure rfl
  · rename_i text hg
    rw [hg]
    exact yields_bind (yields_create (yields_bind (yields_of_forall fun _ _ => yields_pure rfl)))

/-- The trees that are built are as their entries describe them. -/
theorem nodeCases_drawn (frame : Frame) (root : NodeId) :
    NodeCases frame fun _ parent _ js ts _ => ∀ around : List (Json × NodeId),
      parent = nearestStart (around.map Prod.fst) →
        ∀ v ∈ visitsAll root around js ts, v.Drawn where
  nil _ _ _ around _ := by simp
  cons {_ _ _ _ _ j js t ts} h₁ h₂ around hp := by
    rw [visitsAll_cons, List.forall_mem_append]
    exact ⟨h₁ around hp, h₂ around hp⟩
  node above parent members d hbelow := by
    refine yields_forall fun around => yields_forall fun hp => ?_
    have hstart : startOf parent members = nearestStart (.obj members :: around.map Prod.fst) := by
      rw [nearestStart_cons, hp]
    rw [node]
    refine yields_bind (yields_kindOf fun kind hk => yields_bind (yields_of_forall fun id d₁ => ?_))
    refine yields_bind (yields_of_forall fun _ d₂ => yields_bind (yields_of_forall fun _ d₃ => ?_))
    have hshows := (nodeCases_shows frame).yields_childrenOf id (startOf parent members) members d₃
    refine yields_bind (((hbelow id _ d₃).and hshows).mono ?_)
    rintro children d₄ ⟨hdrawn, hshows⟩
    have hdrawn := hdrawn ((.obj members, id) :: around) hstart
    have hlength := hshows.length_eq.symm
    refine yields_bind (drawn_literalOf.mono fun literal d₅ hliteral => ?_)
    split
    · have hnone : given? members "moduleSpecifier" = none :=
        Option.map_eq_none_iff.mp hliteral.symm
      refine yields_pure ?_
      rw [visitsAll_singleton, List.forall_mem_cons]
      refine ⟨⟨hk, rfl, hstart, children, hlength, ?_⟩, hdrawn⟩
      rw [Visit.literal?, Visit.specifier?_obj, hnone, Option.map_none, Option.toList_none,
        List.append_nil]
      rfl
    · rename_i l
      obtain ⟨text, hsome, hl⟩ := Option.map_eq_some_iff.mp hliteral.symm
      have hdrawn' : ∀ v ∈ visitsAll root around [.obj members]
          [.mk ⟨id, kind, startOf parent members, given? members "text", l.id⟩
            (children ++ [.mk l []])], v.Drawn := by
        rw [visitsAll_singleton, List.forall_mem_cons, visitsAll_append _ _ hlength]
        refine ⟨⟨hk, rfl, hstart, children, hlength, ?_⟩, hdrawn⟩
        rw [Visit.literal?, Visit.specifier?_obj, hsome, ← hl]
        rfl
      split
      · exact yields_bind (yields_of_forall fun _ _ => yields_bind
          (yields_of_forall fun _ _ => yields_pure hdrawn'))
      · exact yields_pure hdrawn'

end Snapshot

end ApiSurface
