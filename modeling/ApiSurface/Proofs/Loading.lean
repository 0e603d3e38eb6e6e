import ApiSurface.Proofs.WellFormed
import ApiSurface.Snapshot.Load
import Mathlib

/-! What loading a document guarantees: whatever the document says, a program that comes out of
it is well-formed, and its files hold what the document says. Every step of the loading keeps a
draft well-formed, if it ends without a fault, and the nodes that it makes are on the way until
their file has them. Documents are evaluated by equations from all over the library, so the whole of
it is imported here, once for all modules that apply their theorems to a document. -/

namespace ApiSurface

namespace Snapshot

/-! ### Documents -/

/-- A member of an entry, if it is one. -/
def memberOf (j : Json) (name : String) : Option Json :=
  match j with
  | .obj members => Json.member? members name
  | _ => none

/-- What a member of an entry lists. -/
def entriesOf (j : Json) (name : String) : List Json :=
  ((memberOf j name).bind Json.items?).getD []

/-- An entry of a node is below another one. -/
def Nested : Json → Json → Prop := Relation.ReflTransGen fun t j => j ∈ entriesOf t "children"

/-- The values of an entry of a node have a shape, and so do those of the entries below it. -/
def NodeConforms (S : Shape) (t : Json) : Prop :=
  ∀ j, Nested t j → (∀ v ∈ (memberOf j "start").bind Json.given?, S.start v) ∧
    ∀ v ∈ (memberOf j "moduleSpecifier").bind Json.given?, S.specifier v

/-- The values of a document have a shape, where they count. -/
structure Conforms (S : Shape) (doc : Json) : Prop where
  names : ∀ j ∈ entriesOf doc "symbols", ∀ v ∈ memberOf j "name", S.name v
  nodes : ∀ f ∈ entriesOf doc "files", ∀ t ∈ entriesOf f "statements", NodeConforms S t
  resolutions : ∀ j ∈ entriesOf doc "resolutions", ∀ v ∈ memberOf j "fileName", S.fileName v

theorem nodeConforms_any (t : Json) : NodeConforms .any t :=
  fun _ _ => ⟨fun _ _ => trivial, fun _ _ => trivial⟩

/-- Every document is of some shape. -/
theorem conforms_any (doc : Json) : Conforms .any doc :=
  ⟨fun _ _ _ _ => trivial, fun _ _ t _ => nodeConforms_any t, fun _ _ _ _ => trivial⟩

theorem NodeConforms.below {S : Shape} {t j : Json} (h : NodeConforms S t)
    (hj : j ∈ entriesOf t "children") : NodeConforms S j :=
  fun k hk => h k (Relation.ReflTransGen.head hj hk)

theorem nodeConforms_of_children {S : Shape} {t : Json}
    (hs : ∀ v ∈ (memberOf t "start").bind Json.given?, S.start v)
    (hm : ∀ v ∈ (memberOf t "moduleSpecifier").bind Json.given?, S.specifier v)
    (hc : ∀ j ∈ entriesOf t "children", NodeConforms S j) : NodeConforms S t := by
  intro j hj
  rcases hj.cases_head with rfl | ⟨k, hk, hkj⟩
  · exact ⟨hs, hm⟩
  · exact hc k hk j hkj

/-- A tree shows an entry of a node: one tree below it for each entry below, in their order, and
behind them the literal of the specifier, if there is one. -/
inductive Shows : Json → Tree → Prop where
  | mk {j : Json} {n : Node} {children : List Tree} {literal : Option Node}
    (kind : memberOf j "kind" = some (.str n.kind.label))
    (text : n.text = (memberOf j "text").bind Json.given?)
    (below : List.Forall₂ Shows (entriesOf j "children") children)
    (specifier : n.specifier = (literal.map Node.id).getD .nothing)
    (written : literal.bind Node.text = (memberOf j "moduleSpecifier").bind Json.given?) :
    Shows j (.mk n (children ++ literal.toList.map (.mk · [])))

/-- A file shows its entry. -/
structure ShowsFile (j : Json) (f : SourceFile) : Prop where
  name : ∃ v, memberOf j "fileName" = some v ∧ nameOf v = .ok f.name
  isModule : f.isModule = ((memberOf j "module").map Json.isSet).getD true
  statements : List.Forall₂ Shows (entriesOf j "statements") f.tree.children

/-! ### Steps of loading -/

section Steps

variable {α β : Type} {d : Draft} {post : α → Draft → Prop}

/-- What holds after a step, if it ends without a fault. -/
def Yields (x : Load α) (d : Draft) (post : α → Draft → Prop) : Prop :=
  ∀ a d', x.run d = .ok (a, d') → post a d'

theorem Yields.mono {x : Load α} {post' : α → Draft → Prop} (h : Yields x d post)
    (hp : ∀ a d', post a d' → post' a d') : Yields x d post' :=
  fun a d' hr => hp a d' (h a d' hr)

theorem Yields.and {x : Load α} {post' : α → Draft → Prop} (h : Yields x d post)
    (h' : Yields x d post') : Yields x d fun a d' => post a d' ∧ post' a d' :=
  fun a d' hr => ⟨h a d' hr, h' a d' hr⟩

theorem yields_of_forall {x : Load α} (h : ∀ a d', post a d') : Yields x d post :=
  fun a d' _ => h a d'

theorem yields_forall {ι : Sort*} {x : Load α} {post : ι → α → Draft → Prop}
    (h : ∀ i, Yields x d (post i)) : Yields x d fun a d' => ∀ i, post i a d' :=
  fun a d' hr i => h i a d' hr

theorem yields_pure {a : α} (h : post a d) : Yields (pure a) d post := by
  intro b d' hr
  cases hr
  exact h

theorem yields_throw (e : Fault) : Yields (throw e : Load α) d post := by
  intro b d' hr
  cases hr

theorem yields_bind {x : Load α} {f : α → Load β} {post : β → Draft → Prop}
    (h : Yields x d fun a d' => Yields (f a) d' post) : Yields (x >>= f) d post := by
  intro b d' hr
  rw [StateT.run_bind] at hr
  obtain ⟨⟨a, d₁⟩, ha, hb⟩ := bind_eq_ok_iff.mp hr
  exact h a d₁ ha b d' hb

theorem yields_get {post : Draft → Draft → Prop} (h : post d d) : Yields get d post := by
  intro b d' hr
  cases hr
  exact h

theorem yields_lift {x : Except Fault α} (h : ∀ a, x = .ok a → post a d) :
    Yields (liftM x : Load α) d post := by
  intro a d' hr
  change (x >>= fun a => pure (a, d)) = .ok (a, d') at hr
  obtain ⟨b, hb, hr⟩ := bind_eq_ok_iff.mp hr
  cases hr
  exact h a hb

theorem yields_edit {f : Program → Program} {post : Unit → Draft → Prop}
    (h : post () { d with program := f d.program }) : Yields (edit f) d post := by
  intro b d' hr
  cases hr
  exact h

theorem yields_create {f : Program → α × Program}
    (h : post (f d.program).1 { d with program := (f d.program).2 }) :
    Yields (create f) d post := by
  intro b d' hr
  cases hr
  exact h

/-- What every step over a list keeps holds in the end. -/
theorem yields_forM {l : List α} {f : α → Load Unit} {I : Draft → Prop}
    (step : ∀ a ∈ l, ∀ d, I d → Yields (f a) d fun _ => I) (h : I d) :
    Yields (l.forM f) d fun _ => I := by
  induction l generalizing d with
  | nil => exact yields_pure h
  | cons a l ih =>
    refine yields_bind ((step a (List.mem_cons_self ..) d h).mono fun _ d' h' => ?_)
    exact ih (fun b hb => step b (List.mem_cons_of_mem _ hb)) h'

/-! Reading the members of an entry changes nothing. -/

theorem yields_entry {j : Json} {post : List (String × Json) → Draft → Prop}
    (h : ∀ members, j = .obj members → post members d) : Yields (entry j) d post := by
  unfold entry
  split
  · exact yields_pure (h _ rfl)
  · exact yields_throw _

theorem yields_keyOf {j : Json} {post : Key → Draft → Prop}
    (h : ∀ k, j.key? = some k → post k d) : Yields (keyOf j) d post := by
  unfold keyOf
  split
  · exact yields_pure (h _ ‹_›)
  · exact yields_throw _

theorem yields_required {kind : EntryKind} {members : List (String × Json)} {name : String}
    {post : Json → Draft → Prop} (h : ∀ j, Json.member? members name = some j → post j d) :
    Yields (required kind members name) d post := by
  unfold required
  split
  · exact yields_pure (h _ ‹_›)
  · exact yields_throw _

theorem yields_listed {members : List (String × Json)} {name : String}
    {post : List Json → Draft → Prop}
    (h : post (entriesOf (.obj members) name) d) : Yields (listed members name) d post := by
  unfold listed
  unfold entriesOf memberOf at h
  split
  · rename_i hm
    simp only [hm] at h
    exact yields_pure h
  · rename_i j hm
    split
    · rename_i items hi
      simp only [hm, Option.bind_some, hi] at h
      exact yields_pure h
    · exact yields_throw _

theorem yields_exported {members : List (String × Json)}
    {post : List (String × Json) → Draft → Prop} (h : ∀ table, post table d) :
    Yields (exported members) d post := by
  unfold exported
  split
  · exact yields_pure (h _)
  · exact yields_pure (h _)
  · exact yields_throw _

theorem yields_symbolOf_key {id : Json} {post : SymbolId → Draft → Prop}
    (h : ∀ k, id.key? = some k → .listed k ∈ d.program.symbolIds → post (.listed k) d) :
    Yields (symbolOf id) d post := by
  refine yields_bind (yields_keyOf fun k hk => yields_bind (yields_get ?_))
  split
  · exact yields_pure (h k hk ‹_›)
  · exact yields_throw _

theorem yields_symbolOf {id : Json} {post : SymbolId → Draft → Prop}
    (h : ∀ s, d.program.Holds s → post s d) : Yields (symbolOf id) d post :=
  yields_symbolOf_key fun k _ hk => h (.listed k) ⟨hk, by simp⟩

end Steps

/-! ### Drafts -/

/-- A draft whose program is well-formed and has the given files, and in which the given
symbols are there. -/
structure Draft.Ok (S : Shape) (known : SymbolId → Prop) (sources : List SourceFile)
    (pending : List NodeId) (d : Draft) : Prop where
  wellFormed : d.program.WellFormed S pending
  recorded : ∀ k n, d.nodes.get? k = some n → n ∈ d.program.nodeIds ++ pending
  sources : d.program.sources = sources
  known : ∀ s, known s → d.program.Holds s

section Draft

variable {S : Shape} {known : SymbolId → Prop} {sources : List SourceFile}
  {pending : List NodeId} {d : Draft}

namespace Draft.Ok

theorem empty (S : Shape) : Draft.Ok S (fun _ => False) [] [] ⟨Program.empty, ∅⟩ :=
  ⟨Program.empty_wellFormed S, by simp, rfl, fun _ hs => hs.elim⟩

theorem weaken {known' : SymbolId → Prop} (h : d.Ok S known sources pending)
    (hk : ∀ s, known' s → known s) : d.Ok S known' sources pending :=
  { h with known := fun s hs => h.known s (hk s hs) }

theorem learn {s : SymbolId} (h : d.Ok S known sources pending) (hs : d.program.Holds s) :
    d.Ok S (fun t => known t ∨ t = s) sources pending :=
  { h with known := fun t ht => ht.elim (h.known t) fun he => he ▸ hs }

/-- A change that keeps the files and the symbols. -/
theorem edit (h : d.Ok S known sources pending) {q : Program} (hw : q.WellFormed S pending)
    (hs : q.sources = d.program.sources) (hk : ∀ s, d.program.Holds s → q.Holds s) :
    Draft.Ok S known sources pending { d with program := q } where
  wellFormed := hw
  recorded k n hn := by
    have hids : q.nodeIds = d.program.nodeIds := by rw [Program.nodeIds, Program.nodeIds, hs]
    exact hids ▸ h.recorded k n hn
  sources := hs.trans h.sources
  known s hs := hk s (h.known s hs)

theorem freshNode (h : d.Ok S known sources pending) :
    Draft.Ok S known sources (pending ++ [d.program.freshNode.1])
      { d with program := d.program.freshNode.2 } where
  wellFormed := h.wellFormed.freshNode
  recorded k n hn := by
    change n ∈ d.program.nodeIds ++ (pending ++ [_])
    rw [← List.append_assoc]
    exact List.mem_append_left _ (h.recorded k n hn)
  sources := h.sources
  known := h.known

end Draft.Ok

/-! ### Symbols -/

/-- The symbol that an entry is about. -/
def entrySymbol? (j : Json) : Option SymbolId :=
  ((memberOf j "id").bind Json.key?).map Entity.listed

theorem yields_flagsOf {name : Json} {flags : List Json} {post : List Flag → Draft → Prop}
    (h : ∀ fs, post fs d) : Yields (flagsOf name flags) d post := by
  fun_induction flagsOf name flags generalizing post with
  | case1 => exact yields_pure (h _)
  | case2 f rest fs hf ih => exact yields_bind (ih fun _ => yields_pure (h _))
  | case3 => exact yields_throw _
  | case4 => exact yields_throw _

theorem yields_addSymbol {j : Json} (h : d.Ok S known sources pending)
    (hj : ∀ v ∈ memberOf j "name", S.name v) : Yields (addSymbol j) d fun _ d' =>
      d'.Ok S (fun s => known s ∨ entrySymbol? j = some s) sources pending := by
  refine yields_bind (yields_entry fun members hm => yields_bind (yields_required fun id hid =>
    yields_bind (yields_required fun name hname => yields_bind (yields_keyOf fun k hk =>
    yields_bind (yields_get ?_)))))
  subst hm
  have hsym : entrySymbol? (.obj members) = some (.listed k) := by
    rw [entrySymbol?, memberOf, hid, Option.bind_some, hk, Option.map_some]
  simp only
  split
  · exact yields_bind (yields_throw _)
  · refine yields_bind (yields_listed (yields_bind (yields_flagsOf fun flags => yields_edit ?_)))
    have hw := h.wellFormed.putSymbol (s := .listed k) (x := { name, flags }) (by simp) (by simp)
      ⟨hj name hname, by simp, by simp, rfl⟩ (by simp)
    have hok := h.edit hw rfl fun _ hs => hs.putSymbol
    have hs : Program.Holds (d.program.putSymbol (.listed k) { name, flags }) (.listed k) :=
      ⟨Program.mem_symbolIds_putSymbol.mpr (Or.inl rfl), by simp⟩
    refine (hok.learn hs).weaken ?_
    rintro s (hs | hs)
    · exact Or.inl hs
    · exact Or.inr (Option.some.inj (hsym.symm.trans hs)).symm

theorem yields_addSymbols {l : List Json} (h : d.Ok S known sources pending)
    (hl : ∀ j ∈ l, ∀ v ∈ memberOf j "name", S.name v) : Yields (l.forM addSymbol) d fun _ d' =>
      d'.Ok S (fun s => known s ∨ ∃ j ∈ l, entrySymbol? j = some s) sources pending := by
  induction l generalizing d known with
  | nil => exact yields_pure (h.weaken fun s hs => hs.elim id fun ⟨_, hj, _⟩ => nomatch hj)
  | cons j l ih =>
    refine yields_bind ((yields_addSymbol h (hl j (List.mem_cons_self ..))).mono fun _ d' h' => ?_)
    refine (ih h' fun i hi => hl i (List.mem_cons_of_mem _ hi)).mono fun _ d'' h'' => ?_
    refine h''.weaken fun s hs => ?_
    rcases hs with hs | ⟨i, hi, hs⟩
    · exact Or.inl (Or.inl hs)
    · rcases List.mem_cons.mp hi with rfl | hi
      · exact Or.inl (Or.inr hs)
      · exact Or.inr ⟨i, hi, hs⟩

theorem yields_addExports {owner : SymbolId} {table : List (String × Json)}
    (h : d.Ok S known sources pending) (ho : known owner) :
    Yields (addExports owner table) d fun _ d' => d'.Ok S known sources pending := by
  refine yields_forM (fun e _ d h => ?_) h
  refine yields_bind (yields_symbolOf fun s hs => yields_bind (yields_get ?_))
  refine yields_bind (yields_lift fun n _ => yields_edit ?_)
  exact h.edit (h.wellFormed.addExport (h.known _ ho) hs n) rfl fun _ ht => ht.modifySymbol

theorem yields_linkSymbol {j : Json} (h : d.Ok S known sources pending)
    (hj : ∀ s, entrySymbol? j = some s → known s) :
    Yields (linkSymbol j) d fun _ d' => d'.Ok S known sources pending := by
  refine yields_bind (yields_entry fun members hm => yields_bind (yields_required fun id hid =>
    yields_bind (yields_keyOf fun k hk => yields_bind (yields_listed ?_))))
  subst hm
  have hs : known (.listed k) := hj _ (by
    rw [entrySymbol?, memberOf, hid, Option.bind_some, hk, Option.map_some])
  refine yields_bind ((yields_forM (fun id _ d h => ?_) h).mono fun _ d' h' => ?_)
  · refine yields_bind (yields_get (yields_bind (yields_keyOf fun key _ => ?_)))
    split
    · rename_i n hn
      refine yields_edit (h.edit ?_ rfl fun _ ht => ht.modifySymbol)
      exact h.wellFormed.addDeclaration (h.known _ hs) (h.recorded _ _ hn)
    · exact yields_bind (yields_get (yields_throw _))
  split
  · refine yields_bind (yields_symbolOf fun t ht => yields_bind (yields_edit ?_))
    refine yields_bind (yields_exported fun table => yields_addExports ?_ hs)
    have hw := h'.wellFormed.setAliasTarget (h'.known _ hs) ht
    exact h'.edit hw rfl fun _ hu => hu.setAliasTarget
  · exact yields_bind (yields_exported fun table => yields_addExports h' hs)

/-! ### Nodes -/

theorem yields_kindOf {frame : Frame} {members : List (String × Json)}
    {post : NodeKind → Draft → Prop}
    (h : ∀ kind, Json.member? members "kind" = some (.str kind.label) → post kind d) :
    Yields (kindOf frame members) d post := by
  unfold kindOf
  split
  · exact yields_throw _
  · rename_i hm
    split
    · split
      · rename_i s _ kind hk
        have hs : kind.label = s := by simpa using List.find?_some hk
        exact yields_pure (h kind (hs ▸ hm))
      · exact yields_throw _
    · exact yields_throw _

theorem yields_recordNode {n : NodeId} {members : List (String × Json)}
    (h : d.Ok S known sources pending) (hn : n ∈ pending) :
    Yields (recordNode n members) d fun _ d' => d'.Ok S known sources pending := by
  unfold recordNode
  split
  · refine yields_bind (yields_keyOf fun key _ => ?_)
    intro _ d' hr
    cases hr
    refine { h with recorded := ?_ }
    intro k m hm
    change (d.nodes.insert key n).get? k = some m at hm
    rw [Table.get?_insert] at hm
    split at hm
    · exact Option.some.inj hm ▸ List.mem_append_right _ hn
    · exact h.recorded k m hm
  · exact yields_pure h

theorem yields_bindNode {n : NodeId} {members : List (String × Json)} {name : String}
    (h : d.Ok S known sources pending) (hn : n ∈ pending) :
    Yields (bindNode n members name) d fun _ d' => d'.Ok S known sources pending := by
  unfold bindNode
  split
  · exact yields_pure h
  · refine yields_bind (yields_symbolOf fun s hs => yields_bind (yields_edit (yields_pure ?_)))
    exact h.edit (h.wellFormed.bind hs hn) rfl fun _ ht => ht

theorem yields_literalOf {start : Json} {members : List (String × Json)}
    (h : d.Ok S known sources pending) :
    Yields (literalOf start members) d fun literal d' =>
      d'.Ok S known sources (pending ++ (literal.map Node.id).toList) ∧
        ∀ l, literal = some l → ∃ text, given? members "moduleSpecifier" = some text ∧
          l = { id := l.id, kind := .stringLiteral, start, text := some text } := by
  unfold literalOf
  split
  · exact yields_pure ⟨by simpa using h, by simp⟩
  · rename_i text ht
    refine yields_bind (yields_create (yields_bind ?_))
    refine (yields_bindNode h.freshNode (by simp)).mono fun _ d' h' => yields_pure ⟨h', ?_⟩
    intro l hl
    obtain rfl := Option.some.inj hl
    exact ⟨text, ht, rfl⟩

/-- What gets the wildcard re-exports below a node is what some node stands for. -/
theorem yields_ownerOf {frame : Frame} {above : NodeId} {post : SymbolId → Draft → Prop}
    (h : ∀ n s, d.program.symbolAt n = some s → post s d) :
    Yields (ownerOf frame above) d post := by
  refine yields_bind (yields_get ?_)
  dsimp only
  split
  · rename_i s hs
    refine yields_pure ?_
    rcases Option.or_eq_some_iff.mp hs with hs | ⟨_, hs⟩
    · split at hs
      · cases hs
      · exact h above s hs
    · exact h frame.root s hs
  · exact yields_throw _

theorem sources_addWildcard (p : Program) (owner : SymbolId) (n : NodeId) :
    (p.addWildcard owner n).sources = p.sources := by
  unfold Program.addWildcard
  split <;> rfl

/-- Trees that have been built: their nodes are on the way, and they are of the shape. -/
def Built (S : Shape) (known : SymbolId → Prop) (sources : List SourceFile)
    (pending : List NodeId) (trees : List Tree) (d : Draft) : Prop :=
  d.Ok S known sources (pending ++ Tree.ids trees) ∧ ∀ t ∈ trees, t.Conforms S

theorem start_conforms {parent : Json} {members : List (String × Json)} (hp : S.start parent)
    (hj : NodeConforms S (.obj members)) : S.start (startOf parent members) := by
  unfold startOf
  cases hg : given? members "start" with
  | none => exact hp
  | some v => exact (hj _ Relation.ReflTransGen.refl).1 v hg

/-- A node conforms if the nodes below it do. -/
theorem conforms_mk {n : Node} {children : List Tree} (hs : S.start n.start)
    (hn : n.specifier = .nothing ∨ ∃ l ∈ children, l.node.id = n.specifier ∧
      l.node.kind = .stringLiteral ∧ ∃ v, l.node.text = some v ∧ S.specifier v)
    (hc : ∀ t ∈ children, t.Conforms S) : (Tree.mk n children).Conforms S := by
  intro u hu
  rw [Tree.preorder_singleton, Tree.descendants, List.mem_cons] at hu
  rcases hu with rfl | hu
  · exact ⟨hs, hn⟩
  · obtain ⟨t, ht, hu⟩ := Tree.mem_preorder.mp hu
    exact hc t ht u (Tree.mem_preorder.mpr ⟨t, List.mem_singleton.mpr rfl, hu⟩)

/-- A node with its literal as the last child. -/
theorem conforms_withLiteral {n : Node} {children : List Tree} {text : Json}
    (hs : S.start n.start) (ht : S.specifier text) (hc : ∀ t ∈ children, t.Conforms S) :
    (Tree.mk n (children ++
      [.mk { id := n.specifier, kind := .stringLiteral, start := n.start, text := some text } []]
      )).Conforms S := by
  refine conforms_mk hs (Or.inr ⟨_, List.mem_append_right _ (List.mem_singleton.mpr rfl), rfl, rfl,
    text, rfl, ht⟩) ?_
  rw [List.forall_mem_append, List.forall_mem_singleton]
  exact ⟨hc, conforms_mk hs (Or.inl rfl) (by simp)⟩

theorem entriesOf_cons_of_eq {value : Json} (rest : List (String × Json)) (name : String) :
    entriesOf (.obj ((name, value) :: rest)) name = value.items?.getD [] := by
  simp [entriesOf, memberOf, Json.member?]

theorem entriesOf_cons_of_ne {m : String × Json} (rest : List (String × Json)) {name : String}
    (h : m.1 ≠ name) : entriesOf (.obj (m :: rest)) name = entriesOf (.obj rest) name := by
  simp [entriesOf, memberOf, Json.member?, h]

/-- The cases of an induction over the building of nodes. The rule relates the entries and the draft
before to the trees and the draft after. -/
structure NodeCases (frame : Frame)
    (rule : NodeId → Json → Draft → List Json → List Tree → Draft → Prop) : Prop where
  nil : ∀ above parent d, rule above parent d [] [] d
  cons : ∀ {above parent d d₁ d₂ j js t ts}, rule above parent d [j] [t] d₁ →
    rule above parent d₁ js ts d₂ → rule above parent d (j :: js) (t :: ts) d₂
  node : ∀ above parent members d,
    (∀ id start d₁, Yields (childrenOf frame id start members) d₁
      (rule id start d₁ (entriesOf (.obj members) "children"))) →
    Yields (node frame above parent (.obj members)) d fun t =>
      rule above parent d [.obj members] [t]

namespace NodeCases

variable {frame : Frame} {rule : NodeId → Json → Draft → List Json → List Tree → Draft → Prop}

mutual

theorem yields_node (h : NodeCases frame rule) (above : NodeId) (parent j : Json) (d : Draft) :
    Yields (Snapshot.node frame above parent j) d fun t => rule above parent d [j] [t] := by
  match j with
  | .obj members => exact h.node above parent members d fun id start d₁ =>
      h.yields_childrenOf id start members d₁
  | .null | .bool _ | .int _ | .real _ | .str _ | .arr _ =>
    rw [Snapshot.node]
    · exact yields_throw _
    · simp

theorem yields_childrenOf (h : NodeCases frame rule) (above : NodeId) (parent : Json)
    (members : List (String × Json)) (d : Draft) :
    Yields (childrenOf frame above parent members) d
      (rule above parent d (entriesOf (.obj members) "children")) := by
  match members with
  | [] =>
    rw [childrenOf]
    exact yields_pure (h.nil above parent d)
  | (name, value) :: rest =>
    rw [childrenOf]
    by_cases hn : name = "children"
    · subst hn
      rw [if_pos rfl, entriesOf_cons_of_eq]
      exact h.yields_nodesOf above parent value d
    · rw [if_neg hn, entriesOf_cons_of_ne rest hn]
      exact h.yields_childrenOf above parent rest d

theorem yields_nodesOf (h : NodeCases frame rule) (above : NodeId) (parent value : Json)
    (d : Draft) :
    Yields (nodesOf frame above parent value) d (rule above parent d (value.items?.getD [])) := by
  match value with
  | .arr items =>
    rw [nodesOf]
    exact h.yields_nodes above parent items d
  | .str s =>
    rw [nodesOf]
    split
    · rename_i hs
      subst hs
      exact yields_pure (h.nil above parent d)
    · exact yields_throw _
  | .obj members =>
    rw [nodesOf]
    split
    · rename_i hm
      obtain rfl := List.isEmpty_iff.mp hm
      exact yields_pure (h.nil above parent d)
    · exact yields_throw _
  | .null | .bool _ | .int _ | .real _ =>
    rw [nodesOf]
    · exact yields_throw _
    all_goals simp

theorem yields_nodes (h : NodeCases frame rule) (above : NodeId) (parent : Json)
    (items : List Json) (d : Draft) :
    Yields (nodes frame above parent items) d (rule above parent d items) := by
  match items with
  | [] =>
    rw [nodes]
    exact yields_pure (h.nil above parent d)
  | j :: rest =>
    rw [nodes]
    refine yields_bind ((h.yields_node above parent j d).mono fun t d₁ h₁ => yields_bind ?_)
    refine (h.yields_nodes above parent rest d₁).mono fun ts d₂ h₂ => ?_
    exact yields_pure (h.cons h₁ h₂)

end

end NodeCases

/-- Entries that conform are built. -/
theorem nodeCases_built (frame : Frame) :
    NodeCases frame fun _ parent d js ts d' => ∀ (known : SymbolId → Prop) (pending : List NodeId),
      d.Ok S known sources pending → S.start parent → (∀ j ∈ js, NodeConforms S j) →
        Built S known sources pending ts d' where
  nil _ _ d _ _ hok _ _ := ⟨by simpa using hok, by simp⟩
  cons {_ _ _ _ _ j js t ts} h₁ h₂ known pending hok hp hj := by
    rw [List.forall_mem_cons] at hj
    have hb₁ := h₁ known pending hok hp (List.forall_mem_singleton.mpr hj.1)
    have hb₂ := h₂ known _ hb₁.1 hp hj.2
    refine ⟨?_, List.forall_mem_cons.mpr ⟨hb₁.2 t (List.mem_singleton.mpr rfl), hb₂.2⟩⟩
    rw [Tree.ids_cons, ← List.append_assoc]
    exact hb₂.1
  node above parent members d hbelow := by
    refine yields_forall fun known => yields_forall fun pending => yields_forall fun h =>
      yields_forall fun hp => yields_forall fun hall => ?_
    have hj := List.forall_mem_singleton.mp hall
    have hs := start_conforms hp hj
    rw [node]
    refine yields_bind (yields_kindOf fun kind _ => yields_bind (yields_create ?_))
    have hid : d.program.freshNode.1 ∈ pending ++ [d.program.freshNode.1] := by simp
    refine yields_bind ((yields_recordNode h.freshNode hid).mono fun _ d₁ h₁ => yields_bind ?_)
    refine (yields_bindNode h₁ hid).mono fun _ d₂ h₂ => yields_bind ?_
    refine (hbelow _ _ d₂).mono fun children d₃ hbuild => yields_bind ?_
    have h₃ := hbuild known _ h₂ hs fun t ht => hj.below ht
    refine (yields_literalOf h₃.1).mono fun literal d₄ h₄ => ?_
    split
    · refine yields_pure ⟨?_, ?_⟩
      · have := h₄.1
        simpa [Tree.ids_mk] using this
      · exact List.forall_mem_singleton.mpr (conforms_mk hs (Or.inl rfl) h₃.2)
    · rename_i l
      obtain ⟨text, htext, hl⟩ := h₄.2 l rfl
      have hspec := (hj _ Relation.ReflTransGen.refl).2 text htext
      have hbuilt : Built S known sources pending
          [.mk ⟨d.program.freshNode.1, kind, startOf parent members, given? members "text", l.id⟩
            (children ++ [.mk l []])] d₄ := by
        refine ⟨?_, List.forall_mem_singleton.mpr ?_⟩
        · have := h₄.1
          simpa [Tree.ids_mk, Tree.ids_append] using this
        · rw [hl]
          exact conforms_withLiteral hs hspec h₃.2
      split
      · refine yields_bind (yields_ownerOf fun n owner ho => ?_)
        refine yields_bind (yields_edit (yields_pure ⟨?_, hbuilt.2⟩))
        refine hbuilt.1.edit ?_ (sources_addWildcard ..) fun _ hs => hs.addWildcard
        have ho := hbuilt.1.wellFormed.holds_symbolAt ho
        exact hbuilt.1.wellFormed.addWildcard ho (by simp [Tree.ids_mk])
      · exact yields_pure hbuilt

theorem yields_node (frame : Frame) (above : NodeId) (parent j : Json)
    (h : d.Ok S known sources pending) (hp : S.start parent) (hj : NodeConforms S j) :
    Yields (node frame above parent j) d fun t => Built S known sources pending [t] :=
  ((nodeCases_built frame).yields_node above parent j d).mono fun _ _ hb =>
    hb known pending h hp (List.forall_mem_singleton.mpr hj)

theorem yields_childrenOf (frame : Frame) (above : NodeId) (parent : Json)
    (members : List (String × Json)) (h : d.Ok S known sources pending)
    (hp : S.start parent) (hm : ∀ t ∈ entriesOf (.obj members) "children", NodeConforms S t) :
    Yields (childrenOf frame above parent members) d fun ts =>
      Built S known sources pending ts :=
  ((nodeCases_built frame).yields_childrenOf above parent members d).mono fun _ _ hb =>
    hb known pending h hp hm

theorem yields_nodesOf (frame : Frame) (above : NodeId) (parent value : Json)
    (h : d.Ok S known sources pending)
    (hp : S.start parent) (hv : ∀ t ∈ value.items?.getD [], NodeConforms S t) :
    Yields (nodesOf frame above parent value) d fun ts => Built S known sources pending ts :=
  ((nodeCases_built frame).yields_nodesOf above parent value d).mono fun _ _ hb =>
    hb known pending h hp hv

theorem shows_literalOf {start : Json} {members : List (String × Json)} :
    Yields (literalOf start members) d fun literal _ =>
      literal.bind Node.text = given? members "moduleSpecifier" := by
  unfold literalOf
  split
  · rename_i hg
    exact yields_pure hg.symm
  · rename_i text hg
    refine yields_bind (yields_create (yields_bind (yields_of_forall fun _ _ => yields_pure ?_)))
    exact hg.symm

/-- The trees that are built show their entries. -/
theorem nodeCases_shows (frame : Frame) :
    NodeCases frame fun _ _ _ js ts _ => List.Forall₂ Shows js ts where
  nil _ _ _ := .nil
  cons h₁ h₂ := .cons (List.forall₂_cons.mp h₁).1 h₂
  node above parent members d hbelow := by
    rw [node]
    refine yields_bind (yields_kindOf fun kind hk => yields_bind (yields_of_forall fun id d₁ => ?_))
    refine yields_bind (yields_of_forall fun _ d₂ => yields_bind (yields_of_forall fun _ d₃ => ?_))
    refine yields_bind ((hbelow id _ d₃).mono fun children d₄ h₄ => yields_bind ?_)
    refine shows_literalOf.mono fun literal d₅ h₅ => ?_
    split
    · have h : Shows (.obj members) (.mk ⟨id, kind, startOf parent members, given? members "text",
          .nothing⟩ (children ++ (none : Option Node).toList.map (.mk · []))) :=
        .mk hk rfl h₄ rfl h₅
      rw [Option.toList_none, List.map_nil, List.append_nil] at h
      exact yields_pure (.cons h .nil)
    · rename_i l
      have h : Shows (.obj members) (.mk ⟨id, kind, startOf parent members, given? members "text",
          l.id⟩ (children ++ (some l).toList.map (.mk · []))) := .mk hk rfl h₄ rfl h₅
      split
      · exact yields_bind (yields_of_forall fun _ _ => yields_bind
          (yields_of_forall fun _ _ => yields_pure (.cons h .nil)))
      · exact yields_pure (.cons h .nil)

/-! ### Files -/

/-- A file without its nodes. -/
def emptyFile (id : NodeId) (name : Name) (options : FileOptions) : SourceFile :=
  { name, isModule := options.isModule, noDefaultLib := options.noDefaultLib
    tree := .mk { id, kind := .sourceFile } [] }

theorem sources_addFile (p : Program) (name : Name) (options : FileOptions) :
    (p.addFile name options).2.sources =
      p.sources ++ [emptyFile (p.addFile name options).1 name options] := by
  unfold Program.addFile
  cases hm : options.isModule <;> rfl

theorem holds_addFile {p : Program} (name : Name) (options : FileOptions) {s : SymbolId}
    (h : p.Holds s) : (p.addFile name options).2.Holds s := by
  unfold Program.addFile
  cases hm : options.isModule with
  | true => exact ⟨Table.mem_keys_insert.mpr (Or.inr h.1), h.2⟩
  | false => exact h

theorem Draft.Ok.addFile (h : d.Ok S known sources []) (name : Name) (options : FileOptions) :
    Draft.Ok S
      (fun s => known s ∨
        s = (emptyFile (d.program.addFile name options).1 name options).symbol)
      (sources ++ [emptyFile (d.program.addFile name options).1 name options]) []
      { d with program := (d.program.addFile name options).2 } := by
  have hs := sources_addFile d.program name options
  have hw := h.wellFormed.addFile name options
  refine ⟨hw, ?_, hs.trans (by rw [h.sources]), ?_⟩
  · intro k n hn
    have hm := h.recorded k n hn
    rw [List.append_nil] at hm ⊢
    change n ∈ (d.program.addFile name options).2.nodeIds
    rw [Program.nodeIds, hs, List.flatMap_append]
    exact List.mem_append_left _ hm
  · rintro s (hk | rfl)
    · exact holds_addFile name options (h.known s hk)
    · refine hw.bindings _ _ (hw.roots _ ?_)
      rw [hs]
      exact List.mem_append_right _ (List.mem_singleton.mpr rfl)

theorem items_getD (members : List (String × Json)) (name : String) :
    ((Json.member? members name).getD (.arr [])).items?.getD [] =
      entriesOf (.obj members) name := by
  unfold entriesOf memberOf
  dsimp only
  cases Json.member? members name <;> rfl

theorem yields_addFile {j : Json} (h : d.Ok S known sources [])
    (hj : ∀ t ∈ entriesOf j "statements", NodeConforms S t) : Yields (addFile j) d fun file d' =>
      ∃ f, ShowsFile j f ∧
        d'.Ok S (fun s => known s ∨ s = file.symbol) (sources ++ [f]) [] := by
  refine yields_bind (yields_entry fun members hm => yields_bind (yields_required fun fileName hf =>
    yields_bind (yields_lift fun name hname => yields_bind (yields_create ?_))))
  subst hm
  let options : FileOptions :=
    { isModule := isSet members "module" true
      isExternal := isSet members "externalLibrary" false
      isDefault := isSet members "defaultLibrary" false
      noDefaultLib := isSet members "noDefaultLib" false }
  have hok := h.addFile name options
  have hitems := items_getD members "statements"
  let id := (d.program.addFile name options).1
  have hn := yields_nodesOf ⟨name, id⟩ id (.int 0) _ hok S.start_zero (hitems ▸ hj)
  have hshows := (nodeCases_shows ⟨name, id⟩).yields_nodesOf id (.int 0)
    ((Json.member? members "statements").getD (.arr []))
  refine yields_bind ((hn.and (hshows _)).mono ?_)
  rintro trees d₁ ⟨h₁, hshows⟩
  refine yields_bind (yields_edit (yields_pure ?_))
  have hw := h₁.1.wellFormed.install h₁.1.sources rfl h₁.2
  refine ⟨{ emptyFile id name options with tree := .mk { id, kind := .sourceFile } trees },
    ⟨⟨fileName, hf, hname⟩, rfl, hitems ▸ hshows⟩, hw, ?_,
    h₁.1.wellFormed.sources_install h₁.1.sources rfl, h₁.1.known⟩
  intro k n hn
  rw [List.append_nil]
  change n ∈ (d₁.program.modifyTree _ _).nodeIds
  rw [h₁.1.wellFormed.nodeIds_install h₁.1.sources rfl]
  exact h₁.1.recorded k n hn

theorem yields_addFiles {l : List Json} (h : d.Ok S known sources [])
    (hl : ∀ f ∈ l, ∀ t ∈ entriesOf f "statements", NodeConforms S t) :
    Yields (l.mapM addFile) d fun files d' => ∃ fs, List.Forall₂ ShowsFile l fs ∧
      d'.Ok S (fun s => known s ∨ ∃ f ∈ files, s = f.symbol) (sources ++ fs) [] := by
  induction l generalizing d known sources with
  | nil =>
    rw [List.mapM_nil]
    refine yields_pure ⟨[], .nil, ?_⟩
    rw [List.append_nil]
    exact h.weaken fun s hs => hs.elim id fun ⟨_, hf, _⟩ => nomatch hf
  | cons j l ih =>
    rw [List.mapM_cons]
    refine yields_bind ((yields_addFile h (hl j (List.mem_cons_self ..))).mono ?_)
    rintro file d₁ ⟨f, hf, h₁⟩
    refine yields_bind ((ih h₁ fun i hi => hl i (List.mem_cons_of_mem _ hi)).mono ?_)
    rintro files d₂ ⟨fs, hfs, h₂⟩
    rw [List.append_assoc] at h₂
    refine yields_pure ⟨f :: fs, .cons hf hfs, h₂.weaken fun s hs => ?_⟩
    rcases hs with hs | ⟨f, hf, rfl⟩
    · exact Or.inl (Or.inl hs)
    · rcases List.mem_cons.mp hf with rfl | hf
      · exact Or.inl (Or.inr rfl)
      · exact Or.inr ⟨f, hf, rfl⟩

theorem yields_linkFile {file : FileEntry} (h : d.Ok S known sources pending)
    (hf : known file.symbol) :
    Yields (linkFile file) d fun _ d' => d'.Ok S known sources pending := by
  refine yields_bind (yields_exported fun table => ?_)
  refine yields_bind ((yields_addExports h hf).mono fun _ d₁ h₁ => yields_bind (yields_listed ?_))
  refine yields_forM (fun id _ d h => ?_) h₁
  refine yields_bind (yields_symbolOf fun s hs => yields_edit ?_)
  exact h.edit (h.wellFormed.addLocal hs file.name) rfl fun _ ht => ht

/-! ### Programs -/

theorem yields_addResolution {j : Json} (h : d.Ok S known sources pending)
    (hj : ∀ v ∈ memberOf j "fileName", S.fileName v) :
    Yields (addResolution j) d fun _ d' => d'.Ok S known sources pending := by
  refine yields_bind (yields_entry fun members hm => yields_bind (yields_required fun file _ =>
    yields_bind (yields_required fun specifier _ => yields_bind (yields_required fun target ht =>
    yields_bind (yields_lift fun file _ => yields_bind (yields_lift fun specifier _ =>
    yields_edit ?_))))))
  subst hm
  exact h.edit (h.wellFormed.addResolution (hj target ht) file specifier) rfl fun _ ht => ht

theorem yields_build {members : List (String × Json)} (h : d.Ok S known sources [])
    (hc : Conforms S (.obj members)) :
    Yields (build members) d fun _ d' => ∃ fs,
      List.Forall₂ ShowsFile (entriesOf (.obj members) "files") fs ∧
        d'.Ok S known (sources ++ fs) [] := by
  refine yields_bind (yields_listed (yields_bind ?_))
  refine (yields_addSymbols h hc.names).mono fun _ d₁ h₁ => yields_bind (yields_listed ?_)
  refine yields_bind ((yields_addFiles h₁ hc.nodes).mono ?_)
  rintro files d₂ ⟨fs, hfs, h₂⟩
  refine yields_bind ((yields_forM (fun j hj d h => yields_linkSymbol h ?_) h₂).mono ?_)
  · exact fun s hs => Or.inl (Or.inr ⟨j, hj, hs⟩)
  intro _ d₃ h₃
  refine yields_bind ((yields_forM (fun f hf d h => yields_linkFile h ?_) h₃).mono ?_)
  · exact Or.inr ⟨f, hf, rfl⟩
  refine fun _ d₄ h₄ => yields_bind (yields_listed (yields_bind ((yields_forM ?_ h₄).mono ?_)))
  · intro id _ d h
    refine yields_bind (yields_symbolOf fun s hs => yields_edit ?_)
    exact h.edit (h.wellFormed.addGlobal hs) rfl fun _ ht => ht
  refine fun _ d₅ h₅ => yields_bind (yields_listed ((yields_forM ?_ h₅).mono ?_))
  · exact fun j hj d h => yields_addResolution h (hc.resolutions j hj)
  · exact fun _ d₆ h₆ => ⟨fs, hfs, h₆.weaken fun s hs => Or.inl (Or.inl hs)⟩

end Draft

/-- A loaded program is well-formed, its values have the shape of those of the document, and it has
one file for each entry. -/
theorem ok_of_load {S : Shape} {doc : Json} {p : Program} (hc : Conforms S doc)
    (h : load doc = .ok p) :
    p.WellFormed S [] ∧ List.Forall₂ ShowsFile (entriesOf doc "files") p.sources := by
  unfold load at h
  split at h
  · rename_i members
    obtain ⟨⟨_, d⟩, hd, hp⟩ := bind_eq_ok_iff.mp h
    obtain ⟨fs, hfs, hok⟩ := yields_build (.empty S) hc _ d hd
    obtain rfl := Except.ok.inj hp
    exact ⟨hok.wellFormed, hok.sources ▸ hfs⟩
  · cases h

theorem wellFormed_of_load {S : Shape} {doc : Json} {p : Program} (hc : Conforms S doc)
    (h : load doc = .ok p) : p.WellFormed S [] :=
  (ok_of_load hc h).1

end Snapshot

end ApiSurface
