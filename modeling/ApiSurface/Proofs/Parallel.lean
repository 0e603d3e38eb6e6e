import ApiSurface.Proofs.Agreement
import ApiSurface.Proofs.Loading

/-! Loading from two drafts at once. If the drafts agree, then a step of the loading has a fault
from both of them, or it gives the same value and leaves drafts that agree. -/

namespace ApiSurface

namespace Snapshot

/-- Two drafts agree on some symbols. -/
structure Draft.Agrees (K : SymbolId → Prop) (d e : Draft) : Prop where
  program : d.program.Agrees K e.program
  nodes : e.nodes = d.nodes

section Parallel

variable {α β : Type} {K : SymbolId → Prop} {d e : Draft}

theorem Draft.Agrees.refl (K : SymbolId → Prop) (d : Draft) : d.Agrees K d := ⟨.refl K _, rfl⟩

theorem Draft.Agrees.symm (h : d.Agrees K e) : e.Agrees K d := ⟨h.program.symm, h.nodes.symm⟩

theorem Draft.Agrees.trans {f : Draft} (h : d.Agrees K e) (h' : e.Agrees K f) : d.Agrees K f :=
  ⟨h.program.trans h'.program, h'.nodes.trans h.nodes⟩

theorem Draft.Agrees.mono {K' : SymbolId → Prop} (h : d.Agrees K e) (hk : ∀ s, K' s → K s) :
    d.Agrees K' e :=
  ⟨h.program.mono hk, h.nodes⟩

theorem Draft.Agrees.or {K' : SymbolId → Prop} (h : d.Agrees K e) (h' : d.Agrees K' e) :
    d.Agrees (fun s => K s ∨ K' s) e :=
  ⟨h.program.or h'.program, h.nodes⟩

/-- Two steps end alike: both with a fault, or with the same value and with drafts that agree. -/
def EndAlike (K : SymbolId → Prop) (x y : Load α) (d e : Draft) : Prop :=
  match x.run d, y.run e with
  | .ok (a, d'), .ok (b, e') => b = a ∧ d'.Agrees K e'
  | .error _, .error _ => True
  | _, _ => False

theorem EndAlike.trans {x y z : Load α} {f : Draft} (h : EndAlike K x y d e)
    (h' : EndAlike K y z e f) : EndAlike K x z d f := by
  unfold EndAlike at h h' ⊢
  cases hx : x.run d <;> cases hy : y.run e <;> cases hz : z.run f <;>
    simp only [hx, hy, hz] at h h' ⊢
  exact ⟨h'.1.trans h.1, h.2.trans h'.2⟩

/-- If two steps end alike, and what follows them does so from any drafts that agree, then the
sequences end alike. -/
theorem endAlike_bind {x y : Load α} {f g : α → Load β} (hx : EndAlike K x y d e)
    (hf : ∀ a d' e', x.run d = .ok (a, d') → d'.Agrees K e' → EndAlike K (f a) (g a) d' e') :
    EndAlike K (x >>= f) (y >>= g) d e := by
  unfold EndAlike at hx
  cases hr : x.run d with
  | error w =>
    cases hs : y.run e with
    | error w' =>
      unfold EndAlike
      rw [StateT.run_bind, StateT.run_bind, hr, hs]
      trivial
    | ok b => simp [hr, hs] at hx
  | ok a =>
    cases hs : y.run e with
    | error w' => simp [hr, hs] at hx
    | ok b =>
      simp only [hr, hs] at hx
      obtain ⟨hv, hd⟩ := hx
      have h := hf a.1 a.2 b.2 hr hd
      unfold EndAlike at h ⊢
      rw [StateT.run_bind, StateT.run_bind, hr, hs, ok_bind, ok_bind, hv]
      exact h

/-- A step that ends alike from any drafts that agree. -/
def Respects (K : SymbolId → Prop) (x : Load α) : Prop :=
  ∀ d e : Draft, d.Agrees K e → EndAlike K x x d e

theorem respects_bind {x : Load α} {f : α → Load β} (hx : Respects K x)
    (hf : ∀ a, Respects K (f a)) : Respects K (x >>= f) :=
  fun d e h => endAlike_bind (hx d e h) fun a d' e' _ h' => hf a d' e' h'

/-- A step may look at the draft, as long as drafts that agree give it the same to do. -/
theorem respects_get {f : Draft → Load α} (hf : ∀ d e : Draft, d.Agrees K e → f e = f d)
    (hr : ∀ d, Respects K (f d)) : Respects K (get >>= f) := by
  intro d e h
  change EndAlike K (f d) (f e) d e
  rw [hf d e h]
  exact hr d d e h

theorem respects_edit {f : Program → Program}
    (hf : ∀ p q : Program, p.Agrees K q → (f p).Agrees K (f q)) : Respects K (edit f) :=
  fun _ _ h => ⟨rfl, hf _ _ h.program, h.nodes⟩

/-- A change to anything but the symbols. -/
theorem respects_aside {f : Program → Program}
    (hf : ∀ p S A, f (p.retabled S A) = (f p).retabled S A) : Respects K (edit f) :=
  respects_edit fun _ _ h => h.aside hf

/-- A step that makes something new makes the same from programs that agree. -/
theorem respects_create {f : Program → α × Program}
    (hf : ∀ p q : Program, p.Agrees K q → (f q).1 = (f p).1 ∧ (f p).2.Agrees K (f q).2) :
    Respects K (create f) :=
  fun _ _ h => ⟨(hf _ _ h.program).1, (hf _ _ h.program).2, h.nodes⟩

/-- By induction on the list: drafts that agree before a round agree after it. -/
theorem respects_forM {l : List α} {f : α → Load Unit} (hf : ∀ a ∈ l, Respects K (f a)) :
    Respects K (l.forM f) := by
  induction l with
  | nil => exact fun d e h => ⟨rfl, h⟩
  | cons a l ih =>
    refine respects_bind (hf a (List.mem_cons_self ..)) fun _ => ?_
    exact ih fun b hb => hf b (List.mem_cons_of_mem _ hb)

theorem respects_mapM {l : List α} {f : α → Load β} (hf : ∀ a ∈ l, Respects K (f a)) :
    Respects K (l.mapM f) := by
  induction l with
  | nil =>
    rw [List.mapM_nil]
    exact fun d e h => ⟨rfl, h⟩
  | cons a l ih =>
    rw [List.mapM_cons]
    refine respects_bind (hf a (List.mem_cons_self ..)) fun b => ?_
    refine respects_bind (ih fun c hc => hf c (List.mem_cons_of_mem _ hc)) fun bs => ?_
    exact fun d e h => ⟨rfl, h⟩

/-! ### Members of entries -/

/-- A step that does not look at the draft. -/
def Reads (x : Load α) : Prop := ∃ r : Except Fault α, ∀ d, x.run d = r.map (·, d)

/-- What is read from the document alone is the same from any draft. -/
theorem Reads.respects {x : Load α} (h : Reads x) : Respects K x := by
  obtain ⟨r, hr⟩ := h
  intro d e hd
  unfold EndAlike
  rw [hr, hr]
  cases r with
  | error w => trivial
  | ok a => exact ⟨rfl, hd⟩

/-- After reading from the document, two steps need to end alike only for the value that was read.
-/
theorem endAlike_reads {x : Load α} {f g : α → Load β} (hx : Reads x)
    (hf : ∀ a, x.run d = .ok (a, d) → EndAlike K (f a) (g a) d e) :
    EndAlike K (x >>= f) (x >>= g) d e := by
  obtain ⟨r, hr⟩ := hx
  unfold EndAlike
  rw [StateT.run_bind, StateT.run_bind, hr, hr]
  cases r with
  | error w => trivial
  | ok a => exact hf a (hr d)

theorem reads_pure (a : α) : Reads (pure a : Load α) := ⟨.ok a, fun _ => rfl⟩

theorem reads_throw (w : Fault) : Reads (throw w : Load α) := ⟨.error w, fun _ => rfl⟩

theorem reads_lift (r : Except Fault α) : Reads (liftM r : Load α) :=
  ⟨r, fun d => by cases r <;> rfl⟩

theorem reads_bind {x : Load α} {f : α → Load β} (hx : Reads x) (hf : ∀ a, Reads (f a)) :
    Reads (x >>= f) := by
  obtain ⟨r, hr⟩ := hx
  cases r with
  | error w => exact ⟨.error w, fun d => by rw [StateT.run_bind, hr]; rfl⟩
  | ok a =>
    obtain ⟨s, hs⟩ := hf a
    exact ⟨s, fun d => by rw [StateT.run_bind, hr]; exact hs d⟩

theorem reads_entry (j : Json) : Reads (entry j) := by
  unfold entry
  split
  · exact reads_pure _
  · exact reads_throw _

theorem reads_keyOf (j : Json) : Reads (keyOf j) := by
  unfold keyOf
  split
  · exact reads_pure _
  · exact reads_throw _

theorem reads_required (kind : EntryKind) (members : List (String × Json)) (name : String) :
    Reads (required kind members name) := by
  unfold required
  split
  · exact reads_pure _
  · exact reads_throw _

theorem reads_listed (members : List (String × Json)) (name : String) :
    Reads (listed members name) := by
  unfold listed
  split
  · exact reads_pure _
  · split
    · exact reads_pure _
    · exact reads_throw _

theorem reads_exported (members : List (String × Json)) : Reads (exported members) := by
  unfold exported
  split
  · exact reads_pure _
  · exact reads_pure _
  · exact reads_throw _

theorem reads_flagsOf (name : Json) (flags : List Json) : Reads (flagsOf name flags) := by
  fun_induction flagsOf name flags with
  | case1 => exact reads_pure _
  | case2 f rest fs hf ih => exact reads_bind ih fun _ => reads_pure _
  | case3 => exact reads_throw _
  | case4 => exact reads_throw _

theorem reads_kindOf (frame : Frame) (members : List (String × Json)) :
    Reads (kindOf frame members) := by
  unfold kindOf
  split
  · exact reads_throw _
  · split
    · split
      · exact reads_pure _
      · exact reads_throw _
    · exact reads_throw _

/-! ### Symbols -/

/-- A symbol is looked up by its key only, so it does not matter what else is known about it. -/
theorem respects_symbolOf (id : Json) : Respects K (symbolOf id) := by
  refine respects_bind (reads_keyOf id).respects fun k => respects_get ?_ fun d => ?_
  · intro d e h
    simp only [h.program.mem]
  · split
    · exact (reads_pure _).respects
    · exact (reads_throw _).respects

theorem respects_addSymbol (j : Json) : Respects K (addSymbol j) := by
  refine respects_bind (reads_entry j).respects fun members => ?_
  refine respects_bind (reads_required ..).respects fun id => ?_
  refine respects_bind (reads_required ..).respects fun name => ?_
  refine respects_bind (reads_keyOf id).respects fun k => respects_get ?_ fun d => ?_
  · intro d e h
    simp only [h.program.mem]
  · have hrest : Respects K (do
        let flags ← flagsOf name (← listed members "flags")
        edit fun p => p.putSymbol (.listed k) { name, flags }) := by
      refine respects_bind (reads_listed ..).respects fun flags => ?_
      refine respects_bind (reads_flagsOf ..).respects fun flags => ?_
      exact respects_edit fun p q h => h.putSymbol _ _
    dsimp only
    split
    · exact respects_bind (reads_throw _).respects fun _ => hrest
    · exact hrest

/-- The name of an export depends on the name of its symbol, and on nothing else of it. -/
theorem exportName_eq {p q : Program} (h : p.Agrees K q) (s : SymbolId) (name : Json) :
    q.exportName s name = p.exportName s name := by
  unfold Program.exportName
  by_cases hs : s ∈ p.symbolIds
  · rw [Program.symbolOf_of_mem hs, Program.symbolOf_of_mem ((h.mem s).mpr hs), ok_bind, ok_bind,
      h.name]
  · have hq : s ∉ q.symbolIds := fun hq => hs ((h.mem s).mp hq)
    rw [Program.symbolOf, Program.symbolOf, (Table.get?_eq_none_iff ..).mpr hs,
      (Table.get?_eq_none_iff ..).mpr hq]

/-- Exports are added to the table of their owner, so the drafts have to agree on the owner. -/
theorem respects_addExports {owner : SymbolId} (ho : K owner) (table : List (String × Json)) :
    Respects K (addExports owner table) := by
  refine respects_forM fun e _ => respects_bind (respects_symbolOf e.2) fun s => ?_
  refine respects_get ?_ fun d => respects_bind (reads_lift _).respects fun n => ?_
  · intro d e h
    simp only [exportName_eq h.program]
  · exact respects_edit fun p q h => h.addExport ho s n

/-- Connecting a symbol reads and changes its own entry, so the drafts have to agree on this symbol
and on no other. -/
theorem respects_linkSymbol {j : Json} (hj : ∀ s, entrySymbol? j = some s → K s) :
    Respects K (linkSymbol j) := by
  intro d e h
  refine endAlike_reads (reads_entry j) fun members hr => ?_
  have hentry : Yields (entry j) d fun members _ => j = .obj members := yields_entry fun _ hm => hm
  obtain rfl := hentry members d hr
  refine endAlike_reads (reads_required ..) fun id hr => ?_
  have hid : Yields (required .symbol members "id") d fun id _ =>
    Json.member? members "id" = some id := yields_required fun _ hm => hm
  have hid := hid id d hr
  refine endAlike_reads (reads_keyOf id) fun k hr => ?_
  have hk : Yields (keyOf id) d fun k _ => id.key? = some k := yields_keyOf fun _ hk => hk
  have hk := hk k d hr
  have hs : K (.listed k) := hj _ (by rw [entrySymbol?, memberOf, hid, Option.bind_some, hk]; rfl)
  refine respects_bind (reads_listed ..).respects (fun ids => ?_) d e h
  refine respects_bind (respects_forM fun id _ => ?_) fun _ => ?_
  · refine respects_get (fun d e h => by simp only [h.nodes]) fun d => ?_
    refine respects_bind (reads_keyOf id).respects fun key => ?_
    split
    · exact respects_edit fun p q h => h.modifySymbol hs _
    · refine respects_get (fun d e h => by simp only [h.program.name]) fun d => ?_
      exact (reads_throw _).respects
  have hexports : Respects K (do addExports (.listed k) (← exported members)) :=
    respects_bind (reads_exported members).respects fun table => respects_addExports hs table
  dsimp only
  split
  · refine respects_bind (respects_symbolOf _) fun target => ?_
    exact respects_bind (respects_edit fun p q h => h.setAliasTarget hs target) fun _ => hexports
  · exact hexports

/-! ### Nodes -/

/-- Drafts that agree record a node under the same key. -/
theorem respects_recordNode (n : NodeId) (members : List (String × Json)) :
    Respects K (recordNode n members) := by
  unfold recordNode
  split
  · refine respects_bind (reads_keyOf _).respects fun key d e h => ⟨rfl, h.program, ?_⟩
    exact congrArg (fun nodes : Table Key NodeId => nodes.insert key n) h.nodes
  · exact (reads_pure _).respects

theorem respects_bindNode (n : NodeId) (members : List (String × Json)) (name : String) :
    Respects K (bindNode n members name) := by
  unfold bindNode
  split
  · exact (reads_pure _).respects
  · refine respects_bind (respects_symbolOf _) fun s => ?_
    refine respects_bind (respects_aside fun _ _ _ => rfl) fun _ => ?_
    exact (reads_pure _).respects

theorem respects_freshNode : Respects K (create Program.freshNode) := by
  refine respects_create fun p q h => ⟨?_, h.aside (f := fun p => p.freshNode.2) fun _ _ _ => rfl⟩
  rw [h.rest]
  rfl

theorem respects_literalOf (start : Json) (members : List (String × Json)) :
    Respects K (literalOf start members) := by
  unfold literalOf
  split
  · exact (reads_pure _).respects
  · refine respects_bind respects_freshNode fun id => ?_
    exact respects_bind (respects_bindNode _ _ _) fun _ => (reads_pure _).respects

/-- The owner of a statement follows from what the nodes stand for, and that is the same in both
programs. -/
theorem respects_ownerOf (frame : Frame) (above : NodeId) : Respects K (ownerOf frame above) := by
  refine respects_get ?_ fun d => ?_
  · intro d e h
    rw [h.program.rest]
    rfl
  · dsimp only
    split
    · exact (reads_pure _).respects
    · exact (reads_throw _).respects

mutual

/-- A node may add a wildcard re-export to the table of any module, so from here on the drafts have
to agree on all symbols. The induction is on the entry, as in the reading of it. -/
theorem respects_node (frame : Frame) (above : NodeId) (parent j : Json) :
    Respects (fun _ => True) (node frame above parent j) := by
  match j with
  | .obj members =>
    rw [node]
    refine respects_bind (reads_kindOf ..).respects fun kind => ?_
    refine respects_bind respects_freshNode fun id => ?_
    refine respects_bind (respects_recordNode _ _) fun _ => ?_
    refine respects_bind (respects_bindNode _ _ _) fun _ => ?_
    refine respects_bind (respects_childrenOf frame id _ members) fun children => ?_
    refine respects_bind (respects_literalOf _ _) fun literal => ?_
    split
    · exact (reads_pure _).respects
    · split
      · refine respects_bind (respects_ownerOf _ _) fun owner => ?_
        refine respects_bind (respects_edit fun p q h => h.addWildcard owner id) fun _ => ?_
        exact (reads_pure _).respects
      · exact (reads_pure _).respects
  | .null | .bool _ | .int _ | .real _ | .str _ | .arr _ =>
    rw [node]
    · exact (reads_throw _).respects
    · simp

theorem respects_childrenOf (frame : Frame) (above : NodeId) (parent : Json)
    (members : List (String × Json)) :
    Respects (fun _ => True) (childrenOf frame above parent members) := by
  match members with
  | [] =>
    rw [childrenOf]
    exact (reads_pure _).respects
  | (name, value) :: rest =>
    rw [childrenOf]
    split
    · exact respects_nodesOf frame above parent value
    · exact respects_childrenOf frame above parent rest

theorem respects_nodesOf (frame : Frame) (above : NodeId) (parent value : Json) :
    Respects (fun _ => True) (nodesOf frame above parent value) := by
  match value with
  | .arr items =>
    rw [nodesOf]
    exact respects_nodes frame above parent items
  | .str s =>
    rw [nodesOf]
    split
    · exact (reads_pure _).respects
    · exact (reads_throw _).respects
  | .obj members =>
    rw [nodesOf]
    split
    · exact (reads_pure _).respects
    · exact (reads_throw _).respects
  | .null | .bool _ | .int _ | .real _ =>
    rw [nodesOf]
    · exact (reads_throw _).respects
    all_goals simp

theorem respects_nodes (frame : Frame) (above : NodeId) (parent : Json) (items : List Json) :
    Respects (fun _ => True) (nodes frame above parent items) := by
  match items with
  | [] =>
    rw [nodes]
    exact (reads_pure _).respects
  | j :: rest =>
    rw [nodes]
    refine respects_bind (respects_node frame above parent j) fun t => ?_
    refine respects_bind (respects_nodes frame above parent rest) fun ts => ?_
    exact (reads_pure _).respects

end

/-! ### Files -/

/-- A file that is added has the same identity in both programs, and so have its nodes. -/
theorem respects_addFile (j : Json) : Respects (fun _ => True) (addFile j) := by
  refine respects_bind (reads_entry j).respects fun members => ?_
  refine respects_bind (reads_required ..).respects fun fileName => ?_
  refine respects_bind (reads_lift _).respects fun name => ?_
  refine respects_bind (respects_create fun p q h => h.addFile name _) fun id => ?_
  refine respects_bind (respects_nodesOf _ _ _ _) fun trees => ?_
  refine respects_bind (respects_aside fun _ _ _ => rfl) fun _ => ?_
  exact (reads_pure _).respects

theorem respects_linkFile (file : FileEntry) : Respects (fun _ => True) (linkFile file) := by
  refine respects_bind (reads_exported _).respects fun table => ?_
  refine respects_bind (respects_addExports trivial table) fun _ => ?_
  refine respects_bind (reads_listed ..).respects fun ids => respects_forM fun id _ => ?_
  refine respects_bind (respects_symbolOf id) fun s => ?_
  exact respects_aside fun _ _ _ => rfl

theorem respects_addResolution (j : Json) : Respects K (addResolution j) := by
  refine respects_bind (reads_entry j).respects fun members => ?_
  refine respects_bind (reads_required ..).respects fun file => ?_
  refine respects_bind (reads_required ..).respects fun specifier => ?_
  refine respects_bind (reads_required ..).respects fun target => ?_
  refine respects_bind (reads_lift _).respects fun file => ?_
  refine respects_bind (reads_lift _).respects fun specifier => ?_
  exact respects_aside fun _ _ _ => rfl

end Parallel

end Snapshot

end ApiSurface
