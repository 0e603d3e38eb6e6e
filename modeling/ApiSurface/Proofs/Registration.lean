import ApiSurface.Proofs.Acceptance
import ApiSurface.Proofs.Visits
import Mathlib.Order.Nat

/-! Wildcard re-exports are recorded while the nodes of the files are built, each for the symbol
that owns it: what the node around it stands for, or else the symbol of the file. A node is bound as
soon as it is made and is never bound again, so that the owner can be read off the program in the
end. -/

namespace ApiSurface

namespace Snapshot

namespace Visit

/-- A wildcard re-export is an export declaration with a specifier and no entries below it. -/
def isWildcard (v : Visit) : Bool :=
  v.tree.node.kind = .exportDeclaration && v.specifier?.isSome &&
    (entriesOf v.entry "children").isEmpty

/-- The symbol that gets a wildcard re-export, where nodes stand for symbols. -/
def owner? (v : Visit) (symbolAt : NodeId → Option SymbolId) : Option SymbolId :=
  (v.around.head?.bind fun e => symbolAt e.2).or (symbolAt v.root)

end Visit

/-- Whether an entry of a node is a wildcard re-export. -/
theorem isWildcard_iff {root : NodeId} {around : List (Json × NodeId)}
    {members : List (String × Json)} {t : Tree} :
    Visit.isWildcard ⟨root, around, .obj members, t⟩ = true ↔ t.node.kind = .exportDeclaration ∧
      (given? members "moduleSpecifier").isSome ∧ entriesOf (.obj members) "children" = [] := by
  rw [Visit.isWildcard, Bool.and_eq_true, Bool.and_eq_true, decide_eq_true_iff, List.isEmpty_iff,
    and_assoc]
  rfl

/-- The wildcard re-exports that a symbol owns. -/
def ownedBy (m : SymbolId) (symbolAt : NodeId → Option SymbolId) (l : List Visit) : List NodeId :=
  (l.filter fun v => v.isWildcard && decide (v.owner? symbolAt = some m)).map
    fun v => v.tree.node.id

theorem ownedBy_append (m : SymbolId) (symbolAt : NodeId → Option SymbolId) (l l' : List Visit) :
    ownedBy m symbolAt (l ++ l') = ownedBy m symbolAt l ++ ownedBy m symbolAt l' := by
  rw [ownedBy, List.filter_append, List.map_append]
  rfl

theorem ownedBy_cons_of_not {v : Visit} (h : v.isWildcard = false) (m : SymbolId)
    (symbolAt : NodeId → Option SymbolId) (l : List Visit) :
    ownedBy m symbolAt (v :: l) = ownedBy m symbolAt l := by
  rw [ownedBy, List.filter_cons, if_neg (by simp [h])]
  rfl

theorem ownedBy_ne_nil_iff {m : SymbolId} {symbolAt : NodeId → Option SymbolId}
    {l : List Visit} : ownedBy m symbolAt l ≠ [] ↔
      ∃ v ∈ l, v.isWildcard = true ∧ v.owner? symbolAt = some m := by
  rw [ownedBy, ne_eq, List.map_eq_nil_iff, List.filter_eq_nil_iff]
  simp

end Snapshot

open Snapshot (Visit ownedBy)

/-! ### Records of wildcard re-exports -/

namespace Program

variable {p q r : Program} {l l' : List Visit} {m s : SymbolId} {n : NodeId}

/-- The wildcard re-exports that are recorded for a symbol. -/
def recorded (p : Program) (m : SymbolId) : List NodeId := (p.symbol (.wildcards m)).declarations

/-- A node that has been made. -/
def Made (p : Program) (n : NodeId) : Prop := ∃ i < p.nextNode, n = .node i

/-- A symbol that may own wildcard re-exports: no holder of them, and no module of a file that is
still to come. -/
def MayOwn (p : Program) (s : SymbolId) : Prop :=
  (∀ m, s ≠ .wildcards m) ∧ ∀ i, s = .ofFile (.node i) → i < p.nextNode

/-- The tables of a program have entries for wildcard re-exports where some are recorded, and only
there. -/
structure Tidy (p : Program) : Prop where
  entry : ∀ m, (p.tableOf m).get? (.text wildcardName) =
    if p.recorded m = [] then none else some ⟨.ofText wildcardName, .wildcards m⟩
  owners : ∀ m, p.recorded m ≠ [] → p.MayOwn m
  bound : ∀ n s, p.symbolAt n = some s → p.MayOwn s

theorem MayOwn.mono (h : p.MayOwn s) (hq : p.nextNode ≤ q.nextNode) : q.MayOwn s :=
  ⟨h.1, fun i hi => Nat.lt_of_lt_of_le (h.2 i hi) hq⟩

theorem mayOwn_listed (p : Program) (k : Key) : p.MayOwn (.listed k) := ⟨by simp, by simp⟩

theorem symbolAt_bind (n x : NodeId) (s : SymbolId) :
    (p.bind n s).symbolAt x = if n = x then s.present? else p.symbolAt x := by
  unfold symbolAt bind
  rw [Table.get?_insert]
  split <;> rfl

theorem Tidy.wildcardHolder? (h : p.Tidy) (m : SymbolId) :
    p.wildcardHolder? m = if p.recorded m = [] then none else some (.wildcards m) := by
  rw [Program.wildcardHolder?, h.entry]
  split <;> rfl

/-- A change that keeps the symbols. -/
theorem Tidy.congr (h : p.Tidy) (hs : q.symbols = p.symbols) (hn : p.nextNode ≤ q.nextNode)
    (hb : ∀ n s, q.symbolAt n = some s → q.MayOwn s) : q.Tidy where
  entry m := by
    rw [recorded, tableOf, symbol, symbol, hs]
    exact h.entry m
  owners m hm := by
    rw [recorded, symbol, hs] at hm
    exact (h.owners m hm).mono hn
  bound := hb

theorem Tidy.freshNode (h : p.Tidy) : p.freshNode.2.Tidy :=
  h.congr rfl (Nat.le_succ _) fun n s hs => (h.bound n s hs).mono (Nat.le_succ _)

theorem Tidy.bind (h : p.Tidy) (n : NodeId) (hs : p.MayOwn s) : (p.bind n s).Tidy := by
  refine h.congr rfl (Nat.le_refl _) fun x t ht => ?_
  rw [symbolAt_bind] at ht
  split at ht
  · exact (Entity.present?_eq_some.mp ht).1 ▸ hs
  · exact h.bound x t ht

theorem bindings_addWildcard (owner : SymbolId) (n : NodeId) :
    (p.addWildcard owner n).bindings = p.bindings := by
  unfold addWildcard
  split <;> rfl

theorem nextNode_addWildcard (owner : SymbolId) (n : NodeId) :
    (p.addWildcard owner n).nextNode = p.nextNode := by
  unfold addWildcard
  split <;> rfl

theorem recorded_addWildcard (h : p.Tidy) {owner : SymbolId} (ho : p.MayOwn owner) (n : NodeId)
    (m : SymbolId) : (p.addWildcard owner n).recorded m =
      p.recorded m ++ if owner = m then [n] else [] := by
  have hsame : Entity.wildcards owner = .wildcards m ↔ owner = m := by simp
  unfold addWildcard
  rw [h.wildcardHolder?]
  by_cases hr : p.recorded owner = []
  · rw [if_pos hr]
    dsimp only
    rw [recorded, modifySymbol, symbol_putSymbol, if_neg (ho.1 m), symbol_putSymbol]
    by_cases hm : owner = m
    · subst hm
      rw [if_pos rfl, if_pos rfl, hr]
      rfl
    · rw [if_neg (hsame.not.mpr hm), if_neg hm, List.append_nil]
      rfl
  · rw [if_neg hr]
    dsimp only
    rw [recorded, addDeclaration, modifySymbol, symbol_putSymbol]
    by_cases hm : owner = m
    · subst hm
      rw [if_pos rfl, if_pos rfl]
      rfl
    · rw [if_neg (hsame.not.mpr hm), if_neg hm, List.append_nil]
      rfl

theorem Tidy.addWildcard (h : p.Tidy) {owner : SymbolId} (ho : p.MayOwn owner) (n : NodeId) :
    (p.addWildcard owner n).Tidy where
  entry m := by
    rw [recorded_addWildcard h ho]
    unfold Program.addWildcard
    rw [h.wildcardHolder?]
    by_cases hr : p.recorded owner = []
    · rw [if_pos hr]
      dsimp only
      rw [tableOf, modifySymbol, symbol_putSymbol]
      by_cases hm : owner = m
      · subst hm
        rw [if_pos rfl, if_pos rfl, if_neg (by simp)]
        simp [Table.get?_insert]
      · rw [if_neg hm, if_neg hm, List.append_nil, ← h.entry, symbol_putSymbol]
        by_cases hw : Entity.wildcards owner = m
        · -- no holder owns anything, so that its table had no entry either
          have hnone : p.recorded m = [] := by
            by_contra hne
            exact (h.owners m hne).1 owner hw.symm
          rw [if_pos hw, h.entry, if_pos hnone]
          rfl
        · rw [if_neg hw]
          rfl
    · rw [if_neg hr]
      dsimp only
      have htable : (p.addDeclaration (.wildcards owner) n).tableOf m = p.tableOf m := by
        rw [tableOf, Program.addDeclaration, modifySymbol, symbol_putSymbol]
        split
        · rename_i hw
          rw [hw]
          rfl
        · rfl
      rw [htable, h.entry]
      by_cases hm : owner = m
      · subst hm
        rw [if_neg hr, if_neg (by simp)]
      · rw [if_neg hm, List.append_nil]
  owners m hm := by
    rw [recorded_addWildcard h ho] at hm
    refine MayOwn.mono ?_ (nextNode_addWildcard owner n).ge
    by_cases he : owner = m
    · exact he ▸ ho
    · rw [if_neg he, List.append_nil] at hm
      exact h.owners m hm
  bound x t ht := by
    rw [symbolAt, bindings_addWildcard] at ht
    exact (h.bound x t ht).mono (nextNode_addWildcard owner n).ge

/-! ### Registration -/

theorem Made.mono (h : p.Made n) (hq : p.nextNode ≤ q.nextNode) : q.Made n := by
  obtain ⟨i, hi, rfl⟩ := h
  exact ⟨i, Nat.lt_of_lt_of_le hi hq, rfl⟩

/-- From one program to another the wildcard re-exports of some nodes have been recorded, each with
what owns it in the end, and nodes that had been made before stand for what they stood for. -/
structure Registers (p q : Program) (l : List Visit) : Prop where
  tidy : q.Tidy
  next : p.nextNode ≤ q.nextNode
  old : ∀ n, p.Made n → q.symbolAt n = p.symbolAt n
  recorded : ∀ symbolAt : NodeId → Option SymbolId, (∀ n, q.Made n → symbolAt n = q.symbolAt n) →
    ∀ m, q.recorded m = p.recorded m ++ ownedBy m symbolAt l

theorem Registers.trans (h : p.Registers q l) (h' : q.Registers r l') :
    p.Registers r (l ++ l') where
  tidy := h'.tidy
  next := h.next.trans h'.next
  old n hn := (h'.old n (hn.mono h.next)).trans (h.old n hn)
  recorded symbolAt hat m := by
    have hq : ∀ n, q.Made n → symbolAt n = q.symbolAt n :=
      fun n hn => (hat n (hn.mono h'.next)).trans (h'.old n hn)
    rw [h'.recorded symbolAt hat, h.recorded symbolAt hq, Snapshot.ownedBy_append,
      List.append_assoc]

theorem Registers.cons_of_not (h : p.Registers q l) {v : Visit} (hv : v.isWildcard = false) :
    p.Registers q (v :: l) :=
  { h with
    recorded := fun symbolAt hat m => by
      rw [Snapshot.ownedBy_cons_of_not hv]
      exact h.recorded symbolAt hat m }

/-- Nothing is recorded where the symbols stay. -/
theorem registers_of_symbols (hq : q.Tidy) (hs : q.symbols = p.symbols)
    (hn : p.nextNode ≤ q.nextNode) (ho : ∀ n, p.Made n → q.symbolAt n = p.symbolAt n) :
    p.Registers q [] where
  tidy := hq
  next := hn
  old := ho
  recorded symbolAt _ m := by
    rw [Program.recorded, symbol, hs]
    exact (List.append_nil _).symm

theorem Tidy.registers_self (h : p.Tidy) : p.Registers p [] :=
  registers_of_symbols h rfl (Nat.le_refl _) fun _ _ => rfl

theorem Tidy.registers_freshNode (h : p.Tidy) : p.Registers p.freshNode.2 [] :=
  registers_of_symbols h.freshNode rfl (Nat.le_succ _) fun _ _ => rfl

theorem Tidy.registers_bind (h : p.Tidy) (k : Key) :
    p.Registers (p.freshNode.2.bind p.freshNode.1 (.listed k)) [] := by
  refine registers_of_symbols (h.freshNode.bind _ (mayOwn_listed _ k)) rfl (Nat.le_succ _) ?_
  rintro n ⟨i, hi, rfl⟩
  rw [symbolAt_bind, if_neg]
  · rfl
  · intro he
    exact Nat.lt_irrefl _ (Entity.node.inj he ▸ hi)

theorem made_freshNode (p : Program) : p.freshNode.2.Made p.freshNode.1 :=
  ⟨p.nextNode, Nat.lt_succ_self _, rfl⟩

/-- A wildcard re-export is recorded for its owner. -/
theorem Tidy.registers_addWildcard (h : p.Tidy) {v : Visit} {owner : SymbolId}
    (hn : v.tree.node.id = n) (hv : v.isWildcard = true) (ho : v.owner? p.symbolAt = some owner)
    (hroot : p.Made v.root) (haround : ∀ e ∈ v.around.head?, p.Made e.2) :
    p.Registers (p.addWildcard owner n) [v] := by
  have hmay : p.MayOwn owner := by
    rcases Option.or_eq_some_iff.mp ho with hs | ⟨_, hs⟩
    · obtain ⟨e, _, hs⟩ := Option.bind_eq_some_iff.mp hs
      exact h.bound _ _ hs
    · exact h.bound _ _ hs
  have hat (x : NodeId) : (p.addWildcard owner n).symbolAt x = p.symbolAt x := by
    rw [symbolAt, bindings_addWildcard]
    rfl
  refine ⟨h.addWildcard hmay _, (nextNode_addWildcard ..).ge, fun x _ => hat x, ?_⟩
  intro symbolAt hagrees m
  have hmade : ∀ x, p.Made x → symbolAt x = p.symbolAt x :=
    fun x hx => (hagrees x (hx.mono (nextNode_addWildcard ..).ge)).trans (hat x)
  have howner : v.owner? symbolAt = some owner := by
    rw [← ho, Visit.owner?, Visit.owner?, hmade _ hroot]
    congr 1
    cases hhead : v.around.head? with
    | none => rfl
    | some e => exact hmade _ (haround e hhead)
  rw [recorded_addWildcard h hmay]
  congr 1
  by_cases hm : owner = m
  · simp [ownedBy, hv, howner, hm, hn]
  · simp [ownedBy, hv, howner, hm]

/-! A file brings a node and a symbol that nothing has been recorded for. -/

theorem recorded_addFile (name : Name) (options : FileOptions) (m : SymbolId) :
    (p.addFile name options).2.recorded m = p.recorded m := by
  rw [recorded, symbol, symbols_addFile]
  split
  · rw [Table.get?_insert, if_neg (by simp)]
    rfl
  · rfl

theorem nextNode_addFile (name : Name) (options : FileOptions) :
    (p.addFile name options).2.nextNode = p.nextNode + 1 := by
  unfold addFile
  cases options.isModule <;> rfl

theorem made_addFile (p : Program) (name : Name) (options : FileOptions) :
    (p.addFile name options).2.Made (p.addFile name options).1 := by
  unfold addFile
  cases options.isModule <;> exact ⟨p.nextNode, Nat.lt_succ_self _, rfl⟩

theorem symbolAt_addFile (name : Name) (options : FileOptions) (x : NodeId) :
    (p.addFile name options).2.symbolAt x = if .node p.nextNode = x then
      some (if options.isModule then .ofFile (.node p.nextNode) else .globalThis)
      else p.symbolAt x := by
  unfold addFile
  cases options.isModule <;> exact symbolAt_bind ..

theorem Tidy.addFile (h : p.Tidy) (name : Name) (options : FileOptions) :
    (p.addFile name options).2.Tidy where
  entry m := by
    rw [recorded_addFile, tableOf, symbol, symbols_addFile]
    split
    · rw [Table.get?_insert]
      split
      · rename_i hm
        have hnone : p.recorded m = [] := by
          by_contra hne
          exact Nat.lt_irrefl _ ((h.owners m hne).2 _ hm.symm)
        rw [if_pos hnone]
        rfl
      · exact h.entry m
    · exact h.entry m
  owners m hm := by
    rw [recorded_addFile] at hm
    exact (h.owners m hm).mono (nextNode_addFile name options ▸ Nat.le_succ _)
  bound x s hs := by
    rw [symbolAt_addFile] at hs
    split at hs
    · obtain rfl := Option.some.inj hs
      rw [MayOwn, nextNode_addFile]
      split
      · exact ⟨by simp, by simp⟩
      · exact ⟨by simp, by simp⟩
    · exact (h.bound x s hs).mono (nextNode_addFile name options ▸ Nat.le_succ _)

theorem Tidy.registers_addFile (h : p.Tidy) (name : Name) (options : FileOptions) :
    p.Registers (p.addFile name options).2 [] where
  tidy := h.addFile name options
  next := nextNode_addFile name options ▸ Nat.le_succ _
  old := by
    rintro n ⟨i, hi, rfl⟩
    rw [symbolAt_addFile, if_neg]
    exact fun he => Nat.lt_irrefl _ (Entity.node.inj he ▸ hi)
  recorded symbolAt _ m := by
    rw [recorded_addFile]
    exact (List.append_nil _).symm

theorem Tidy.registers_modifyTree (h : p.Tidy) (n : NodeId) (f : Tree → Tree) :
    p.Registers (p.modifyTree n f) [] :=
  registers_of_symbols (h.congr rfl (Nat.le_refl _) h.bound) rfl (Nat.le_refl _) fun _ _ => rfl

end Program

/-! ### Building nodes -/

namespace Snapshot

open Program

variable {d : Draft}

/-- The nodes around a place have been made. -/
structure Draft.Ready (frame : Frame) (above : NodeId) (around : List (Json × NodeId)) (d : Draft) :
    Prop where
  tidy : d.program.Tidy
  rootMade : d.program.Made frame.root
  aboveMade : d.program.Made above
  nearest : around.head?.map Prod.snd = if above = frame.root then none else some above

section Nodes

variable {frame : Frame} {above : NodeId} {around : List (Json × NodeId)}

theorem Draft.Ready.mono (h : d.Ready frame above around) {d' : Draft} {l : List Visit}
    (hr : d.program.Registers d'.program l) : d'.Ready frame above around :=
  ⟨hr.tidy, h.rootMade.mono hr.next, h.aboveMade.mono hr.next, h.nearest⟩

/-- Below a new node, which is not that of the file. -/
theorem Draft.Ready.below (h : d.Ready frame above around) (j : Json) {d' : Draft} {l : List Visit}
    (hr : d.program.Registers d'.program l) (hm : d'.program.Made d.program.freshNode.1) :
    d'.Ready frame d.program.freshNode.1 ((j, d.program.freshNode.1) :: around) := by
  refine ⟨hr.tidy, h.rootMade.mono hr.next, hm, ?_⟩
  rw [if_neg]
  · rfl
  · obtain ⟨i, hi, hroot⟩ := h.rootMade
    intro he
    exact Nat.lt_irrefl _ (Entity.node.inj (he.trans hroot) ▸ hi)

/-- Either the node above is that of the nearest entry around, or it is that of the file. -/
theorem Draft.Ready.cases (h : d.Ready frame above around) :
    (∃ e, around.head? = some e ∧ above = e.2 ∧ above ≠ frame.root) ∨
      around.head? = none ∧ above = frame.root := by
  have hnearest := h.nearest
  split at hnearest
  · exact Or.inr ⟨Option.map_eq_none_iff.mp hnearest, ‹_›⟩
  · obtain ⟨e, he, rfl⟩ := Option.map_eq_some_iff.mp hnearest
    exact Or.inl ⟨e, he, rfl, ‹_›⟩

theorem Draft.Ready.made_head (h : d.Ready frame above around) :
    ∀ e ∈ around.head?, d.program.Made e.2 := by
  intro e he
  obtain ⟨e', he', rfl, _⟩ | ⟨hnone, _⟩ := h.cases
  · exact Option.some.inj (he'.symm.trans he) ▸ h.aboveMade
  · cases hnone.symm.trans he

/-- The owner is read off the nodes around. -/
theorem owner_ownerOf (h : d.Ready frame above around) {post : SymbolId → Draft → Prop}
    (hpost : ∀ owner, (around.head?.bind fun e => d.program.symbolAt e.2).or
      (d.program.symbolAt frame.root) = some owner → post owner d) :
    Yields (ownerOf frame above) d post := by
  have hnested : (if above = frame.root then none else d.program.symbolAt above) =
      around.head?.bind fun e => d.program.symbolAt e.2 := by
    obtain ⟨e, he, rfl, hne⟩ | ⟨hnone, he⟩ := h.cases
    · rw [if_neg hne, he, Option.bind_some]
    · rw [if_pos he, hnone, Option.bind_none]
  refine yields_bind (yields_get ?_)
  dsimp only
  rw [hnested]
  split
  · exact yields_pure (hpost _ ‹_›)
  · exact yields_throw _

theorem program_recordNode {n : NodeId} {members : List (String × Json)} :
    Yields (recordNode n members) d fun _ d' => d'.program = d.program := by
  unfold recordNode
  split
  · refine yields_bind (yields_keyOf fun key _ => ?_)
    intro _ d' hr
    cases hr
    rfl
  · exact yields_pure rfl

/-- A new node is bound, or left unbound. -/
theorem registers_bindNode {p : Program} {members : List (String × Json)} {name : String}
    (h : p.Tidy) (hd : d.program = p.freshNode.2) :
    Yields (bindNode p.freshNode.1 members name) d fun _ d' =>
      p.Registers d'.program [] ∧ d'.program.Made p.freshNode.1 := by
  unfold bindNode
  split
  · refine yields_pure ?_
    rw [hd]
    exact ⟨h.registers_freshNode, made_freshNode p⟩
  · refine yields_bind (yields_symbolOf_key fun k _ _ => yields_bind (yields_edit (yields_pure ?_)))
    change p.Registers (d.program.bind _ _) [] ∧ (d.program.bind _ _).Made _
    rw [hd]
    exact ⟨h.registers_bind k, made_freshNode p⟩

theorem registers_literalOf {start : Json} {members : List (String × Json)}
    (h : d.program.Tidy) :
    Yields (literalOf start members) d fun _ d' => d.program.Registers d'.program [] := by
  unfold literalOf
  split
  · exact yields_pure h.registers_self
  · refine yields_bind (yields_create (yields_bind ?_))
    exact (registers_bindNode h rfl).mono fun _ d' h' => yields_pure h'.1

/-- Building nodes registers the wildcards among them. -/
theorem nodeCases_registers (frame : Frame) :
    NodeCases frame fun above _ d js ts d' => ∀ around : List (Json × NodeId),
      d.Ready frame above around →
        d.program.Registers d'.program (visitsAll frame.root around js ts) where
  nil _ _ d around h := by simpa using h.tidy.registers_self
  cons {_ _ _ _ _ j js t ts} h₁ h₂ around h := by
    rw [visitsAll_cons]
    exact (h₁ around h).trans (h₂ around (h.mono (h₁ around h)))
  node above parent members d hbelow := by
    refine yields_forall fun around => yields_forall fun h => ?_
    rw [node]
    refine yields_bind (yields_kindOf fun kind _ => yields_bind (yields_create ?_))
    refine yields_bind (program_recordNode.mono fun _ d₁ hd₁ => yields_bind ?_)
    refine (registers_bindNode h.tidy hd₁).mono ?_
    rintro _ d₂ ⟨h₂, hmade⟩
    have hshows := (nodeCases_shows frame).yields_childrenOf d.program.freshNode.1
      (startOf parent members) members d₂
    refine yields_bind (((hbelow _ _ d₂).and hshows).mono ?_)
    rintro children d₃ ⟨hregisters, hshows⟩
    have h₃ := hregisters _ (h.below (.obj members) h₂ hmade)
    have hlength := hshows.length_eq.symm
    have hempty : entriesOf (.obj members) "children" = [] ↔ children = [] := by
      rw [← List.length_eq_zero_iff, ← hlength, List.length_eq_zero_iff]
    refine yields_bind (((registers_literalOf h₃.tidy).and drawn_literalOf).mono ?_)
    rintro literal d₄ ⟨h₄, hliteral⟩
    have hbuilt := (h₂.trans h₃).trans h₄
    rw [List.nil_append, List.append_nil] at hbuilt
    split
    · have hnone : given? members "moduleSpecifier" = none :=
        Option.map_eq_none_iff.mp hliteral.symm
      refine yields_pure ?_
      rw [visitsAll_singleton]
      refine hbuilt.cons_of_not (Bool.not_eq_true _ ▸ fun hw => ?_)
      rw [isWildcard_iff, hnone] at hw
      cases hw.2.1
    · obtain ⟨text, hsome, _⟩ := Option.map_eq_some_iff.mp hliteral.symm
      split
      · rename_i hw
        obtain ⟨hkind, hnil⟩ := hw
        obtain rfl := List.isEmpty_iff.mp hnil
        rw [visitsAll_nil] at hbuilt
        have hready := h.mono hbuilt
        refine yields_bind (owner_ownerOf hready fun owner howner => ?_)
        refine yields_bind (yields_edit (yields_pure ?_))
        rw [visitsAll_singleton, visitsAll_append _ _ hlength, visitsAll_nil]
        refine hbuilt.trans (hready.tidy.registers_addWildcard rfl ?_ howner hready.rootMade
          hready.made_head)
        rw [isWildcard_iff, hsome]
        exact ⟨hkind, rfl, hempty.mpr rfl⟩
      · rename_i hw
        refine yields_pure ?_
        rw [visitsAll_singleton, visitsAll_append _ _ hlength]
        refine hbuilt.cons_of_not (Bool.not_eq_true _ ▸ fun hv => hw ?_)
        obtain ⟨hkind, _, hentries⟩ := isWildcard_iff.mp hv
        exact ⟨hkind, List.isEmpty_iff.mpr (hempty.mp hentries)⟩

end Nodes

/-! ### Files -/

variable {known : SymbolId → Prop} {sources : List SourceFile}

theorem registers_addFile {j : Json} (h : d.program.Tidy) (hok : d.Ok .any known sources []) :
    Yields (addFile j) d fun _ d' => ∃ f, d'.program.sources = sources ++ [f] ∧ DrawsFile j f ∧
      d.program.Registers d'.program (fileVisits j f) := by
  refine yields_bind (yields_entry fun members hm => yields_bind (yields_required fun fileName hf =>
    yields_bind (yields_lift fun name hname => yields_bind (yields_create ?_))))
  subst hm
  let options : FileOptions :=
    { isModule := isSet members "module" true
      isExternal := isSet members "externalLibrary" false
      isDefault := isSet members "defaultLibrary" false
      noDefaultLib := isSet members "noDefaultLib" false }
  let id := (d.program.addFile name options).1
  have hadd := h.registers_addFile name options
  have hmade := made_addFile d.program name options
  have hready : Draft.Ready ⟨name, id⟩ id []
      { d with program := (d.program.addFile name options).2 } :=
    ⟨hadd.tidy, hmade, hmade, (if_pos rfl).symm⟩
  have hbuilt := yields_nodesOf ⟨name, id⟩ id (.int 0)
    ((Json.member? members "statements").getD (.arr [])) (hok.addFile name options) trivial
    fun t _ => nodeConforms_any t
  have hshows := (nodeCases_shows ⟨name, id⟩).yields_nodesOf id (.int 0)
    ((Json.member? members "statements").getD (.arr []))
    { d with program := (d.program.addFile name options).2 }
  have hdrawn := (nodeCases_drawn ⟨name, id⟩ id).yields_nodesOf id (.int 0)
    ((Json.member? members "statements").getD (.arr []))
    { d with program := (d.program.addFile name options).2 }
  have hregisters := (nodeCases_registers ⟨name, id⟩).yields_nodesOf id (.int 0)
    ((Json.member? members "statements").getD (.arr []))
    { d with program := (d.program.addFile name options).2 }
  rw [items_getD] at hshows hdrawn hregisters
  refine yields_bind (((hbuilt.and hshows).and (hdrawn.and hregisters)).mono ?_)
  rintro trees d₁ ⟨⟨⟨hok₁, _⟩, hshows⟩, hdrawn, hregisters⟩
  have hdrawn := hdrawn [] rfl
  have hregisters := hregisters [] hready
  refine yields_bind (yields_edit (yields_pure ?_))
  refine ⟨{ emptyFile id name options with tree := .mk { id, kind := .sourceFile } trees },
    hok₁.wellFormed.sources_install hok₁.sources rfl,
    ⟨⟨fileName, hf, hname⟩, rfl, hshows.length_eq.symm, hdrawn⟩, ?_⟩
  have hall := (hadd.trans hregisters).trans (hregisters.tidy.registers_modifyTree id
    fun t => .mk t.node trees)
  rw [List.nil_append, List.append_nil] at hall
  exact hall

theorem registers_addFiles {l : List Json} (h : d.program.Tidy)
    (hok : d.Ok .any known sources []) :
    Yields (l.mapM addFile) d fun _ d' => ∃ fs, d'.program.sources = sources ++ fs ∧
      List.Forall₂ DrawsFile l fs ∧
        d.program.Registers d'.program (List.zipWith fileVisits l fs).flatten := by
  induction l generalizing d known sources with
  | nil =>
    rw [List.mapM_nil]
    exact yields_pure ⟨[], by rw [List.append_nil, hok.sources], .nil, h.registers_self⟩
  | cons j l ih =>
    rw [List.mapM_cons]
    have hfile := yields_addFile (j := j) hok fun t _ => nodeConforms_any t
    refine yields_bind ((hfile.and (registers_addFile h hok)).mono ?_)
    rintro file d₁ ⟨⟨g, _, hok₁⟩, f, hf, hdraws, h₁⟩
    obtain rfl : g = f := by
      have := hok₁.sources.symm.trans hf
      simpa using this
    refine yields_bind ((ih h₁.tidy hok₁).mono ?_)
    rintro files d₂ ⟨fs, hfs, hall, h₂⟩
    rw [List.append_assoc] at hfs
    exact yields_pure ⟨g :: fs, hfs, .cons hdraws hall, h₁.trans h₂⟩

end Snapshot

end ApiSurface
