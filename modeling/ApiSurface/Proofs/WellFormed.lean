import ApiSurface.Proofs.Trees

/-! Well-formed programs: every node has one identity and stands in a file, and what is held
in the place of a symbol or a node is one. The edits that loading is made of keep a program so,
also while the nodes of a file are on the way and do not yet stand in its tree. -/

namespace ApiSurface

/-- What the values of a document may be where a program looks at them: the names of symbols,
the starts of nodes, the texts of specifiers and the names of resolved files. -/
structure Shape where
  name : Json → Prop
  start : Json → Prop
  specifier : Json → Prop
  fileName : Json → Prop
  name_str : ∀ s, name (.str s)
  start_zero : start (.int 0)

namespace Shape

/-- Any values at all. -/
def any : Shape := ⟨fun _ => True, fun _ => True, fun _ => True, fun _ => True, by simp, trivial⟩

/-- Names, specifiers and files by text, and integers as starts. -/
def plain : Shape where
  name j := ∃ s, j = .str s
  start j := ∃ n, j = .int n
  specifier j := ∃ s, j = .str s
  fileName j := ∃ s, j = .str s
  name_str s := ⟨s, rfl⟩
  start_zero := ⟨0, rfl⟩

end Shape

/-- A node that has a specifier has it among its children. -/
def Tree.Conforms (S : Shape) (t : Tree) : Prop :=
  ∀ u ∈ Tree.preorder [t], S.start u.node.start ∧ (u.node.specifier = .nothing ∨
    ∃ l ∈ u.children, l.node.id = u.node.specifier ∧ l.node.kind = .stringLiteral ∧
      ∃ v, l.node.text = some v ∧ S.specifier v)

/-- A root without children has no specifier, whatever is put below it later. -/
theorem Tree.Conforms.grow {S : Shape} {n : Node} {trees : List Tree}
    (h : Tree.Conforms S (.mk n [])) (ht : ∀ t ∈ trees, t.Conforms S) :
    Tree.Conforms S (.mk n trees) := by
  intro u hu
  rw [Tree.preorder_singleton, Tree.descendants, List.mem_cons] at hu
  rcases hu with rfl | hu
  · have hroot := h (.mk n []) (by simp [Tree.preorder_singleton])
    refine ⟨hroot.1, Or.inl ?_⟩
    rcases hroot.2 with hspec | ⟨l, hl, _⟩
    · exact hspec
    · cases hl
  · obtain ⟨t, htm, hu⟩ := Tree.mem_preorder.mp hu
    exact ht t htm u (Tree.mem_preorder.mpr ⟨t, List.mem_singleton.mpr rfl, hu⟩)

namespace SourceFile

/-- The symbol that a file stands for. -/
def symbol (f : SourceFile) : SymbolId := if f.isModule then .ofFile f.id else .globalThis

/-- The name of the module of a file. -/
def moduleName (f : SourceFile) : Json := .str ("\"" ++ f.name.shown ++ "\"")

end SourceFile

/-- What a symbol holds is there. -/
structure SymbolOk (S : Shape) (holds : SymbolId → Prop) (ids : List NodeId) (x : Symbol) :
    Prop where
  name : S.name x.name
  declarations : ∀ d ∈ x.declarations, d ∈ ids
  exports : ∀ t, x.exports = some t → ∀ k e, t.get? k = some e → holds e.symbol
  specifier : x.specifier = none

theorem SymbolOk.mono {S : Shape} {holds holds' : SymbolId → Prop} {ids ids' : List NodeId}
    {x : Symbol} (h : SymbolOk S holds ids x) (hh : ∀ s, holds s → holds' s) (hi : ids ⊆ ids') :
    SymbolOk S holds' ids' x where
  name := h.name
  declarations d hd := hi (h.declarations d hd)
  exports t ht k e he := hh _ (h.exports t ht k e he)
  specifier := h.specifier

namespace Program

/-- A symbol of the program other than the unknown one. -/
def Holds (p : Program) (s : SymbolId) : Prop := s ∈ p.symbolIds ∧ s ≠ .unknown

/-- A program whose parts are there, except that some nodes are on the way to their file. -/
structure WellFormed (S : Shape) (pending : List NodeId) (p : Program) : Prop where
  loose : p.loose = []
  nodup : (p.nodeIds ++ pending).Nodup
  fresh : ∀ n ∈ p.nodeIds ++ pending, ∃ i < p.nextNode, n = .node i
  symbols : ∀ s x, p.symbols.get? s = some x → SymbolOk S p.Holds (p.nodeIds ++ pending) x
  unknown : p.symbols.get? .unknown = some { name := .str "unknown" }
  globalThis : p.Holds .globalThis
  absent : .nothing ∉ p.symbolIds
  bindings : ∀ n s, p.bindings.get? n = some s → p.Holds s
  aliases : ∀ s t, p.aliasTargets.get? s = some t → p.Holds t
  locals : ∀ k l, p.locals.get? k = some l → ∀ s ∈ l, p.Holds s
  globals : ∀ s ∈ p.globals, p.Holds s
  files : ∀ k n, p.files.get? k = some n → ∃ f ∈ p.sources, f.id = n ∧ f.name.key = k
  roots : ∀ f ∈ p.sources, p.bindings.get? f.id = some f.symbol
  modules : ∀ f ∈ p.sources, f.isModule = true →
    ∀ x, p.symbols.get? (.ofFile f.id) = some x → x.name = f.moduleName
  trees : ∀ f ∈ p.sources, f.tree.Conforms S
  resolutions : ∀ k r, p.resolutions.get? k = some r → S.fileName r.fileName

variable {S : Shape} {pending : List NodeId} {p : Program}

theorem empty_wellFormed (S : Shape) : Program.empty.WellFormed S [] where
  loose := rfl
  nodup := List.nodup_nil
  fresh := by simp [nodeIds, Program.empty]
  symbols s x h := by
    have hx : x.declarations = [] ∧ x.exports = none ∧ x.specifier = none ∧
        ∃ n, x.name = .str n := by
      simp only [Program.empty, Table.get?_insert] at h
      split at h
      · cases h
        exact ⟨rfl, rfl, rfl, _, rfl⟩
      · split at h
        · cases h
          exact ⟨rfl, rfl, rfl, _, rfl⟩
        · cases h
    obtain ⟨hd, he, hs, n, hn⟩ := hx
    exact ⟨hn ▸ S.name_str n, by simp [hd], by simp [he], hs⟩
  unknown := rfl
  globalThis := ⟨by decide, by decide⟩
  absent := by decide
  bindings := by simp [Program.empty]
  aliases := by simp [Program.empty]
  locals := by simp [Program.empty]
  globals := by simp [Program.empty]
  files := by simp [Program.empty]
  roots := by simp [Program.empty]
  modules := by simp [Program.empty]
  trees := by simp [Program.empty]
  resolutions := by simp [Program.empty]

/-! ### Symbols -/

theorem mem_symbolIds_putSymbol {s t : SymbolId} {x : Symbol} :
    t ∈ (p.putSymbol s x).symbolIds ↔ t = s ∨ t ∈ p.symbolIds :=
  Table.mem_keys_insert

theorem Holds.putSymbol {s t : SymbolId} {x : Symbol} (h : p.Holds t) :
    (p.putSymbol s x).Holds t :=
  ⟨mem_symbolIds_putSymbol.mpr (Or.inr h.1), h.2⟩

theorem Holds.modifySymbol {s t : SymbolId} {f : Symbol → Symbol} (h : p.Holds t) :
    (p.modifySymbol s f).Holds t :=
  h.putSymbol

theorem Holds.setAliasTarget {s t u : SymbolId} (h : p.Holds t) :
    (p.setAliasTarget s u).Holds t :=
  ⟨Table.mem_keys_insert.mpr (Or.inr h.1), h.2⟩

namespace WellFormed

/-- Every symbol is all right, also one that is not there. -/
theorem symbolOk (h : p.WellFormed S pending) (s : SymbolId) :
    SymbolOk S p.Holds (p.nodeIds ++ pending) (p.symbol s) := by
  by_cases hs : s ∈ p.symbolIds
  · obtain ⟨x, hx⟩ := mem_symbolIds_iff.mp hs
    exact symbol_of_get? hx ▸ h.symbols s x hx
  · rw [symbol_of_notMem hs]
    exact ⟨S.name_str _, by simp, by simp, rfl⟩

theorem ne_nothing (h : p.WellFormed S pending) {s : SymbolId} (hs : p.Holds s) : s ≠ .nothing := by
  rintro rfl
  exact h.absent hs.1

theorem holds_symbolAt (h : p.WellFormed S pending) {n : NodeId} {s : SymbolId}
    (hs : p.symbolAt n = some s) : p.Holds s :=
  h.bindings n s (symbolAt_eq_some.mp hs).1

theorem symbolAt_file (h : p.WellFormed S pending) {f : SourceFile} (hf : f ∈ p.sources) :
    p.symbolAt f.id = some f.symbol :=
  have hb := h.roots f hf
  symbolAt_eq_some.mpr ⟨hb, h.ne_nothing (h.bindings _ _ hb)⟩

theorem holds_of_table (h : p.WellFormed S pending) {s : SymbolId} {k : Key} {e : Exported}
    (he : (p.tableOf s).get? k = some e) : p.Holds e.symbol := by
  unfold tableOf at he
  cases ht : (p.symbol s).exports with
  | none => simp [ht] at he
  | some t =>
    rw [ht] at he
    exact (h.symbolOk s).exports t ht k e he

theorem putSymbol (h : p.WellFormed S pending) {s : SymbolId} {x : Symbol} (hu : s ≠ .unknown)
    (hn : s ≠ .nothing) (hx : SymbolOk S p.Holds (p.nodeIds ++ pending) x)
    (hfile : ∀ f ∈ p.sources, f.isModule = true → s = .ofFile f.id → x.name = f.moduleName) :
    (p.putSymbol s x).WellFormed S pending :=
  { h with
    symbols := by
      intro t y ht
      have mono : ∀ t, p.Holds t → (p.putSymbol s x).Holds t := fun _ ht => ht.putSymbol
      change (p.symbols.insert s x).get? t = some y at ht
      rw [Table.get?_insert] at ht
      split at ht
      · exact Option.some.inj ht ▸ hx.mono mono (List.Subset.refl _)
      · exact (h.symbols t y ht).mono mono (List.Subset.refl _)
    unknown := by
      change (p.symbols.insert s x).get? _ = _
      rw [Table.get?_insert, if_neg hu, h.unknown]
    globalThis := h.globalThis.putSymbol
    absent := by
      rw [mem_symbolIds_putSymbol, not_or]
      exact ⟨hn.symm, h.absent⟩
    bindings := fun n t ht => (h.bindings n t ht).putSymbol
    aliases := fun t u ht => (h.aliases t u ht).putSymbol
    locals := fun k l hl t ht => (h.locals k l hl t ht).putSymbol
    globals := fun t ht => (h.globals t ht).putSymbol
    modules := by
      intro f hf hmod y hy
      change (p.symbols.insert s x).get? _ = _ at hy
      rw [Table.get?_insert] at hy
      split at hy
      · rename_i hs
        exact Option.some.inj hy ▸ hfile f hf hmod hs
      · exact h.modules f hf hmod y hy }

/-- A symbol that is there may change, except for its name. -/
theorem modifySymbol (h : p.WellFormed S pending) {s : SymbolId} (hs : p.Holds s)
    {f : Symbol → Symbol} (hname : (f (p.symbol s)).name = (p.symbol s).name)
    (hf : SymbolOk S p.Holds (p.nodeIds ++ pending) (f (p.symbol s))) :
    (p.modifySymbol s f).WellFormed S pending := by
  refine h.putSymbol hs.2 (h.ne_nothing hs) hf ?_
  rintro g hg hmod rfl
  obtain ⟨x, hx⟩ := mem_symbolIds_iff.mp hs.1
  rw [hname, symbol_of_get? hx]
  exact h.modules g hg hmod x hx

theorem addDeclaration (h : p.WellFormed S pending) {s : SymbolId} {n : NodeId} (hs : p.Holds s)
    (hn : n ∈ p.nodeIds ++ pending) : (p.addDeclaration s n).WellFormed S pending := by
  have hx := h.symbolOk s
  refine h.modifySymbol hs rfl { hx with declarations := ?_ }
  intro d hd
  rcases List.mem_append.mp hd with hd | hd
  · exact hx.declarations d hd
  · exact List.mem_singleton.mp hd ▸ hn

theorem setAliasTarget (h : p.WellFormed S pending) {s t : SymbolId} (hs : p.Holds s)
    (ht : p.Holds t) : (p.setAliasTarget s t).WellFormed S pending := by
  have hx := h.symbolOk s
  have hm := h.modifySymbol (f := fun x => { x with flags := x.flags ++ [.alias] }) hs rfl
    { hx with }
  refine { hm with aliases := ?_ }
  intro u v hv
  change (p.aliasTargets.insert s t).get? u = some v at hv
  rw [Table.get?_insert] at hv
  split at hv
  · exact Option.some.inj hv ▸ ht.setAliasTarget
  · exact hm.aliases u v hv

/-- A table with one more entry for a symbol that is there. -/
theorem putExport (h : p.WellFormed S pending) {owner s : SymbolId} (ho : p.Holds owner)
    (hs : p.Holds s) (k : Key) (n : Name) :
    (p.modifySymbol owner fun x =>
      { x with exports := some ((p.tableOf owner).insert k ⟨n, s⟩) }).WellFormed S pending := by
  have hx := h.symbolOk owner
  refine h.modifySymbol ho rfl { hx with exports := ?_ }
  intro t ht k' e he
  obtain rfl := Option.some.inj ht
  rw [Table.get?_insert] at he
  split at he
  · exact Option.some.inj he ▸ hs
  · exact h.holds_of_table he

theorem addExport (h : p.WellFormed S pending) {owner s : SymbolId} (ho : p.Holds owner)
    (hs : p.Holds s) (n : Name) : (p.addExport owner s n).WellFormed S pending :=
  h.putExport ho hs n.key _

theorem tableOf_putSymbol {s t : SymbolId} {x : Symbol} (h : s ≠ t) :
    (p.putSymbol s x).tableOf t = p.tableOf t := by
  change ((((p.symbols.insert s x).get? t).getD _).exports).getD ∅ = _
  rw [Table.get?_insert, if_neg h]
  rfl

theorem addWildcard (h : p.WellFormed S pending) {owner : SymbolId} {n : NodeId}
    (ho : p.Holds owner) (hn : n ∈ p.nodeIds ++ pending) :
    (p.addWildcard owner n).WellFormed S pending := by
  unfold Program.addWildcard
  split
  · rename_i star hstar
    obtain ⟨e, he, hs⟩ := Option.bind_eq_some_iff.mp hstar
    obtain ⟨rfl, _⟩ := Entity.present?_eq_some.mp hs
    exact h.addDeclaration (h.holds_of_table he) hn
  · have hne : Entity.wildcards owner ≠ owner := by
      intro he
      have := congrArg sizeOf he
      simp at this
    have hstar := h.putSymbol (s := .wildcards owner)
      (x := ⟨.str wildcardName, [.exportStar], [n], none, none⟩) (by simp) (by simp)
      ⟨S.name_str _, by simpa using hn, by simp, rfl⟩ (by simp)
    have := hstar.putExport ho.putSymbol ⟨mem_symbolIds_putSymbol.mpr (Or.inl rfl), by simp⟩
      (.text wildcardName) (.ofText wildcardName)
    rw [tableOf_putSymbol hne] at this
    exact this

end WellFormed

theorem Holds.addWildcard {owner t : SymbolId} {n : NodeId} (h : p.Holds t) :
    (p.addWildcard owner n).Holds t := by
  unfold Program.addWildcard
  split
  · exact h.modifySymbol
  · exact h.putSymbol.modifySymbol

/-! ### Names -/

namespace WellFormed

theorem addLocal (h : p.WellFormed S pending) {s : SymbolId} (hs : p.Holds s) (file : Name) :
    (p.addLocal file s).WellFormed S pending := by
  refine { h with locals := ?_ }
  intro k l hl
  change (p.locals.insert file.key _).get? k = some l at hl
  rw [Table.get?_insert] at hl
  split at hl
  · obtain rfl := Option.some.inj hl
    intro t ht
    rcases List.mem_append.mp ht with ht | ht
    · cases hg : p.locals.get? file.key with
      | none => simp [hg] at ht
      | some l => exact h.locals _ l hg t (by simpa [hg] using ht)
    · exact List.mem_singleton.mp ht ▸ hs
  · exact h.locals k l hl

theorem addGlobal (h : p.WellFormed S pending) {s : SymbolId} (hs : p.Holds s) :
    (p.addGlobal s).WellFormed S pending := by
  refine { h with globals := ?_ }
  intro t ht
  rcases List.mem_append.mp ht with ht | ht
  · exact h.globals t ht
  · exact List.mem_singleton.mp ht ▸ hs

theorem addResolution (h : p.WellFormed S pending) {r : Resolution} (hr : S.fileName r.fileName)
    (file specifier : Name) : (p.addResolution file specifier r).WellFormed S pending := by
  refine { h with resolutions := ?_ }
  intro k x hx
  change (p.resolutions.insert (file.key, specifier.key) r).get? k = some x at hx
  rw [Table.get?_insert] at hx
  split at hx
  · exact Option.some.inj hx ▸ hr
  · exact h.resolutions k x hx

/-! ### Nodes and files -/

theorem freshNode (h : p.WellFormed S pending) :
    p.freshNode.2.WellFormed S (pending ++ [p.freshNode.1]) := by
  have hnew : Entity.node p.nextNode ∉ p.nodeIds ++ pending := by
    intro hm
    obtain ⟨i, hi, he⟩ := h.fresh _ hm
    cases he
    omega
  have hsub : p.nodeIds ++ pending ⊆ p.nodeIds ++ (pending ++ [.node p.nextNode]) := by
    rw [← List.append_assoc]
    exact List.subset_append_left _ _
  refine { h with nodup := ?_, fresh := ?_, symbols := ?_ }
  · change (p.nodeIds ++ (pending ++ [Entity.node p.nextNode])).Nodup
    rw [← List.append_assoc, List.nodup_append]
    refine ⟨h.nodup, List.nodup_singleton _, ?_⟩
    intro a ha b hb
    rw [List.mem_singleton.mp hb]
    exact fun he => hnew (he ▸ ha)
  · intro n hn
    change n ∈ p.nodeIds ++ (pending ++ [.node p.nextNode]) at hn
    rw [← List.append_assoc, List.mem_append] at hn
    rcases hn with hn | hn
    · obtain ⟨i, hi, he⟩ := h.fresh n hn
      exact ⟨i, Nat.lt_succ_of_lt hi, he⟩
    · exact ⟨p.nextNode, Nat.lt_succ_self _, List.mem_singleton.mp hn⟩
  · intro s x hx
    exact (h.symbols s x hx).mono (fun _ hs => hs) hsub

theorem bind (h : p.WellFormed S pending) {n : NodeId} {s : SymbolId} (hs : p.Holds s)
    (hn : n ∈ pending) : (p.bind n s).WellFormed S pending := by
  refine { h with bindings := ?_, roots := ?_ }
  · intro m t ht
    change (p.bindings.insert n s).get? m = some t at ht
    rw [Table.get?_insert] at ht
    split at ht
    · exact Option.some.inj ht ▸ hs
    · exact h.bindings m t ht
  · intro f hf
    have hne : n ≠ f.id := by
      have hf := mem_nodeIds_of_mem_preorder (t := f.tree) hf (by simp [Tree.preorder_singleton])
      exact fun he => (List.nodup_append.mp h.nodup).2.2 _ hf n hn he.symm
    change (p.bindings.insert n s).get? f.id = _
    rw [Table.get?_insert, if_neg hne]
    exact h.roots f hf

/-- Add a file whose nodes are all there is on the way. -/
theorem attach (file : SourceFile) (h : p.WellFormed S (Tree.ids [file.tree]))
    (hb : p.bindings.get? file.id = some file.symbol)
    (hm : file.isModule = true →
      ∀ x, p.symbols.get? (.ofFile file.id) = some x → x.name = file.moduleName)
    (ht : file.tree.Conforms S) (external default : List Key) :
    WellFormed S [] { p with
      sources := p.sources ++ [file]
      files := p.files.insert file.name.key file.id
      externalFiles := external
      defaultFiles := default } := by
  have hids : (p.sources ++ [file]).flatMap (fun f => Tree.ids [f.tree]) ++ [] =
      p.nodeIds ++ Tree.ids [file.tree] := by
    rw [List.append_nil, List.flatMap_append, List.flatMap_singleton]
    rfl
  refine { h with
    nodup := hids ▸ h.nodup
    fresh := fun n hn => h.fresh n (hids ▸ hn)
    symbols := ?_
    files := ?_
    roots := List.forall_mem_append.mpr ⟨h.roots, List.forall_mem_singleton.mpr hb⟩
    modules := List.forall_mem_append.mpr ⟨h.modules, List.forall_mem_singleton.mpr hm⟩
    trees := List.forall_mem_append.mpr ⟨h.trees, List.forall_mem_singleton.mpr ht⟩ }
  · intro s x hx
    exact (h.symbols s x hx).mono (fun _ hs => hs) (hids ▸ List.Subset.refl _)
  · intro k n hn
    change (p.files.insert file.name.key file.id).get? k = some n at hn
    rw [Table.get?_insert] at hn
    split at hn
    · rename_i hk
      exact ⟨file, by simp, Option.some.inj hn, hk⟩
    · obtain ⟨f, hf, he⟩ := h.files k n hn
      exact ⟨f, List.mem_append_left _ hf, he⟩

theorem addFile (h : p.WellFormed S []) (name : Name) (options : FileOptions) :
    (p.addFile name options).2.WellFormed S [] := by
  have hnew : Entity.node p.nextNode ∉ p.nodeIds := by
    intro hm
    obtain ⟨i, hi, he⟩ := h.fresh _ (List.mem_append_left _ hm)
    cases he
    omega
  have hfile : ∀ f ∈ p.sources, Entity.ofFile (.node p.nextNode) ≠ .ofFile f.id := by
    intro f hf he
    refine hnew (Entity.ofFile.inj he ▸ ?_)
    exact mem_nodeIds_of_mem_preorder hf (by simp [Tree.preorder_singleton])
  let file : SourceFile :=
    { name, isModule := options.isModule, noDefaultLib := options.noDefaultLib
      tree := .mk { id := .node p.nextNode, kind := .sourceFile } [] }
  have hid : file.id = .node p.nextNode := rfl
  have hids : Tree.ids [file.tree] = [.node p.nextNode] := by simp [file, Tree.ids_mk]
  have htree : file.tree.Conforms S := by
    intro u hu
    rw [Tree.preorder_singleton, Tree.descendants, Tree.preorder, List.mem_singleton] at hu
    exact hu ▸ ⟨S.start_zero, Or.inl rfl⟩
  have h₁ := h.freshNode
  cases hmod : options.isModule with
  | true =>
    let x : Symbol := { name := file.moduleName, flags := [.valueModule]
                        declarations := [.node p.nextNode], exports := some ∅ }
    have h₂ : (p.freshNode.2.putSymbol (.ofFile (.node p.nextNode)) x).WellFormed S _ :=
      h₁.putSymbol (by simp) (by simp)
        ⟨S.name_str _, by simp [x, Program.freshNode], by simp [x], rfl⟩
        fun f hf _ he => absurd he (hfile f hf)
    have h₃ := h₂.bind (n := .node p.nextNode) (s := .ofFile (.node p.nextNode))
      ⟨mem_symbolIds_putSymbol.mpr (Or.inl rfl), by simp⟩ (List.mem_singleton.mpr rfl)
    have h₄ := attach file (hids ▸ h₃) ?_ ?_ htree
    · unfold Program.addFile
      simp only [hmod]
      exact h₄ _ _
    · change (Table.insert _ _ _).get? _ = some file.symbol
      rw [Table.get?_insert, if_pos hid.symm, SourceFile.symbol, if_pos hmod, hid]
    · intro _ y hy
      change (p.symbols.insert _ x).get? _ = some y at hy
      rw [Table.get?_insert, if_pos (congrArg _ hid.symm)] at hy
      exact Option.some.inj hy ▸ rfl
  | false =>
    have h₂ := h₁.bind (n := .node p.nextNode) h₁.globalThis (List.mem_singleton.mpr rfl)
    have h₃ := attach file (hids ▸ h₂) ?_ (fun hm => by simp [file, hmod] at hm) htree
    · unfold Program.addFile
      simp only [hmod]
      exact h₃ _ _
    · change (Table.insert _ _ _).get? _ = some file.symbol
      rw [Table.get?_insert, if_pos hid.symm, SourceFile.symbol, if_neg (by simp [file, hmod])]

/-- Putting trees below the root of the last file changes only that file. -/
theorem sources_install {before : List SourceFile} {file : SourceFile} {n : Node}
    {trees : List Tree} (h : p.WellFormed S pending) (hs : p.sources = before ++ [file])
    (hf : file.tree = .mk n []) : (p.modifyTree n.id fun t => .mk t.node trees).sources =
      before ++ [{ file with tree := .mk n trees }] := by
  change p.sources.map _ = _
  rw [hs, List.map_append, List.map_singleton]
  congr 1
  · conv_rhs => rw [← List.map_id before]
    apply List.map_congr_left
    intro f hm
    have hne : n.id ∉ Tree.ids [f.tree] := by
      intro hi
      have hn := List.Nodup.of_append_left h.nodup
      rw [nodeIds, hs, List.flatMap_append, List.flatMap_singleton, List.nodup_append] at hn
      refine hn.2.2 _ (List.mem_flatMap.mpr ⟨f, hm, hi⟩) n.id ?_ rfl
      rw [hf, Tree.ids_mk]
      exact List.mem_cons_self ..
    rw [Tree.modify_of_notMem _ _ hne]
    rfl
  · rw [hf, Tree.modify, if_pos rfl]
    rfl

theorem nodeIds_install {before : List SourceFile} {file : SourceFile} {n : Node}
    {trees : List Tree} (h : p.WellFormed S pending) (hs : p.sources = before ++ [file])
    (hf : file.tree = .mk n []) :
    (p.modifyTree n.id fun t => .mk t.node trees).nodeIds = p.nodeIds ++ Tree.ids trees := by
  rw [nodeIds, h.sources_install hs hf, nodeIds, hs, List.flatMap_append, List.flatMap_singleton,
    List.flatMap_append, List.flatMap_singleton, hf, Tree.ids_mk, Tree.ids_mk]
  simp

/-- Put the nodes that are on the way below the root of the last file. -/
theorem install {before : List SourceFile} {file : SourceFile} {n : Node} {trees : List Tree}
    (h : p.WellFormed S (Tree.ids trees)) (hs : p.sources = before ++ [file])
    (hf : file.tree = .mk n []) (ht : ∀ t ∈ trees, t.Conforms S) :
    (p.modifyTree n.id fun t => .mk t.node trees).WellFormed S [] := by
  let grown : SourceFile := { file with tree := .mk n trees }
  have hsources : (p.modifyTree n.id fun t => .mk t.node trees).sources = before ++ [grown] :=
    h.sources_install hs hf
  have hnodes : (p.modifyTree n.id fun t => .mk t.node trees).nodeIds ++ [] =
      p.nodeIds ++ Tree.ids trees := by
    rw [List.append_nil, h.nodeIds_install hs hf]
  have hgrown : grown.tree.Conforms S := (hf ▸ h.trees file (by simp [hs])).grow ht
  have hfiles : ∀ {P : SourceFile → Prop}, (∀ f ∈ p.sources, P f) → (P file → P grown) →
      ∀ f ∈ (p.modifyTree n.id fun t => .mk t.node trees).sources, P f := by
    intro P hP hg
    rw [hs, List.forall_mem_append, List.forall_mem_singleton] at hP
    rw [hsources, List.forall_mem_append, List.forall_mem_singleton]
    exact ⟨hP.1, hg hP.2⟩
  have hid : grown.id = file.id := by
    rw [SourceFile.id, SourceFile.id, hf]
    rfl
  refine { h with
    loose := ?_
    nodup := hnodes ▸ h.nodup
    fresh := fun m hm => h.fresh m (hnodes ▸ hm)
    symbols := fun s x hx =>
      (h.symbols s x hx).mono (fun _ hs => hs) (hnodes ▸ List.Subset.refl _)
    files := ?_
    roots := hfiles h.roots ?_
    modules := hfiles h.modules ?_
    trees := hfiles h.trees fun _ => hgrown }
  · change Tree.modifyAll _ _ p.loose = []
    rw [h.loose, Tree.modifyAll]
  · intro k m hm
    obtain ⟨f, hfs, hfm, hk⟩ := h.files k m hm
    rw [hsources]
    rw [hs] at hfs
    rcases List.mem_append.mp hfs with hfs | hfs
    · exact ⟨f, List.mem_append_left _ hfs, hfm, hk⟩
    · obtain rfl := List.mem_singleton.mp hfs
      exact ⟨grown, List.mem_append_right _ (List.mem_singleton.mpr rfl), hid.trans hfm, hk⟩
  · rw [SourceFile.symbol, SourceFile.symbol, hid]
    exact fun hr => hr
  · rw [hid]
    exact fun hm => hm

end WellFormed

end Program

end ApiSurface
