import ApiSurface.Command
import ApiSurface.Proofs.Acceptance
import ApiSurface.Proofs.Collection
import ApiSurface.Tool

/-! The parts of a loaded program belong together. Every file stands for a module of its own or for
the shared scope, and every node, every specifier and every declaration stands in a file. So the
faults of programs whose parts do not belong together never come up. -/

namespace ApiSurface

/-! ### Faults of loose parts -/

section Intact

variable {α β : Type}

/-- A computation that does not end with such a fault. -/
def Intact (x : Except Fault α) : Prop := ∀ e, x = .error e → ¬e.Dangling

theorem intact_ok (a : α) : Intact (.ok a : Except Fault α) := by
  intro e he
  cases he

theorem intact_error {e : Fault} (h : ¬e.Dangling) : Intact (.error e : Except Fault α) := by
  intro e' he
  exact Except.error.inj he ▸ h

/-- Two steps in turn. The second one may rely on what the first one gives. -/
theorem Intact.bind {x : Except Fault α} {f : α → Except Fault β} (hx : Intact x)
    (hf : ∀ a, x = .ok a → Intact (f a)) : Intact (x >>= f) := by
  cases hr : x with
  | error e =>
    rw [error_bind]
    exact intact_error (hx e hr)
  | ok a =>
    rw [ok_bind]
    exact hf a hr

theorem Intact.map {x : Except Fault α} (hx : Intact x) (f : α → β) : Intact (x.map f) := by
  cases hr : x with
  | error e => exact intact_error (hx e hr)
  | ok a => exact intact_ok (f a)

theorem intact_mapM {f : α → Except Fault β} {l : List α} (h : ∀ a ∈ l, Intact (f a)) :
    Intact (l.mapM f) := by
  induction l with
  | nil => exact intact_ok []
  | cons a l ih =>
    rw [List.mapM_cons]
    refine (h a (List.mem_cons_self ..)).bind fun b _ => ?_
    exact (ih fun x hx => h x (List.mem_cons_of_mem _ hx)).bind fun bs _ => intact_ok _

theorem intact_foldlM {f : β → α → Except Fault β} {l : List α}
    (h : ∀ a ∈ l, ∀ b, Intact (f b a)) (b : β) : Intact (l.foldlM f b) := by
  induction l generalizing b with
  | nil => exact intact_ok b
  | cons a l ih =>
    rw [List.foldlM_cons]
    refine (h a (List.mem_cons_self ..) b).bind fun b' _ => ?_
    exact ih (fun x hx => h x (List.mem_cons_of_mem _ hx)) b'

theorem intact_nameOf (j : Json) : Intact (nameOf j) := by
  unfold nameOf
  split
  · exact intact_ok _
  · exact intact_error id

theorem intact_sortedBy (before : α → α → Option Bool) (l : List α) :
    Intact (sortedBy before l) := by
  unfold sortedBy
  split
  · exact intact_ok _
  · exact intact_error id

/-- The same for steps that may also warn. -/
theorem Pass.intact_bind {x : Pass α} {f : α → Pass β} (hx : Intact x.result)
    (hf : ∀ a, x.result = .ok a → Intact (f a).result) : Intact (x >>= f).result := by
  cases hr : x.result with
  | error e =>
    rw [Pass.bind_of_error hr]
    exact intact_error (hx e hr)
  | ok a =>
    rw [Pass.bind_of_ok hr]
    exact hf a hr

theorem Pass.intact_foldlM {f : β → α → Pass β} {l : List α}
    (h : ∀ a ∈ l, ∀ b, Intact (f b a).result) (b : β) : Intact (l.foldlM f b).result := by
  induction l generalizing b with
  | nil => exact intact_ok b
  | cons a l ih =>
    rw [List.foldlM_cons]
    refine Pass.intact_bind (h a (List.mem_cons_self ..) b) fun b' _ => ?_
    exact ih (fun x hx => h x (List.mem_cons_of_mem _ hx)) b'

theorem Pass.intact_forM {f : α → Pass Unit} {l : List α} (h : ∀ a ∈ l, Intact (f a).result) :
    Intact (l.forM f).result := by
  induction l with
  | nil => exact intact_ok ()
  | cons a l ih =>
    rw [List.forM_eq_forM, List.forM_cons]
    refine Pass.intact_bind (h a (List.mem_cons_self ..)) fun _ _ => ?_
    exact ih fun x hx => h x (List.mem_cons_of_mem _ hx)

end Intact

namespace Program

variable {S : Shape} {p : Program}

/-- A symbol that is not there is a fault, but not one of loose parts. -/
theorem intact_symbolOf (p : Program) (s : SymbolId) : Intact (p.symbolOf s) := by
  unfold symbolOf
  split
  · exact intact_ok _
  · exact intact_error id

theorem intact_siteOf (p : Program) (n : NodeId) : Intact (p.siteOf n) := by
  unfold siteOf
  split
  · exact intact_ok _
  · exact intact_error id

theorem intact_sourceOf (p : Program) (n : NodeId) : Intact (p.sourceOf n) := by
  unfold sourceOf
  split
  · exact intact_ok _
  · exact intact_error id

theorem intact_terminalOf (p : Program) (s : SymbolId) : Intact (p.terminalOf s) :=
  (p.intact_symbolOf _).bind fun _ _ => intact_ok _

theorem intact_declaration? (p : Program) (x : Symbol) : Intact (p.declaration? x) := by
  unfold declaration?
  split
  · exact intact_ok _
  · exact (p.intact_siteOf _).map some

theorem intact_wildcards (p : Program) (m : SymbolId) : Intact (p.wildcards m) := by
  refine (p.intact_symbolOf m).bind fun _ _ => ?_
  split
  · exact (p.intact_symbolOf _).bind fun _ _ => intact_ok _
  · exact intact_ok _

theorem intact_literal? (p : Program) (n : NodeId) : Intact (p.literal? n) := by
  unfold literal?
  split
  · exact intact_ok _
  · exact (p.intact_siteOf _).bind fun _ _ => intact_ok _

theorem intact_specifierAt? (p : Program) (e : Entity) : Intact (p.specifierAt? e) := by
  unfold specifierAt?
  split
  · exact p.intact_literal? _
  · exact (p.intact_siteOf _).bind fun _ _ => p.intact_literal? _

/-- Only a place outside all files has no source file. -/
theorem Attached.intact {s : Site} (h : p.Attached s) : Intact s.sourceFile := by
  obtain ⟨f, _, hf, _⟩ := h.sourceFile
  exact hf ▸ intact_ok f

namespace WellFormed

/-! ### Modules -/

/-- Whatever is found stands in a file. -/
theorem attached (h : p.WellFormed S []) {n : NodeId} {s : Site} (hs : p.siteOf n = .ok s) :
    p.Attached s := by
  obtain ⟨f, hf, hfile, ht, _⟩ := mem_of_site? h.loose (siteOf_eq_ok_iff.mp hs)
  exact ⟨f, hf, hfile, ht⟩

theorem attached_declaration (h : p.WellFormed S []) {x : Symbol} {d : Site}
    (hd : p.declaration? x = .ok (some d)) : p.Attached d := by
  obtain ⟨n, _, _, hs⟩ := declaration?_eq_some_iff.mp hd
  exact h.attached (siteOf_eq_ok_iff.mpr hs)

/-- The statement stands in a file, so its specifier can be resolved from there. -/
theorem intact_wildcardModule? (h : p.WellFormed S []) (n : NodeId) :
    Intact (p.wildcardModule? n) := by
  refine (p.intact_specifierAt? n).bind fun r _ => ?_
  split
  · exact intact_ok _
  · refine (p.intact_siteOf n).bind fun s hs => (h.attached hs).intact.bind fun f _ => ?_
    refine (intact_nameOf _).bind fun name _ => ?_
    split
    · exact (intact_nameOf _).bind fun _ _ => intact_ok _
    · exact intact_ok _

/-- By induction along the recursion, with one step for each statement. -/
theorem intact_behind (h : p.WellFormed S []) (seen : List SymbolId) (ds : List NodeId) :
    Intact (p.behind seen ds) := by
  fun_induction behind p seen ds with
  | case1 => exact intact_ok _
  | case2 seen d rest e he => exact intact_error (h.intact_wildcardModule? d e he)
  | case3 _ _ _ _ ih => exact ih
  | case4 _ _ _ _ _ _ ih => exact ih
  | case5 seen d rest m hm hs e he => exact intact_error (p.intact_wildcards m e he)
  | case6 _ _ _ _ _ _ _ _ _ e he ih => exact intact_error (ih e he)
  | case7 _ _ _ _ _ _ _ _ _ _ _ _ _ e he _ ih => exact intact_error (ih e he)
  | case8 => exact intact_ok _
  | case9 => exact intact_error id

theorem intact_exportTable (h : p.WellFormed S []) (m : SymbolId) : Intact (p.exportTable m) := by
  unfold exportTable
  split
  · exact intact_error (p.intact_wildcards m _ ‹_›)
  · split
    · exact intact_error (h.intact_behind _ _ _ ‹_›)
    · exact intact_ok _

theorem intact_exportsOf (h : p.WellFormed S []) (m : SymbolId) : Intact (p.exportsOf m) :=
  (h.intact_exportTable m).map _

theorem intact_ambientModule (h : p.WellFormed S []) (literal : Site) (specifier : String) :
    Intact (p.ambientModule literal specifier) := by
  unfold ambientModule
  split
  · exact intact_error id
  · refine (p.intact_symbolOf _).bind fun x _ => ?_
    split
    · exact intact_error id
    · refine (p.intact_declaration? x).bind fun r hr => ?_
      split
      · exact intact_error id
      · exact (h.attached_declaration hr).intact.bind fun _ _ => intact_ok _

/-- A file that a specifier resolves to always stands for a symbol. -/
theorem intact_resolvedModule (h : p.WellFormed S []) (specifier : Name) (r : Resolution) :
    Intact (p.resolvedModule specifier r) := by
  refine (intact_nameOf _).bind fun fileName _ => ?_
  split
  · exact intact_error id
  · rename_i f hf
    -- a file of the program always stands for something
    rw [h.symbolAt_file (mem_of_fileNamed? hf)]
    exact intact_ok _

/-- The place of the statement is given here, and it has to be in a file. -/
theorem intact_resolveWildcard (h : p.WellFormed S []) {d : Site} (hd : p.Attached d) :
    Intact (p.resolveWildcard d) := by
  refine (p.intact_literal? _).bind fun r _ => ?_
  split
  · exact hd.intact.bind fun _ _ => intact_error id
  · refine hd.intact.bind fun f _ => (intact_nameOf _).bind fun specifier _ => ?_
    split
    · exact h.intact_resolvedModule _ _
    · split
      · exact intact_error id
      · exact h.intact_ambientModule _ _
    · exact intact_error id

theorem intact_linkAt? (h : p.WellFormed S []) (n : NodeId) (anchor : Option Site) :
    Intact (p.linkAt? n anchor) := by
  refine (p.intact_siteOf n).bind fun d hd => ?_
  split
  · exact (h.intact_resolveWildcard (h.attached hd)).bind fun _ _ => intact_ok _
  · exact intact_ok _

/-- A walk along wildcard re-exports does not meet such a fault. -/
theorem not_dangling_follow (h : p.WellFormed S []) (seen : List SymbolId)
    (pending : List (NodeId × Option Site)) :
    ∀ e ∈ (p.follow seen pending).fault, ¬e.Dangling := by
  fun_induction follow p seen pending with
  | case1 => simp
  | case2 seen n anchor rest e he =>
    rintro _ ⟨⟩
    exact h.intact_linkAt? n anchor e he
  | case3 _ _ _ _ _ ih => exact ih
  | case4 _ _ _ _ _ _ _ ih => exact ih
  | case5 seen n anchor rest link hl hs e he =>
    rintro _ ⟨⟩
    exact p.intact_wildcards _ e he
  | case6 _ _ _ _ _ _ _ _ _ _ ih => exact ih
  | case7 =>
    rintro _ ⟨⟩
    exact id

/-- So the trail of a module does not end with such a fault. -/
theorem not_dangling_trail (h : p.WellFormed S []) (m : SymbolId) :
    ∀ e ∈ (p.trail m).fault, ¬e.Dangling := by
  unfold trail
  split
  · rename_i e he
    rintro _ ⟨⟩
    exact p.intact_wildcards m e he
  · exact h.not_dangling_follow _ _

/-- A fold over the trail has its own faults and those of the trail. -/
theorem intact_trail_foldM {α : Type} (h : p.WellFormed S []) (m : SymbolId)
    {step : α → Link → Except Fault α} (hs : ∀ a l, Intact (step a l)) (a : α) :
    Intact ((p.trail m).foldM step a) := by
  refine (intact_foldlM (fun l _ a => hs a l) a).bind fun a _ => ?_
  split
  · rename_i e he
    exact intact_error (h.not_dangling_trail m e he)
  · exact intact_ok a

theorem intact_boundary (h : p.WellFormed S []) (m : SymbolId) : Intact (p.boundary m) := by
  rw [boundary_eq_foldM]
  refine h.intact_trail_foldM m (fun b l => ?_) _
  unfold boundaryStep
  split
  · exact (h.intact_exportsOf _).bind fun _ _ => intact_ok _
  · exact intact_ok b

theorem intact_positions (h : p.WellFormed S []) (m : SymbolId) : Intact (p.positions m) := by
  rw [positions_eq_foldM]
  refine Intact.bind ?_ fun own _ => h.intact_trail_foldM m (fun t l => ?_) own
  · refine intact_foldlM (fun s _ t => ?_) _
    refine (p.intact_symbolOf s).bind fun x _ => (p.intact_declaration? x).bind fun r _ => ?_
    split <;> exact intact_ok _
  · unfold positionStep
    split
    · exact intact_ok t
    · exact (h.intact_exportsOf _).bind fun _ _ => intact_ok _

/-! ### References and reports -/

/-- The references of a symbol that is there can always be expanded. -/
theorem intact_references (h : p.WellFormed S []) (s : SymbolId) : Intact (p.references s) := by
  by_cases hs : s ∈ p.symbolIds
  · obtain ⟨rs, hrs, _⟩ := h.references_expands hs
    exact hrs ▸ intact_ok rs
  · refine (p.intact_symbolOf s).bind fun x hx => ?_
    exact absurd (symbolOf_eq_ok_iff.mp hx).1 hs

/-- A declaration of a symbol stands in a file, which has a name. -/
theorem intact_location (h : p.WellFormed S []) (x : Symbol) : Intact (p.location x) := by
  refine (p.intact_declaration? x).bind fun r hr => ?_
  split
  · exact intact_ok _
  · exact (h.attached_declaration hr).intact.bind fun _ _ => intact_ok _

theorem intact_symbolJson (h : p.WellFormed S []) (s : SymbolId) : Intact (p.symbolJson s) :=
  (p.intact_symbolOf s).bind fun x _ => (h.intact_location x).bind fun _ _ => intact_ok _

theorem intact_exportJson (h : p.WellFormed S []) (limit : Option Int) (s : SymbolId)
    (e : Export) : Intact (p.exportJson limit s e) :=
  (h.intact_symbolJson _).bind fun _ _ => intact_ok _

theorem intact_namesJson (p : Program) (l : List SymbolId) : Intact (p.namesJson l) :=
  (intact_mapM fun s _ => (p.intact_symbolOf s).bind fun _ _ => intact_ok _).bind
    fun _ _ => intact_ok _

theorem intact_surfaceJson (h : p.WellFormed S []) (limit : Option Int) (s : Surface) :
    Intact (p.surfaceJson limit s) :=
  (intact_mapM fun e _ => h.intact_exportJson limit e.1 e.2).bind fun _ _ =>
    (intact_sortedBy _ _).bind fun _ _ => (intact_namesJson p _).bind fun _ _ => intact_ok _

/-! ### Collection -/

theorem intact_warnUnplaced (p : Program) (positions : Table SymbolId Json)
    (l : List SymbolId) : Intact (p.warnUnplaced positions l).result := by
  refine Pass.intact_forM fun s _ => ?_
  split
  · refine Pass.intact_bind (p.intact_symbolOf s) fun x _ => ?_
    split <;> exact intact_ok _
  · exact intact_ok _

theorem intact_discovery (h : p.WellFormed S []) (file : NodeId) (entry : SymbolId)
    (excluded : List SymbolId) : Intact (p.discovery file entry excluded).result := by
  refine Pass.intact_bind (p.intact_symbolOf entry) fun x _ => ?_
  split
  · exact Pass.intact_bind (p.intact_sourceOf file) fun _ _ => intact_ok _
  · refine Pass.intact_bind (h.intact_exportsOf entry) fun _ _ => ?_
    refine Pass.intact_bind (h.intact_positions entry) fun positions _ => ?_
    exact Pass.intact_bind (intact_warnUnplaced p positions _) fun _ _ => intact_sortedBy _ _

theorem intact_exportAll (h : p.WellFormed S []) (l : List SymbolId) :
    Intact (p.exportAll l).result := by
  refine Pass.intact_foldlM (fun s _ t => Pass.intact_bind ?_ fun r _ => ?_) _
  · refine (p.intact_terminalOf s).bind fun t _ => ?_
    split
    · exact (h.intact_references t).bind fun _ _ => intact_ok _
    · exact intact_ok _
  · split <;> exact intact_ok _

theorem intact_exportNames (p : Program) (l : List SymbolId) : Intact (p.exportNames l) :=
  intact_foldlM (fun _ _ _ => (intact_nameOf _).bind fun _ _ => intact_ok _) _

/-- A collection reads the boundary, discovers the exports and then expands each of them. -/
theorem intact_collection (h : p.WellFormed S []) {f : SourceFile} (hf : f ∈ p.sources) :
    Intact (p.collection f.id).result := by
  rw [h.collection_eq hf]
  refine Pass.intact_bind (h.intact_boundary f.symbol) fun b _ => ?_
  refine Pass.intact_bind (h.intact_discovery f.id f.symbol b.symbols) fun l _ => ?_
  refine Pass.intact_bind (h.intact_exportAll l) fun t _ => ?_
  exact Pass.intact_bind (intact_exportNames p t.keys) fun _ _ => intact_ok _

theorem intact_surfaceOf (h : p.WellFormed S []) (file : Json) : Intact (p.surfaceOf file) := by
  refine Intact.map (Intact.map ?_ _) _
  refine Pass.intact_bind (intact_nameOf file) fun name _ => ?_
  split
  · exact intact_error id
  · exact h.intact_collection (mem_of_fileNamed? ‹_›)

end WellFormed

end Program

/-! ### Answers -/

theorem intact_limitFor (limit : Json) (rs : List Reference) : Intact (limitFor limit rs) := by
  unfold limitFor
  split
  · exact intact_ok _
  · split
    · exact intact_ok _
    · exact intact_error id

/-- A page may be refused, but that is no fault of loose parts. -/
theorem Page.intact_print (console : Console) (page : Page) : Intact (page.print console) := by
  induction page with
  | nil => exact intact_ok ""
  | cons s rest ih =>
    unfold Page.print
    split
    · exact ih.bind fun _ _ => intact_ok _
    · exact intact_error id

namespace Program

variable {S : Shape} {p : Program}

/-- No collection at an entry, no answer of a command and no result of a tool ends with a fault of
loose parts. -/
structure Answerable (p : Program) : Prop where
  surface : ∀ entry, Intact (p.surfaceOf entry)
  collect : ∀ s depth asJson console, Intact (Command.runCollect p s depth asJson console)
  references : ∀ s name depth asJson console,
    Intact (Command.runReferences p s name depth asJson console)
  globals : ∀ asJson console, Intact (Command.runGlobals p asJson console)
  exportsResult : ∀ s depth, Intact (Tool.exportsResult p s depth)
  referencesResult : ∀ s name, Intact (Tool.referencesResult p s name)
  globalsResult : Intact (Tool.globalsResult p)

namespace WellFormed

theorem intact_surfaceText (p : Program) (limit : Option Int) (s : Surface) (console : Console) :
    Intact (p.surfaceText limit s console) :=
  (Page.intact_print console _).bind fun _ _ => (intact_sortedBy _ _).bind fun _ _ =>
    (Page.intact_print console _).bind fun _ _ => intact_ok _

theorem intact_runCollect (h : p.WellFormed S []) (s : Surface) (depth : Int) (asJson : Bool)
    (console : Console) : Intact (Command.runCollect p s depth asJson console) := by
  refine (Page.intact_print console _).bind fun _ _ => ?_
  dsimp only
  split
  · exact (h.intact_surfaceJson _ s).bind fun _ _ => intact_ok _
  · exact (intact_surfaceText p _ s console).bind fun _ _ => intact_ok _

theorem intact_runReferences (h : p.WellFormed S []) (s : Surface) (name : String) (depth : Int)
    (asJson : Bool) (console : Console) :
    Intact (Command.runReferences p s name depth asJson console) := by
  refine (Page.intact_print console _).bind fun _ _ => ?_
  dsimp only
  split
  · split
    · exact intact_ok _
    · exact (Page.intact_print console _).bind fun _ _ => intact_ok _
  · split
    · exact (h.intact_symbolJson _).bind fun _ _ => intact_ok _
    · refine Intact.bind ?_ fun page _ =>
        (Page.intact_print console page).bind fun _ _ => intact_ok _
      exact (h.intact_location _).bind fun _ _ => intact_ok _

theorem intact_runGlobals (p : Program) (asJson : Bool) (console : Console) :
    Intact (Command.runGlobals p asJson console) := by
  unfold Command.runGlobals
  dsimp only
  split
  · exact (intact_namesJson p _).bind fun _ _ => intact_ok _
  · exact (Page.intact_print console _).bind fun _ _ => intact_ok _

/-- What is asked of a well-formed program is answered without a fault of loose parts. -/
theorem answerable (h : p.WellFormed S []) : p.Answerable where
  surface := h.intact_surfaceOf
  collect := h.intact_runCollect
  references := h.intact_runReferences
  globals := intact_runGlobals p
  exportsResult s _ := (intact_limitFor _ _).bind fun limit _ => h.intact_surfaceJson limit s
  referencesResult s name := by
    unfold Tool.referencesResult
    split
    · exact h.intact_exportJson none _ _
    · exact intact_ok _
  globalsResult := (intact_namesJson p _).bind fun _ _ => intact_ok _

end WellFormed

/-! ### Attachment -/

/-- Every file stands for a module of its own or for the shared scope, and every node, every
specifier and every declaration stands in its file. -/
structure Rooted (p : Program) : Prop where
  files : ∀ k n, p.files.get? k = some n → ∃ f ∈ p.sources, f.id = n ∧ f.name.key = k
  modules : ∀ f ∈ p.sources, f.isModule = true →
    ∃ m ∈ p.symbolIds, p.symbolAt f.id = some m ∧ (p.symbol m).Heads f.id
  scripts : ∀ f ∈ p.sources, f.isModule = false →
    .globalThis ∈ p.symbolIds ∧ p.symbolAt f.id = some .globalThis
  nodes : ∀ f ∈ p.sources, ∀ t ∈ Tree.preorder [f.tree], p.siteOf t.node.id = .ok ⟨t, some f⟩
  specifiers : ∀ f ∈ p.sources, ∀ t ∈ Tree.preorder [f.tree], t.node.specifier ≠ .nothing →
    ∃ l ∈ t.children, p.siteOf t.node.specifier = .ok ⟨l, some f⟩
  declarations : ∀ s, ∀ d ∈ (p.symbol s).declarations, ∃ f ∈ p.sources,
    ∃ t ∈ Tree.preorder [f.tree], p.siteOf d = .ok ⟨t, some f⟩

theorem WellFormed.siteOf_node (h : p.WellFormed S []) {f : SourceFile} (hf : f ∈ p.sources)
    {t : Tree} (ht : t ∈ Tree.preorder [f.tree]) : p.siteOf t.node.id = .ok ⟨t, some f⟩ :=
  siteOf_eq_ok_iff.mpr (site?_of_mem_preorder h.nodup_nodeIds hf ht)

/-- Well-formed programs whose modules are modules of files have all their parts in their places. -/
theorem WellFormed.rooted (h : p.WellFormed S []) (hm : p.Modular) : p.Rooted where
  files := h.files
  modules f hf hmodule := by
    have hs : f.symbol = .ofFile f.id := by rw [SourceFile.symbol, if_pos hmodule]
    have hmem := (h.holds_fileSymbol hf).1
    exact ⟨f.symbol, hmem, h.symbolAt_file hf, hs ▸ hm.heads_symbol (hs ▸ hmem)⟩
  scripts f hf hscript := by
    have hs : f.symbol = .globalThis := by simp [SourceFile.symbol, hscript]
    exact ⟨h.globalThis.1, hs ▸ h.symbolAt_file hf⟩
  nodes _ hf _ ht := h.siteOf_node hf ht
  specifiers f hf t ht hspec := by
    obtain ⟨l, hl, hid, _⟩ := (h.trees f hf t ht).2.resolve_left hspec
    have hbelow : l ∈ Tree.preorder [f.tree] := by
      refine Tree.preorder_subset _ t ht ?_
      rw [Tree.descendants_eq]
      exact Tree.mem_preorder.mpr ⟨l, hl, by simp⟩
    exact ⟨l, hl, hid ▸ h.siteOf_node hf hbelow⟩
  declarations s d hd := by
    obtain ⟨f, hf, hd⟩ := mem_nodeIds.mp (h.declarations_subset s hd)
    obtain ⟨t, ht, rfl⟩ := List.mem_map.mp hd
    exact ⟨f, hf, t, ht, h.siteOf_node hf ht⟩

end Program

namespace Snapshot

/-- While a document is loaded there are no loose parts either. -/
theorem intact_load (doc : Json) : Intact (load doc) := by
  intro e he
  rcases load_cases doc with ⟨p, hp, _⟩ | ⟨e', he', hd, _⟩
  · cases hp.symm.trans he
  · exact Except.error.inj (he'.symm.trans he) ▸ hd

theorem modular_of_load {doc : Json} {p : Program} (h : load doc = .ok p) : p.Modular := by
  rcases load_cases doc with ⟨q, hq, _, hm⟩ | ⟨e, he, _⟩
  · exact Except.ok.inj (hq.symm.trans h) ▸ hm
  · cases he.symm.trans h

/-- The shared scope of scripts keeps its name. -/
theorem name_globalThis_of_load {doc : Json} {p : Program} (h : load doc = .ok p) :
    (p.symbol .globalThis).name = .str globalName := by
  rcases load_judges doc with ⟨q, hq, _, _, _, hg⟩ | ⟨e, he, _⟩
  · exact Except.ok.inj (hq.symm.trans h) ▸ hg
  · cases he.symm.trans h

/-- A loaded program has the files and the nodes that its document describes, and they belong
together. So no fault of loose parts comes up while a document is loaded, or when the program is
asked for anything. -/
theorem load_rooted (doc : Json) : Intact (load doc) ∧ ∀ p, load doc = .ok p →
    List.Forall₂ ShowsFile (entriesOf doc "files") p.sources ∧ p.Rooted ∧ p.Answerable := by
  refine ⟨intact_load doc, fun p hp => ?_⟩
  obtain ⟨h, hfiles⟩ := ok_of_load (conforms_any doc) hp
  exact ⟨hfiles, h.rooted (modular_of_load hp), h.answerable⟩

/-- A script that declares a symbol, and two modules of one name that re-export everything of it.
The second one takes the place of the first. -/
def replaced : Json :=
  .obj [("symbols", .arr [.obj [("id", .str "a"), ("name", .str "A"),
      ("declarations", .arr [.str "n"])]]),
    ("files", .arr [moduleEntry "main" [("A", "a")] ["./lib"],
      moduleEntry "main" [] ["./lib"],
      .obj [("fileName", .str "lib"), ("module", .bool false), ("statements", .arr
        [.obj [("id", .str "n"), ("kind", .str "interface_declaration")]])]]),
    ("resolutions", .arr [resolutionEntry "main" "./lib" "lib"])]

theorem load_replaced : ∃ p, load replaced = .ok p ∧
    p.sources.map (fun f => (f.id, f.isModule)) =
      [(.node 0, true), (.node 3, true), (.node 6, false)] ∧
    p.files.values = [.node 3, .node 6] ∧
    List.Forall₂ ShowsFile (entriesOf replaced "files") p.sources ∧ p.Rooted ∧ p.Answerable := by
  have hrun : (load replaced).toOption.map (fun p =>
      (p.sources.map fun f => (f.id, f.isModule), p.files.values)) =
        some ([(.node 0, true), (.node 3, true), (.node 6, false)], [.node 3, .node 6]) := by cbv
  obtain ⟨p, hload, hrun⟩ := map_toOption_eq_some_iff.mp hrun
  obtain ⟨hsources, hfiles⟩ := Prod.mk.inj hrun
  exact ⟨p, hload, hsources, hfiles, (load_rooted replaced).2 p hload⟩

end Snapshot

end ApiSurface
