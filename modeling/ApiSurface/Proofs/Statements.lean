import ApiSurface.Proofs.Trails

/-! The wildcard re-exports of a loaded program are statements. Only an export declaration is
recorded as one while the nodes of a file are built, and what is linked later goes to symbols
that the document lists. -/

namespace ApiSurface

namespace Tree

/-- The identities of the export declarations of a list of trees. -/
def statementIds (ts : List Tree) : List NodeId :=
  ((preorder ts).filter fun t => t.node.kind = .exportDeclaration).map fun t => t.node.id

@[simp] theorem statementIds_nil : statementIds [] = [] := rfl

theorem statementIds_append (ts us : List Tree) :
    statementIds (ts ++ us) = statementIds ts ++ statementIds us := by
  rw [statementIds, preorder_append, List.filter_append, List.map_append]
  rfl

theorem statementIds_mk (n : Node) (ts : List Tree) : statementIds [.mk n ts] =
    (if n.kind = .exportDeclaration then [n.id] else []) ++ statementIds ts := by
  rw [statementIds, preorder_singleton, descendants, List.filter_cons]
  change List.map _ (if decide (n.kind = .exportDeclaration) = true then _ else _) = _
  by_cases hk : n.kind = .exportDeclaration
  · simp [hk, statementIds, node]
  · simp [hk, statementIds]

end Tree

namespace Program

variable {p : Program} {pending : List NodeId}

/-- The identities of the export declarations of all files. -/
def statementIds (p : Program) : List NodeId :=
  p.sources.flatMap fun f => Tree.statementIds [f.tree]

/-- Every wildcard re-export of a module is a statement, in a file or on the way. -/
def Stated (pending : List NodeId) (p : Program) : Prop :=
  ∀ m, (p.symbol (.wildcards m)).declarations ⊆ p.statementIds ++ pending

namespace Stated

/-- Statements that are on the way stay so below another node. -/
theorem below {n : Node} {ts us : List Tree} (h : p.Stated (pending ++ Tree.statementIds ts))
    (hsub : ts <+: us) : p.Stated (pending ++ Tree.statementIds [.mk n us]) := by
  obtain ⟨more, rfl⟩ := hsub
  intro m s hs
  have hs := h m hs
  rw [Tree.statementIds_mk, Tree.statementIds_append]
  simp only [List.mem_append] at hs ⊢
  tauto

/-- A change to a symbol, after which all declarations of the symbol are statements if it holds
wildcard re-exports. -/
theorem putSymbol (h : p.Stated pending) {s : SymbolId} {x : Symbol}
    (hx : ∀ m, s = .wildcards m → x.declarations ⊆ p.statementIds ++ pending) :
    (p.putSymbol s x).Stated pending := by
  intro m
  change (((p.symbols.insert s x).get? (.wildcards m)).getD _).declarations ⊆ _
  rw [Table.get?_insert]
  split
  · exact hx m ‹_›
  · exact h m

theorem modifySymbol (h : p.Stated pending) {s : SymbolId} {f : Symbol → Symbol}
    (hf : ∀ x, (f x).declarations = x.declarations) : (p.modifySymbol s f).Stated pending := by
  refine h.putSymbol ?_
  rintro m rfl
  rw [hf]
  exact h m

theorem addDeclaration (h : p.Stated pending) {s : SymbolId} {n : NodeId}
    (hn : ∀ m, s = .wildcards m → n ∈ pending) : (p.addDeclaration s n).Stated pending := by
  refine h.putSymbol ?_
  rintro m rfl
  refine List.append_subset.mpr ⟨h m, List.cons_subset.mpr ⟨?_, List.nil_subset _⟩⟩
  exact List.mem_append_right _ (hn m rfl)

theorem setAliasTarget (h : p.Stated pending) (s t : SymbolId) :
    (p.setAliasTarget s t).Stated pending :=
  h.modifySymbol (f := fun x => { x with flags := x.flags ++ [.alias] }) fun _ => rfl

theorem bind (h : p.Stated pending) (n : NodeId) (s : SymbolId) : (p.bind n s).Stated pending := h

theorem addWildcard (h : p.Stated pending) {owner : SymbolId} {n : NodeId} (hn : n ∈ pending) :
    (p.addWildcard owner n).Stated pending := by
  unfold Program.addWildcard
  split
  · exact h.addDeclaration fun _ _ => hn
  · refine (h.putSymbol fun _ _ => ?_).modifySymbol fun _ => rfl
    exact List.cons_subset.mpr ⟨List.mem_append_right _ hn, List.nil_subset _⟩

theorem addFile (h : p.Stated []) (name : Name) (options : FileOptions) :
    (p.addFile name options).2.Stated [] := by
  have hsub : p.statementIds ++ [] ⊆ (p.addFile name options).2.statementIds ++ [] := by
    rw [List.append_nil, List.append_nil, statementIds, statementIds, Snapshot.sources_addFile,
      List.flatMap_append]
    exact List.subset_append_left _ _
  have hsame : ∀ m, ((p.addFile name options).2.symbol (.wildcards m)).declarations =
      (p.symbol (.wildcards m)).declarations := by
    intro m
    unfold Program.addFile
    cases options.isModule with
    | true =>
      change (((p.symbols.insert (.ofFile _) _).get? (.wildcards m)).getD _).declarations = _
      rw [Table.get?_insert, if_neg (by simp)]
      rfl
    | false => rfl
  intro m
  rw [hsame]
  exact List.Subset.trans (h m) hsub

/-- The statements that are on the way stand in the last file once their trees do. -/
theorem install {S : Shape} {ids : List NodeId} {before : List SourceFile} {file : SourceFile}
    {n : Node} {trees : List Tree} (h : p.Stated (Tree.statementIds trees))
    (hw : p.WellFormed S ids) (hs : p.sources = before ++ [file]) (hf : file.tree = .mk n []) :
    (p.modifyTree n.id fun t => .mk t.node trees).Stated [] := by
  have hids : (p.modifyTree n.id fun t => .mk t.node trees).statementIds =
      p.statementIds ++ Tree.statementIds trees := by
    rw [statementIds, hw.sources_install hs hf, statementIds, hs, List.flatMap_append,
      List.flatMap_singleton, List.flatMap_append, List.flatMap_singleton, hf,
      Tree.statementIds_mk, Tree.statementIds_mk]
    simp
  intro m
  rw [hids, List.append_nil]
  exact h m

end Stated

end Program

/-! ### Loading -/

namespace Snapshot

open Program

/-- The wildcard re-exports of a draft are statements. -/
def Draft.Stated (pending : List NodeId) (d : Draft) : Prop := d.program.Stated pending

variable {pending : List NodeId} {d : Draft}

theorem Draft.Stated.freshNode (h : d.Stated pending) :
    Draft.Stated pending { d with program := d.program.freshNode.2 } := h

theorem stated_addSymbol {j : Json} (h : d.Stated pending) :
    Yields (addSymbol j) d fun _ d' => d'.Stated pending := by
  refine yields_bind (yields_entry fun members _ => yields_bind (yields_required fun id _ =>
    yields_bind (yields_required fun name _ => yields_bind (yields_keyOf fun k _ =>
    yields_bind (yields_get ?_)))))
  dsimp only
  split
  · exact yields_bind (yields_throw _)
  · refine yields_bind (yields_listed (yields_bind (yields_flagsOf fun flags => yields_edit ?_)))
    exact Program.Stated.putSymbol h (by simp)

theorem stated_addExports {owner : SymbolId} {table : List (String × Json)}
    (h : d.Stated pending) :
    Yields (addExports owner table) d fun _ d' => d'.Stated pending := by
  refine yields_forM (fun e _ d h => ?_) h
  refine yields_bind (yields_symbolOf fun s _ => yields_bind (yields_get ?_))
  refine yields_bind (yields_lift fun n _ => yields_edit ?_)
  exact Program.Stated.modifySymbol h fun _ => rfl

theorem stated_linkSymbol {j : Json} (h : d.Stated pending) :
    Yields (linkSymbol j) d fun _ d' => d'.Stated pending := by
  refine yields_bind (yields_entry fun members _ => yields_bind (yields_required fun id _ =>
    yields_bind (yields_keyOf fun k _ => yields_bind (yields_listed ?_))))
  refine yields_bind ((yields_forM (fun id _ d h => ?_) h).mono fun _ d' h' => ?_)
  · refine yields_bind (yields_get (yields_bind (yields_keyOf fun key _ => ?_)))
    split
    · exact yields_edit (Program.Stated.addDeclaration h (by simp))
    · exact yields_bind (yields_get (yields_throw _))
  split
  · refine yields_bind (yields_symbolOf fun t _ => yields_bind (yields_edit ?_))
    refine yields_bind (yields_exported fun table => stated_addExports ?_)
    exact Program.Stated.setAliasTarget h' _ t
  · exact yields_bind (yields_exported fun table => stated_addExports h')

theorem stated_recordNode {n : NodeId} {members : List (String × Json)}
    (h : d.Stated pending) :
    Yields (recordNode n members) d fun _ d' => d'.Stated pending := by
  unfold recordNode
  split
  · refine yields_bind (yields_keyOf fun key _ => ?_)
    intro _ d' hr
    cases hr
    exact h
  · exact yields_pure h

theorem stated_bindNode {n : NodeId} {members : List (String × Json)} {name : String}
    (h : d.Stated pending) :
    Yields (bindNode n members name) d fun _ d' => d'.Stated pending := by
  unfold bindNode
  split
  · exact yields_pure h
  · refine yields_bind (yields_symbolOf fun s _ => yields_bind (yields_edit (yields_pure ?_)))
    exact Program.Stated.bind h n s

theorem stated_literalOf {start : Json} {members : List (String × Json)}
    (h : d.Stated pending) :
    Yields (literalOf start members) d fun _ d' => d'.Stated pending := by
  unfold literalOf
  split
  · exact yields_pure h
  · refine yields_bind (yields_create (yields_bind ?_))
    exact (stated_bindNode h.freshNode).mono fun _ d' h' => yields_pure h'

/-- The export declarations that are on the way follow the trees that are built. -/
theorem nodeCases_stated (frame : Frame) :
    NodeCases frame fun _ _ d _ ts d' => ∀ pending : List NodeId,
      d.Stated pending → d'.Stated (pending ++ Tree.statementIds ts) where
  nil _ _ d pending h := by simpa using h
  cons {_ _ _ _ _ _ _ t ts} h₁ h₂ pending h := by
    have hall := h₂ _ (h₁ pending h)
    rwa [List.append_assoc, ← Tree.statementIds_append] at hall
  node above parent members d hbelow := by
    refine yields_forall fun pending => yields_forall fun h => ?_
    rw [node]
    refine yields_bind (yields_kindOf fun kind _ => yields_bind (yields_create ?_))
    refine yields_bind ((stated_recordNode h.freshNode).mono fun _ d₁ h₁ => yields_bind ?_)
    refine (stated_bindNode h₁).mono fun _ d₂ h₂ => yields_bind ?_
    refine (hbelow _ _ d₂).mono fun children d₃ h₃ => yields_bind ?_
    refine (stated_literalOf (h₃ _ h₂)).mono fun literal d₄ h₄ => ?_
    split
    · exact yields_pure (Program.Stated.below h₄ (List.prefix_refl _))
    · split
      · rename_i hkind
        refine yields_bind (yields_ownerOf fun _ owner _ => ?_)
        refine yields_bind (yields_edit (yields_pure ?_))
        refine Program.Stated.addWildcard (Program.Stated.below h₄ (List.prefix_append ..)) ?_
        rw [Tree.statementIds_mk, if_pos hkind.1]
        simp
      · exact yields_pure (Program.Stated.below h₄ (List.prefix_append ..))

/-! ### Files and programs -/

variable {known : SymbolId → Prop} {sources : List SourceFile}

theorem stated_addFile {j : Json} (h : d.Stated []) (hok : d.Ok .any known sources []) :
    Yields (addFile j) d fun _ d' => d'.Stated [] := by
  refine yields_bind (yields_entry fun members _ => yields_bind (yields_required fun fileName _ =>
    yields_bind (yields_lift fun name _ => yields_bind (yields_create ?_))))
  let options : FileOptions :=
    { isModule := isSet members "module" true
      isExternal := isSet members "externalLibrary" false
      isDefault := isSet members "defaultLibrary" false
      noDefaultLib := isSet members "noDefaultLib" false }
  have hadd : Draft.Stated [] { d with program := (d.program.addFile name options).2 } :=
    Program.Stated.addFile h name options
  let id := (d.program.addFile name options).1
  have hbuilt := yields_nodesOf ⟨name, id⟩ id (.int 0)
    ((Json.member? members "statements").getD (.arr [])) (hok.addFile name options) trivial
    fun t _ => nodeConforms_any t
  have hnodes := (nodeCases_stated ⟨name, id⟩).yields_nodesOf id (.int 0)
    ((Json.member? members "statements").getD (.arr []))
  refine yields_bind ((hbuilt.and (hnodes _)).mono fun trees d₁ h₁ => ?_)
  obtain ⟨⟨hok₁, _⟩, hstated⟩ := h₁
  refine yields_bind (yields_edit (yields_pure ?_))
  exact Program.Stated.install (hstated _ hadd) hok₁.wellFormed hok₁.sources rfl

theorem stated_addFiles {l : List Json} (h : d.Stated []) (hok : d.Ok .any known sources []) :
    Yields (l.mapM addFile) d fun _ d' => d'.Stated [] := by
  induction l generalizing d known sources with
  | nil =>
    rw [List.mapM_nil]
    exact yields_pure h
  | cons j l ih =>
    rw [List.mapM_cons]
    have hfile := yields_addFile (j := j) hok fun t _ => nodeConforms_any t
    refine yields_bind ((hfile.and (stated_addFile h hok)).mono ?_)
    rintro file d₁ ⟨⟨f, _, hok₁⟩, h₁⟩
    exact yields_bind ((ih h₁ hok₁).mono fun files d₂ h₂ => yields_pure h₂)

theorem stated_linkFile {file : FileEntry} (h : d.Stated pending) :
    Yields (linkFile file) d fun _ d' => d'.Stated pending := by
  refine yields_bind (yields_exported fun table => ?_)
  refine yields_bind ((stated_addExports h).mono fun _ d₁ h₁ => yields_bind (yields_listed ?_))
  refine yields_forM (fun id _ d h => ?_) h₁
  exact yields_bind (yields_symbolOf fun s _ => yields_edit h)

theorem stated_addResolution {j : Json} (h : d.Stated pending) :
    Yields (addResolution j) d fun _ d' => d'.Stated pending :=
  yields_bind (yields_entry fun _ _ => yields_bind (yields_required fun _ _ =>
    yields_bind (yields_required fun _ _ => yields_bind (yields_required fun _ _ =>
    yields_bind (yields_lift fun _ _ => yields_bind (yields_lift fun _ _ => yields_edit h))))))

theorem stated_build {members : List (String × Json)} (h : d.Stated [])
    (hok : d.Ok .any known sources []) : Yields (build members) d fun _ d' => d'.Stated [] := by
  have hc := conforms_any (.obj members)
  refine yields_bind (yields_listed (yields_bind ?_))
  refine ((yields_addSymbols hok hc.names).and
    (yields_forM (fun j _ d h => stated_addSymbol h) h)).mono ?_
  rintro _ d₁ ⟨hok₁, h₁⟩
  refine yields_bind (yields_listed (yields_bind ((stated_addFiles h₁ hok₁).mono ?_)))
  intro files d₂ h₂
  refine yields_bind ((yields_forM (fun j _ d h => stated_linkSymbol h) h₂).mono ?_)
  intro _ d₃ h₃
  refine yields_bind ((yields_forM (fun f _ d h => stated_linkFile h) h₃).mono ?_)
  refine fun _ d₄ h₄ => yields_bind (yields_listed (yields_bind ((yields_forM ?_ h₄).mono ?_)))
  · intro id _ d h
    exact yields_bind (yields_symbolOf fun s _ => yields_edit h)
  refine fun _ d₅ h₅ => yields_bind (yields_listed (yields_forM ?_ h₅))
  exact fun j _ d h => stated_addResolution h

/-- The wildcard re-exports of a loaded program are statements of its files. -/
theorem stated_of_load {doc : Json} {p : Program} (h : load doc = .ok p) : p.Stated [] := by
  unfold load at h
  split at h
  · rename_i members
    obtain ⟨⟨_, d⟩, hd, hp⟩ := bind_eq_ok_iff.mp h
    have hempty : Draft.Stated [] ⟨Program.empty, ∅⟩ := by
      intro m
      change (((Program.empty.symbols).get? (.wildcards m)).getD _).declarations ⊆ _
      rw [Program.empty, Table.get?_insert, if_neg (by simp), Table.get?_insert, if_neg (by simp)]
      exact List.nil_subset _
    exact Except.ok.inj hp ▸ stated_build hempty (.empty .any) _ d hd
  · cases h

end Snapshot

namespace Program

variable {S : Shape} {p : Program}

/-- The wildcard re-exports under the name reserved for them are statements. -/
theorem WellFormed.exists_statement? (h : p.WellFormed S []) (hs : p.Stated []) {m : SymbolId}
    {n : NodeId} (hn : n ∈ (p.symbol (.wildcards m)).declarations) :
    ∃ d, p.statement? n = some d := by
  have hn := hs m hn
  rw [List.append_nil, statementIds, List.mem_flatMap] at hn
  obtain ⟨f, hf, hn⟩ := hn
  obtain ⟨t, ht, rfl⟩ := List.mem_map.mp hn
  obtain ⟨ht, hk⟩ := List.mem_filter.mp ht
  have hsite := siteOf_eq_ok_iff.mpr (site?_of_mem_preorder h.nodup_nodeIds hf ht)
  exact ⟨⟨t, some f⟩, statement?_eq_some.mpr ⟨hsite, of_decide_eq_true hk⟩⟩

end Program

end ApiSurface
