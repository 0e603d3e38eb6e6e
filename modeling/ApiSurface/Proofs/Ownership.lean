import ApiSurface.Proofs.Naming
import ApiSurface.Proofs.Registration

/-! The wildcard re-exports of a loaded program are those of the document. What is linked after the
files are built leaves their records as they are, if no export table of the document uses the name
reserved for them. -/

namespace ApiSurface

open Snapshot (ownedBy)

/-! ### Links -/

namespace Program

variable {p q : Program}

/-- Nothing has changed of what wildcard re-exports and their owners are read off. -/
structure Settled (p q : Program) : Prop where
  sources : q.sources = p.sources
  bindings : q.bindings = p.bindings
  names : ∀ s, (q.symbol s).name = (p.symbol s).name
  recorded : ∀ m, q.recorded m = p.recorded m
  entry : ∀ m, (q.tableOf m).get? (.text wildcardName) = (p.tableOf m).get? (.text wildcardName)

namespace Settled

theorem refl (p : Program) : p.Settled p := ⟨rfl, rfl, fun _ => rfl, fun _ => rfl, fun _ => rfl⟩

theorem congr (h : p.Settled q) {r : Program} (hs : r.sources = q.sources)
    (hb : r.bindings = q.bindings) (hx : r.symbols = q.symbols) : p.Settled r where
  sources := hs.trans h.sources
  bindings := hb.trans h.bindings
  names s := by
    rw [symbol, hx]
    exact h.names s
  recorded m := by
    rw [Program.recorded, symbol, hx]
    exact h.recorded m
  entry m := by
    rw [tableOf, symbol, hx]
    exact h.entry m

theorem modifySymbol (h : p.Settled q) {s : SymbolId} {f : Symbol → Symbol}
    (hname : ∀ x, (f x).name = x.name)
    (hdeclarations : ∀ m, s = .wildcards m → ∀ x, (f x).declarations = x.declarations)
    (hentry : ((f (q.symbol s)).exports.getD ∅).get? (.text wildcardName) =
      (q.tableOf s).get? (.text wildcardName)) : p.Settled (q.modifySymbol s f) where
  sources := h.sources
  bindings := h.bindings
  names t := (name_modifySymbol hname t).trans (h.names t)
  recorded m := by
    rw [← h.recorded, Program.recorded, Program.modifySymbol, symbol_putSymbol]
    split
    · rename_i hs
      rw [hdeclarations m hs, hs]
      rfl
    · rfl
  entry m := by
    rw [← h.entry, tableOf, Program.modifySymbol, symbol_putSymbol]
    split
    · rename_i hs
      rw [hentry, hs]
    · rfl

theorem addDeclaration (h : p.Settled q) (k : Key) (n : NodeId) :
    p.Settled (q.addDeclaration (.listed k) n) :=
  h.modifySymbol (fun _ => rfl) (by simp) rfl

theorem setAliasTarget (h : p.Settled q) (s t : SymbolId) : p.Settled (q.setAliasTarget s t) := by
  have hflags : p.Settled (q.modifySymbol s fun x => { x with flags := x.flags ++ [.alias] }) :=
    h.modifySymbol (fun _ => rfl) (fun _ _ _ => rfl) rfl
  exact hflags.congr rfl rfl rfl

theorem addExport (h : p.Settled q) (owner s : SymbolId) {n : Name}
    (hn : n.key ≠ .text wildcardName) : p.Settled (q.addExport owner s n) := by
  unfold Program.addExport
  refine h.modifySymbol ?_ ?_ ?_
  · exact fun _ => rfl
  · exact fun _ _ _ => rfl
  · rw [Option.getD_some, Table.get?_insert, if_neg hn]

end Settled

end Program

namespace Snapshot

/-- An entry of an export table does not use the name reserved for wildcard re-exports, as it is or
as the name of the symbol under the empty name. -/
def LeavesReserved (p : Program) (e : String × Json) : Prop :=
  e.1 ≠ wildcardName ∧ (e.1 = "" → ∀ k, e.2.key? = some k →
    (p.symbol (.listed k)).name.key? ≠ some (.text wildcardName))

section Links

variable {p : Program} {d : Draft}

theorem LeavesReserved.exportName {q : Program} {e : String × Json} {k : Key} {n : Name}
    (he : LeavesReserved p e) (h : p.Settled q) (hk : e.2.key? = some k)
    (hn : q.exportName (.listed k) (.str e.1) = .ok n) : n.key ≠ .text wildcardName := by
  unfold Program.exportName at hn
  split at hn
  · have hkey := key?_of_nameOf hn
    intro hw
    exact he.1 (Key.text.inj (Option.some.inj (hkey.trans (congrArg some hw))))
  · rename_i hset
    have hempty : e.1 = "" := by simpa [Json.isSet] using hset
    obtain ⟨x, hx, hn⟩ := bind_eq_ok_iff.mp hn
    have hname : x.name = (p.symbol (.listed k)).name := by
      rw [← h.names, (Program.symbolOf_eq_ok_iff.mp hx).2]
    intro hw
    refine he.2 hempty k hk ?_
    rw [← hname, key?_of_nameOf hn, hw]

theorem settled_addExports {owner : SymbolId} {table : List (String × Json)}
    (ht : ∀ e ∈ table, LeavesReserved p e) (h : p.Settled d.program) :
    Yields (addExports owner table) d fun _ d' => p.Settled d'.program := by
  refine yields_forM (I := fun d => p.Settled d.program) (fun e he d h => ?_) h
  refine yields_bind (yields_symbolOf_key fun k hk _ => yields_bind (yields_get ?_))
  refine yields_bind (yields_lift fun n hn => yields_edit ?_)
  exact h.addExport owner (.listed k) ((ht e he).exportName h hk hn)

theorem settled_linkSymbol {j : Json} (hj : ∀ e ∈ exportsIn j, LeavesReserved p e)
    (h : p.Settled d.program) : Yields (linkSymbol j) d fun _ d' => p.Settled d'.program := by
  refine yields_bind (yields_entry fun members hm => yields_bind (yields_required fun id _ =>
    yields_bind (yields_keyOf fun k _ => yields_bind (yields_listed ?_))))
  subst hm
  have hexports : ∀ d, p.Settled d.program → Yields (exported members >>= addExports (.listed k)) d
      fun _ d' => p.Settled d'.program := by
    intro d h
    refine yields_bind ((judges_exported members).yields.mono ?_)
    rintro table d' ⟨_, rfl, rfl⟩
    exact settled_addExports hj h
  refine yields_bind ((yields_forM (I := fun d => p.Settled d.program)
    (fun id _ d h => ?_) h).mono fun _ d' h' => ?_)
  · refine yields_bind (yields_get (yields_bind (yields_keyOf fun key _ => ?_)))
    split
    · exact yields_edit (h.addDeclaration k _)
    · exact yields_bind (yields_get (yields_throw _))
  split
  · refine yields_bind (yields_symbolOf fun t _ => yields_bind (yields_edit ?_))
    exact hexports _ (h'.setAliasTarget _ t)
  · exact hexports d' h'

theorem settled_linkFile {file : FileEntry}
    (hf : ∀ e ∈ exportsIn (.obj file.members), LeavesReserved p e) (h : p.Settled d.program) :
    Yields (linkFile file) d fun _ d' => p.Settled d'.program := by
  refine yields_bind ((judges_exported file.members).yields.mono ?_)
  rintro table d' ⟨_, rfl, rfl⟩
  refine yields_bind ((settled_addExports hf h).mono fun _ d₁ h₁ => yields_bind (yields_listed ?_))
  refine yields_forM (I := fun d => p.Settled d.program) (fun id _ d h => ?_) h₁
  exact yields_bind (yields_symbolOf fun s _ => yields_edit (h.congr rfl rfl rfl))

theorem settled_addResolution {j : Json} (h : p.Settled d.program) :
    Yields (addResolution j) d fun _ d' => p.Settled d'.program :=
  yields_bind (yields_entry fun _ _ => yields_bind (yields_required fun _ _ =>
    yields_bind (yields_required fun _ _ => yields_bind (yields_required fun _ _ =>
    yields_bind (yields_lift fun _ _ => yields_bind (yields_lift fun _ _ =>
    yields_edit (h.congr rfl rfl rfl)))))))

end Links

/-! ### Programs -/

/-- Symbols without declarations and exports, and no bindings. -/
structure Blank (p : Program) : Prop where
  symbols : ∀ s, (p.symbol s).declarations = [] ∧ (p.symbol s).exports = none
  bindings : ∀ n, p.symbolAt n = none

theorem Blank.tidy {p : Program} (h : Blank p) : p.Tidy where
  entry m := by
    have hrecorded : p.recorded m = [] := (h.symbols _).1
    rw [if_pos hrecorded, Program.tableOf, (h.symbols m).2]
    rfl
  owners m hm := absurd (h.symbols _).1 hm
  bound n s hs := by cases (h.bindings n).symm.trans hs

theorem blank_addSymbol {j : Json} {d : Draft} (h : Blank d.program) :
    Yields (addSymbol j) d fun _ d' => Blank d'.program := by
  refine (judges_addSymbol j).yields.mono ?_
  rintro _ _ ⟨_, k, name, flags, _, _, rfl⟩
  refine ⟨fun s => ?_, h.bindings⟩
  rw [Program.symbol_putSymbol]
  split
  · exact ⟨rfl, rfl⟩
  · exact h.symbols s

theorem blank_empty : Blank Program.empty := by
  refine ⟨fun s => ?_, fun n => rfl⟩
  unfold Program.symbol Program.empty
  rw [Table.get?_insert, Table.get?_insert]
  split
  · exact ⟨rfl, rfl⟩
  · split <;> exact ⟨rfl, rfl⟩

/-- No export table of a document uses the name reserved for wildcard re-exports, as the name of an
entry or as that of a symbol under the empty name. -/
def Unreserved (doc : Json) : Prop :=
  ∀ j ∈ entriesOf doc "symbols" ++ entriesOf doc "files", ∀ e ∈ exportsIn j,
    e.1 ≠ wildcardName ∧ (e.1 = "" → ∀ k, e.2.key? = some k → ∀ i ∈ entriesOf doc "symbols",
      keyAt i = some k → memberOf i "name" ≠ some (.str wildcardName))

/-- A program has the nodes and the wildcard re-exports of a document. -/
structure Follows (doc : Json) (p : Program) : Prop where
  files : List.Forall₂ DrawsFile (entriesOf doc "files") p.sources
  entry : ∀ m, (p.tableOf m).get? (.text wildcardName) =
    if p.recorded m = [] then none else some ⟨.ofText wildcardName, .wildcards m⟩
  recorded : ∀ m, p.recorded m = ownedBy m p.symbolAt (programVisits doc p)

theorem Follows.settled {doc : Json} {p q : Program} (h : Follows doc p) (hs : p.Settled q) :
    Follows doc q where
  files := hs.sources ▸ h.files
  entry m := by
    rw [hs.entry, hs.recorded]
    exact h.entry m
  recorded m := by
    have hat : q.symbolAt = p.symbolAt := by
      funext n
      rw [Program.symbolAt, hs.bindings]
      rfl
    rw [hs.recorded, hat, programVisits, hs.sources]
    exact h.recorded m

theorem leavesReserved_of_unreserved {doc : Json} {d d' : Draft} {q : Program}
    (hu : Unreserved doc) (hj : Joined (fun _ => False) (entriesOf doc "symbols") d d')
    (he : d'.program.Edits q) {j : Json}
    (hmem : j ∈ entriesOf doc "symbols" ++ entriesOf doc "files") :
    ∀ e ∈ exportsIn j, LeavesReserved q e := by
  intro e hentry
  obtain ⟨hname, hempty⟩ := hu j hmem e hentry
  refine ⟨hname, fun h k hk hkey => ?_⟩
  rw [he.name_eq (by simp) (by simp)] at hkey
  by_cases hlisted : .listed k ∈ d'.program.symbolIds
  · obtain ⟨i, hi, hik⟩ := ((hj.keys k).mp hlisted).resolve_left id
    refine hempty h k hk i hi hik ?_
    rw [hj.names i hi k hik, Json.eq_str_of_key? hkey]
  · rw [Program.symbol_of_notMem hlisted] at hkey
    exact absurd hkey (by decide)

theorem follows_build {members : List (String × Json)} (hu : Unreserved (.obj members)) :
    Yields (build members) ⟨Program.empty, ∅⟩ fun _ d' => Follows (.obj members) d'.program := by
  refine yields_bind (yields_listed (yields_bind ?_))
  have hblank : Yields ((entriesOf (.obj members) "symbols").forM addSymbol)
      ⟨Program.empty, ∅⟩ fun _ d => Blank d.program :=
    yields_forM (I := fun d => Blank d.program) (fun j _ d h => blank_addSymbol h) blank_empty
  refine (((judges_addSymbols listed_empty).yields.and
    (yields_addSymbols (.empty .any) (conforms_any (.obj members)).names)).and hblank).mono ?_
  rintro _ d₁ ⟨⟨⟨_, hjoined⟩, hok₁⟩, hblank⟩
  refine yields_bind (yields_listed (yields_bind ?_))
  refine ((judges_addFiles hjoined.listing hok₁ Relation.ReflTransGen.refl).yields.and
    (registers_addFiles hblank.tidy hok₁)).mono ?_
  rintro files d₂ ⟨⟨_, hmap, hedits, _⟩, fs, hfs, hdraws, hregisters⟩
  rw [List.nil_append] at hfs
  have hfollows : Follows (.obj members) d₂.program := by
    refine ⟨hfs ▸ hdraws, hregisters.tidy.entry, fun m => ?_⟩
    rw [hregisters.recorded _ (fun _ _ => rfl) m, programVisits, hfs]
    exact congrArg (· ++ _) (hblank.symbols _).1
  -- from here on only links are made
  have hfree : ∀ j ∈ entriesOf (.obj members) "symbols" ++ entriesOf (.obj members) "files",
      ∀ e ∈ exportsIn j, LeavesReserved d₂.program e :=
    fun j hj => leavesReserved_of_unreserved hu hjoined hedits hj
  refine yields_bind ((yields_forM (I := fun d => d₂.program.Settled d.program)
    (fun j hj d h => settled_linkSymbol (hfree j (List.mem_append_left _ hj)) h)
    (.refl _)).mono fun _ d₃ h₃ => ?_)
  refine yields_bind ((yields_forM (I := fun d => d₂.program.Settled d.program)
    (fun f hf d h => settled_linkFile (hfree _ (List.mem_append_right _ ?_)) h) h₃).mono
    fun _ d₄ h₄ => ?_)
  · rw [hmap]
    exact List.mem_map.mpr ⟨f, hf, rfl⟩
  refine yields_bind (yields_listed (yields_bind ?_))
  refine (yields_forM (I := fun d => d₂.program.Settled d.program) (fun id _ d h => ?_) h₄).mono
    fun _ d₅ h₅ => yields_bind (yields_listed ?_)
  · exact yields_bind (yields_symbolOf fun s _ => yields_edit (h.congr rfl rfl rfl))
  refine (yields_forM (I := fun d => d₂.program.Settled d.program) (fun j _ d h => ?_) h₅).mono
    fun _ d₆ h₆ => hfollows.settled h₆
  exact settled_addResolution h

theorem follows_of_load {doc : Json} {p : Program} (hu : Unreserved doc)
    (h : load doc = .ok p) : Follows doc p := by
  unfold load at h
  split at h
  · obtain ⟨⟨_, d⟩, hd, hp⟩ := bind_eq_ok_iff.mp h
    exact Except.ok.inj hp ▸ follows_build hu _ d hd
  · cases h

/-- The nodes of a loaded program are those of the document, in its order. A symbol has an entry for
wildcard re-exports exactly if it owns some, and the declarations of the entry are those that it
owns, in the order of the document. -/
theorem load_draws {doc : Json} {p : Program} (hu : Unreserved doc) (h : load doc = .ok p) :
    List.Forall₂ DrawsFile (entriesOf doc "files") p.sources ∧
    (∀ f ∈ p.sources, p.symbolAt f.id = some f.symbol) ∧
    ∀ m, ((∃ e, (p.tableOf m).get? (.text wildcardName) = some e) ↔
        ∃ v ∈ programVisits doc p, v.isWildcard = true ∧ v.owner? p.symbolAt = some m) ∧
      ∀ e, (p.tableOf m).get? (.text wildcardName) = some e →
        (p.symbol e.symbol).declarations = ownedBy m p.symbolAt (programVisits doc p) := by
  have hfollows := follows_of_load hu h
  have hw := wellFormed_of_load (conforms_any doc) h
  refine ⟨hfollows.files, fun f hf => hw.symbolAt_file hf, fun m => ⟨?_, fun e he => ?_⟩⟩
  · rw [hfollows.entry, hfollows.recorded, ← ownedBy_ne_nil_iff]
    split
    · rename_i hnil
      simp [hnil]
    · rename_i hne
      exact iff_of_true ⟨_, rfl⟩ hne
  · rw [hfollows.entry] at he
    split at he
    · cases he
    · obtain rfl := Option.some.inj he
      exact hfollows.recorded m

/-- A wildcard re-export in a namespace, one in a node that stands for nothing, one at the top, and
one in each of two scripts. Another re-export has a name below it. -/
def nestedWildcards : Json :=
  .obj [("symbols", .arr [declaredEntry "N"]),
    ("files", .arr [
      .obj [("fileName", .str "main"), ("exports", .obj [("N", .str "N")]), ("statements", .arr [
        .obj [("id", .str "N"), ("kind", .str "module_declaration"), ("start", .int 7),
          ("symbol", .str "N"), ("children", .arr [wildcardEntry "./a" .null,
            .obj [("kind", .str "other"), ("children", .arr [wildcardEntry "./b" .null])]])],
        .obj [("kind", .str "export_declaration"), ("start", .int 9),
          ("moduleSpecifier", .str "./c"),
          ("children", .arr [.obj [("kind", .str "export_specifier")]])],
        wildcardEntry "./d" (.int 12)])],
      .obj [("fileName", .str "first"), ("module", .bool false),
        ("statements", .arr [wildcardEntry "./e" .null])],
      .obj [("fileName", .str "second"), ("module", .bool false),
        ("statements", .arr [wildcardEntry "./f" .null])]])]

theorem unreserved_nestedWildcards : Unreserved nestedWildcards := by
  intro j hj e he
  simp [nestedWildcards, declaredEntry, entriesOf, memberOf, Json.member?, Json.items?] at hj
  rcases hj with rfl | rfl | rfl | rfl <;>
    simp [exportsIn, memberOf, Json.member?] at he
  subst he
  exact ⟨by decide, fun h => absurd h (by decide)⟩

/-- The namespace has the first one, its file those that are in no node that stands for something,
and the scripts share theirs. -/
theorem draws_nestedWildcards : ∃ p e₁ e₂ e₃, load nestedWildcards = .ok p ∧
    Unreserved nestedWildcards ∧
    List.Forall₂ DrawsFile (entriesOf nestedWildcards "files") p.sources ∧
    ((programVisits nestedWildcards p).map fun v => v.tree.node.start) =
      [7, 7, 7, 7, 9, 9, 12, 0, 0].map .int ∧
    (p.tableOf (.listed (.text "N"))).get? (.text wildcardName) = some e₁ ∧
    (p.symbol e₁.symbol).declarations = [.node 2] ∧
    (p.tableOf (.ofFile (.node 0))).get? (.text wildcardName) = some e₂ ∧
    (p.symbol e₂.symbol).declarations = [.node 5, .node 10] ∧
    (p.tableOf .globalThis).get? (.text wildcardName) = some e₃ ∧
    (p.symbol e₃.symbol).declarations = [.node 13, .node 16] := by
  have hrun : ((load nestedWildcards).toOption.map fun p =>
      ((programVisits nestedWildcards p).map fun v => v.tree.node.start,
        [.listed (.text "N"), .ofFile (.node 0), .globalThis].map fun m =>
          ownedBy m p.symbolAt (programVisits nestedWildcards p))) =
      some ([7, 7, 7, 7, 9, 9, 12, 0, 0].map .int,
        [[.node 2], [.node 5, .node 10], [.node 13, .node 16]]) := by cbv
  obtain ⟨p, hload, hrun⟩ := map_toOption_eq_some_iff.mp hrun
  simp only [List.map_cons, List.map_nil, Prod.mk.injEq, List.cons.injEq, and_true] at hrun
  obtain ⟨hstarts, h₁, h₂, h₃⟩ := hrun
  obtain ⟨hfiles, _, hentries⟩ := load_draws unreserved_nestedWildcards hload
  have hentry : ∀ m l, ownedBy m p.symbolAt (programVisits nestedWildcards p) = l → l ≠ [] →
      ∃ e, (p.tableOf m).get? (.text wildcardName) = some e ∧
        (p.symbol e.symbol).declarations = l := by
    rintro m l rfl hne
    obtain ⟨e, he⟩ := (hentries m).1.mpr (ownedBy_ne_nil_iff.mp hne)
    exact ⟨e, he, (hentries m).2 e he⟩
  obtain ⟨e₁, he₁, hd₁⟩ := hentry _ _ h₁ (by simp)
  obtain ⟨e₂, he₂, hd₂⟩ := hentry _ _ h₂ (by simp)
  obtain ⟨e₃, he₃, hd₃⟩ := hentry _ _ h₃ (by simp)
  exact ⟨p, e₁, e₂, e₃, hload, unreserved_nestedWildcards, hfiles, hstarts, he₁, hd₁, he₂, hd₂, he₃,
    hd₃⟩

end Snapshot

end ApiSurface
