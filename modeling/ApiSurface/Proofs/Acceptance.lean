import ApiSurface.Proofs.Edits
import ApiSurface.Proofs.Judging

/-! Which documents are accepted. Every step of the loading judges its entry, so a document is
loaded if and only if its values are of the right kinds and it is sound. Among the documents of the
documented shape these are the coherent ones, and for the others the fault is one of the document.
-/

namespace ApiSurface

theorem Flag.ofName?_isSome_iff (s : String) :
    (Flag.ofName? s).isSome ↔ s = "NONE" ∨ ∃ f : Flag, f.name = s := by
  unfold Flag.ofName?
  split
  · simp [*]
  · rename_i hs
    simp only [Option.isSome_map, List.find?_isSome, decide_eq_true_eq, hs, false_or]
    constructor
    · rintro ⟨f, _, hf⟩
      exact ⟨f, hf⟩
    · rintro ⟨f, hf⟩
      exact ⟨f, by cases f <;> decide, hf⟩

namespace Snapshot

/-! ### Listed symbols -/

/-- The listed symbols of a program have the given keys, and some of them have names that can be the
names of exports. -/
structure Listing (K N : Key → Prop) (p : Program) : Prop where
  listed : ∀ k, .listed k ∈ p.symbolIds ↔ K k
  named : ∀ k, K k → (HasKey (p.symbol (.listed k)).name ↔ N k)

theorem Listing.edits {K N : Key → Prop} {p q : Program} (h : Listing K N p) (he : p.Edits q) :
    Listing K N q where
  listed k := (he.listed_mem_iff k).trans (h.listed k)
  named k hk := he.name_eq (s := .listed k) (by simp) (by simp) ▸ h.named k hk

section Keys

variable {K N R : Key → Prop} {p : Program} {d : Draft}

theorem judges_symbolOf (h : Listing K N d.program) (v : Json) :
    Judges (symbolOf v) d (HasKey v) (Mentions K v) fun s d' => d' = d ∧
      ∃ k, v.key? = some k ∧ s = .listed k ∧ .listed k ∈ d.program.symbolIds := by
  refine judges_bind (judges_keyOf v) id (fun _ => trivial) ?_
  rintro k d' hkey - ⟨hk, rfl⟩
  refine judges_get ?_
  split
  · rename_i hm
    refine judges_pure hkey (fun l hl => ?_) ⟨rfl, k, hk, rfl, hm⟩
    exact Option.some.inj (hk.symm.trans hl) ▸ (h.listed k).mp hm
  · rename_i hm
    exact judges_fail (by simp) fun hv => hm ((h.listed k).mpr (hv k hk))

theorem judges_flagsOf (name : Json) (flags : List Json) :
    Judges (flagsOf name flags) d (∀ v ∈ flags, IsText v) (∀ v ∈ flags, IsText v → IsFlag v)
      fun _ d' => d' = d := by
  fun_induction flagsOf name flags with
  | case1 => exact judges_pure (by simp) (by simp) rfl
  | case2 f rest fs hf ih =>
    have hflag : IsFlag (.str f) := ⟨f, rfl, (Flag.ofName?_isSome_iff _).mp (by simp [hf])⟩
    rw [List.forall_mem_cons, List.forall_mem_cons]
    refine judges_bind ih And.right And.right ?_
    intro _ d' hrest hsound hd
    exact judges_pure ⟨isText_str f, hrest⟩ ⟨fun _ => hflag, hsound⟩ hd
  | case3 f rest hf =>
    refine judges_fail (by simp) fun h => ?_
    obtain ⟨s, hs, hname⟩ := h (.str f) (List.mem_cons_self ..) (isText_str f)
    have := (Flag.ofName?_isSome_iff _).mpr hname
    rw [← Json.str.inj hs, hf] at this
    cases this
  | case4 v rest hv =>
    refine judges_defect trivial fun h => ?_
    obtain ⟨s, hs⟩ := h v (List.mem_cons_self ..)
    exact hv s hs

theorem judges_addSymbol (j : Json) :
    Judges (addSymbol j) d (SymbolKinds j)
      (SymbolSound j ∧ ∀ k ∈ keyAt j, .listed k ∉ d.program.symbolIds) fun _ d' =>
        ∃ k name flags, keyAt j = some k ∧ memberOf j "name" = some name ∧
          d' = { d with program := d.program.putSymbol (.listed k) { name, flags } } := by
  refine judges_bind (judges_entry j) SymbolKinds.entry (fun _ => trivial) ?_
  rintro members d' hentry - ⟨rfl, rfl⟩
  refine judges_bind (judges_required .symbol members "id") (fun _ => trivial)
    (fun h => h.1.id hentry) ?_
  rintro id d' - hid ⟨hmid, rfl⟩
  refine judges_bind (judges_required .symbol members "name") (fun _ => trivial)
    (fun h => h.1.name hentry) ?_
  rintro name d' - hname ⟨hmname, rfl⟩
  refine judges_bind (judges_keyOf id) (fun h => h.id id hmid) (fun _ => trivial) ?_
  rintro k d' hidkey - ⟨hk, rfl⟩
  have hkey : keyAt (.obj members) = some k := by rw [keyAt, hmid, Option.bind_some, hk]
  refine judges_get ?_
  dsimp only
  split
  · rename_i hmem
    exact judges_fail (by simp) fun h => h.2 k hkey hmem
  · rename_i hmem
    refine judges_bind (judges_listed members "flags") (fun h => h.flags.1) (fun _ => trivial) ?_
    rintro flags d' hlist - ⟨rfl, rfl⟩
    refine judges_bind (judges_flagsOf name _) (fun h => h.flags.2) (fun h => h.1.flags) ?_
    rintro flags d' htexts hflags rfl
    refine ⟨⟨hentry, fun v hv => ?_, hlist, htexts⟩,
      ⟨⟨fun _ => hid, fun _ => hname, hflags⟩, fun l hl => ?_⟩, k, name, flags, hkey, hmname, rfl⟩
    · exact Option.some.inj (hmid.symm.trans hv) ▸ hidkey
    · exact Option.some.inj (hkey.symm.trans hl) ▸ hmem

theorem symbolsSound_cons_iff {j : Json} {l : List Json} {k : Key} (hk : keyAt j = some k) :
    SymbolsSound K (j :: l) ↔
      (SymbolSound j ∧ ¬K k) ∧ SymbolsSound (fun x => K x ∨ x = k) l := by
  constructor
  · rintro ⟨hc, hf, hd⟩
    rw [List.forall_mem_cons] at hc hf
    rw [List.pairwise_cons] at hd
    refine ⟨⟨hc.1, hf.1 k hk⟩, hc.2, ?_, hd.2⟩
    rintro i hi x hx (hK | rfl)
    · exact hf.2 i hi x hx hK
    · exact hd.1 i hi x hk hx
  · rintro ⟨⟨hc, hK⟩, hc', hf, hd⟩
    refine ⟨List.forall_mem_cons.mpr ⟨hc, hc'⟩, List.forall_mem_cons.mpr ⟨?_, ?_⟩, ?_⟩
    · exact fun x hx => Option.some.inj (hk.symm.trans hx) ▸ hK
    · exact fun i hi x hx hKx => hf i hi x hx (Or.inl hKx)
    · refine List.pairwise_cons.mpr ⟨fun i hi x hx he => ?_, hd⟩
      exact hf i hi x he (Or.inr (Option.some.inj (hx.symm.trans hk)))

/-- Symbols have been listed besides those of the given keys, and nothing else has changed. -/
structure Joined (K : Key → Prop) (l : List Json) (d d' : Draft) : Prop where
  keys : ∀ k, .listed k ∈ d'.program.symbolIds ↔ K k ∨ ∃ j ∈ l, keyAt j = some k
  names : ∀ j ∈ l, ∀ k ∈ keyAt j, memberOf j "name" = some (d'.program.symbol (.listed k)).name
  others : ∀ s ∈ d.program.symbolIds, d'.program.symbol s = d.program.symbol s
  modular : d.program.Modular → d'.program.Modular
  nodes : d'.nodes = d.nodes

/-- One symbol more, in front of others. -/
theorem Joined.cons {j : Json} {l : List Json} {k : Key} {name : Json} {flags : List Flag}
    {d' : Draft} (hk : keyAt j = some k) (hname : memberOf j "name" = some name)
    (hnew : .listed k ∉ d.program.symbolIds)
    (h : Joined (fun x => K x ∨ x = k) l
      { d with program := d.program.putSymbol (.listed k) { name, flags } } d') :
    Joined K (j :: l) d d' where
  keys x := by
    rw [h.keys, List.exists_mem_cons_iff, hk, Option.some.injEq, or_assoc, eq_comm (a := x)]
  names := by
    refine List.forall_mem_cons.mpr ⟨fun x hx => ?_, h.names⟩
    obtain rfl : k = x := Option.some.inj (hk.symm.trans hx)
    rw [h.others _ (Program.mem_symbolIds_putSymbol.mpr (Or.inl rfl)), Program.symbol_putSymbol,
      if_pos rfl, hname]
  others s hs := by
    have hne : .listed k ≠ s := fun he => hnew (he ▸ hs)
    rw [h.others s (Program.mem_symbolIds_putSymbol.mpr (Or.inr hs)), Program.symbol_putSymbol,
      if_neg hne]
  modular hm := h.modular (hm.putSymbol (by simp) (by simp))
  nodes := h.nodes

theorem judges_addSymbols {l : List Json} (h : ∀ k, .listed k ∈ d.program.symbolIds ↔ K k) :
    Judges (l.forM addSymbol) d (∀ j ∈ l, SymbolKinds j) (SymbolsSound K l)
      fun _ => Joined K l d := by
  induction l generalizing d K with
  | nil =>
    refine judges_pure (by simp) ⟨by simp, by simp, List.Pairwise.nil⟩ ?_
    exact ⟨by simpa using h, by simp, fun _ _ => rfl, id, rfl⟩
  | cons j l ih =>
    refine judges_bind (judges_addSymbol j) (fun hk => hk j (List.mem_cons_self ..)) ?_ ?_
    · intro hs
      refine ⟨hs.entries j (List.mem_cons_self ..), fun k hk hmem => ?_⟩
      exact hs.fresh j (List.mem_cons_self ..) k hk ((h k).mp hmem)
    rintro _ d' hkinds ⟨hsound, hfresh⟩ ⟨k, name, flags, hk, hname, rfl⟩
    have hput : ∀ x, .listed x ∈ (d.program.putSymbol (.listed k) { name, flags }).symbolIds ↔
        K x ∨ x = k := by
      intro x
      rw [Program.mem_symbolIds_putSymbol, h, Entity.listed.injEq, or_comm]
    have hrest := ih (d := { d with program := d.program.putSymbol (.listed k) { name, flags } })
      hput
    refine (hrest.congr ?_ ?_).mono fun _ d'' hj => hj.cons hk hname (hfresh k hk)
    · rw [List.forall_mem_cons, and_iff_right hkinds]
    · rw [symbolsSound_cons_iff hk, and_iff_right ⟨hsound, fun hK => hfresh k hk ((h k).mpr hK)⟩]

/-! ### Exports and links -/

theorem judges_exportName (h : Listing K N d.program) {k : Key} (name : String)
    (hk : .listed k ∈ d.program.symbolIds) :
    Judges (liftM (d.program.exportName (.listed k) (.str name)) : Load Name) d (name = "" → N k)
      True fun _ d' => d' = d := by
  unfold Program.exportName
  split
  · rename_i hset
    have hne : name ≠ "" := by simpa [Json.isSet] using hset
    exact (judges_nameOf (.str name)).congr
      (iff_of_true (fun he => absurd he hne) (isText_str name).hasKey) Iff.rfl
  · rename_i hset
    have he : name = "" := by simpa [Json.isSet] using hset
    rw [Program.symbolOf_of_mem hk, ok_bind]
    refine (judges_nameOf _).congr ?_ Iff.rfl
    rw [h.named k ((h.listed k).mp hk)]
    exact ⟨fun hN => hN he, fun hN _ => hN⟩

theorem judges_addExports {owner : SymbolId} {table : List (String × Json)}
    (h : Listing K N p) (he : p.Edits d.program) (ho : owner ∈ d.program.symbolIds) :
    Judges (addExports owner table) d
      (∀ e ∈ table, HasKey e.2 ∧ (e.1 = "" → ∀ k ∈ e.2.key?, N k))
      (∀ e ∈ table, Mentions K e.2) fun _ d' => p.Edits d'.program ∧ d'.nodes = d.nodes := by
  let I (d' : Draft) : Prop :=
    p.Edits d'.program ∧ owner ∈ d'.program.symbolIds ∧ d'.nodes = d.nodes
  have hstep : ∀ e ∈ table, ∀ d', I d' → Judges (do
      let s ← symbolOf e.2
      let n ← (← get).program.exportName s (.str e.1)
      edit fun p => p.addExport owner s n) d'
      (HasKey e.2 ∧ (e.1 = "" → ∀ k ∈ e.2.key?, N k)) (Mentions K e.2) fun _ => I := by
    rintro ⟨name, id⟩ - d' ⟨he, ho, hn⟩
    refine judges_bind (judges_symbolOf (h.edits he) id) And.left (fun hs => hs) ?_
    rintro _ d' hid hsound ⟨rfl, k, hkey, rfl, hk⟩
    refine judges_get ?_
    refine judges_bind (judges_exportName (h.edits he) name hk) (fun hk he => hk.2 he k hkey)
      (fun _ => trivial) ?_
    rintro n d' hname - rfl
    have hedit := Program.Edit.entry owner k n ho
    refine ⟨⟨hid, fun he l hl => ?_⟩, hsound, he.tail hedit, hedit.mem_symbolIds ho, hn⟩
    exact Option.some.inj (hkey.symm.trans hl) ▸ hname he
  exact (judges_forM hstep ⟨he, ho, rfl⟩).mono fun _ d' hI => ⟨hI.1, hI.2.2⟩

theorem judges_declarations {k : Key} {ids : List Json} (he : p.Edits d.program)
    (hk : .listed k ∈ d.program.symbolIds) (hR : ∀ k, k ∈ d.nodes.keys ↔ R k) :
    Judges (ids.forM fun id => do
      match (← get).nodes.get? (← keyOf id) with
      | some n => edit fun p => p.addDeclaration (.listed k) n
      | none => fail (.unknownDeclaration ((← get).program.symbol (.listed k)).name id)) d
      (∀ v ∈ ids, HasKey v) (∀ v ∈ ids, Mentions R v)
      fun _ d' => p.Edits d'.program ∧ .listed k ∈ d'.program.symbolIds ∧ d'.nodes = d.nodes := by
  refine judges_forM ?_ ⟨he, hk, rfl⟩
  rintro id - d' ⟨he, hk, hn⟩
  refine judges_get ?_
  refine judges_bind (judges_keyOf id) (fun hid => hid) (fun _ => trivial) ?_
  rintro key d' hid - ⟨hkey, rfl⟩
  split
  · rename_i n hget
    have hedit := Program.Edit.declaration k n hk
    have hmem : R key := (hR key).mp (hn ▸ Table.mem_keys_iff_get?.mpr ⟨n, hget⟩)
    refine ⟨hid, fun l hl => ?_, he.tail hedit, hedit.mem_symbolIds hk, hn⟩
    exact Option.some.inj (hkey.symm.trans hl) ▸ hmem
  · rename_i hget
    refine judges_get (judges_fail (by simp) fun hs => ?_)
    exact (Table.get?_eq_none_iff ..).mp hget (hn ▸ (hR key).mpr (hs key hkey))

theorem judges_linkSymbol {j : Json} (h : Listing K N p) (he : p.Edits d.program)
    (hj : SymbolKinds j) (hid : (memberOf j "id").isSome) (hK : ∀ k ∈ keyAt j, K k)
    (hR : ∀ k, k ∈ d.nodes.keys ↔ R k) :
    Judges (linkSymbol j) d (SymbolLinkKinds N j) (SymbolLinkSound K R j)
      fun _ d' => p.Edits d'.program ∧ d'.nodes = d.nodes := by
  refine judges_bind (judges_entry j) (fun _ => hj.entry) (fun _ => trivial) ?_
  rintro members d' - - ⟨rfl, rfl⟩
  refine judges_bind (judges_required .symbol members "id") (fun _ => trivial) (fun _ => hid) ?_
  rintro id d' - - ⟨hmid, rfl⟩
  refine judges_bind (judges_keyOf id) (fun _ => hj.id id hmid) (fun _ => trivial) ?_
  rintro k d' - - ⟨hk, rfl⟩
  have hkey : keyAt (.obj members) = some k := by rw [keyAt, hmid, Option.bind_some, hk]
  have hmem : .listed k ∈ d'.program.symbolIds := ((h.edits he).listed k).mpr (hK k hkey)
  refine judges_bind (judges_listed members "declarations") (fun hl => hl.declarations.1)
    (fun _ => trivial) ?_
  rintro ids d₁ hlist - ⟨rfl, rfl⟩
  refine judges_bind (judges_declarations he hmem hR) (fun hl => hl.declarations.2)
    (fun hs => hs.declarations) ?_
  rintro _ d₂ hkeys hdecls ⟨he₂, hmem₂, hn₂⟩
  have hexports : ∀ d₃, p.Edits d₃.program → .listed k ∈ d₃.program.symbolIds →
      d₃.nodes = d₁.nodes → (∀ v ∈ memberOf (.obj members) "aliasOf", HasKey v) →
      (∀ v ∈ memberOf (.obj members) "aliasOf", Mentions K v) →
      Judges (exported members >>= addExports (.listed k)) d₃ (SymbolLinkKinds N (.obj members))
        (SymbolLinkSound K R (.obj members))
        fun _ d' => p.Edits d'.program ∧ d'.nodes = d₁.nodes := by
    intro d₃ he₃ hmem₃ hn₃ halias hmention
    refine judges_bind (judges_exported members) (fun hl => hl.exports.1) (fun _ => trivial) ?_
    rintro table d₄ htable - ⟨rfl, rfl⟩
    refine ((judges_addExports h he₃ hmem₃).congr ?_ ?_).mono
      fun _ d' hp => ⟨hp.1, hp.2.trans hn₃⟩
    · exact ⟨fun hl => hl.exports.2, fun hl => ⟨⟨hlist, hkeys⟩, halias, htable, hl⟩⟩
    · exact ⟨fun hs => hs.exports, fun hs => ⟨hdecls, hmention, hs⟩⟩
  split
  · rename_i target htarget
    have hone : ∀ {P : Json → Prop}, P target → ∀ v ∈ memberOf (.obj members) "aliasOf", P v :=
      fun hP v hv => Option.some.inj (htarget.symm.trans hv) ▸ hP
    refine judges_bind (judges_symbolOf (h.edits he₂) target) (fun hl => hl.aliasOf target htarget)
      (fun hs => hs.aliasOf target htarget) ?_
    rintro _ d₃ htkey htsound ⟨rfl, t, _, rfl, ht⟩
    have hedit := Program.Edit.target k (.listed t) hmem₂
    exact judges_after rfl (hexports _ (he₂.tail hedit) (hedit.mem_symbolIds hmem₂) hn₂
      (hone htkey) (hone htsound))
  · rename_i hnone
    exact hexports d₂ he₂ hmem₂ hn₂ (fun v hv => (hnone v hv).elim) fun v hv => (hnone v hv).elim

/-- All symbols are connected, each with what is recorded by then. -/
theorem judges_linkSymbols {l : List Json} (h : Listing K N d.program)
    (hl : ∀ j ∈ l, SymbolKinds j ∧ (memberOf j "id").isSome ∧ ∀ k ∈ keyAt j, K k)
    (hR : ∀ k, k ∈ d.nodes.keys ↔ R k) :
    Judges (l.forM linkSymbol) d (∀ j ∈ l, SymbolLinkKinds N j) (∀ j ∈ l, SymbolLinkSound K R j)
      fun _ d' => d.program.Edits d'.program := by
  have hloop := judges_forM (l := l) (f := linkSymbol) (d := d)
    (I := fun d' => d.program.Edits d'.program ∧ d'.nodes = d.nodes)
    (P := SymbolLinkKinds N) (Q := SymbolLinkSound K R) (fun j hj d' hI => by
      obtain ⟨hkinds, hid, hK⟩ := hl j hj
      exact (judges_linkSymbol h hI.1 hkinds hid hK (hI.2 ▸ hR)).mono
        fun _ _ hp => ⟨hp.1, hp.2.trans hI.2⟩)
    ⟨Relation.ReflTransGen.refl, rfl⟩
  exact hloop.mono fun _ _ => And.left

/-! ### Nodes -/

theorem judges_kindOf (frame : Frame) (members : List (String × Json)) :
    Judges (kindOf frame members) d True
      (∃ kind : NodeKind, memberOf (.obj members) "kind" = some (.str kind.label))
      fun _ d' => d' = d := by
  unfold kindOf
  rw [memberOf_obj]
  split
  · rename_i hm
    exact judges_fail (by simp) (by simp [hm])
  · rename_i v hm
    split
    · rename_i s
      split
      · rename_i kind hkind
        have hlabel : kind.label = s := by simpa using List.find?_some hkind
        exact judges_pure trivial ⟨kind, by rw [hm, hlabel]⟩ rfl
      · rename_i hkind
        refine judges_fail (by simp) ?_
        rintro ⟨kind, hlabel⟩
        obtain rfl : s = kind.label := Json.str.inj (Option.some.inj (hm.symm.trans hlabel))
        have hall : kind ∈ NodeKind.all := by cases kind <;> decide
        simpa using List.find?_eq_none.mp hkind kind hall
    · rename_i hv
      refine judges_fail (by simp) ?_
      rintro ⟨kind, hlabel⟩
      exact hv _ (Option.some.inj (hm.symm.trans hlabel))

theorem judges_recordNode (n : NodeId) (members : List (String × Json)) :
    Judges (recordNode n members) d (∀ v ∈ memberOf (.obj members) "id", HasKey v) True
      fun _ d' => d'.program = d.program ∧
        ∀ k, k ∈ d'.nodes.keys ↔ k ∈ d.nodes.keys ∨ keyAt (.obj members) = some k := by
  unfold recordNode keyAt
  rw [memberOf_obj]
  split
  · rename_i id hm
    refine judges_bind (judges_keyOf id) (fun hid => hid id hm) (fun _ => trivial) ?_
    rintro key d' hid - ⟨hk, rfl⟩
    refine ⟨fun v hv => Option.some.inj (hm.symm.trans hv) ▸ hid, trivial, rfl, fun k => ?_⟩
    rw [hm, Option.bind_some, hk, Option.some.injEq]
    exact Table.mem_keys_insert.trans (or_comm.trans (or_congr_right eq_comm))
  · rename_i hm
    have hnone : Json.member? members "id" = none := by
      cases hid : Json.member? members "id" with
      | none => rfl
      | some id => exact (hm id hid).elim
    exact judges_pure (by simp [hnone]) trivial ⟨rfl, fun k => by simp [hnone]⟩

theorem judges_bindNode (h : Listing K N p) (he : p.Edits d.program) (n : NodeId)
    (members : List (String × Json)) (name : String) :
    Judges (bindNode n members name) d (∀ v ∈ memberOf (.obj members) name, HasKey v)
      (∀ v ∈ memberOf (.obj members) name, Mentions K v)
      fun _ d' => p.Edits d'.program ∧ d'.nodes = d.nodes := by
  unfold bindNode
  rw [memberOf_obj]
  split
  · rename_i hm
    exact judges_pure (by simp [hm]) (by simp [hm]) ⟨he, rfl⟩
  · rename_i id hm
    refine judges_bind (judges_symbolOf (h.edits he) id) (fun hk => hk id hm)
      (fun hs => hs id hm) ?_
    rintro s d' hkey hid ⟨rfl, _⟩
    refine judges_after rfl (judges_pure ?_ ?_ ⟨he.tail (.binding n s), rfl⟩)
    · exact fun v hv => Option.some.inj (hm.symm.trans hv) ▸ hkey
    · exact fun v hv => Option.some.inj (hm.symm.trans hv) ▸ hid

theorem judges_literalOf (h : Listing K N p) (he : p.Edits d.program) (start : Json)
    (members : List (String × Json)) :
    Judges (literalOf start members) d
      (((memberOf (.obj members) "moduleSpecifier").bind Json.given?).isSome →
        ∀ v ∈ memberOf (.obj members) "moduleSymbol", HasKey v)
      (((memberOf (.obj members) "moduleSpecifier").bind Json.given?).isSome →
        ∀ v ∈ memberOf (.obj members) "moduleSymbol", Mentions K v)
      fun _ d' => p.Edits d'.program ∧ d'.nodes = d.nodes := by
  change Judges _ _ ((given? members "moduleSpecifier").isSome → _)
    ((given? members "moduleSpecifier").isSome → _) _
  unfold literalOf
  split
  · rename_i hm
    exact judges_pure (by simp [hm]) (by simp [hm]) ⟨he, rfl⟩
  · rename_i text hm
    have hgiven : (given? members "moduleSpecifier").isSome := by simp [hm]
    refine judges_after rfl ?_
    have hbind := judges_bindNode h (he.tail .node) d.program.freshNode.1 members "moduleSymbol"
      (d := { d with program := d.program.freshNode.2 })
    refine judges_bind hbind (fun hk => hk hgiven) (fun hs => hs hgiven) ?_
    rintro _ d' hk hs hp
    exact judges_pure (fun _ => hk) (fun _ => hs) hp

variable {known : SymbolId → Prop} {sources : List SourceFile} {pending : List NodeId}

/-- The node of a file always stands for something, so there always is an owner. -/
theorem judges_ownerOf {frame : Frame} (hok : d.Ok .any known sources pending)
    (hroot : ∃ f ∈ sources, f.id = frame.root) (above : NodeId) :
    Judges (ownerOf frame above) d True True fun s d' => d' = d ∧ d.program.Holds s := by
  obtain ⟨f, hf, hid⟩ := hroot
  have hsome : d.program.symbolAt frame.root = some f.symbol :=
    hid ▸ hok.wellFormed.symbolAt_file (hok.sources ▸ hf)
  have hy : Yields (ownerOf frame above) d fun s d' => d' = d ∧ d.program.Holds s :=
    yields_ownerOf fun n s hs => ⟨rfl, hok.wellFormed.holds_symbolAt hs⟩
  have hends : Judges (ownerOf frame above) d True True fun _ _ => True := by
    refine judges_get ?_
    dsimp only
    split
    · exact judges_pure trivial trivial trivial
    · rename_i hnone
      simp [hsome] at hnone
  exact (hends.and hy).mono fun _ _ h => h.2

/-- A wildcard re-export of a well-formed program goes to a holder that is there. -/
theorem edit_addWildcard (hok : d.Ok .any known sources pending) {owner : SymbolId}
    (ho : d.program.Holds owner) (n : NodeId) :
    d.program.Edit (d.program.addWildcard owner n) := by
  refine .wildcard owner n ho.1 fun star hstar => ?_
  obtain ⟨e, he, hp⟩ := Option.bind_eq_some_iff.mp hstar
  obtain ⟨rfl, _⟩ := Entity.present?_eq_some.mp hp
  exact (hok.wellFormed.holds_of_table he).1

/-- Nodes have been built by edits, and their keys are recorded. -/
def Recorded (p : Program) (d : Draft) (records : Key → Prop) (d' : Draft) : Prop :=
  p.Edits d'.program ∧ ∀ k, k ∈ d'.nodes.keys ↔ k ∈ d.nodes.keys ∨ records k

mutual

theorem judges_node (frame : Frame) (above : NodeId) (parent j : Json)
    {pending : List NodeId} {d : Draft} (h : Listing K N p)
    (hok : d.Ok .any known sources pending) (hroot : ∃ f ∈ sources, f.id = frame.root)
    (he : p.Edits d.program) :
    Judges (node frame above parent j) d (∀ n, Nested j n → NodeKinds n)
      (∀ n, Nested j n → NodeSound K n) fun _ => Recorded p d (Records j) := by
  match j with
  | .obj members =>
    rw [node, forall_nested_iff, forall_nested_iff]
    refine judges_bind (judges_kindOf frame members) (fun _ => trivial)
      (fun hs => hs.1.kind (isObject_obj _)) ?_
    rintro kind d' - hkind rfl
    let id := d'.program.freshNode.1
    have hid : id ∈ pending ++ [id] := by simp
    refine judges_after rfl ?_
    refine judges_bind ((judges_recordNode id members).and (yields_recordNode hok.freshNode hid))
      (fun hk => hk.1.id) (fun _ => trivial) ?_
    rintro _ d₁ hidKey - ⟨⟨hp₁, hk₁⟩, hok₁⟩
    have he₁ : p.Edits d₁.program := hp₁ ▸ he.tail .node
    refine judges_bind ((judges_bindNode h he₁ id members "symbol").and
      (yields_bindNode hok₁ hid)) (fun hk => hk.1.symbol) (fun hs => hs.1.symbol) ?_
    rintro _ d₂ hsymbolKey hsymbol ⟨⟨he₂, hn₂⟩, hok₂⟩
    refine judges_bind ((judges_childrenOf frame id (startOf parent members) members h hok₂ hroot
      he₂).and (yields_childrenOf frame id (startOf parent members) members hok₂ trivial
        fun t _ => nodeConforms_any t)) (fun hk => ⟨hk.1.children, hk.2⟩) (fun hs => hs.2) ?_
    rintro children d₃ hbelow hchildren ⟨⟨he₃, hk₃⟩, hok₃⟩
    have hkeys : ∀ k, k ∈ d₃.nodes.keys ↔ k ∈ d'.nodes.keys ∨ Records (.obj members) k := by
      intro k
      rw [hk₃, hn₂, hk₁, records_iff, or_assoc]
    refine judges_bind ((judges_literalOf h he₃ (startOf parent members) members).and
      (yields_literalOf hok₃.1)) (fun hk => hk.1.moduleSymbol) (fun hs => hs.1.moduleSymbol) ?_
    rintro literal d₄ hliteralKey hliteral ⟨⟨he₄, hn₄⟩, hok₄, _⟩
    have hkinds := And.intro
      (NodeKinds.mk (isObject_obj members) hidKey hsymbolKey hbelow.1 hliteralKey) hbelow.2
    have hsound := And.intro (NodeSound.mk (fun _ => hkind) hsymbol hliteral) hchildren
    split
    · exact judges_pure hkinds hsound ⟨he₄, fun k => hn₄ ▸ hkeys k⟩
    · split
      · refine judges_bind (judges_ownerOf hok₄ hroot above) (fun _ => trivial)
          (fun _ => trivial) ?_
        rintro owner d₅ - - ⟨rfl, howner⟩
        refine judges_after rfl (judges_pure hkinds hsound
          ⟨he₄.tail ?_, fun k => hn₄ ▸ hkeys k⟩)
        exact edit_addWildcard hok₄ howner _
      · exact judges_pure hkinds hsound ⟨he₄, fun k => hn₄ ▸ hkeys k⟩
  | .null | .bool _ | .int _ | .real _ | .str _ | .arr _ =>
    rw [node]
    · refine judges_defect trivial fun hk => ?_
      obtain ⟨members, hm⟩ := (hk _ Relation.ReflTransGen.refl).entry
      cases hm
    · simp

theorem judges_childrenOf (frame : Frame) (above : NodeId) (parent : Json)
    (members : List (String × Json)) {pending : List NodeId} {d : Draft} (h : Listing K N p)
    (hok : d.Ok .any known sources pending) (hroot : ∃ f ∈ sources, f.id = frame.root)
    (he : p.Edits d.program) :
    Judges (childrenOf frame above parent members) d
      (ListAt (fun t => ∀ n, Nested t n → NodeKinds n) (.obj members) "children")
      (∀ t ∈ entriesOf (.obj members) "children", ∀ n, Nested t n → NodeSound K n)
      fun _ => Recorded p d fun k => ∃ t ∈ entriesOf (.obj members) "children", Records t k := by
  match members with
  | [] =>
    rw [childrenOf]
    exact judges_pure (by simp [ListAt, entriesOf, memberOf, Json.member?])
      (by simp [entriesOf, memberOf, Json.member?])
      ⟨he, by simp [entriesOf, memberOf, Json.member?]⟩
  | (name, value) :: rest =>
    rw [childrenOf]
    by_cases hn : name = "children"
    · subst hn
      rw [if_pos rfl, ListAt, entriesOf_cons_of_eq]
      refine (judges_nodesOf frame above parent value h hok hroot he).congr ?_ Iff.rfl
      simp [memberOf, Json.member?]
    · rw [if_neg hn, ListAt, entriesOf_cons_of_ne rest hn]
      refine (judges_childrenOf frame above parent rest h hok hroot he).congr ?_ Iff.rfl
      simp [ListAt, memberOf, Json.member?, hn]

theorem judges_nodesOf (frame : Frame) (above : NodeId) (parent value : Json)
    {pending : List NodeId} {d : Draft} (h : Listing K N p)
    (hok : d.Ok .any known sources pending) (hroot : ∃ f ∈ sources, f.id = frame.root)
    (he : p.Edits d.program) :
    Judges (nodesOf frame above parent value) d
      (IsList value ∧ ∀ t ∈ value.items?.getD [], ∀ n, Nested t n → NodeKinds n)
      (∀ t ∈ value.items?.getD [], ∀ n, Nested t n → NodeSound K n)
      fun _ => Recorded p d fun k => ∃ t ∈ value.items?.getD [], Records t k := by
  -- what a text or an object lists are texts, and no text is the entry of a node
  have htext : ∀ s, ¬∀ n, Nested (.str s) n → NodeKinds n := by
    intro s hk
    obtain ⟨members, hm⟩ := (hk _ Relation.ReflTransGen.refl).entry
    cases hm
  match value with
  | .arr items =>
    rw [nodesOf]
    exact (judges_nodes frame above parent items h hok hroot he).congr
      (and_iff_right ⟨items, rfl⟩) Iff.rfl
  | .str s =>
    rw [nodesOf]
    split
    · rename_i hs
      subst hs
      exact judges_pure ⟨⟨[], rfl⟩, by simp [Json.items?]⟩ (by simp [Json.items?])
        ⟨he, by simp [Json.items?]⟩
    · rename_i hs
      refine judges_defect trivial fun hk => ?_
      obtain ⟨c, hc⟩ := List.exists_mem_of_ne_nil s.toList (by simpa using hs)
      exact htext _ (hk.2 _ (List.mem_map_of_mem hc))
  | .obj members =>
    rw [nodesOf]
    split
    · rename_i hm
      rw [List.isEmpty_iff.mp hm]
      exact judges_pure ⟨⟨[], rfl⟩, by simp [Json.items?]⟩ (by simp [Json.items?])
        ⟨he, by simp [Json.items?]⟩
    · rename_i hm
      refine judges_defect trivial fun hk => ?_
      obtain ⟨m, hmem⟩ := List.exists_mem_of_ne_nil members (by simpa using hm)
      exact htext _ (hk.2 _ (List.mem_map_of_mem hmem))
  | .null | .bool _ | .int _ | .real _ =>
    rw [nodesOf]
    · exact judges_defect trivial fun ⟨⟨_, hi⟩, _⟩ => nomatch hi
    all_goals simp

theorem judges_nodes (frame : Frame) (above : NodeId) (parent : Json) (items : List Json)
    {pending : List NodeId} {d : Draft} (h : Listing K N p)
    (hok : d.Ok .any known sources pending) (hroot : ∃ f ∈ sources, f.id = frame.root)
    (he : p.Edits d.program) :
    Judges (nodes frame above parent items) d (∀ t ∈ items, ∀ n, Nested t n → NodeKinds n)
      (∀ t ∈ items, ∀ n, Nested t n → NodeSound K n)
      fun _ => Recorded p d fun k => ∃ t ∈ items, Records t k := by
  match items with
  | [] =>
    rw [nodes]
    exact judges_pure (by simp) (by simp) ⟨he, by simp⟩
  | j :: rest =>
    rw [nodes, List.forall_mem_cons, List.forall_mem_cons]
    refine judges_bind ((judges_node frame above parent j h hok hroot he).and
      (yields_node frame above parent j hok trivial (nodeConforms_any j))) And.left And.left ?_
    rintro t d₁ hkj hj ⟨⟨he₁, hk₁⟩, hok₁, _⟩
    refine judges_bind (judges_nodes frame above parent rest h hok₁ hroot he₁) And.right
      And.right ?_
    rintro ts d₂ hkrest hrest ⟨he₂, hk₂⟩
    refine judges_pure ⟨hkj, hkrest⟩ ⟨hj, hrest⟩ ⟨he₂, fun k => ?_⟩
    simp only [hk₂, hk₁, List.exists_mem_cons_iff, or_assoc]

end

/-! ### Files -/

theorem isList_getD_iff (members : List (String × Json)) (name : String) :
    IsList ((Json.member? members name).getD (.arr [])) ↔
      ∀ v ∈ memberOf (.obj members) name, IsList v := by
  rw [memberOf_obj]
  cases Json.member? members name with
  | none => simpa using ⟨[], rfl⟩
  | some v => simp

theorem judges_addFile {j : Json} (h : Listing K N p) (hok : d.Ok .any known sources [])
    (he : p.Edits d.program) :
    Judges (addFile j) d (FileKinds j) (FileSound K j) fun file d' =>
      j = .obj file.members ∧ Recorded p d (FileRecords j) d' := by
  refine judges_bind (judges_entry j) FileKinds.entry (fun _ => trivial) ?_
  rintro members d' hentry - ⟨rfl, rfl⟩
  refine judges_bind (judges_required .file members "fileName") (fun _ => trivial)
    (fun hs => hs.fileName hentry) ?_
  rintro fileName d' - hfile ⟨hmem, rfl⟩
  refine judges_bind (judges_nameOf fileName) (fun hk => hk.fileName fileName hmem)
    (fun _ => trivial) ?_
  rintro name d' hname - rfl
  let options : FileOptions :=
    { isModule := isSet members "module" true
      isExternal := isSet members "externalLibrary" false
      isDefault := isSet members "defaultLibrary" false
      noDefaultLib := isSet members "noDefaultLib" false }
  let id := (d'.program.addFile name options).1
  have hroot : ∃ f ∈ sources ++ [emptyFile id name options], f.id = id :=
    ⟨emptyFile id name options, by simp, rfl⟩
  refine judges_after rfl ?_
  have hnodes := judges_nodesOf ⟨name, id⟩ id (.int 0)
    ((Json.member? members "statements").getD (.arr [])) h (hok.addFile name options) hroot
    (he.tail (.file name options))
  rw [items_getD, isList_getD_iff] at hnodes
  refine judges_bind hnodes FileKinds.statements FileSound.nodes ?_
  rintro trees d₁ hkinds hsound ⟨he₁, hk₁⟩
  refine judges_after rfl (judges_pure ⟨hentry, fun v hv => ?_, hkinds⟩ ⟨fun _ => hfile, hsound⟩
    ⟨rfl, he₁.tail (.tree _ _), hk₁⟩)
  exact Option.some.inj (hmem.symm.trans hv) ▸ hname

theorem judges_addFiles {l : List Json} (h : Listing K N p)
    (hok : d.Ok .any known sources []) (he : p.Edits d.program) :
    Judges (l.mapM addFile) d (∀ j ∈ l, FileKinds j) (∀ j ∈ l, FileSound K j) fun files d' =>
      l = files.map (fun f => .obj f.members) ∧
        Recorded p d (fun k => ∃ j ∈ l, FileRecords j k) d' := by
  induction l generalizing d known sources with
  | nil =>
    rw [List.mapM_nil]
    exact judges_pure (by simp) (by simp) ⟨rfl, he, by simp⟩
  | cons j l ih =>
    rw [List.mapM_cons, List.forall_mem_cons, List.forall_mem_cons]
    refine judges_bind ((judges_addFile h hok he).and
      (yields_addFile hok fun t _ => nodeConforms_any t)) And.left And.left ?_
    rintro file d₁ hkind hfile ⟨⟨hj, he₁, hk₁⟩, _, _, hok₁⟩
    refine judges_bind (ih hok₁ he₁) And.right And.right ?_
    rintro files d₂ hkinds hfiles ⟨hl, he₂, hk₂⟩
    refine judges_pure ⟨hkind, hkinds⟩ ⟨hfile, hfiles⟩
      ⟨by rw [List.map_cons, ← hj, ← hl], he₂, fun k => ?_⟩
    simp only [hk₂, hk₁, List.exists_mem_cons_iff, or_assoc]

/-- Names that are visible somewhere. -/
theorem judges_visible {ids : List Json} {f : SymbolId → Program → Program}
    (hf : ∀ s (q : Program), q.Edit (f s q)) (h : Listing K N p) (he : p.Edits d.program) :
    Judges (ids.forM fun id => do
      let x ← symbolOf id
      edit fun p => f x p) d (∀ v ∈ ids, HasKey v) (∀ v ∈ ids, Mentions K v)
      fun _ d' => p.Edits d'.program := by
  refine judges_forM ?_ he
  intro id _ d' he
  refine judges_bind (judges_symbolOf (h.edits he) id) (fun hk => hk) (fun hs => hs) ?_
  rintro s d' hkey hid ⟨rfl, _⟩
  exact ⟨hkey, hid, he.tail (hf s _)⟩

theorem judges_linkFile {file : FileEntry} (h : Listing K N p) (he : p.Edits d.program)
    (hf : file.symbol ∈ p.symbolIds) :
    Judges (linkFile file) d (FileLinkKinds N (.obj file.members))
      (FileLinkSound K (.obj file.members)) fun _ d' => p.Edits d'.program := by
  refine judges_bind (judges_exported file.members) (fun hk => hk.exports.1)
    (fun _ => trivial) ?_
  rintro table d' htable - ⟨rfl, rfl⟩
  refine judges_bind (judges_addExports h he (he.mem_symbolIds hf)) (fun hk => hk.exports.2)
    (fun hs => hs.exports) ?_
  rintro _ d₁ hkeys hexports ⟨he₁, _⟩
  refine judges_bind (judges_listed file.members "locals") (fun hk => hk.locals.1)
    (fun _ => trivial) ?_
  rintro ids d₂ hlist - ⟨rfl, rfl⟩
  refine (judges_visible (fun s q => .localName file.name s) h he₁).congr ?_ ?_
  · exact ⟨fun hk => hk.locals.2, fun hk => ⟨⟨htable, hkeys⟩, hlist, hk⟩⟩
  · exact ⟨fun hs => hs.locals, fun hs => ⟨hexports, hs⟩⟩

theorem judges_linkFiles {files : List FileEntry} (h : Listing K N p)
    (he : p.Edits d.program) (hf : ∀ f ∈ files, f.symbol ∈ p.symbolIds) :
    Judges (files.forM linkFile) d (∀ f ∈ files, FileLinkKinds N (.obj f.members))
      (∀ f ∈ files, FileLinkSound K (.obj f.members)) fun _ d' => p.Edits d'.program :=
  judges_forM (I := fun d => p.Edits d.program)
    (fun f hmem _ he => judges_linkFile h he (hf f hmem)) he

/-! ### Programs -/

theorem judges_addResolution {j : Json} (he : p.Edits d.program) :
    Judges (addResolution j) d (ResolutionKinds j) (IsObject j → ResolutionComplete j)
      fun _ d' => p.Edits d'.program := by
  refine judges_bind (judges_entry j) ResolutionKinds.entry (fun _ => trivial) ?_
  rintro members d' hentry - ⟨rfl, rfl⟩
  refine judges_bind (judges_required .resolution members "from") (fun _ => trivial)
    (fun hs => (hs hentry).file) ?_
  rintro file d' - hfile ⟨hmfile, rfl⟩
  refine judges_bind (judges_required .resolution members "module") (fun _ => trivial)
    (fun hs => (hs hentry).specifier) ?_
  rintro specifier d' - hspecifier ⟨hmspecifier, rfl⟩
  refine judges_bind (judges_required .resolution members "fileName") (fun _ => trivial)
    (fun hs => (hs hentry).fileName) ?_
  rintro target d' - htarget ⟨_, rfl⟩
  refine judges_bind (judges_nameOf file) (fun hk => hk.file file hmfile) (fun _ => trivial) ?_
  rintro fileName d' hfileKey - rfl
  refine judges_bind (judges_nameOf specifier) (fun hk => hk.specifier specifier hmspecifier)
    (fun _ => trivial) ?_
  rintro specifierName d' hspecifierKey - rfl
  refine ⟨⟨hentry, fun v hv => ?_, fun v hv => ?_⟩, fun _ => ⟨hfile, hspecifier, htarget⟩,
    he.tail (.resolution _ _ _)⟩
  · exact Option.some.inj (hmfile.symm.trans hv) ▸ hfileKey
  · exact Option.some.inj (hmspecifier.symm.trans hv) ▸ hspecifierKey

end Keys

theorem listed_empty (k : Key) : .listed k ∈ Program.empty.symbolIds ↔ False := by
  rw [iff_false, Program.symbolIds, Program.empty, Table.mem_keys_insert, Table.mem_keys_insert]
  simp [Table.empty, Table.keys]

theorem modular_empty : Program.empty.Modular where
  heads n x hx := by
    rw [Program.empty, Table.get?_insert, if_neg (by simp), Table.get?_insert,
      if_neg (by simp)] at hx
    cases hx
  tables s k e he := by
    unfold Program.tableOf Program.symbol Program.empty at he
    rw [Table.get?_insert, Table.get?_insert] at he
    split at he
    · simp at he
    · split at he <;> simp [Table.empty, Table.get?] at he

/-- The symbols of a document, once they are all listed. -/
theorem Joined.listing {doc : Json} {d d' : Draft}
    (h : Joined (fun _ => False) (entriesOf doc "symbols") d d') :
    Listing (SymbolKeys doc) (Nameable doc) d'.program where
  listed k := (h.keys k).trans (or_iff_right not_false)
  named k hk := by
    obtain ⟨j, hj, hkey⟩ := hk
    constructor
    · intro hname i hi hik v hv
      have := (h.names i hi k hik).symm.trans hv
      exact Option.some.inj this ▸ hname
    · exact fun hN => hN j hj hkey _ (h.names j hj k hkey)

theorem judges_build (members : List (String × Json)) :
    Judges (build members) ⟨Program.empty, ∅⟩ (Kinded (.obj members)) (Sound (.obj members))
      fun _ d' => d'.program.Modular ∧
        (d'.program.symbol .globalThis).name = .str globalName := by
  let doc : Json := .obj members
  refine judges_bind (judges_listed members "symbols") (fun hk => hk.symbols.1)
    (fun _ => trivial) ?_
  rintro symbols d hlist - ⟨rfl, rfl⟩
  refine judges_bind ((judges_addSymbols listed_empty).and
    (yields_addSymbols (.empty .any) (conforms_any doc).names)) (fun hk => hk.symbols.2)
    (fun hs => hs.symbols) ?_
  rintro _ d₁ hkadd hadd ⟨hjoined, hok₁⟩
  have hl₁ := hjoined.listing
  refine judges_bind (judges_listed members "files") (fun hk => hk.files.1) (fun _ => trivial) ?_
  rintro _ d hflist - ⟨rfl, rfl⟩
  refine judges_bind ((judges_addFiles hl₁ hok₁ Relation.ReflTransGen.refl).and
    (yields_addFiles hok₁ (conforms_any doc).nodes)) (fun hk => hk.files.2)
    (fun hs => hs.files) ?_
  rintro files d₂ hkfiles hfiles ⟨⟨hmap, he₂, hk₂⟩, _, _, hok₂⟩
  have hl₂ := hl₁.edits he₂
  have hR : ∀ k, k ∈ d₂.nodes.keys ↔ NodeKeys doc k := by
    intro k
    rw [hk₂, hjoined.nodes, nodeKeys_iff]
    simp [doc]
  -- from here on everything is an edit of the program with all its files
  have hids : ∀ j ∈ entriesOf doc "symbols", SymbolKinds j ∧ (memberOf j "id").isSome ∧
      ∀ k ∈ keyAt j, SymbolKeys doc k :=
    fun j hj => ⟨hkadd j hj, (hadd.entries j hj).id (hkadd j hj).entry, fun k hk => ⟨j, hj, hk⟩⟩
  refine judges_bind (judges_linkSymbols hl₂ hids hR) (fun hk => hk.links) (fun hs => hs.links) ?_
  rintro _ d₃ hklinks hlinks he₃
  have hfileLink := judges_linkFiles hl₂ he₃ fun f hf => (hok₂.known _ (Or.inr ⟨f, hf, rfl⟩)).1
  have hmem : ∀ {P : Json → Prop}, (∀ j ∈ entriesOf doc "files", P j) ↔
      ∀ f ∈ files, P (.obj f.members) := by
    intro P
    rw [show entriesOf doc "files" = _ from hmap, List.forall_mem_map]
  refine judges_bind hfileLink (fun hk => hmem.mp hk.fileLinks)
    (fun hs => hmem.mp hs.fileLinks) ?_
  rintro _ d₄ hkfileLinks hfileLinks he₄
  refine judges_bind (judges_listed members "globals") (fun hk => hk.globals.1)
    (fun _ => trivial) ?_
  rintro _ d hglist - ⟨rfl, rfl⟩
  refine judges_bind (judges_visible (fun s q => .globalName s) hl₂ he₄) (fun hk => hk.globals.2)
    (fun hs => hs.globals) ?_
  rintro _ d₅ hkglobals hglobals he₅
  refine judges_bind (judges_listed members "resolutions") (fun hk => hk.resolutions.1)
    (fun _ => trivial) ?_
  rintro _ d hrlist - ⟨rfl, rfl⟩
  have hresolution := judges_forM (l := entriesOf doc "resolutions") (f := addResolution) (d := d)
    (I := fun d => d₂.program.Edits d.program) (fun j _ d he => judges_addResolution he) he₅
  refine (hresolution.congr ?_ ?_).mono fun _ d' he => ⟨?_, ?_⟩
  · refine ⟨fun hk => hk.resolutions.2, fun hk => ?_⟩
    exact ⟨isObject_obj members, ⟨hlist, hkadd⟩, ⟨hflist, hkfiles⟩, hklinks,
      hmem.mpr hkfileLinks, ⟨hglist, hkglobals⟩, hrlist, hk⟩
  · refine ⟨fun hs => hs.resolutions, fun hs => ?_⟩
    exact ⟨hadd, hfiles, hlinks, hmem.mpr hfileLinks, hglobals, hs⟩
  · exact ((hjoined.modular modular_empty).edits he₂).edits he
  · rw [Program.Edits.name_eq (he₂.trans he) (by simp) (by simp), hjoined.others .globalThis]
    · rfl
    · simp [Program.symbolIds, Program.empty, Table.mem_keys_insert]

/-- How loading ends. -/
theorem load_judges (doc : Json) :
    (∃ p, load doc = .ok p ∧ Kinded doc ∧ Sound doc ∧ p.Modular ∧
      (p.symbol .globalThis).name = .str globalName) ∨
    ∃ e, load doc = .error e ∧ e.Blames (Kinded doc) (Sound doc) := by
  unfold load
  split
  · rename_i members
    have h := judges_build members
    unfold Judges at h
    cases hr : (build members).run ⟨Program.empty, ∅⟩ with
    | error e =>
      rw [hr] at h
      exact Or.inr ⟨e, rfl, h⟩
    | ok r =>
      rw [hr] at h
      exact Or.inl ⟨r.2.program, rfl, h⟩
  · rename_i hdoc
    refine Or.inr ⟨_, rfl, .value trivial fun hk => ?_⟩
    obtain ⟨members, hm⟩ := hk.entry
    exact hdoc members hm

theorem load_cases (doc : Json) :
    (∃ p, load doc = .ok p ∧ Connected doc ∧ p.Modular) ∨
      ∃ e, load doc = .error e ∧ ¬e.Dangling ∧
        (Documented doc → ¬Connected doc ∧ ∃ why, e = .snapshot why) := by
  rcases load_judges doc with ⟨p, hp, hk, hs, hm, _⟩ | ⟨e, he, hb⟩
  · exact Or.inl ⟨p, hp, hs.connected hk, hm⟩
  · refine Or.inr ⟨e, he, hb.not_dangling, fun hd => ?_⟩
    cases hb with
    | @document why _ hs => exact ⟨fun hc => hs hc.sound, why, rfl⟩
    | value _ hk => exact absurd hd.kinded hk

/-- A document of the documented shape describes a program if it is coherent. If it is not, then
loading it ends with a fault of the document, and with no other one. -/
theorem load_of_documented {doc : Json} (h : Documented doc) :
    (Coherent doc → ∃ p, load doc = .ok p) ∧
      (¬Coherent doc → ∃ why, load doc = .error (.snapshot why)) := by
  rcases load_cases doc with ⟨p, hp, hc, _⟩ | ⟨e, he, _, hs⟩
  · exact ⟨fun _ => ⟨p, hp⟩, fun hn => absurd (hc.coherent h) hn⟩
  · obtain ⟨hnot, why, rfl⟩ := hs h
    exact ⟨fun hc => absurd (hc.connected h) hnot, fun _ => ⟨why, he⟩⟩

/-! A namespace that re-exports everything of a module, and an alias with a target of some key. -/

def wildcardNode : Json :=
  .obj [("kind", .str "export_declaration"), ("moduleSpecifier", .str "./lib"),
    ("moduleSymbol", .str "b")]

def namespaceNode : Json :=
  .obj [("id", .str "n"), ("kind", .str "module_declaration"), ("symbol", .str "a"),
    ("children", .arr [wildcardNode])]

def namespaceSymbol : Json :=
  .obj [("id", .str "a"), ("name", .str "A"), ("flags", .arr [.str "namespace_module"]),
    ("declarations", .arr [.str "n"]), ("exports", .obj [("B", .str "b")])]

def aliasSymbol (target : String) : Json :=
  .obj [("id", .str "b"), ("name", .str "B"), ("aliasOf", .str target)]

def namespaceFile : Json :=
  .obj [("fileName", .str "main"), ("statements", .arr [namespaceNode]),
    ("exports", .obj [("A", .str "a")]), ("locals", .arr [.str "b"])]

def namespaceDoc (target : String) : Json :=
  .obj [("symbols", .arr [namespaceSymbol, aliasSymbol target]), ("files", .arr [namespaceFile]),
    ("globals", .arr [.str "a"]), ("resolutions", .arr [.obj [("from", .str "main"),
      ("module", .str "./lib"), ("fileName", .str "lib")]])]

theorem nested_namespaceNode {n : Json} (h : Nested namespaceNode n) :
    n = namespaceNode ∨ n = wildcardNode := by
  rcases h.cases_head with rfl | ⟨c, hc, hn⟩
  · exact Or.inl rfl
  · obtain rfl : c = wildcardNode := List.mem_singleton.mp hc
    rcases hn.cases_head with rfl | ⟨_, hc, _⟩
    · exact Or.inr rfl
    · cases hc

theorem documented_namespaceDoc (target : String) : Documented (namespaceDoc target) := by
  have hsymbol : SymbolShape namespaceSymbol := by
    constructor <;> simp [namespaceSymbol, memberOf, Json.member?]
  have halias : SymbolShape (aliasSymbol target) := by
    constructor <;> simp [aliasSymbol, memberOf, Json.member?]
  have hnode : ∀ n, Nested namespaceNode n → NodeShape n := by
    intro n hn
    rcases nested_namespaceNode hn with rfl | rfl <;> constructor <;>
      simp [namespaceNode, wildcardNode, memberOf, Json.member?]
  have hfile : FileShape namespaceFile := by
    constructor <;> simp only [namespaceFile, memberOf_obj, Json.member?]
    case statements => simpa using hnode
    all_goals simp
  have hresolution : ResolutionShape (.obj [("from", .str "main"), ("module", .str "./lib"),
      ("fileName", .str "lib")]) := by
    constructor <;> simp [memberOf, Json.member?]
  constructor
  · exact ⟨_, rfl⟩
  · simp [namespaceDoc, memberOf, Json.member?, hsymbol, halias]
  · simp [namespaceDoc, memberOf, Json.member?, hfile]
  · simp [namespaceDoc, memberOf, Json.member?]
  · simp [namespaceDoc, memberOf, Json.member?, hresolution]

theorem hasNode_namespaceDoc {target : String} {n : Json} (h : HasNode (namespaceDoc target) n) :
    n = namespaceNode ∨ n = wildcardNode := by
  obtain ⟨f, hf, t, ht, hn⟩ := h
  obtain rfl : f = namespaceFile := List.mem_singleton.mp hf
  obtain rfl : t = namespaceNode := List.mem_singleton.mp ht
  exact nested_namespaceNode hn

theorem lists_namespaceDoc_iff {target : String} {v : Json} :
    Lists (namespaceDoc target) v ↔ v = .str "a" ∨ v = .str "b" := by
  simp [Lists, namespaceDoc, entriesOf, memberOf, Json.member?, Json.items?, namespaceSymbol,
    aliasSymbol, eq_comm]

theorem coherent_namespaceDoc : Coherent (namespaceDoc "a") := by
  have hsymbols : entriesOf (namespaceDoc "a") "symbols" = [namespaceSymbol, aliasSymbol "a"] := rfl
  have hfiles : entriesOf (namespaceDoc "a") "files" = [namespaceFile] := rfl
  have hnode : HasNode (namespaceDoc "a") namespaceNode :=
    ⟨namespaceFile, by simp [hfiles], namespaceNode, List.mem_singleton.mpr rfl, .refl⟩
  have hflag : IsFlag (.str "namespace_module") := ⟨_, rfl, Or.inr ⟨.namespaceModule, by decide⟩⟩
  constructor
  case kinds =>
    intro n hn
    rcases hasNode_namespaceDoc hn with rfl | rfl
    · exact ⟨.moduleDeclaration, rfl⟩
    · exact ⟨.exportDeclaration, rfl⟩
  case bindings | modules =>
    intro n hn
    rcases hasNode_namespaceDoc hn with rfl | rfl <;>
      simp [namespaceNode, wildcardNode, memberOf, Json.member?, lists_namespaceDoc_iff]
  case declarations =>
    rw [hsymbols]
    have hn : ∃ n, HasNode (namespaceDoc "a") n ∧ memberOf n "id" = some (.str "n") :=
      ⟨namespaceNode, hnode, rfl⟩
    simpa [namespaceSymbol, aliasSymbol, entriesOf, memberOf_obj, Json.member?, Json.items?]
      using hn
  case ids | names | distinct | flags | aliases | symbolExports =>
    rw [hsymbols]
    simp [namespaceSymbol, aliasSymbol, exportsIn, entriesOf, memberOf, Json.member?, Json.items?,
      lists_namespaceDoc_iff, hflag]
  case fileNames | fileExports | locals =>
    rw [hfiles]
    simp [namespaceFile, exportsIn, entriesOf, memberOf, Json.member?, Json.items?,
      lists_namespaceDoc_iff]
  case globals =>
    rw [show entriesOf (namespaceDoc "a") "globals" = [.str "a"] from rfl]
    simp [lists_namespaceDoc_iff]
  case resolutions => simp [namespaceDoc, entriesOf, memberOf, Json.member?, Json.items?]

theorem not_coherent_namespaceDoc : ¬Coherent (namespaceDoc "c") := by
  intro h
  have := h.aliases (aliasSymbol "c") (by simp [namespaceDoc, entriesOf, memberOf, Json.member?,
    Json.items?]) (.str "c") rfl
  simp [lists_namespaceDoc_iff] at this

/-- An alias of something that is listed is accepted, and one of something else is not. -/
theorem load_namespaceDoc :
    (Documented (namespaceDoc "a") ∧ Coherent (namespaceDoc "a") ∧
      ∃ p, load (namespaceDoc "a") = .ok p) ∧
    Documented (namespaceDoc "c") ∧ ¬Coherent (namespaceDoc "c") ∧
      ∃ why, load (namespaceDoc "c") = .error (.snapshot why) :=
  have ha := documented_namespaceDoc "a"
  have hc := documented_namespaceDoc "c"
  ⟨⟨ha, coherent_namespaceDoc, (load_of_documented ha).1 coherent_namespaceDoc⟩, hc,
    not_coherent_namespaceDoc, (load_of_documented hc).2 not_coherent_namespaceDoc⟩

end Snapshot

end ApiSurface
