import ApiSurface.Proofs.Loading

/-! The documents that describe a program. A document has the documented shape if whatever is there
is a list, an object or a text where it should be. It is coherent if its entries have the members
that they need, and every key that it mentions is the key of something that it lists. -/

namespace ApiSurface

namespace Snapshot

theorem memberOf_obj (members : List (String × Json)) (name : String) :
    memberOf (.obj members) name = Json.member? members name := rfl

/-! ### The shape of documents -/

/-- A text. -/
def IsText (j : Json) : Prop := ∃ s, j = .str s

/-- An array of values of one kind. -/
def IsArrayOf (P : Json → Prop) (j : Json) : Prop := ∃ items, j = .arr items ∧ ∀ i ∈ items, P i

/-- An export table: an object from names to the keys of symbols. -/
def IsTable (j : Json) : Prop := ∃ table, j = .obj table ∧ ∀ e ∈ table, IsText e.2

@[simp] theorem isText_str (s : String) : IsText (.str s) := ⟨s, rfl⟩

@[simp] theorem isArrayOf_arr {P : Json → Prop} {items : List Json} :
    IsArrayOf P (.arr items) ↔ ∀ i ∈ items, P i := by
  simp [IsArrayOf]

@[simp] theorem isTable_obj {table : List (String × Json)} :
    IsTable (.obj table) ↔ ∀ e ∈ table, IsText e.2 := by
  simp [IsTable]

/-- The shape of the entry of a symbol. -/
structure SymbolShape (j : Json) : Prop where
  entry : ∃ members, j = .obj members
  id : ∀ v ∈ memberOf j "id", IsText v
  name : ∀ v ∈ memberOf j "name", IsText v
  flags : ∀ v ∈ memberOf j "flags", IsArrayOf IsText v
  declarations : ∀ v ∈ memberOf j "declarations", IsArrayOf IsText v
  aliasOf : ∀ v ∈ memberOf j "aliasOf", IsText v
  exports : ∀ v ∈ memberOf j "exports", IsTable v

/-- The shape of the entry of a node, apart from the nodes below it. -/
structure NodeShape (j : Json) : Prop where
  entry : ∃ members, j = .obj members
  id : ∀ v ∈ memberOf j "id", IsText v
  symbol : ∀ v ∈ memberOf j "symbol", IsText v
  moduleSymbol : ∀ v ∈ memberOf j "moduleSymbol", IsText v
  children : ∀ v ∈ memberOf j "children", IsArrayOf (fun _ => True) v

/-- The shape of the entry of a file. -/
structure FileShape (j : Json) : Prop where
  entry : ∃ members, j = .obj members
  fileName : ∀ v ∈ memberOf j "fileName", IsText v
  statements : ∀ v ∈ memberOf j "statements", IsArrayOf (fun t => ∀ n, Nested t n → NodeShape n) v
  exports : ∀ v ∈ memberOf j "exports", IsTable v
  locals : ∀ v ∈ memberOf j "locals", IsArrayOf IsText v

/-- The shape of the entry of a resolved module name. -/
structure ResolutionShape (j : Json) : Prop where
  entry : ∃ members, j = .obj members
  file : ∀ v ∈ memberOf j "from", IsText v
  specifier : ∀ v ∈ memberOf j "module", IsText v

/-- The documented shape: whatever is there is a list, an object or a text where it should be. -/
structure Documented (doc : Json) : Prop where
  entry : ∃ members, doc = .obj members
  symbols : ∀ v ∈ memberOf doc "symbols", IsArrayOf SymbolShape v
  files : ∀ v ∈ memberOf doc "files", IsArrayOf FileShape v
  globals : ∀ v ∈ memberOf doc "globals", IsArrayOf IsText v
  resolutions : ∀ v ∈ memberOf doc "resolutions", IsArrayOf ResolutionShape v

/-! ### Coherent documents -/

/-- The name of a flag in any letter case, or the name of no flag at all. -/
def IsFlag (j : Json) : Prop :=
  ∃ s, j = .str s ∧ (Text.upperCase s = "NONE" ∨ ∃ f : Flag, f.name = Text.upperCase s)

/-- The entries of the export table of an entry. -/
def exportsIn (j : Json) : List (String × Json) :=
  match memberOf j "exports" with
  | some (.obj table) => table
  | _ => []

/-- A value is the key of a symbol of the document. -/
def Lists (doc v : Json) : Prop := ∃ j ∈ entriesOf doc "symbols", memberOf j "id" = some v

/-- An entry of a node somewhere in a file of the document. -/
def HasNode (doc n : Json) : Prop :=
  ∃ f ∈ entriesOf doc "files", ∃ t ∈ entriesOf f "statements", Nested t n

/-- Everything that has to be there is there, and every key that is mentioned is one. A specifier
that is null counts as missing. -/
structure Coherent (doc : Json) : Prop where
  ids : ∀ j ∈ entriesOf doc "symbols", (memberOf j "id").isSome
  names : ∀ j ∈ entriesOf doc "symbols", (memberOf j "name").isSome
  distinct : (entriesOf doc "symbols").Pairwise fun i j => memberOf i "id" ≠ memberOf j "id"
  flags : ∀ j ∈ entriesOf doc "symbols", ∀ v ∈ entriesOf j "flags", IsFlag v
  declarations : ∀ j ∈ entriesOf doc "symbols", ∀ v ∈ entriesOf j "declarations",
    ∃ n, HasNode doc n ∧ memberOf n "id" = some v
  aliases : ∀ j ∈ entriesOf doc "symbols", ∀ v ∈ memberOf j "aliasOf", Lists doc v
  symbolExports : ∀ j ∈ entriesOf doc "symbols", ∀ e ∈ exportsIn j, Lists doc e.2
  fileNames : ∀ f ∈ entriesOf doc "files", (memberOf f "fileName").isSome
  fileExports : ∀ f ∈ entriesOf doc "files", ∀ e ∈ exportsIn f, Lists doc e.2
  locals : ∀ f ∈ entriesOf doc "files", ∀ v ∈ entriesOf f "locals", Lists doc v
  kinds : ∀ n, HasNode doc n → ∃ kind : NodeKind, memberOf n "kind" = some (.str kind.label)
  bindings : ∀ n, HasNode doc n → ∀ v ∈ memberOf n "symbol", Lists doc v
  modules : ∀ n, HasNode doc n → ((memberOf n "moduleSpecifier").bind Json.given?).isSome →
    ∀ v ∈ memberOf n "moduleSymbol", Lists doc v
  globals : ∀ v ∈ entriesOf doc "globals", Lists doc v
  resolutions : ∀ j ∈ entriesOf doc "resolutions", (memberOf j "from").isSome ∧
    (memberOf j "module").isSome ∧ (memberOf j "fileName").isSome

/-! ### Lists and tables -/

/-- What a member lists is of one kind if the member is an array of it. -/
theorem forall_mem_entriesOf {P : Json → Prop} {j : Json} {name : String}
    (h : ∀ v ∈ memberOf j name, IsArrayOf P v) : ∀ v ∈ entriesOf j name, P v := by
  intro v hv
  unfold entriesOf at hv
  cases hm : memberOf j name with
  | none => simp [hm] at hv
  | some w =>
    obtain ⟨items, rfl, hi⟩ := h w hm
    rw [hm] at hv
    exact hi v hv

theorem forall_mem_exportsIn {j : Json} (h : ∀ v ∈ memberOf j "exports", IsTable v) :
    ∀ e ∈ exportsIn j, IsText e.2 := by
  unfold exportsIn
  split
  · rename_i table hm
    obtain ⟨t, ht, he⟩ := h _ hm
    exact Json.obj.inj ht ▸ he
  · simp

/-! ### What loading asks for -/

/-- The key of an entry. -/
def keyAt (j : Json) : Option Key := (memberOf j "id").bind Json.key?

/-- A value stands for one of some keys. -/
def IsKeyIn (K : Key → Prop) (v : Json) : Prop := ∃ k, v.key? = some k ∧ K k

/-- What has to be in the entry of a symbol, whatever else is in the document. -/
structure SymbolComplete (j : Json) : Prop where
  id : (memberOf j "id").isSome
  name : (memberOf j "name").isSome
  flags : ∀ v ∈ entriesOf j "flags", IsFlag v

/-- Symbols that may be listed besides those that already are. -/
structure Addable (K : Key → Prop) (l : List Json) : Prop where
  complete : ∀ j ∈ l, SymbolComplete j
  fresh : ∀ j ∈ l, ∀ k ∈ keyAt j, ¬K k
  distinct : l.Pairwise fun i j => keyAt i ≠ keyAt j

/-- What the entry of a symbol mentions. -/
structure SymbolLinked (K R : Key → Prop) (j : Json) : Prop where
  declarations : ∀ v ∈ entriesOf j "declarations", IsKeyIn R v
  aliasOf : ∀ v ∈ memberOf j "aliasOf", IsKeyIn K v
  exports : ∀ e ∈ exportsIn j, IsKeyIn K e.2

/-- What the entry of a node needs and mentions, apart from the nodes below it. -/
structure NodeLinked (K : Key → Prop) (n : Json) : Prop where
  kind : ∃ kind : NodeKind, memberOf n "kind" = some (.str kind.label)
  symbol : ∀ v ∈ memberOf n "symbol", IsKeyIn K v
  moduleSymbol : ((memberOf n "moduleSpecifier").bind Json.given?).isSome →
    ∀ v ∈ memberOf n "moduleSymbol", IsKeyIn K v

/-- The keys of an entry of a node and of those below it. -/
def Records (t : Json) (k : Key) : Prop := ∃ n, Nested t n ∧ keyAt n = some k

theorem forall_nested_iff {P : Json → Prop} {t : Json} : (∀ n, Nested t n → P n) ↔
    P t ∧ ∀ c ∈ entriesOf t "children", ∀ n, Nested c n → P n := by
  constructor
  · intro h
    exact ⟨h t Relation.ReflTransGen.refl, fun c hc n hn => h n (Relation.ReflTransGen.head hc hn)⟩
  · rintro ⟨ht, hc⟩ n hn
    rcases hn.cases_head with rfl | ⟨c, hcm, hcn⟩
    · exact ht
    · exact hc c hcm n hcn

theorem records_iff {t : Json} {k : Key} :
    Records t k ↔ keyAt t = some k ∨ ∃ c ∈ entriesOf t "children", Records c k := by
  constructor
  · rintro ⟨n, hn, hk⟩
    rcases hn.cases_head with rfl | ⟨c, hc, hcn⟩
    · exact Or.inl hk
    · exact Or.inr ⟨c, hc, n, hcn, hk⟩
  · rintro (hk | ⟨c, hc, n, hn, hk⟩)
    · exact ⟨t, Relation.ReflTransGen.refl, hk⟩
    · exact ⟨n, Relation.ReflTransGen.head hc hn, hk⟩

/-- What the entry of a file needs, and what its nodes mention. -/
structure FileComplete (K : Key → Prop) (j : Json) : Prop where
  fileName : (memberOf j "fileName").isSome
  nodes : ∀ t ∈ entriesOf j "statements", ∀ n, Nested t n → NodeLinked K n

/-- The keys of the nodes of a file. -/
def FileRecords (j : Json) (k : Key) : Prop := ∃ t ∈ entriesOf j "statements", Records t k

/-- What the entry of a file mentions apart from its nodes. -/
structure FileLinked (K : Key → Prop) (j : Json) : Prop where
  exports : ∀ e ∈ exportsIn j, IsKeyIn K e.2
  locals : ∀ v ∈ entriesOf j "locals", IsKeyIn K v

/-- What the entry of a resolved module name needs. -/
structure ResolutionComplete (j : Json) : Prop where
  file : (memberOf j "from").isSome
  specifier : (memberOf j "module").isSome
  fileName : (memberOf j "fileName").isSome

/-- The keys of the symbols of a document. -/
def SymbolKeys (doc : Json) (k : Key) : Prop := ∃ j ∈ entriesOf doc "symbols", keyAt j = some k

/-- The keys of the nodes of a document. -/
def NodeKeys (doc : Json) (k : Key) : Prop := ∃ n, HasNode doc n ∧ keyAt n = some k

theorem nodeKeys_iff {doc : Json} {k : Key} :
    NodeKeys doc k ↔ ∃ f ∈ entriesOf doc "files", FileRecords f k := by
  constructor
  · rintro ⟨n, ⟨f, hf, t, ht, hn⟩, hk⟩
    exact ⟨f, hf, t, ht, n, hn, hk⟩
  · rintro ⟨f, hf, t, ht, n, hn, hk⟩
    exact ⟨n, ⟨f, hf, t, ht, hn⟩, hk⟩

/-- What loading asks of a document. -/
structure Connected (doc : Json) : Prop where
  symbols : Addable (fun _ => False) (entriesOf doc "symbols")
  files : ∀ f ∈ entriesOf doc "files", FileComplete (SymbolKeys doc) f
  links : ∀ j ∈ entriesOf doc "symbols", SymbolLinked (SymbolKeys doc) (NodeKeys doc) j
  fileLinks : ∀ f ∈ entriesOf doc "files", FileLinked (SymbolKeys doc) f
  globals : ∀ v ∈ entriesOf doc "globals", IsKeyIn (SymbolKeys doc) v
  resolutions : ∀ j ∈ entriesOf doc "resolutions", ResolutionComplete j

/-! ### Keys as they are written -/

theorem IsText.key?_inj {v w : Json} (hv : IsText v) (hw : IsText w) :
    v.key? = w.key? ↔ v = w := by
  obtain ⟨s, rfl⟩ := hv
  obtain ⟨t, rfl⟩ := hw
  simp [Json.key?]

theorem IsText.key? {v : Json} (hv : IsText v) : ∃ k, v.key? = some k := by
  obtain ⟨s, rfl⟩ := hv
  exact ⟨.text s, rfl⟩

/-- A text stands for the key of some entries if and only if it is the key of one. -/
theorem isKeyIn_iff {E : Json → Prop} (hE : ∀ j, E j → ∀ v ∈ memberOf j "id", IsText v) {v : Json}
    (hv : IsText v) : IsKeyIn (fun k => ∃ j, E j ∧ keyAt j = some k) v ↔
      ∃ j, E j ∧ memberOf j "id" = some v := by
  constructor
  · rintro ⟨k, hk, j, hj, hkey⟩
    obtain ⟨w, hw, hwk⟩ := Option.bind_eq_some_iff.mp hkey
    have := ((hE j hj w hw).key?_inj hv).mp (hwk.trans hk.symm)
    exact ⟨j, hj, this ▸ hw⟩
  · rintro ⟨j, hj, hid⟩
    obtain ⟨k, hk⟩ := hv.key?
    exact ⟨k, hk, j, hj, by rw [keyAt, hid, Option.bind_some, hk]⟩

section Documented

variable {doc : Json} (h : Documented doc)

include h

theorem Documented.symbol {j : Json} (hj : j ∈ entriesOf doc "symbols") : SymbolShape j :=
  forall_mem_entriesOf h.symbols j hj

theorem Documented.file {f : Json} (hf : f ∈ entriesOf doc "files") : FileShape f :=
  forall_mem_entriesOf h.files f hf

theorem Documented.node {n : Json} (hn : HasNode doc n) : NodeShape n := by
  obtain ⟨f, hf, t, ht, hn⟩ := hn
  exact forall_mem_entriesOf (h.file hf).statements t ht n hn

theorem isKeyIn_symbolKeys_iff {v : Json} (hv : IsText v) :
    IsKeyIn (SymbolKeys doc) v ↔ Lists doc v :=
  isKeyIn_iff (E := fun j => j ∈ entriesOf doc "symbols") (fun _ hj => (h.symbol hj).id) hv

theorem isKeyIn_nodeKeys_iff {v : Json} (hv : IsText v) :
    IsKeyIn (NodeKeys doc) v ↔ ∃ n, HasNode doc n ∧ memberOf n "id" = some v :=
  isKeyIn_iff (fun _ hn => (h.node hn).id) hv

theorem keyAt_eq_iff {i j : Json} (hi : i ∈ entriesOf doc "symbols")
    (hj : j ∈ entriesOf doc "symbols") :
    keyAt i = keyAt j ↔ memberOf i "id" = memberOf j "id" := by
  have hti := (h.symbol hi).id
  have htj := (h.symbol hj).id
  unfold keyAt
  cases hvi : memberOf i "id" with
  | none =>
    cases hvj : memberOf j "id" with
    | none => simp
    | some w =>
      obtain ⟨k, hk⟩ := (htj w hvj).key?
      simp [hk]
  | some v =>
    cases hvj : memberOf j "id" with
    | none =>
      obtain ⟨k, hk⟩ := (hti v hvi).key?
      simp [hk]
    | some w =>
      rw [Option.bind_some, Option.bind_some, Option.some.injEq]
      exact (hti v hvi).key?_inj (htj w hvj)

theorem Connected.coherent (hc : Connected doc) : Coherent doc where
  ids j hj := (hc.symbols.complete j hj).id
  names j hj := (hc.symbols.complete j hj).name
  distinct := hc.symbols.distinct.imp_of_mem fun hi hj hne he =>
    hne ((keyAt_eq_iff h hi hj).mpr he)
  flags j hj := (hc.symbols.complete j hj).flags
  declarations j hj v hv := (isKeyIn_nodeKeys_iff h
    (forall_mem_entriesOf (h.symbol hj).declarations v hv)).mp ((hc.links j hj).declarations v hv)
  aliases j hj v hv := (isKeyIn_symbolKeys_iff h ((h.symbol hj).aliasOf v hv)).mp
    ((hc.links j hj).aliasOf v hv)
  symbolExports j hj e he := (isKeyIn_symbolKeys_iff h
    (forall_mem_exportsIn (h.symbol hj).exports e he)).mp ((hc.links j hj).exports e he)
  fileNames f hf := (hc.files f hf).fileName
  fileExports f hf e he := (isKeyIn_symbolKeys_iff h
    (forall_mem_exportsIn (h.file hf).exports e he)).mp ((hc.fileLinks f hf).exports e he)
  locals f hf v hv := (isKeyIn_symbolKeys_iff h
    (forall_mem_entriesOf (h.file hf).locals v hv)).mp ((hc.fileLinks f hf).locals v hv)
  kinds n hn := by
    obtain ⟨f, hf, t, ht, hn⟩ := hn
    exact ((hc.files f hf).nodes t ht n hn).kind
  bindings n hn v hv := by
    refine (isKeyIn_symbolKeys_iff h ((h.node hn).symbol v hv)).mp ?_
    obtain ⟨f, hf, t, ht, hn⟩ := hn
    exact ((hc.files f hf).nodes t ht n hn).symbol v hv
  modules n hn hs v hv := by
    refine (isKeyIn_symbolKeys_iff h ((h.node hn).moduleSymbol v hv)).mp ?_
    obtain ⟨f, hf, t, ht, hn⟩ := hn
    exact ((hc.files f hf).nodes t ht n hn).moduleSymbol hs v hv
  globals v hv := (isKeyIn_symbolKeys_iff h (forall_mem_entriesOf h.globals v hv)).mp
    (hc.globals v hv)
  resolutions j hj :=
    ⟨(hc.resolutions j hj).file, (hc.resolutions j hj).specifier, (hc.resolutions j hj).fileName⟩

theorem Coherent.connected (hc : Coherent doc) : Connected doc where
  symbols := by
    refine ⟨fun j hj => ⟨hc.ids j hj, hc.names j hj, hc.flags j hj⟩, fun _ _ _ _ hK => hK, ?_⟩
    exact hc.distinct.imp_of_mem fun hi hj hne he => hne ((keyAt_eq_iff h hi hj).mp he)
  files f hf := by
    refine ⟨hc.fileNames f hf, fun t ht n hn => ?_⟩
    have hn : HasNode doc n := ⟨f, hf, t, ht, hn⟩
    refine ⟨hc.kinds n hn, fun v hv => ?_, fun hs v hv => ?_⟩
    · exact (isKeyIn_symbolKeys_iff h ((h.node hn).symbol v hv)).mpr (hc.bindings n hn v hv)
    · exact (isKeyIn_symbolKeys_iff h ((h.node hn).moduleSymbol v hv)).mpr
        (hc.modules n hn hs v hv)
  links j hj := by
    refine ⟨fun v hv => ?_, fun v hv => ?_, fun e he => ?_⟩
    · exact (isKeyIn_nodeKeys_iff h (forall_mem_entriesOf (h.symbol hj).declarations v hv)).mpr
        (hc.declarations j hj v hv)
    · exact (isKeyIn_symbolKeys_iff h ((h.symbol hj).aliasOf v hv)).mpr (hc.aliases j hj v hv)
    · exact (isKeyIn_symbolKeys_iff h (forall_mem_exportsIn (h.symbol hj).exports e he)).mpr
        (hc.symbolExports j hj e he)
  fileLinks f hf := by
    refine ⟨fun e he => ?_, fun v hv => ?_⟩
    · exact (isKeyIn_symbolKeys_iff h (forall_mem_exportsIn (h.file hf).exports e he)).mpr
        (hc.fileExports f hf e he)
    · exact (isKeyIn_symbolKeys_iff h (forall_mem_entriesOf (h.file hf).locals v hv)).mpr
        (hc.locals f hf v hv)
  globals v hv := (isKeyIn_symbolKeys_iff h (forall_mem_entriesOf h.globals v hv)).mpr
    (hc.globals v hv)
  resolutions j hj :=
    ⟨(hc.resolutions j hj).1, (hc.resolutions j hj).2.1, (hc.resolutions j hj).2.2⟩

end Documented

end Snapshot

end ApiSurface
