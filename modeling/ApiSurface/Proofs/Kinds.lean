import ApiSurface.Proofs.Documents

/-! What loading asks of a document, in two parts. Its values have to be of kinds that their places
allow, and as far as they are, what they say has to be right. A document of the documented shape has
values of the right kinds, and then it is connected if and only if it is sound. -/

namespace ApiSurface

namespace Snapshot

/-! ### The kinds of values -/

def IsObject (j : Json) : Prop := ∃ members, j = .obj members

/-- A value that can be listed. Texts and objects can be, too. -/
def IsList (v : Json) : Prop := ∃ items, v.items? = some items

/-- A value that can be a key or a name, which arrays and objects cannot. -/
def HasKey (v : Json) : Prop := ∃ k, v.key? = some k

@[simp] theorem isObject_obj (members : List (String × Json)) : IsObject (.obj members) :=
  ⟨members, rfl⟩

/-- A member can be listed if it is there, and what it lists is of one kind. -/
def ListAt (P : Json → Prop) (j : Json) (name : String) : Prop :=
  (∀ v ∈ memberOf j name, IsList v) ∧ ∀ v ∈ entriesOf j name, P v

/-- The exports of an entry are a table of keys. A symbol under the empty name goes by its own name,
which has to be one. -/
def TableAt (N : Key → Prop) (j : Json) : Prop :=
  (∀ v ∈ memberOf j "exports", IsObject v) ∧
    ∀ e ∈ exportsIn j, HasKey e.2 ∧ (e.1 = "" → ∀ k ∈ e.2.key?, N k)

/-- The kinds that the entry of a symbol needs on its own. -/
structure SymbolKinds (j : Json) : Prop where
  entry : IsObject j
  id : ∀ v ∈ memberOf j "id", HasKey v
  flags : ListAt IsText j "flags"

/-- The kinds of what the entry of a symbol mentions. -/
structure SymbolLinkKinds (N : Key → Prop) (j : Json) : Prop where
  declarations : ListAt HasKey j "declarations"
  aliasOf : ∀ v ∈ memberOf j "aliasOf", HasKey v
  exports : TableAt N j

/-- The kinds in the entry of a node, apart from the nodes below it. -/
structure NodeKinds (n : Json) : Prop where
  entry : IsObject n
  id : ∀ v ∈ memberOf n "id", HasKey v
  symbol : ∀ v ∈ memberOf n "symbol", HasKey v
  children : ∀ v ∈ memberOf n "children", IsList v
  moduleSymbol : ((memberOf n "moduleSpecifier").bind Json.given?).isSome →
    ∀ v ∈ memberOf n "moduleSymbol", HasKey v

/-- The kinds that the entry of a file needs for its name and its nodes. -/
structure FileKinds (j : Json) : Prop where
  entry : IsObject j
  fileName : ∀ v ∈ memberOf j "fileName", HasKey v
  statements : ListAt (fun t => ∀ n, Nested t n → NodeKinds n) j "statements"

/-- The kinds of what the entry of a file mentions apart from its nodes. -/
structure FileLinkKinds (N : Key → Prop) (j : Json) : Prop where
  exports : TableAt N j
  locals : ListAt HasKey j "locals"

structure ResolutionKinds (j : Json) : Prop where
  entry : IsObject j
  file : ∀ v ∈ memberOf j "from", HasKey v
  specifier : ∀ v ∈ memberOf j "module", HasKey v

/-- The symbol of a key has a name that can be the name of an export. -/
def Nameable (doc : Json) (k : Key) : Prop :=
  ∀ j ∈ entriesOf doc "symbols", keyAt j = some k → ∀ v ∈ memberOf j "name", HasKey v

/-- Every value of a document is of a kind that its place allows. -/
structure Kinded (doc : Json) : Prop where
  entry : IsObject doc
  symbols : ListAt SymbolKinds doc "symbols"
  files : ListAt FileKinds doc "files"
  links : ∀ j ∈ entriesOf doc "symbols", SymbolLinkKinds (Nameable doc) j
  fileLinks : ∀ f ∈ entriesOf doc "files", FileLinkKinds (Nameable doc) f
  globals : ListAt HasKey doc "globals"
  resolutions : ListAt ResolutionKinds doc "resolutions"

/-! ### What the values say -/

/-- If a value is a key, then it is one of the given ones. -/
def Mentions (K : Key → Prop) (v : Json) : Prop := ∀ k ∈ v.key?, K k

/-- The entry of a symbol has what it needs. -/
structure SymbolSound (j : Json) : Prop where
  id : IsObject j → (memberOf j "id").isSome
  name : IsObject j → (memberOf j "name").isSome
  flags : ∀ v ∈ entriesOf j "flags", IsText v → IsFlag v

/-- Symbols that may be listed besides those that already are, as far as they have keys. -/
structure SymbolsSound (K : Key → Prop) (l : List Json) : Prop where
  entries : ∀ j ∈ l, SymbolSound j
  fresh : ∀ j ∈ l, ∀ k ∈ keyAt j, ¬K k
  distinct : l.Pairwise fun i j => ∀ k ∈ keyAt i, keyAt j ≠ some k

structure SymbolLinkSound (K R : Key → Prop) (j : Json) : Prop where
  declarations : ∀ v ∈ entriesOf j "declarations", Mentions R v
  aliasOf : ∀ v ∈ memberOf j "aliasOf", Mentions K v
  exports : ∀ e ∈ exportsIn j, Mentions K e.2

structure NodeSound (K : Key → Prop) (n : Json) : Prop where
  kind : IsObject n → ∃ kind : NodeKind, memberOf n "kind" = some (.str kind.label)
  symbol : ∀ v ∈ memberOf n "symbol", Mentions K v
  moduleSymbol : ((memberOf n "moduleSpecifier").bind Json.given?).isSome →
    ∀ v ∈ memberOf n "moduleSymbol", Mentions K v

structure FileSound (K : Key → Prop) (j : Json) : Prop where
  fileName : IsObject j → (memberOf j "fileName").isSome
  nodes : ∀ t ∈ entriesOf j "statements", ∀ n, Nested t n → NodeSound K n

structure FileLinkSound (K : Key → Prop) (j : Json) : Prop where
  exports : ∀ e ∈ exportsIn j, Mentions K e.2
  locals : ∀ v ∈ entriesOf j "locals", Mentions K v

/-- What a document says is right, as far as its values are of the right kinds. -/
structure Sound (doc : Json) : Prop where
  symbols : SymbolsSound (fun _ => False) (entriesOf doc "symbols")
  files : ∀ f ∈ entriesOf doc "files", FileSound (SymbolKeys doc) f
  links : ∀ j ∈ entriesOf doc "symbols", SymbolLinkSound (SymbolKeys doc) (NodeKeys doc) j
  fileLinks : ∀ f ∈ entriesOf doc "files", FileLinkSound (SymbolKeys doc) f
  globals : ∀ v ∈ entriesOf doc "globals", Mentions (SymbolKeys doc) v
  resolutions : ∀ j ∈ entriesOf doc "resolutions", IsObject j → ResolutionComplete j

/-! ### Documents of the documented shape -/

theorem IsText.hasKey {v : Json} (h : IsText v) : HasKey v := h.key?

theorem IsArrayOf.isList {P : Json → Prop} {v : Json} (h : IsArrayOf P v) : IsList v := by
  obtain ⟨items, rfl, _⟩ := h
  exact ⟨items, rfl⟩

theorem listAt_of_isArrayOf {P Q : Json → Prop} {j : Json} {name : String}
    (h : ∀ v ∈ memberOf j name, IsArrayOf P v) (hpq : ∀ v, P v → Q v) : ListAt Q j name :=
  ⟨fun v hv => (h v hv).isList, fun v hv => hpq v (forall_mem_entriesOf h v hv)⟩

theorem tableAt_of_isTable {N : Key → Prop} {j : Json}
    (h : ∀ v ∈ memberOf j "exports", IsTable v) (hN : ∀ k, N k) : TableAt N j := by
  refine ⟨fun v hv => ?_, fun e he => ⟨(forall_mem_exportsIn h e he).hasKey, fun _ k _ => hN k⟩⟩
  obtain ⟨table, rfl, _⟩ := h v hv
  exact isObject_obj table

theorem NodeShape.kinds {n : Json} (h : NodeShape n) : NodeKinds n where
  entry := h.entry
  id v hv := (h.id v hv).hasKey
  symbol v hv := (h.symbol v hv).hasKey
  children v hv := (h.children v hv).isList
  moduleSymbol _ v hv := (h.moduleSymbol v hv).hasKey

theorem Documented.kinded {doc : Json} (h : Documented doc) : Kinded doc := by
  have hnames : ∀ k, Nameable doc k := fun _ j hj _ v hv => ((h.symbol hj).name v hv).hasKey
  refine ⟨h.entry, listAt_of_isArrayOf h.symbols fun j hj => ?_,
    listAt_of_isArrayOf h.files fun f hf => ?_, fun j hj => ?_, fun f hf => ?_,
    listAt_of_isArrayOf h.globals fun _ hv => hv.hasKey,
    listAt_of_isArrayOf h.resolutions fun r hr => ?_⟩
  · exact ⟨hj.entry, fun v hv => (hj.id v hv).hasKey, listAt_of_isArrayOf hj.flags fun _ => id⟩
  · refine ⟨hf.entry, fun v hv => (hf.fileName v hv).hasKey, ?_⟩
    exact listAt_of_isArrayOf hf.statements fun t ht n hn => (ht n hn).kinds
  · have hj := h.symbol hj
    exact ⟨listAt_of_isArrayOf hj.declarations fun _ hv => hv.hasKey,
      fun v hv => (hj.aliasOf v hv).hasKey, tableAt_of_isTable hj.exports hnames⟩
  · have hf := h.file hf
    exact ⟨tableAt_of_isTable hf.exports hnames,
      listAt_of_isArrayOf hf.locals fun _ hv => hv.hasKey⟩
  · exact ⟨hr.entry, fun v hv => (hr.file v hv).hasKey, fun v hv => (hr.specifier v hv).hasKey⟩

/-! ### Sound and connected documents -/

theorem HasKey.isKeyIn {K : Key → Prop} {v : Json} (h : HasKey v) (hm : Mentions K v) :
    IsKeyIn K v := by
  obtain ⟨k, hk⟩ := h
  exact ⟨k, hk, hm k hk⟩

theorem IsKeyIn.mentions {K : Key → Prop} {v : Json} (h : IsKeyIn K v) : Mentions K v := by
  obtain ⟨k, hk, hK⟩ := h
  intro l hl
  exact Option.some.inj (hk.symm.trans hl) ▸ hK

theorem keyAt_isSome {j : Json} (hid : (memberOf j "id").isSome)
    (hkey : ∀ v ∈ memberOf j "id", HasKey v) : ∃ k, keyAt j = some k := by
  obtain ⟨v, hv⟩ := Option.isSome_iff_exists.mp hid
  obtain ⟨k, hk⟩ := hkey v hv
  exact ⟨k, by rw [keyAt, hv, Option.bind_some, hk]⟩

theorem Connected.sound {doc : Json} (h : Connected doc) : Sound doc where
  symbols := by
    refine ⟨fun j hj => ?_, h.symbols.fresh, h.symbols.distinct.imp fun hne k hk he => ?_⟩
    · have hj := h.symbols.complete j hj
      exact ⟨fun _ => hj.id, fun _ => hj.name, fun v hv _ => hj.flags v hv⟩
    · exact hne (Option.mem_def.mp hk ▸ he.symm)
  files f hf := by
    refine ⟨fun _ => (h.files f hf).fileName, fun t ht n hn => ?_⟩
    have hn := (h.files f hf).nodes t ht n hn
    exact ⟨fun _ => hn.kind, fun v hv => (hn.symbol v hv).mentions,
      fun hs v hv => (hn.moduleSymbol hs v hv).mentions⟩
  links j hj := ⟨fun v hv => ((h.links j hj).declarations v hv).mentions,
    fun v hv => ((h.links j hj).aliasOf v hv).mentions,
    fun e he => ((h.links j hj).exports e he).mentions⟩
  fileLinks f hf := ⟨fun e he => ((h.fileLinks f hf).exports e he).mentions,
    fun v hv => ((h.fileLinks f hf).locals v hv).mentions⟩
  globals v hv := (h.globals v hv).mentions
  resolutions j hj _ := h.resolutions j hj

theorem Sound.connected {doc : Json} (h : Sound doc) (hk : Kinded doc) : Connected doc where
  symbols := by
    have hcomplete : ∀ j ∈ entriesOf doc "symbols", SymbolComplete j := by
      intro j hj
      have hj' := hk.symbols.2 j hj
      have hs := h.symbols.entries j hj
      exact ⟨hs.id hj'.entry, hs.name hj'.entry, fun v hv => hs.flags v hv (hj'.flags.2 v hv)⟩
    refine ⟨hcomplete, h.symbols.fresh, h.symbols.distinct.imp_of_mem fun {i j} hi hj hne he => ?_⟩
    obtain ⟨k, hkey⟩ := keyAt_isSome (hcomplete i hi).id (hk.symbols.2 i hi).id
    exact hne k hkey (he ▸ hkey)
  files f hf := by
    have hf' := hk.files.2 f hf
    refine ⟨(h.files f hf).fileName hf'.entry, fun t ht n hn => ?_⟩
    have hn' := hf'.statements.2 t ht n hn
    have hs := (h.files f hf).nodes t ht n hn
    exact ⟨hs.kind hn'.entry, fun v hv => (hn'.symbol v hv).isKeyIn (hs.symbol v hv),
      fun hg v hv => (hn'.moduleSymbol hg v hv).isKeyIn (hs.moduleSymbol hg v hv)⟩
  links j hj := by
    have hj' := hk.links j hj
    have hs := h.links j hj
    exact ⟨fun v hv => (hj'.declarations.2 v hv).isKeyIn (hs.declarations v hv),
      fun v hv => (hj'.aliasOf v hv).isKeyIn (hs.aliasOf v hv),
      fun e he => (hj'.exports.2 e he).1.isKeyIn (hs.exports e he)⟩
  fileLinks f hf := by
    have hf' := hk.fileLinks f hf
    have hs := h.fileLinks f hf
    exact ⟨fun e he => (hf'.exports.2 e he).1.isKeyIn (hs.exports e he),
      fun v hv => (hf'.locals.2 v hv).isKeyIn (hs.locals v hv)⟩
  globals v hv := (hk.globals.2 v hv).isKeyIn (h.globals v hv)
  resolutions j hj := h.resolutions j hj (hk.resolutions.2 j hj).entry

end Snapshot

end ApiSurface
