import ApiSurface.Command
import ApiSurface.Proofs.Edits
import ApiSurface.Proofs.Walks
import ApiSurface.Tool

/-! Programs that answer alike. The tables of symbols and of alias targets are only looked up, and
the symbols are only told apart. So two programs with equal entries in these tables, in whatever
order, have the same surfaces and reports. Wildcard re-exports are followed in the same way also if
the entries of export tables come in another order. -/

namespace ApiSurface

/-- A symbol with an empty table in the place of its export table. -/
def Symbol.emptied (x : Symbol) : Symbol := { x with exports := x.exports.map fun _ => ∅ }

theorem Symbol.flags_of_emptied {x y : Symbol} (h : x.emptied = y.emptied) : x.flags = y.flags := by
  have hflags := congrArg Symbol.flags h
  exact hflags

theorem Symbol.declarations_of_emptied {x y : Symbol} (h : x.emptied = y.emptied) :
    x.declarations = y.declarations := by
  have hdeclarations := congrArg Symbol.declarations h
  exact hdeclarations

namespace Program

variable {K : SymbolId → Prop} {p q r : Program}

/-- A program with other tables of symbols and of alias targets. -/
def retabled (p : Program) (symbols : Table SymbolId Symbol)
    (aliasTargets : Table SymbolId SymbolId) : Program :=
  { p with symbols, aliasTargets }

/-- Two programs are equal except for these tables. They have the same symbols under the same names,
and the entries of some of them are equal. -/
structure Agrees (K : SymbolId → Prop) (p q : Program) : Prop where
  rest : q = p.retabled q.symbols q.aliasTargets
  mem : ∀ s, s ∈ q.symbolIds ↔ s ∈ p.symbolIds
  name : ∀ s, (q.symbol s).name = (p.symbol s).name
  symbols : ∀ s, K s → q.symbols.get? s = p.symbols.get? s
  aliases : ∀ s, K s → q.aliasTargets.get? s = p.aliasTargets.get? s

/-- Two programs that are equal except for the order of two tables. -/
def Alike (p q : Program) : Prop := Agrees (fun _ => True) p q

namespace Agrees

theorem refl (K : SymbolId → Prop) (p : Program) : Agrees K p p where
  rest := rfl
  mem _ := Iff.rfl
  name _ := rfl
  symbols _ _ := rfl
  aliases _ _ := rfl

theorem symm (h : Agrees K p q) : Agrees K q p where
  rest := by
    rw [h.rest]
    rfl
  mem s := (h.mem s).symm
  name s := (h.name s).symm
  symbols s hs := (h.symbols s hs).symm
  aliases s hs := (h.aliases s hs).symm

theorem trans (h : Agrees K p q) (h' : Agrees K q r) : Agrees K p r where
  rest := by
    rw [h'.rest, h.rest]
    rfl
  mem s := (h'.mem s).trans (h.mem s)
  name s := (h'.name s).trans (h.name s)
  symbols s hs := (h'.symbols s hs).trans (h.symbols s hs)
  aliases s hs := (h'.aliases s hs).trans (h.aliases s hs)

/-- Programs that agree on some symbols agree on fewer of them. -/
theorem mono {K' : SymbolId → Prop} (h : Agrees K p q) (hk : ∀ s, K' s → K s) : Agrees K' p q :=
  { h with
    symbols := fun s hs => h.symbols s (hk s hs)
    aliases := fun s hs => h.aliases s (hk s hs) }

theorem or {K' : SymbolId → Prop} (h : Agrees K p q) (h' : Agrees K' p q) :
    Agrees (fun s => K s ∨ K' s) p q :=
  { h with
    symbols := fun s hs => hs.elim (h.symbols s) (h'.symbols s)
    aliases := fun s hs => hs.elim (h.aliases s) (h'.aliases s) }

/-- A symbol on which the programs agree is the same in both. -/
theorem symbol_eq (h : Agrees K p q) {s : SymbolId} (hs : K s) : q.symbol s = p.symbol s := by
  rw [symbol, h.symbols s hs]
  rfl

/-! ### Edits -/

/-- A change to anything but the two tables. -/
theorem aside {f : Program → Program} (h : Agrees K p q)
    (hf : ∀ p S A, f (p.retabled S A) = (f p).retabled S A) : Agrees K (f p) (f q) := by
  have hs : ∀ p, (f p).symbols = p.symbols := by
    intro p
    have := congrArg Program.symbols (hf p p.symbols p.aliasTargets)
    exact this
  have ha : ∀ p, (f p).aliasTargets = p.aliasTargets := by
    intro p
    have := congrArg Program.aliasTargets (hf p p.symbols p.aliasTargets)
    exact this
  constructor
  · rw [hs, ha, ← hf, ← h.rest]
  · simpa only [symbolIds, hs] using h.mem
  · simpa only [symbol, hs] using h.name
  · simpa only [hs] using h.symbols
  · simpa only [ha] using h.aliases

/-- A symbol that is put replaces what was there, so the programs need not agree on it before. -/
theorem putSymbol (h : Agrees K p q) (s : SymbolId) (x : Symbol) :
    Agrees K (p.putSymbol s x) (q.putSymbol s x) where
  rest := by
    conv_lhs => rw [h.rest]
    rfl
  mem t := by rw [mem_symbolIds_putSymbol, mem_symbolIds_putSymbol, h.mem]
  name t := by
    rw [symbol_putSymbol, symbol_putSymbol]
    split
    · rfl
    · exact h.name t
  symbols t ht := by
    rw [get?_putSymbol, get?_putSymbol]
    split
    · rfl
    · exact h.symbols t ht
  aliases := h.aliases

/-- A change starts from what is there, so the programs have to agree on the symbol. -/
theorem modifySymbol (h : Agrees K p q) {s : SymbolId} (hs : K s) (f : Symbol → Symbol) :
    Agrees K (p.modifySymbol s f) (q.modifySymbol s f) := by
  unfold Program.modifySymbol
  rw [h.symbol_eq hs]
  exact h.putSymbol s _

theorem setAliasTarget (h : Agrees K p q) {s : SymbolId} (hs : K s) (t : SymbolId) :
    Agrees K (p.setAliasTarget s t) (q.setAliasTarget s t) := by
  have hm := h.modifySymbol hs fun x => { x with flags := x.flags ++ [.alias] }
  refine ⟨?_, hm.mem, hm.name, hm.symbols, fun u hu => ?_⟩
  · unfold Program.setAliasTarget
    conv_lhs => rw [hm.rest]
    rfl
  · change (q.aliasTargets.insert s t).get? u = (p.aliasTargets.insert s t).get? u
    rw [Table.get?_insert, Table.get?_insert, h.aliases u hu]

theorem addExport (h : Agrees K p q) {owner : SymbolId} (ho : K owner) (s : SymbolId) (n : Name) :
    Agrees K (p.addExport owner s n) (q.addExport owner s n) := by
  unfold Program.addExport
  rw [tableOf, tableOf, h.symbol_eq ho]
  exact h.modifySymbol ho _

/-- A wildcard re-export changes the holder of its owner or makes one, so agreement on all symbols
is needed here. -/
theorem addWildcard {p q : Program} (h : p.Agrees (fun _ => True) q) (owner : SymbolId)
    (n : NodeId) : (p.addWildcard owner n).Agrees (fun _ => True) (q.addWildcard owner n) := by
  have ht : q.tableOf owner = p.tableOf owner := by rw [tableOf, h.symbol_eq trivial, tableOf]
  unfold Program.addWildcard
  rw [wildcardHolder?, wildcardHolder?, ht]
  split
  · exact h.modifySymbol trivial _
  · exact (h.putSymbol _ _).modifySymbol trivial _

/-- A new file has the same identity in both programs, since they number their nodes alike. -/
theorem addFile (h : Agrees K p q) (name : Name) (options : FileOptions) :
    (q.addFile name options).1 = (p.addFile name options).1 ∧
      Agrees K (p.addFile name options).2 (q.addFile name options).2 := by
  have hid : q.nextNode = p.nextNode := by
    rw [h.rest]
    rfl
  -- a file is added beside the tables, and then its symbol is put
  let filed (p : Program) : Program := (p.addFile name options).2.retabled p.symbols p.aliasTargets
  have hfiled : Agrees K (filed p) (filed q) := by
    refine h.aside fun p S A => ?_
    unfold filed Program.addFile
    cases options.isModule <;> rfl
  have heq : ∀ p : Program, p.addFile name options = (.node p.nextNode,
      if options.isModule then (filed p).putSymbol (.ofFile (.node p.nextNode))
        { name := .str ("\"" ++ name.shown ++ "\""), flags := [.valueModule]
          declarations := [.node p.nextNode], exports := some ∅ }
      else filed p) := by
    intro p
    unfold filed Program.addFile
    cases options.isModule <;> rfl
  rw [heq, heq, hid]
  refine ⟨rfl, ?_⟩
  dsimp only
  split
  · exact hfiled.putSymbol _ _
  · exact hfiled

/-- A change to one symbol is none to the others. -/
theorem of_modifySymbol {s : SymbolId} {f : Symbol → Symbol} (hs : s ∈ p.symbolIds)
    (hf : ∀ x, (f x).name = x.name) : Agrees (· ≠ s) p (p.modifySymbol s f) where
  rest := rfl
  mem _ := mem_symbolIds_modifySymbol hs
  name t := name_modifySymbol hf t
  symbols t ht := by
    rw [Program.modifySymbol, get?_putSymbol, if_neg ht.symm]
  aliases _ _ := rfl

theorem of_addDeclaration {s : SymbolId} (hs : s ∈ p.symbolIds) (n : NodeId) :
    Agrees (· ≠ s) p (p.addDeclaration s n) := by
  unfold addDeclaration
  exact of_modifySymbol hs fun _ => rfl

theorem of_addExport {owner : SymbolId} (ho : owner ∈ p.symbolIds) (s : SymbolId) (n : Name) :
    Agrees (· ≠ owner) p (p.addExport owner s n) := by
  unfold Program.addExport
  exact of_modifySymbol ho fun _ => rfl

theorem of_setAliasTarget {s : SymbolId} (hs : s ∈ p.symbolIds) (t : SymbolId) :
    Agrees (· ≠ s) p (p.setAliasTarget s t) := by
  have hm : Agrees (· ≠ s) p (p.modifySymbol s fun x => { x with flags := x.flags ++ [.alias] }) :=
    of_modifySymbol hs fun _ => rfl
  refine ⟨rfl, hm.mem, hm.name, hm.symbols, fun u hu => ?_⟩
  change (p.aliasTargets.insert s t).get? u = _
  rw [Table.get?_insert, if_neg hu.symm]

end Agrees

/-- The modules behind a list of wildcard re-exports, and what has been seen after them. -/
def walked (p : Program) (seen : List SymbolId) (ds : List NodeId) :
    Except Fault (List ModuleTree × List SymbolId) :=
  (p.behind seen ds).map fun r => (r.1, r.2.val)

theorem walked_nil (seen : List SymbolId) : p.walked seen [] = .ok ([], seen) := by
  rw [walked, behind]
  rfl

/-- One statement more: a module that has been seen is left out, and one that has not comes with all
that is behind it. -/
theorem walked_cons (seen : List SymbolId) (d : NodeId) (rest : List NodeId) :
    p.walked seen (d :: rest) =
      match p.wildcardModule? d with
      | .error e => .error e
      | .ok none => p.walked seen rest
      | .ok (some m) =>
        if m ∈ seen then p.walked seen rest
        else match p.wildcards m with
          | .error e => .error e
          | .ok inner =>
            if m ∈ p.symbolIds then do
              let (below, after) ← p.walked (m :: seen) inner
              let (others, last) ← p.walked after rest
              return (.mk m below :: others, last)
            else .error (.defect .wrongEntity) := by
  rw [walked, behind]
  cases p.wildcardModule? d with
  | error e => rfl
  | ok found =>
    cases found with
    | none => rfl
    | some m =>
      by_cases hs : m ∈ seen
      · simp only [hs, ↓reduceDIte, ↓reduceIte]
        rfl
      · simp only [hs, ↓reduceDIte, ↓reduceIte]
        cases p.wildcards m with
        | error e => rfl
        | ok inner =>
          by_cases hm : m ∈ p.symbolIds
          · simp only [hm, ↓reduceDIte, ↓reduceIte]
            unfold walked
            cases p.behind (m :: seen) inner with
            | error e => rfl
            | ok r =>
              obtain ⟨below, after, h₁⟩ := r
              change _ = Except.map _ (p.behind after rest) >>= _
              cases hr : p.behind after rest <;> simp only [hr] <;> rfl
          · simp only [hm, ↓reduceDIte, ↓reduceIte]
            rfl

/-- The export table of a module is made from the tree of the modules behind it. What has been seen
on the way does not matter any more. -/
theorem exportTable_eq_walked (m : SymbolId) : p.exportTable m = do
    let inner ← p.wildcards m
    let (trees, _) ← p.walked [m] inner
    return ModuleTree.table p (.mk m trees) := by
  unfold exportTable walked
  cases p.wildcards m with
  | error e => rfl
  | ok inner =>
    rw [ok_bind]
    dsimp only
    cases p.behind [m] inner <;> rfl

/-- Two programs are equal except for the tables of symbols and of alias targets. They have the same
symbols, which are equal except for their export tables, and these have equal entries. -/
structure Akin (p q : Program) : Prop where
  rest : q = p.retabled q.symbols q.aliasTargets
  symbols : ∀ s, (q.symbols.get? s).map Symbol.emptied = (p.symbols.get? s).map Symbol.emptied
  tables : ∀ s k, (q.tableOf s).get? k = (p.tableOf s).get? k

/-- Two programs look up alike what does not depend on these tables. -/
structure LooksUpAlike (p q : Program) : Prop where
  siteOf : q.siteOf = p.siteOf
  sourceOf : q.sourceOf = p.sourceOf
  fileNamed? : q.fileNamed? = p.fileNamed?
  isExternalFile : q.isExternalFile = p.isExternalFile
  isLibraryFile : q.isLibraryFile = p.isLibraryFile
  declaration? : q.declaration? = p.declaration?
  symbolAt : q.symbolAt = p.symbolAt
  scope : q.scope = p.scope
  globalScope : q.globalScope = p.globalScope
  resolution? : q.resolution? = p.resolution?
  literal? : q.literal? = p.literal?
  location : q.location = p.location
  resolvedModule : q.resolvedModule = p.resolvedModule

namespace Akin

/-- None of these looks a symbol up. -/
theorem lookups (h : p.Akin q) : p.LooksUpAlike q := by
  rw [h.rest]
  constructor <;> rfl

/-! ### Symbols -/

theorem mem (h : p.Akin q) (s : SymbolId) : s ∈ q.symbolIds ↔ s ∈ p.symbolIds := by
  have hs := congrArg Option.isSome (h.symbols s)
  rw [Option.isSome_map, Option.isSome_map] at hs
  rw [mem_symbolIds_iff, mem_symbolIds_iff, ← Option.isSome_iff_exists, hs,
    Option.isSome_iff_exists]

/-- A symbol is in both programs or in none. -/
theorem symbol_cases (h : p.Akin q) (s : SymbolId) :
    p.symbols.get? s = none ∧ q.symbols.get? s = none ∨
      ∃ x y, p.symbols.get? s = some x ∧ q.symbols.get? s = some y ∧ y.emptied = x.emptied := by
  have hs := h.symbols s
  cases hp : p.symbols.get? s with
  | none =>
    rw [hp, Option.map_none, Option.map_eq_none_iff] at hs
    exact Or.inl ⟨rfl, hs⟩
  | some x =>
    rw [hp, Option.map_some] at hs
    obtain ⟨y, hy, hyx⟩ := Option.map_eq_some_iff.mp hs
    exact Or.inr ⟨x, y, rfl, hy, hyx⟩

theorem emptied_symbol (h : p.Akin q) (s : SymbolId) :
    (q.symbol s).emptied = (p.symbol s).emptied := by
  unfold symbol
  rcases h.symbol_cases s with ⟨hp, hq⟩ | ⟨x, y, hp, hq, hyx⟩
  · rw [hp, hq]
  · rw [hp, hq]
    exact hyx

/-- What does not look at an export table sees no difference. -/
theorem symbolOf_bind {β : Type} (h : p.Akin q) {f : Symbol → Except Fault β} (s : SymbolId)
    (hf : ∀ x y : Symbol, x.emptied = y.emptied → f x = f y) :
    q.symbolOf s >>= f = p.symbolOf s >>= f := by
  unfold Program.symbolOf
  rcases h.symbol_cases s with ⟨hp, hq⟩ | ⟨x, y, hp, hq, hyx⟩
  · rw [hp, hq]
  · rw [hp, hq]
    exact hf y x hyx

/-! ### Wildcard re-exports -/

theorem wildcardHolder? (h : p.Akin q) : q.wildcardHolder? = p.wildcardHolder? := by
  funext m
  simp only [Program.wildcardHolder?, h.tables]

/-- The holder of wildcard re-exports is found by its key, so the order of an export table does not
matter. -/
theorem wildcards (h : p.Akin q) : q.wildcards = p.wildcards := by
  funext m
  unfold Program.wildcards
  rw [h.wildcardHolder?]
  cases p.wildcardHolder? m with
  | none => exact h.symbolOf_bind m fun _ _ _ => rfl
  | some star =>
    have hstar := h.symbolOf_bind (f := fun x => .ok x.declarations) star
      fun x y hxy => congrArg Except.ok (Symbol.declarations_of_emptied hxy)
    change q.symbolOf m >>= (fun _ => q.symbolOf star >>= _) =
      p.symbolOf m >>= (fun _ => p.symbolOf star >>= _)
    rw [h.symbolOf_bind m fun _ _ _ => rfl]
    exact congrArg (p.symbolOf m >>= fun _ => ·) hstar

theorem specifierAt? (h : p.Akin q) : q.specifierAt? = p.specifierAt? := by
  funext e
  have he : (q.symbols.get? e).bind Symbol.specifier =
      (p.symbols.get? e).bind Symbol.specifier := by
    have hbind := congrArg (Option.bind · Symbol.specifier) (h.symbols e)
    simp only [Option.bind_map] at hbind
    exact hbind
  simp only [Program.specifierAt?, Program.specifier?, he, h.lookups.literal?, h.lookups.siteOf]

theorem wildcardModule? (h : p.Akin q) : q.wildcardModule? = p.wildcardModule? := by
  funext n
  simp only [Program.wildcardModule?, h.specifierAt?, h.lookups.siteOf, h.lookups.resolution?,
    h.lookups.fileNamed?, h.lookups.symbolAt]

/-- By induction along the recursion: the same modules are entered, in the same order. -/
theorem walked (h : p.Akin q) (seen : List SymbolId) (ds : List NodeId) :
    q.walked seen ds = p.walked seen ds := by
  fun_induction Program.behind p seen ds with
  | case1 => rw [walked_nil, walked_nil]
  | case2 seen d rest e he => simp only [walked_cons, h.wildcardModule?, he]
  | case3 seen d rest hn ih => simp only [walked_cons, h.wildcardModule?, hn, ih]
  | case4 seen d rest m hm hs ih =>
    simp only [walked_cons, h.wildcardModule?, hm, hs, ↓reduceIte, ih]
  | case5 seen d rest m hm hs e he =>
    simp only [walked_cons, h.wildcardModule?, hm, hs, ↓reduceIte, h.wildcards, he]
  | case6 seen d rest m hm hs inner hi hmem e he ih =>
    have he : p.walked (m :: seen) inner = .error e := by rw [Program.walked, he]; rfl
    simp only [walked_cons, h.wildcardModule?, hm, hs, ↓reduceIte, h.wildcards, hi, h.mem, ih, he,
      error_bind]
  | case7 seen d rest m hm hs inner hi hmem below after h₁ hb e he ih ih' =>
    have hb : p.walked (m :: seen) inner = .ok (below, after) := by rw [Program.walked, hb]; rfl
    simp only [walked_cons, h.wildcardModule?, hm, hs, ↓reduceIte, h.wildcards, hi, h.mem, ih, hb,
      ok_bind, ih']
  | case8 seen d rest m hm hs inner hi hmem below after h₁ hb others last h₂ ho ih ih' =>
    have hb : p.walked (m :: seen) inner = .ok (below, after) := by rw [Program.walked, hb]; rfl
    simp only [walked_cons, h.wildcardModule?, hm, hs, ↓reduceIte, h.wildcards, hi, h.mem, ih, hb,
      ok_bind, ih']
  | case9 seen d rest m hm hs inner hi hmem =>
    simp only [walked_cons, h.wildcardModule?, hm, hs, ↓reduceIte, h.wildcards, hi, h.mem, hmem]

/-- Of the symbol at a literal, only the kind and the declarations are looked at. -/
theorem ambientModule (h : p.Akin q) : q.ambientModule = p.ambientModule := by
  funext literal specifier
  unfold Program.ambientModule
  rw [h.lookups.symbolAt, h.lookups.declaration?, h.lookups.isExternalFile]
  cases p.symbolAt literal.node.id with
  | none => rfl
  | some m =>
    refine h.symbolOf_bind m fun x y hxy => ?_
    have hvalue : x.isValueModule = y.isValueModule := by
      rw [Symbol.isValueModule, Symbol.flags_of_emptied hxy, Symbol.isValueModule]
    have hdeclaration : p.declaration? x = p.declaration? y := by
      rw [Program.declaration?, Symbol.declarations_of_emptied hxy, Program.declaration?]
    simp only [hvalue, hdeclaration]

theorem resolveWildcard (h : p.Akin q) : q.resolveWildcard = p.resolveWildcard := by
  funext d
  simp only [Program.resolveWildcard, Program.specifier?, h.lookups.literal?, h.lookups.resolution?,
    h.lookups.resolvedModule, h.ambientModule]

theorem linkAt? (h : p.Akin q) : q.linkAt? = p.linkAt? := by
  funext n anchor
  simp only [Program.linkAt?, h.lookups.siteOf, h.resolveWildcard]

/-- The same statements are followed, in the same order. -/
theorem follow (h : p.Akin q) (seen : List SymbolId) (pending : List (NodeId × Option Site)) :
    q.follow seen pending = p.follow seen pending := by
  fun_induction Program.follow p seen pending with
  | case1 => rw [Program.follow]
  | case2 seen n anchor rest e he => rw [Program.follow, h.linkAt?, he]
  | case3 seen n anchor rest hn ih => rw [Program.follow, h.linkAt?, hn, ih]
  | case4 seen n anchor rest link hl hs ih =>
    rw [Program.follow, h.linkAt?, hl, ← ih]
    exact dif_pos hs
  | case5 seen n anchor rest link hl hs e he =>
    rw [Program.follow, h.linkAt?, hl]
    simp only [hs, ↓reduceDIte, h.wildcards, he]
  | case6 seen n anchor rest link hl hs inner hi hm ih =>
    rw [Program.follow, h.linkAt?, hl]
    simp only [hs, ↓reduceDIte, h.wildcards, hi, h.mem, hm, ih]
  | case7 seen n anchor rest link hl hs inner hi hm =>
    rw [Program.follow, h.linkAt?, hl]
    simp only [hs, ↓reduceDIte, h.wildcards, hi, h.mem, hm]

theorem trail (h : p.Akin q) : q.trail = p.trail := by
  funext m
  unfold Program.trail
  rw [h.wildcards]
  split
  · rfl
  · exact h.follow _ _

end Akin

namespace Alike

/-! ### Lookups -/

theorem symbols_get? (h : p.Alike q) : q.symbols.get? = p.symbols.get? :=
  funext fun s => h.symbols s trivial

theorem symbol (h : p.Alike q) : q.symbol = p.symbol := funext fun _ => h.symbol_eq trivial

theorem akin (h : p.Alike q) : p.Akin q where
  rest := h.rest
  symbols s := by rw [h.symbols s trivial]
  tables s k := by rw [Program.tableOf, h.symbol, Program.tableOf]

theorem symbolOf (h : p.Alike q) : q.symbolOf = p.symbolOf := by
  funext s
  simp only [Program.symbolOf, h.symbols_get?]

theorem tableOf (h : p.Alike q) : q.tableOf = p.tableOf := by
  funext s
  simp only [Program.tableOf, h.symbol]

theorem isAlias (h : p.Alike q) : q.isAlias = p.isAlias := by
  funext s
  simp only [Program.isAlias, h.symbol]

/-- The same alias targets are followed, so a chain ends at the same symbol. -/
theorem followAlias (h : p.Alike q) (seen : List SymbolId) (s : SymbolId) :
    q.followAlias seen s = p.followAlias seen s := by
  have ha : ∀ s, q.aliasTargets.get? s = p.aliasTargets.get? s := fun s => h.aliases s trivial
  fun_induction Program.followAlias p seen s with
  | case1 seen s halias hs target ht ih =>
    rw [Program.followAlias]
    simp only [h.isAlias, halias, ↓reduceIte, h.mem, hs, ha, ht]
    exact ih
  | case2 seen s halias hs ht =>
    rw [Program.followAlias]
    simp [h.isAlias, halias, h.mem, hs, ha, ht]
  | case3 seen s halias hs =>
    rw [Program.followAlias]
    simp only [h.isAlias, halias, ↓reduceIte, h.mem, hs, ↓reduceDIte]
  | case4 seen s halias =>
    rw [Program.followAlias]
    simp [h.isAlias, halias]

theorem terminal (h : p.Alike q) : q.terminal = p.terminal := funext (h.followAlias [])

theorem terminalOf (h : p.Alike q) : q.terminalOf = p.terminalOf := by
  funext s
  simp only [Program.terminalOf, h.symbolOf, h.terminal]

/-! ### Modules -/

theorem ownExports (h : p.Alike q) : q.ownExports = p.ownExports := by
  funext m
  simp only [Program.ownExports, h.tableOf]

mutual

/-- The exports of a tree of modules are those of its modules, in turn. -/
theorem treeTable (h : p.Alike q) : (t : ModuleTree) →
    ModuleTree.table q t = ModuleTree.table p t
  | .mk m trees => by
    rw [ModuleTree.table, ModuleTree.table, h.ownExports]
    exact h.treeExtend _ trees

theorem treeExtend (h : p.Alike q) (own : Table Key SymbolId) : (trees : List ModuleTree) →
    ModuleTree.extend q own trees = ModuleTree.extend p own trees
  | [] => by rw [ModuleTree.extend, ModuleTree.extend]
  | t :: trees => by
    rw [ModuleTree.extend, ModuleTree.extend, h.treeTable t]
    exact h.treeExtend _ trees

end

/-- The same modules are behind the module, and each has the same exports. -/
theorem exportTable (h : p.Alike q) : q.exportTable = p.exportTable := by
  funext m
  simp only [exportTable_eq_walked, h.akin.wildcards, h.akin.walked, h.treeTable]

theorem exportsOf (h : p.Alike q) : q.exportsOf = p.exportsOf := by
  funext m
  simp only [Program.exportsOf, h.exportTable]

theorem boundary (h : p.Alike q) : q.boundary = p.boundary := by
  have hstep : q.boundaryStep = p.boundaryStep := by
    funext b link
    simp only [boundaryStep, h.exportsOf]
  funext m
  simp only [boundary_eq_foldM, h.akin.trail, hstep]

theorem positions (h : p.Alike q) : q.positions = p.positions := by
  have hown : q.ownPositions = p.ownPositions := by
    funext m
    simp only [ownPositions, h.ownExports, h.akin.lookups.declaration?, h.symbolOf]
  have hstep : q.positionStep = p.positionStep := by
    funext t link
    simp only [positionStep, h.exportsOf]
  funext m
  simp only [positions_eq_foldM, h.akin.trail, hown, hstep]

/-! ### References -/

theorem mentions (h : p.Alike q) : q.mentions = p.mentions := by
  funext s
  simp only [Program.mentions, h.symbol, h.akin.lookups.siteOf]

theorem mentioned? (h : p.Alike q) : q.mentioned? = p.mentioned? := by
  funext path m
  simp only [Program.mentioned?, h.akin.lookups.symbolAt, h.terminalOf]

/-- The references below a symbol are the same, level by level. -/
theorem referencesUnder (h : p.Alike q) (path : List SymbolId) (s : SymbolId) :
    q.referencesUnder path s = p.referencesUnder path s := by
  fun_induction Program.referencesUnder p path s with
  | case1 path s hs ih =>
    rw [Program.referencesUnder, dif_pos ⟨(h.mem s).mpr hs.1, hs.2⟩]
    simp only [h.akin.lookups.declaration?, h.symbol, h.akin.lookups.isLibraryFile, h.mentions,
      h.mentioned?, ih]
  | case2 path s hs =>
    rw [Program.referencesUnder, dif_neg fun hq => hs ⟨(h.mem s).mp hq.1, hq.2⟩]

theorem references (h : p.Alike q) : q.references = p.references := by
  funext s
  simp only [Program.references, h.symbolOf, h.referencesUnder]

/-! ### Surfaces -/

theorem orderedExports (h : p.Alike q) : q.orderedExports = p.orderedExports := by
  funext entry excluded
  simp only [Program.orderedExports, warnUnplaced, h.exportsOf, h.positions, h.symbolOf]

theorem discovery (h : p.Alike q) : q.discovery = p.discovery := by
  funext file entry excluded
  simp only [Program.discovery, h.symbolOf, h.akin.lookups.scope, h.akin.lookups.sourceOf,
    h.orderedExports]

theorem isDeclared (h : p.Alike q) : q.isDeclared = p.isDeclared := by
  funext s
  simp only [Program.isDeclared, h.symbol, h.terminal]

theorem exportAll (h : p.Alike q) : q.exportAll = p.exportAll := by
  have hexport : q.export? = p.export? := by
    funext s
    simp only [export?, h.terminalOf, h.isDeclared, h.references]
  funext l
  simp only [Program.exportAll, hexport]

/-- Every step of a collection is the same, warnings included. -/
theorem collection (h : p.Alike q) : q.collection = p.collection := by
  funext file
  simp only [Program.collection, exportNames, h.akin.lookups.symbolAt, h.akin.lookups.sourceOf,
    h.boundary, h.discovery, h.exportAll, h.symbol, h.akin.lookups.globalScope, h.symbolOf]

theorem collectionOf (h : p.Alike q) : q.collectionOf = p.collectionOf := by
  funext file
  unfold Program.collectionOf
  rw [h.akin.lookups.fileNamed?, h.collection]

/-! ### Reports -/

theorem message (h : p.Alike q) : Warning.message q = Warning.message p := by
  funext w
  unfold Warning.message
  rw [h.symbol]

theorem findExport? (h : p.Alike q) (s : Surface) : s.findExport? q = s.findExport? p := by
  funext name
  simp only [Surface.findExport?, h.symbol]

theorem symbolJson (h : p.Alike q) : q.symbolJson = p.symbolJson := by
  funext s
  simp only [Program.symbolJson, h.symbolOf, h.akin.lookups.location]

theorem exportsPage (h : p.Alike q) : q.exportsPage = p.exportsPage := by
  have hline : q.exportLine = p.exportLine := by
    funext s e
    rw [exportLine, exportLine, h.symbol]
  funext limit s
  rw [Program.exportsPage, Program.exportsPage, hline]

theorem referencesPage (h : p.Alike q) : q.referencesPage = p.referencesPage := by
  funext limit s e
  rw [Program.referencesPage, Program.referencesPage, h.akin.lookups.location, h.symbol]

theorem namesJson (h : p.Alike q) : q.namesJson = p.namesJson := by
  funext l
  simp only [Program.namesJson, h.symbolOf]

theorem exportJson (h : p.Alike q) : q.exportJson = p.exportJson := by
  funext limit s e
  simp only [Program.exportJson, h.symbol, h.symbolJson]

theorem surfaceJson (h : p.Alike q) : q.surfaceJson = p.surfaceJson := by
  funext limit s
  simp only [Program.surfaceJson, h.exportJson, h.namesJson, h.message]

end Alike

/-- Two programs give the same answers: the same surface at every entry or the same fault, with the
same warnings delivered before, and the same answers of the commands and results of the tools. -/
structure AnswersAlike (p q : Program) : Prop where
  collection : q.collectionOf = p.collectionOf
  surface : q.surfaceOf = p.surfaceOf
  message : Warning.message q = Warning.message p
  view : q.surfaceJson = p.surfaceJson
  collect : Command.runCollect q = Command.runCollect p
  references : Command.runReferences q = Command.runReferences p
  globals : Command.runGlobals q = Command.runGlobals p
  exportsResult : Tool.exportsResult q = Tool.exportsResult p
  referencesResult : Tool.referencesResult q = Tool.referencesResult p
  globalsResult : Tool.globalsResult q = Tool.globalsResult p

theorem Alike.answersAlike (h : p.Alike q) : p.AnswersAlike q where
  collection := h.collectionOf
  surface := by
    funext entry
    simp only [surfaceOf, h.collectionOf]
  message := h.message
  view := h.surfaceJson
  collect := by
    funext s depth asJson console
    have htext : q.surfaceText = p.surfaceText := by
      funext limit s console
      rw [surfaceText, surfaceText, h.exportsPage]
    rw [Command.runCollect, Command.runCollect, Command.warningPage, Command.warningPage, h.message,
      h.surfaceJson, htext]
  references := by
    funext s name depth asJson console
    rw [Command.runReferences, Command.runReferences, Command.warningPage, Command.warningPage,
      h.message, h.findExport?, h.symbol, h.symbolJson, h.referencesPage]
  globals := by
    funext asJson console
    rw [Command.runGlobals, Command.runGlobals, globalsPage, globalsPage, h.namesJson,
      h.akin.lookups.globalScope, h.symbol]
  exportsResult := by
    funext s depth
    simp only [Tool.exportsResult, h.surfaceJson]
  referencesResult := by
    funext s name
    simp only [Tool.referencesResult, h.findExport?, h.exportJson]
  globalsResult := by simp only [Tool.globalsResult, h.namesJson, h.akin.lookups.globalScope]

end Program

end ApiSurface
