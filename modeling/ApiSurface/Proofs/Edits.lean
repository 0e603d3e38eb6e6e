import ApiSurface.Proofs.WellFormed
import Mathlib.Logic.Relation

/-! The edits by which the symbols of a program are connected, once they are listed. No such edit
lists a symbol or changes the name of one, and the module of a file stays what it was made as. -/

namespace ApiSurface

/-- The module of a file, as it is made with the file. -/
structure Symbol.Heads (x : Symbol) (file : NodeId) : Prop where
  valueModule : x.isValueModule = true
  notAlias : x.isAlias = false
  table : x.exports.isSome = true
  declarations : x.declarations = [file]

namespace Program

variable {p q : Program}

/-! ### Symbols after a change -/

theorem get?_putSymbol (s t : SymbolId) (x : Symbol) :
    (p.putSymbol s x).symbols.get? t = if s = t then some x else p.symbols.get? t :=
  Table.get?_insert ..

theorem symbol_putSymbol (s t : SymbolId) (x : Symbol) :
    (p.putSymbol s x).symbol t = if s = t then x else p.symbol t := by
  unfold symbol
  rw [get?_putSymbol]
  split <;> rfl

theorem mem_symbolIds_modifySymbol {s t : SymbolId} {f : Symbol → Symbol} (hs : s ∈ p.symbolIds) :
    t ∈ (p.modifySymbol s f).symbolIds ↔ t ∈ p.symbolIds := by
  rw [modifySymbol, mem_symbolIds_putSymbol]
  exact ⟨fun h => h.elim (fun he => he ▸ hs) id, Or.inr⟩

theorem name_modifySymbol {s : SymbolId} {f : Symbol → Symbol} (hf : ∀ x, (f x).name = x.name)
    (t : SymbolId) : ((p.modifySymbol s f).symbol t).name = (p.symbol t).name := by
  rw [modifySymbol, symbol_putSymbol]
  split
  · rename_i hs
    rw [hf, hs]
  · rfl

theorem symbolIds_setAliasTarget (s t : SymbolId) : (p.setAliasTarget s t).symbolIds =
    (p.modifySymbol s fun x => { x with flags := x.flags ++ [.alias] }).symbolIds := rfl

theorem symbol_setAliasTarget (s t : SymbolId) : (p.setAliasTarget s t).symbol =
    (p.modifySymbol s fun x => { x with flags := x.flags ++ [.alias] }).symbol := rfl

theorem symbols_addFile (p : Program) (name : Name) (options : FileOptions) :
    (p.addFile name options).2.symbols =
      if options.isModule then p.symbols.insert (.ofFile (.node p.nextNode))
        { name := .str ("\"" ++ name.shown ++ "\""), flags := [.valueModule]
          declarations := [.node p.nextNode], exports := some ∅ }
      else p.symbols := by
  unfold addFile
  cases options.isModule <;> rfl

/-! ### Edits -/

/-- An edit that connects what is there. Declarations and targets go to listed symbols, and so do
the entries of export tables, except for those that hold wildcard re-exports. -/
inductive Edit : Program → Program → Prop where
  | declaration {p : Program} (k : Key) (n : NodeId) (hk : .listed k ∈ p.symbolIds) :
      Edit p (p.addDeclaration (.listed k) n)
  | target {p : Program} (k : Key) (t : SymbolId) (hk : .listed k ∈ p.symbolIds) :
      Edit p (p.setAliasTarget (.listed k) t)
  | entry {p : Program} (owner : SymbolId) (k : Key) (n : Name) (ho : owner ∈ p.symbolIds) :
      Edit p (p.addExport owner (.listed k) n)
  | wildcard {p : Program} (owner : SymbolId) (n : NodeId) (ho : owner ∈ p.symbolIds)
      (hs : ∀ star ∈ p.wildcardHolder? owner, star ∈ p.symbolIds) :
      Edit p (p.addWildcard owner n)
  | file {p : Program} (name : Name) (options : FileOptions) : Edit p (p.addFile name options).2
  | node {p : Program} : Edit p p.freshNode.2
  | binding {p : Program} (n : NodeId) (s : SymbolId) : Edit p (p.bind n s)
  | tree {p : Program} (n : NodeId) (f : Tree → Tree) : Edit p (p.modifyTree n f)
  | localName {p : Program} (file : Name) (s : SymbolId) : Edit p (p.addLocal file s)
  | globalName {p : Program} (s : SymbolId) : Edit p (p.addGlobal s)
  | resolution {p : Program} (file specifier : Name) (r : Resolution) :
      Edit p (p.addResolution file specifier r)

/-- Any number of edits. -/
abbrev Edits : Program → Program → Prop := Relation.ReflTransGen Edit

namespace Edit

theorem mem_symbolIds (h : Edit p q) {s : SymbolId} (hs : s ∈ p.symbolIds) : s ∈ q.symbolIds := by
  cases h with
  | declaration k n hk => exact (mem_symbolIds_modifySymbol hk).mpr hs
  | target k t hk =>
    rw [symbolIds_setAliasTarget]
    exact (mem_symbolIds_modifySymbol hk).mpr hs
  | entry owner k n ho => exact (mem_symbolIds_modifySymbol ho).mpr hs
  | wildcard owner n ho hstar =>
    unfold addWildcard
    split
    · exact (mem_symbolIds_modifySymbol (hstar _ ‹_›)).mpr hs
    · exact mem_symbolIds_putSymbol.mpr (Or.inr (mem_symbolIds_putSymbol.mpr (Or.inr hs)))
  | file name options =>
    rw [symbolIds, symbols_addFile]
    split
    · exact Table.mem_keys_insert.mpr (Or.inr hs)
    · exact hs
  | node | binding | tree | localName | globalName | resolution => exact hs

/-- No symbol becomes a listed one. -/
theorem listed_mem_iff (h : Edit p q) (k : Key) :
    .listed k ∈ q.symbolIds ↔ .listed k ∈ p.symbolIds := by
  refine ⟨?_, h.mem_symbolIds⟩
  cases h with
  | declaration k n hk => exact (mem_symbolIds_modifySymbol hk).mp
  | target k t hk =>
    rw [symbolIds_setAliasTarget]
    exact (mem_symbolIds_modifySymbol hk).mp
  | entry owner k n ho => exact (mem_symbolIds_modifySymbol ho).mp
  | wildcard owner n ho hstar =>
    unfold addWildcard
    split
    · exact (mem_symbolIds_modifySymbol (hstar _ ‹_›)).mp
    · intro hk
      rcases mem_symbolIds_putSymbol.mp hk with rfl | hk
      · exact ho
      · rcases mem_symbolIds_putSymbol.mp hk with hk | hk
        · cases hk
        · exact hk
  | file name options =>
    rw [symbolIds, symbols_addFile]
    intro hk
    split at hk
    · rcases Table.mem_keys_insert.mp hk with hk | hk
      · cases hk
      · exact hk
    · exact hk
  | node | binding | tree | localName | globalName | resolution => exact id

/-- Only the modules of files and the holders of wildcard re-exports get a name. -/
theorem name_eq (h : Edit p q) {s : SymbolId} (hw : ∀ owner, s ≠ .wildcards owner)
    (hf : ∀ n, s ≠ .ofFile n) : (q.symbol s).name = (p.symbol s).name := by
  cases h with
  | declaration | entry =>
    apply name_modifySymbol
    exact fun _ => rfl
  | target k t hk =>
    rw [symbol_setAliasTarget]
    apply name_modifySymbol
    exact fun _ => rfl
  | wildcard owner n ho hstar =>
    unfold addWildcard
    split
    · apply name_modifySymbol
      exact fun _ => rfl
    · refine (name_modifySymbol ?_ _).trans ?_
      · exact fun _ => rfl
      · rw [symbol_putSymbol, if_neg (hw owner).symm]
  | file name options =>
    rw [symbol, symbol, symbols_addFile]
    split
    · rw [Table.get?_insert, if_neg (hf _).symm]
    · rfl
  | node | binding | tree | localName | globalName | resolution => rfl

end Edit

namespace Edits

theorem mem_symbolIds (h : Edits p q) {s : SymbolId} (hs : s ∈ p.symbolIds) :
    s ∈ q.symbolIds := by
  induction h with
  | refl => exact hs
  | tail _ he ih => exact he.mem_symbolIds ih

theorem listed_mem_iff (h : Edits p q) (k : Key) :
    .listed k ∈ q.symbolIds ↔ .listed k ∈ p.symbolIds := by
  induction h with
  | refl => rfl
  | tail _ he ih => exact (he.listed_mem_iff k).trans ih

theorem name_eq (h : Edits p q) {s : SymbolId} (hw : ∀ owner, s ≠ .wildcards owner)
    (hf : ∀ n, s ≠ .ofFile n) : (q.symbol s).name = (p.symbol s).name := by
  induction h with
  | refl => rfl
  | tail _ he ih => exact (he.name_eq hw hf).trans ih

end Edits

/-! ### The modules of files -/

/-- The symbol of a file is its module, and no table leads to one. -/
structure Modular (p : Program) : Prop where
  heads : ∀ n x, p.symbols.get? (.ofFile n) = some x → x.Heads n
  tables : ∀ s k e, (p.tableOf s).get? k = some e → ∀ n, e.symbol ≠ .ofFile n

namespace Modular

theorem congr (h : p.Modular) (hs : q.symbols = p.symbols) : q.Modular where
  heads n x hx := h.heads n x (hs ▸ hx)
  tables s k e he := by
    rw [tableOf, symbol, hs] at he
    exact h.tables s k e he

/-- A symbol that is not the module of a file may be put, if no entry of its table is one. -/
theorem putSymbol (h : p.Modular) {s : SymbolId} {x : Symbol}
    (hs : ∀ n, s = .ofFile n → x.Heads n)
    (hx : ∀ k e, (x.exports.getD ∅).get? k = some e → ∀ n, e.symbol ≠ .ofFile n) :
    (p.putSymbol s x).Modular where
  heads n y hy := by
    rw [get?_putSymbol] at hy
    split at hy
    · exact Option.some.inj hy ▸ hs n ‹_›
    · exact h.heads n y hy
  tables t k e he := by
    rw [tableOf, symbol_putSymbol] at he
    split at he
    · exact hx k e he
    · exact h.tables t k e he

theorem heads_symbol (h : p.Modular) {n : NodeId} (hs : .ofFile n ∈ p.symbolIds) :
    (p.symbol (.ofFile n)).Heads n := by
  obtain ⟨x, hx⟩ := mem_symbolIds_iff.mp hs
  exact symbol_of_get? hx ▸ h.heads n x hx

/-- A table gets one more entry. -/
theorem putExport (h : p.Modular) {owner s : SymbolId} (ho : owner ∈ p.symbolIds)
    (hs : ∀ n, s ≠ .ofFile n) (k : Key) (n : Name) :
    (p.modifySymbol owner fun x =>
      { x with exports := some ((p.tableOf owner).insert k ⟨n, s⟩) }).Modular := by
  refine h.putSymbol ?_ ?_
  · rintro m rfl
    have hm := h.heads_symbol ho
    exact ⟨hm.valueModule, hm.notAlias, rfl, hm.declarations⟩
  · intro k' e he
    rw [Option.getD_some, Table.get?_insert] at he
    split at he
    · exact Option.some.inj he ▸ hs
    · exact h.tables owner k' e he

theorem addDeclaration (h : p.Modular) {s : SymbolId} (hs : ∀ n, s ≠ .ofFile n) (n : NodeId) :
    (p.addDeclaration s n).Modular :=
  h.putSymbol (fun m hm => absurd hm (hs m)) (h.tables s)

theorem addWildcard (h : p.Modular) {owner : SymbolId} (ho : owner ∈ p.symbolIds) (n : NodeId) :
    (p.addWildcard owner n).Modular := by
  unfold Program.addWildcard
  split
  · rename_i star hstar
    obtain ⟨e, he, hp⟩ := Option.bind_eq_some_iff.mp hstar
    obtain ⟨rfl, _⟩ := Entity.present?_eq_some.mp hp
    exact h.addDeclaration (h.tables _ _ _ he) n
  · have hne : Entity.wildcards owner ≠ owner := by
      intro he
      have := congrArg sizeOf he
      simp at this
    have hstar : (p.putSymbol (.wildcards owner)
        ⟨.str wildcardName, [.exportStar], [n], none, none⟩).Modular :=
      h.putSymbol (by simp) (by simp)
    have := hstar.putExport (s := .wildcards owner) (mem_symbolIds_putSymbol.mpr (Or.inr ho))
      (by simp) (.text wildcardName) (.ofText wildcardName)
    rw [WellFormed.tableOf_putSymbol hne] at this
    exact this

theorem addFile (h : p.Modular) (name : Name) (options : FileOptions) :
    (p.addFile name options).2.Modular := by
  have hsymbols := symbols_addFile p name options
  split at hsymbols
  · refine (h.putSymbol (s := .ofFile (.node p.nextNode)) ?_ ?_).congr hsymbols
    · exact fun m hm => Entity.ofFile.inj hm ▸ ⟨rfl, rfl, rfl, rfl⟩
    · simp
  · exact h.congr hsymbols

theorem edit (h : p.Modular) (he : Edit p q) : q.Modular := by
  cases he with
  | declaration k n hk => exact h.addDeclaration (by simp) n
  | target k t hk =>
    have := h.putSymbol (s := .listed k) (x := { p.symbol (.listed k) with
      flags := (p.symbol (.listed k)).flags ++ [.alias] }) (by simp) (h.tables (.listed k))
    exact this.congr rfl
  | entry owner k n ho => exact h.putExport ho (by simp) n.key _
  | wildcard owner n ho hs => exact h.addWildcard ho n
  | file name options => exact h.addFile name options
  | node | binding | tree | localName | globalName | resolution => exact h.congr rfl

theorem edits (h : p.Modular) (he : Edits p q) : q.Modular := by
  induction he with
  | refl => exact h
  | tail _ he ih => exact ih.edit he

end Modular

end Program

end ApiSurface
