import ApiSurface.Proofs.Lookups
import ApiSurface.Reference

/-! What the reference trees of a symbol hold: the mentions in the declarations of every symbol
that can be reached over mentions, and nothing else. A tree does not expand a symbol again below
itself. That loses no mention, since what is reached on a way that comes back to a symbol is
also reached on the rest of the way. -/

namespace ApiSurface

namespace Program

/-! ### Mentions -/

/-- A tree below a declaration of a symbol, other than a file as a declaration. -/
def Inside (p : Program) (s : SymbolId) (t : Tree) : Prop :=
  ∃ d ∈ (p.symbol s).declarations, ∃ site, p.site? d = some site ∧
    site.node.kind ≠ .sourceFile ∧ t ∈ site.tree.descendants

/-- The identifier by which a declaration of a symbol mentions another symbol. -/
def MentionIdentifier (p : Program) (s : SymbolId) (n : Node) : Prop :=
  ∃ t, p.Inside s t ∧ t.node.kind.isMention = true ∧
    (t.firstBelow? .identifier).map Tree.node = some n

/-- A node by which a declaration of a symbol mentions something: such an identifier, or one
that imports a type. -/
def MentionNode (p : Program) (s : SymbolId) (n : Node) : Prop :=
  p.MentionIdentifier s n ∨ ∃ t, p.Inside s t ∧ t.node.kind = .importType ∧ t.node = n

/-- A symbol that is declared, and first of all in the project and not in a library. -/
def Expandable (p : Program) (s : SymbolId) : Prop :=
  ∃ d rest site f, (p.symbol s).declarations = d :: rest ∧ p.site? d = some site ∧
    site.file = some f ∧ p.isLibraryFile f = false

/-- The symbols that can be reached from a symbol over mentions, through symbols that can be
expanded. -/
inductive Reach (p : Program) (s : SymbolId) : SymbolId → Prop
  | self : p.Expandable s → Reach p s s
  | mention {u v : SymbolId} {n : Node} : Reach p s u → p.MentionIdentifier u n →
      p.symbolAt n.id = some v → p.Expandable (p.terminal v) → Reach p s (p.terminal v)

/-- The symbols that are expanded for a symbol: those that can be reached over mentions, except
that a mention of the symbol itself is not followed. That makes a difference only to an alias,
which would lead on. -/
inductive Expands (p : Program) (s : SymbolId) : SymbolId → Prop
  | self : p.Expandable s → Expands p s s
  | mention {u v : SymbolId} {n : Node} : Expands p s u → p.MentionIdentifier u n →
      p.symbolAt n.id = some v → v ≠ s → p.Expandable (p.terminal v) → Expands p s (p.terminal v)

variable {S : Shape} {p : Program}

theorem mentionNode?_eq_some {t : Tree} {n : Node} : mentionNode? t = some n ↔
    t.node.kind.isMention = true ∧ (t.firstBelow? .identifier).map Tree.node = some n ∨
      t.node.kind = .importType ∧ t.node = n := by
  unfold mentionNode?
  split
  · rename_i hm
    have hk : t.node.kind ≠ .importType := by
      intro hk
      simp [hk, NodeKind.isMention] at hm
    simp [hm, hk]
  · split
    · simp_all
    · simp_all

theorem mem_mentionsIn {i : Nat} {site : Site} {m : Mention} (h : m ∈ mentionsIn i site) :
    site.node.kind ≠ .sourceFile ∧ ∃ t ∈ site.tree.descendants, mentionNode? t = some m.node := by
  unfold mentionsIn at h
  split at h
  · cases h
  · split at h
    · cases h
    · rename_i hk
      obtain ⟨n, hn, rfl⟩ := List.mem_map.mp h
      obtain ⟨t, ht, hm⟩ := List.mem_filterMap.mp hn
      exact ⟨hk, t, ht, hm⟩

theorem exists_mem_mentionsIn {i : Nat} {site : Site} {f : SourceFile} {t : Tree} {n : Node}
    (hf : site.file = some f) (hk : site.node.kind ≠ .sourceFile)
    (ht : t ∈ site.tree.descendants) (hn : mentionNode? t = some n) :
    ∃ m ∈ mentionsIn i site, m.node = n := by
  refine ⟨⟨i, n, f⟩, ?_, rfl⟩
  rw [mentionsIn, hf]
  simp only
  rw [if_neg hk]
  exact List.mem_map.mpr ⟨n, List.mem_filterMap.mpr ⟨t, ht, hn⟩, rfl⟩

/-- A declaration with its index stands in a file. -/
theorem WellFormed.site?_zipIdx (h : p.WellFormed S []) {s : SymbolId} {d : NodeId × Nat}
    (hd : d ∈ (p.symbol s).declarations.zipIdx) :
    d.1 ∈ (p.symbol s).declarations ∧ ∃ site f, p.siteOf d.1 = .ok site ∧ site.file = some f := by
  have hm := List.mem_of_getElem? (List.mem_zipIdx_iff_getElem?.mp hd)
  obtain ⟨site, hs, f, _, hf, _⟩ := siteOf_of_mem (h.declarations_subset s hm)
  exact ⟨hm, site, f, hs, hf⟩

theorem WellFormed.mentions_ok (h : p.WellFormed S []) {s : SymbolId} {x : Except Fault Mention}
    (hx : x ∈ p.mentions s) : ∃ m, x = .ok m ∧ p.MentionNode s m.node := by
  obtain ⟨d, hd, hx⟩ := List.mem_flatMap.mp hx
  obtain ⟨hm, site, f, hs, _⟩ := h.site?_zipIdx hd
  rw [hs] at hx
  obtain ⟨m, hmem, rfl⟩ := List.mem_map.mp hx
  obtain ⟨hk, t, ht, hn⟩ := mem_mentionsIn hmem
  have hin : p.Inside s t := ⟨d.1, hm, site, siteOf_eq_ok_iff.mp hs, hk, ht⟩
  refine ⟨m, rfl, ?_⟩
  rcases mentionNode?_eq_some.mp hn with ⟨hmention, hid⟩ | ⟨himport, hnode⟩
  · exact Or.inl ⟨t, hin, hmention, hid⟩
  · exact Or.inr ⟨t, hin, himport, hnode⟩

theorem WellFormed.exists_mention (h : p.WellFormed S []) {s : SymbolId} {n : Node}
    (hn : p.MentionNode s n) : ∃ m, .ok m ∈ p.mentions s ∧ m.node = n := by
  have key : ∀ t, p.Inside s t → mentionNode? t = some n →
      ∃ m, .ok m ∈ p.mentions s ∧ m.node = n := by
    rintro t ⟨d, hd, site, hs, hk, ht⟩ hn
    obtain ⟨i, hi⟩ := List.getElem?_of_mem hd
    have hz : (d, i) ∈ (p.symbol s).declarations.zipIdx := List.mem_zipIdx_iff_getElem?.mpr hi
    obtain ⟨_, site', f, hs', hf⟩ := h.site?_zipIdx hz
    rw [siteOf_eq_ok_iff.mpr hs] at hs'
    obtain rfl : site = site' := Except.ok.inj hs'
    obtain ⟨m, hm, hmn⟩ := exists_mem_mentionsIn (i := i) hf hk ht hn
    refine ⟨m, List.mem_flatMap.mpr ⟨(d, i), hz, ?_⟩, hmn⟩
    rw [siteOf_eq_ok_iff.mpr hs]
    exact List.mem_map_of_mem hm
  rcases hn with ⟨t, hin, hmention, hid⟩ | ⟨t, hin, himport, hnode⟩
  · exact key t hin (mentionNode?_eq_some.mpr (Or.inl ⟨hmention, hid⟩))
  · exact key t hin (mentionNode?_eq_some.mpr (Or.inr ⟨himport, hnode⟩))

/-- The mention nodes that do not import a type are the identifiers. -/
theorem mentionIdentifier_iff {s : SymbolId} {n : Node} :
    p.MentionIdentifier s n ↔ p.MentionNode s n ∧ n.kind ≠ .importType := by
  constructor
  · rintro ⟨t, hin, hmention, hid⟩
    refine ⟨Or.inl ⟨t, hin, hmention, hid⟩, ?_⟩
    obtain ⟨i, hi, rfl⟩ := Option.map_eq_some_iff.mp hid
    have hk : i.node.kind = .identifier := by simpa using List.find?_some hi
    simp [hk]
  · rintro ⟨hid | ⟨t, _, himport, rfl⟩, hk⟩
    · exact hid
    · exact absurd himport hk

/-! ### Ways over mentions -/

/-- A declaration of a symbol mentions an alias of another one, or that one itself, which can
be expanded. -/
def Mentions (p : Program) (s t : SymbolId) : Prop :=
  ∃ n v, p.MentionIdentifier s n ∧ p.symbolAt n.id = some v ∧ p.terminal v = t ∧ p.Expandable t

/-- A mention of a symbol outside of a path. It is not made by one of some names, which are not
followed wherever they lead. -/
def MentionsOutside (p : Program) (names path : List SymbolId) (s t : SymbolId) : Prop :=
  ∃ n v, p.MentionIdentifier s n ∧ p.symbolAt n.id = some v ∧ v ∉ names ∧ p.terminal v = t ∧
    p.Expandable t ∧ t ∉ path

theorem reach_iff {s u : SymbolId} :
    p.Reach s u ↔ p.Expandable s ∧ Relation.ReflTransGen p.Mentions s u := by
  constructor
  · intro h
    induction h with
    | self hs => exact ⟨hs, .refl⟩
    | mention _ hn hv ht ih => exact ⟨ih.1, ih.2.tail ⟨_, _, hn, hv, rfl, ht⟩⟩
  · rintro ⟨hs, hu⟩
    induction hu with
    | refl => exact .self hs
    | tail _ hm ih =>
      obtain ⟨n, v, hn, hv, rfl, ht⟩ := hm
      exact .mention ih hn hv ht

theorem expands_iff {s u : SymbolId} : p.Expands s u ↔
    p.Expandable s ∧ Relation.ReflTransGen (p.MentionsOutside [s] []) s u := by
  constructor
  · intro h
    induction h with
    | self hs => exact ⟨hs, .refl⟩
    | mention _ hn hv hne ht ih =>
      exact ⟨ih.1, ih.2.tail ⟨_, _, hn, hv, by simpa using hne, rfl, ht, by simp⟩⟩
  · rintro ⟨hs, hu⟩
    induction hu with
    | refl => exact .self hs
    | tail _ hm ih =>
      obtain ⟨n, v, hn, hv, hne, rfl, ht, _⟩ := hm
      exact .mention ih hn hv (by simpa using hne) ht

theorem mentionsOutside_nil : p.MentionsOutside [] [] = p.Mentions := by
  funext a b
  simp [MentionsOutside, Mentions]

/-- A way from a symbol leads nowhere, or it goes on, after it was there for the last time,
without coming back. -/
theorem leave {names path : List SymbolId} {s u : SymbolId}
    (h : Relation.ReflTransGen (p.MentionsOutside names path) s u) :
    u = s ∨ ∃ t, p.MentionsOutside names (s :: path) s t ∧
      Relation.ReflTransGen (p.MentionsOutside names (s :: path)) t u := by
  induction h with
  | refl => exact Or.inl rfl
  | @tail b c _ hbc ih =>
    by_cases hc : c = s
    · exact Or.inl hc
    · obtain ⟨n, v, hn, hv, hname, rfl, he, hpath⟩ := hbc
      have hout : p.MentionsOutside names (s :: path) b (p.terminal v) :=
        ⟨n, v, hn, hv, hname, rfl, he, by simp [hc, hpath]⟩
      rcases ih with rfl | ⟨t, ht, htb⟩
      · exact Or.inr ⟨_, hout, .refl⟩
      · exact Or.inr ⟨t, ht, htb.tail hout⟩

theorem leave_iff {names path : List SymbolId} {s u : SymbolId} :
    Relation.ReflTransGen (p.MentionsOutside names path) s u ↔
      u = s ∨ ∃ t, p.MentionsOutside names (s :: path) s t ∧
        Relation.ReflTransGen (p.MentionsOutside names (s :: path)) t u := by
  have mono : ∀ a b, p.MentionsOutside names (s :: path) a b →
      p.MentionsOutside names path a b := by
    rintro a b ⟨n, v, hn, hv, hname, ht, he, hpath⟩
    exact ⟨n, v, hn, hv, hname, ht, he, fun hb => hpath (List.mem_cons_of_mem _ hb)⟩
  refine ⟨leave, ?_⟩
  rintro (rfl | ⟨t, ht, hu⟩)
  · exact .refl
  · exact .head (mono _ _ ht) (Relation.ReflTransGen.mono mono _ _ hu)

/-- A way from a symbol that is no alias need not follow the name of that symbol, since it would
only come back. -/
theorem follow_name_iff {names path : List SymbolId} {s u : SymbolId} (hs : p.isAlias s = false) :
    Relation.ReflTransGen (p.MentionsOutside (s :: names) path) s u ↔
      Relation.ReflTransGen (p.MentionsOutside names path) s u := by
  constructor
  · refine Relation.ReflTransGen.mono ?_ _ _
    rintro a b ⟨n, v, hn, hv, hname, ht, he, hpath⟩
    exact ⟨n, v, hn, hv, fun hm => hname (List.mem_cons_of_mem _ hm), ht, he, hpath⟩
  · intro h
    induction h with
    | refl => exact .refl
    | tail _ hbc ih =>
      obtain ⟨n, v, hn, hv, hname, rfl, he, hpath⟩ := hbc
      by_cases hvs : v = s
      · rw [hvs, terminal_of_not_isAlias hs]
      · exact ih.tail ⟨n, v, hn, hv, by simp [hvs, hname], rfl, he, hpath⟩

/-! ### Reference trees -/

end Program

namespace Reference

/-- The nodes of the mentions in a list of trees. -/
def nodes (rs : List Reference) : List Node := (preorderAll rs).map fun r => r.mention.node

@[simp] theorem nodes_nil : nodes [] = [] := by simp [nodes, preorderAll]

theorem mem_preorderAll {r : Reference} {rs : List Reference} :
    r ∈ preorderAll rs ↔ ∃ x ∈ rs, r = x ∨ r ∈ preorderAll x.children := by
  induction rs with
  | nil => simp [preorderAll]
  | cons x rs ih =>
    obtain ⟨m, below⟩ := x
    simp only [preorderAll, preorder, List.cons_append, List.mem_cons, List.mem_append, ih,
      exists_eq_or_imp, or_assoc]
    rfl

theorem mem_nodes {n : Node} {rs : List Reference} :
    n ∈ nodes rs ↔ ∃ r ∈ rs, r.mention.node = n ∨ n ∈ nodes r.children := by
  simp only [nodes, List.mem_map]
  constructor
  · rintro ⟨r, hr, rfl⟩
    obtain ⟨x, hx, rfl | hr⟩ := mem_preorderAll.mp hr
    · exact ⟨r, hx, Or.inl rfl⟩
    · exact ⟨x, hx, Or.inr ⟨r, hr, rfl⟩⟩
  · rintro ⟨x, hx, rfl | ⟨r, hr, rfl⟩⟩
    · exact ⟨x, mem_preorderAll.mpr ⟨x, hx, Or.inl rfl⟩, rfl⟩
    · exact ⟨r, mem_preorderAll.mpr ⟨x, hx, Or.inr hr⟩, rfl⟩

end Reference

namespace Program

variable {S : Shape} {p : Program}

/-- The reference of a mention below the symbols that are being expanded. -/
def referenceUnder (p : Program) (path : List SymbolId) (m : Except Fault Mention) :
    Except Fault Reference := do
  let m ← m
  match ← p.mentioned? path m with
  | none => return .mk m []
  | some t => return .mk m (← p.referencesUnder path t)

/-- A node is mentioned in the declarations of a symbol that is reached without passing through
those of a path. -/
def Unfolds (p : Program) (path : List SymbolId) (s : SymbolId) (n : Node) : Prop :=
  s ∉ path ∧ p.Expandable s ∧
    ∃ u, Relation.ReflTransGen (p.MentionsOutside (s :: path) path) s u ∧ p.MentionNode u n

theorem mem_symbolIds_of_declarations {s : SymbolId} (h : (p.symbol s).declarations ≠ []) :
    s ∈ p.symbolIds := by
  by_contra hs
  rw [symbol_of_notMem hs] at h
  exact h rfl

theorem Expandable.mem {s : SymbolId} (h : p.Expandable s) : s ∈ p.symbolIds := by
  obtain ⟨d, rest, _, _, hd, _⟩ := h
  exact mem_symbolIds_of_declarations (by simp [hd])

theorem referencesUnder_of_expandable {path : List SymbolId} {s : SymbolId} (hp : s ∉ path)
    (hs : p.Expandable s) :
    p.referencesUnder path s = (p.mentions s).mapM (p.referenceUnder (s :: path)) := by
  obtain ⟨d, rest, site, f, hd, hsite, hf, hlib⟩ := hs
  have hdecl := declaration?_eq_some_iff.mpr ⟨d, rest, hd, hsite⟩
  have hfile : site.sourceFile = .ok f := by rw [Site.sourceFile, hf]
  rw [referencesUnder, dif_pos ⟨Expandable.mem ⟨d, rest, site, f, hd, hsite, hf, hlib⟩, hp⟩, hdecl,
    ok_bind]
  simp only [hfile, ok_bind, hlib]
  rfl

theorem WellFormed.referencesUnder_of_not (h : p.WellFormed S []) {path : List SymbolId}
    {s : SymbolId} (hs : ¬(s ∉ path ∧ p.Expandable s)) : p.referencesUnder path s = .ok [] := by
  rw [referencesUnder]
  split
  · rename_i hm
    rcases h.declaration?_eq s with ⟨_, hnone⟩ | ⟨site, hsome, ha⟩
    · rw [hnone]
      rfl
    · obtain ⟨f, _, hfile, _⟩ := ha
      have hf : site.sourceFile = .ok f := by rw [Site.sourceFile, hfile]
      have hlib : p.isLibraryFile f = true := by
        by_contra hlib
        obtain ⟨d, rest, hd, hsite⟩ := declaration?_eq_some_iff.mp hsome
        exact hs ⟨hm.2, d, rest, site, f, hd, hsite, hfile, by simpa using hlib⟩
      rw [hsome, ok_bind]
      simp only [hf, ok_bind, hlib, if_true]
      rfl
  · rfl

/-- A mention leads on to the symbol that it names, unless it imports a type or that symbol is on
the path. -/
def LeadsOn (p : Program) (path : List SymbolId) (m : Mention) (v : SymbolId) : Prop :=
  m.node.kind ≠ .importType ∧ p.symbolAt m.node.id = some v ∧ v ∉ path

theorem referenceUnder_of_not_leadsOn {path : List SymbolId} {m : Mention}
    (hm : ∀ v, ¬p.LeadsOn path m v) : p.referenceUnder path (.ok m) = .ok (.mk m []) := by
  have hnone : p.mentioned? path m = .ok none := by
    unfold mentioned?
    split
    · rfl
    · rename_i hk
      split
      · rfl
      · rename_i v hv
        exact if_pos (by_contra fun hmem => hm v ⟨hk, hv, hmem⟩)
  rw [referenceUnder, ok_bind, hnone]
  rfl

theorem WellFormed.referenceUnder_of_leadsOn (h : p.WellFormed S []) {path : List SymbolId}
    {m : Mention} {v : SymbolId} (hm : p.LeadsOn path m v) :
    p.referenceUnder path (.ok m) =
      (p.referencesUnder path (p.terminal v)).map (Reference.mk m) := by
  obtain ⟨hk, hv, hmem⟩ := hm
  have hsome : p.mentioned? path m = .ok (some (p.terminal v)) := by
    rw [mentioned?, if_neg hk, hv]
    simp only [if_neg hmem, h.terminalOf_of_mem (h.holds_symbolAt hv).1]
    rfl
  rw [referenceUnder, ok_bind, hsome, ok_bind]
  change (p.referencesUnder path (p.terminal v) >>= fun rs => pure (Reference.mk m rs)) = _
  cases p.referencesUnder path (p.terminal v) <;> rfl

/-- What is below a mention, if that is known of every symbol below the path. -/
theorem WellFormed.referenceUnder_spec (h : p.WellFormed S []) {path : List SymbolId}
    (below : ∀ t, ∃ rs, p.referencesUnder path t = .ok rs ∧
      ∀ n, n ∈ Reference.nodes rs ↔ p.Unfolds path t n) (m : Mention) :
    ∃ rs, p.referenceUnder path (.ok m) = .ok (.mk m rs) ∧ ∀ n, n ∈ Reference.nodes rs ↔
      m.node.kind ≠ .importType ∧
        ∃ v, p.symbolAt m.node.id = some v ∧ v ∉ path ∧ p.Unfolds path (p.terminal v) n := by
  by_cases hm : ∃ v, p.LeadsOn path m v
  · obtain ⟨v, hm⟩ := hm
    obtain ⟨rs, hrs, hn⟩ := below (p.terminal v)
    refine ⟨rs, ?_, fun n => ?_⟩
    · rw [h.referenceUnder_of_leadsOn hm, hrs]
      rfl
    · obtain ⟨hk, hv, hmem⟩ := hm
      simp [hn, hk, hv, hmem]
  · rw [not_exists] at hm
    refine ⟨[], referenceUnder_of_not_leadsOn hm, fun n => ⟨by simp, ?_⟩⟩
    rintro ⟨hk, v, hv, hmem, _⟩
    exact absurd ⟨hk, hv, hmem⟩ (hm v)

theorem WellFormed.isAlias_of_mentionsOutside (h : p.WellFormed S []) {names path : List SymbolId}
    {s t : SymbolId} (ht : p.MentionsOutside names path s t) : p.isAlias t = false := by
  obtain ⟨_, v, _, hv, _, rfl, _⟩ := ht
  exact h.isAlias_terminal (h.holds_symbolAt hv).1

/-- What is mentioned in a symbol that is expanded, or in what it leads to. -/
theorem WellFormed.unfolds_iff (h : p.WellFormed S []) {path : List SymbolId} {s : SymbolId}
    {n : Node} (hp : s ∉ path) (he : p.Expandable s) : p.Unfolds path s n ↔ p.MentionNode s n ∨
      ∃ t, p.MentionsOutside (s :: path) (s :: path) s t ∧ p.Unfolds (s :: path) t n := by
  constructor
  · rintro ⟨_, _, u, hu, hn⟩
    rcases leave hu with rfl | ⟨t, ht, hu⟩
    · exact Or.inl hn
    · have ha := h.isAlias_of_mentionsOutside ht
      have ⟨_, _, _, _, _, _, hexp, hout⟩ := ht
      exact Or.inr ⟨t, ht, hout, hexp, u, (follow_name_iff ha).mpr hu, hn⟩
  · rintro (hn | ⟨t, ht, _, _, u, hu, hn⟩)
    · exact ⟨hp, he, s, .refl, hn⟩
    · have ha := h.isAlias_of_mentionsOutside ht
      exact ⟨hp, he, u, leave_iff.mpr (Or.inr ⟨t, ht, (follow_name_iff ha).mp hu⟩), hn⟩

/-- The nodes of the references of a symbol are its mentions and what is below them. -/
theorem WellFormed.mem_nodes_mapM (h : p.WellFormed S []) {path : List SymbolId} {s : SymbolId}
    {rs : List Reference} (hrs : (p.mentions s).mapM (p.referenceUnder path) = .ok rs)
    (below : ∀ m, ∃ children, p.referenceUnder path (.ok m) = .ok (.mk m children) ∧
      ∀ n, n ∈ Reference.nodes children ↔ m.node.kind ≠ .importType ∧
        ∃ v, p.symbolAt m.node.id = some v ∧ v ∉ path ∧ p.Unfolds path (p.terminal v) n)
    {n : Node} : n ∈ Reference.nodes rs ↔ p.MentionNode s n ∨
      ∃ t, p.MentionsOutside path path s t ∧ p.Unfolds path t n := by
  rw [Reference.mem_nodes]
  constructor
  · rintro ⟨r, hr, hn⟩
    obtain ⟨x, hx, hxr⟩ := (mem_of_mapM hrs).mp hr
    obtain ⟨m, rfl, hm⟩ := h.mentions_ok hx
    obtain ⟨children, hc, hmem⟩ := below m
    obtain rfl : .mk m children = r := Except.ok.inj (hc.symm.trans hxr)
    rcases hn with rfl | hn
    · exact Or.inl hm
    · obtain ⟨hkind, v, hv, hname, hun⟩ := (hmem n).mp hn
      have hid := mentionIdentifier_iff.mpr ⟨hm, hkind⟩
      exact Or.inr ⟨_, ⟨m.node, v, hid, hv, hname, rfl, hun.2.1, hun.1⟩, hun⟩
  · rintro (hn | ⟨t, ⟨i, v, hid, hv, hname, rfl, _⟩, hun⟩)
    · obtain ⟨m, hm, rfl⟩ := h.exists_mention hn
      obtain ⟨children, hc, _⟩ := below m
      exact ⟨_, (mem_of_mapM hrs).mpr ⟨_, hm, hc⟩, Or.inl rfl⟩
    · obtain ⟨hn, hkind⟩ := mentionIdentifier_iff.mp hid
      obtain ⟨m, hm, rfl⟩ := h.exists_mention hn
      obtain ⟨children, hc, hmem⟩ := below m
      refine ⟨_, (mem_of_mapM hrs).mpr ⟨_, hm, hc⟩, Or.inr ?_⟩
      exact (hmem n).mpr ⟨hkind, v, hv, hname, hun⟩

/-- The references of a symbol below a path are what is mentioned outside of the path. -/
theorem WellFormed.referencesUnder_spec (h : p.WellFormed S []) (path : List SymbolId)
    (s : SymbolId) : ∃ rs, p.referencesUnder path s = .ok rs ∧
      ∀ n, n ∈ Reference.nodes rs ↔ p.Unfolds path s n := by
  -- each symbol on the path leaves fewer symbols that can be expanded
  induction hk : unseen p.symbolIds path using Nat.strongRecOn generalizing path s with
  | ind k ih =>
  by_cases hs : s ∉ path ∧ p.Expandable s
  · obtain ⟨hp, he⟩ := hs
    have below := h.referenceUnder_spec fun t =>
      ih _ (hk ▸ unseen_cons_lt he.mem hp) (s :: path) t rfl
    have hall : ∀ x ∈ p.mentions s, ∃ r, p.referenceUnder (s :: path) x = .ok r := by
      intro x hx
      obtain ⟨m, rfl, _⟩ := h.mentions_ok hx
      obtain ⟨rs, hrs, _⟩ := below m
      exact ⟨_, hrs⟩
    obtain ⟨rs, hrs⟩ := exists_mapM hall
    refine ⟨rs, (referencesUnder_of_expandable hp he).trans hrs, fun n => ?_⟩
    rw [h.mem_nodes_mapM hrs below, h.unfolds_iff hp he]
  · refine ⟨[], h.referencesUnder_of_not hs, fun n => ⟨by simp, ?_⟩⟩
    rintro ⟨hp, he, _⟩
    exact absurd ⟨hp, he⟩ hs

/-- The references of any symbol are what is mentioned in those that are expanded for it. -/
theorem WellFormed.references_expands (h : p.WellFormed S []) {s : SymbolId}
    (hs : s ∈ p.symbolIds) : ∃ rs, p.references s = .ok rs ∧
      ∀ n, n ∈ Reference.nodes rs ↔ ∃ u, p.Expands s u ∧ p.MentionNode u n := by
  obtain ⟨rs, hrs, hn⟩ := h.referencesUnder_spec [] s
  refine ⟨rs, ?_, fun n => (hn n).trans ?_⟩
  · rw [references, symbolOf_of_mem hs]
    exact hrs
  · simp only [Unfolds, expands_iff, List.not_mem_nil, not_false_eq_true, true_and, and_assoc,
      exists_and_left]

theorem WellFormed.references_spec (h : p.WellFormed S []) {s : SymbolId}
    (hs : s ∈ p.symbolIds) (ha : p.isAlias s = false) : ∃ rs, p.references s = .ok rs ∧
      ∀ n, n ∈ Reference.nodes rs ↔ ∃ u, p.Reach s u ∧ p.MentionNode u n := by
  obtain ⟨rs, hrs, hn⟩ := h.references_expands hs
  refine ⟨rs, hrs, fun n => ?_⟩
  simp only [hn, expands_iff, reach_iff, follow_name_iff ha, mentionsOutside_nil]

/-- In a loaded program the reference trees of a symbol that is no alias hold exactly the
mentions of the symbols that can be reached from it. -/
theorem references_eq_reach {doc : Json} {p : Program} {s : SymbolId}
    (hp : Snapshot.load doc = .ok p) (hs : s ∈ p.symbolIds) (ha : p.isAlias s = false) :
    ∃ forest, p.references s = .ok forest ∧
      ∀ n, (∃ r ∈ Reference.preorderAll forest, r.mention.node = n) ↔
        ∃ u, p.Reach s u ∧ p.MentionNode u n := by
  have hw := Snapshot.wellFormed_of_load (Snapshot.conforms_any doc) hp
  obtain ⟨forest, hf, hn⟩ := hw.references_spec hs ha
  refine ⟨forest, hf, fun n => ?_⟩
  rw [← hn, Reference.nodes, List.mem_map]

end Program

/-! ### A cycle of declarations -/

namespace Snapshot

/-- A node that mentions a symbol by an identifier of its name. -/
def mentionEntry (kind name : String) : Json :=
  .obj [("kind", .str kind), ("children", .arr [
    .obj [("kind", .str "identifier"), ("text", .str name), ("symbol", .str name)]])]

def interfaceEntry (id : String) (children : List Json) : Json :=
  .obj [("id", .str id), ("kind", .str "interface_declaration"), ("children", .arr children)]

/-- Two declarations that mention each other, one of them by an alias, and one of a library. -/
def cycle : Json :=
  .obj [("symbols", .arr [
      .obj [("id", .str "A"), ("name", .str "A"), ("declarations", .arr [.str "a"])],
      .obj [("id", .str "B"), ("name", .str "B"), ("declarations", .arr [.str "b"])],
      .obj [("id", .str "C"), ("name", .str "C"), ("aliasOf", .str "B")],
      .obj [("id", .str "L"), ("name", .str "L"), ("declarations", .arr [.str "l"])]]),
    ("files", .arr [
      .obj [("fileName", .str "main"), ("statements", .arr [
        interfaceEntry "a" [mentionEntry "type_reference" "C", mentionEntry "type_query" "L"],
        interfaceEntry "b" [mentionEntry "type_reference" "A",
          .obj [("kind", .str "import_type")]]])],
      .obj [("fileName", .str "lib"), ("externalLibrary", .bool true), ("statements", .arr [
        interfaceEntry "l" [mentionEntry "type_reference" "A"]])]])]

end Snapshot

theorem references_cycle : ∃ p forest, Snapshot.load Snapshot.cycle = .ok p ∧
    p.references (.listed (.text "A")) = .ok forest ∧
    (Reference.nodes forest).map Node.id = [.node 3, .node 8, .node 9, .node 5] ∧
    ∀ n, (∃ r ∈ Reference.preorderAll forest, r.mention.node = n) ↔
      ∃ u, p.Reach (.listed (.text "A")) u ∧ p.MentionNode u n := by
  have hrun : ((Snapshot.load Snapshot.cycle).toOption.map fun p =>
      ((p.references (.listed (.text "A"))).toOption.map
          fun forest => (Reference.nodes forest).map Node.id,
        decide (.listed (.text "A") ∈ p.symbolIds), p.isAlias (.listed (.text "A")))) =
      some (some [.node 3, .node 8, .node 9, .node 5], true, false) := by cbv
  obtain ⟨p, hp, he⟩ := map_toOption_eq_some_iff.mp hrun
  simp only [Prod.mk.injEq, decide_eq_true_eq] at he
  obtain ⟨hids, hs, ha⟩ := he
  obtain ⟨forest, hf, hn⟩ := Program.references_eq_reach hp hs ha
  rw [hf] at hids
  exact ⟨p, forest, hp, hf, Option.some.inj hids, hn⟩

end ApiSurface
