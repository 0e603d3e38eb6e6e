import ApiSurface.Proofs.Acceptance
import ApiSurface.Proofs.Exposure
import ApiSurface.Proofs.Parallel

/-! The order in which a document lists its symbols does not matter. Symbols of different keys are
added by steps that commute, and so are their connections, since what connects a symbol changes
nothing about the others. -/

namespace ApiSurface

namespace Snapshot

/-- The symbols are all looked at. -/
abbrev everySymbol : SymbolId → Prop := fun _ => True

section Steps

variable {α β : Type} {K : SymbolId → Prop} {d e : Draft}

/-- A step has a fault. -/
def Fails (x : Load α) (d : Draft) : Prop := ∃ w, x.run d = .error w

theorem Fails.bind {x : Load α} (h : Fails x d) (f : α → Load β) : Fails (x >>= f) d := by
  obtain ⟨w, hw⟩ := h
  exact ⟨w, by rw [StateT.run_bind, hw]; rfl⟩

/-- Two steps have a fault if the second one has one wherever the first one ends. -/
theorem fails_bind {x : Load α} {f : α → Load β}
    (hf : ∀ a d', x.run d = .ok (a, d') → Fails (f a) d') : Fails (x >>= f) d := by
  cases hr : x.run d with
  | error w => exact Fails.bind ⟨w, hr⟩ f
  | ok r =>
    obtain ⟨w, hw⟩ := hf r.1 r.2 hr
    exact ⟨w, by rw [StateT.run_bind, hr]; exact hw⟩

theorem endAlike_of_fails {x y : Load α} (hx : Fails x d) (hy : Fails y e) :
    EndAlike K x y d e := by
  obtain ⟨w, hw⟩ := hx
  obtain ⟨w', hw'⟩ := hy
  unfold EndAlike
  rw [hw, hw']
  trivial

theorem EndAlike.fails {x y : Load α} (h : EndAlike K x y d e) (hx : Fails x d) : Fails y e := by
  obtain ⟨w, hw⟩ := hx
  unfold EndAlike at h
  cases hy : y.run e with
  | error w' => exact ⟨w', hy⟩
  | ok r => simp [hw, hy] at h

theorem EndAlike.exists_run {x y : Load α} (h : EndAlike K x y d e) {a : α} {d' : Draft}
    (hx : x.run d = .ok (a, d')) : ∃ e', y.run e = .ok (a, e') ∧ d'.Agrees K e' := by
  unfold EndAlike at h
  cases hy : y.run e with
  | error w => simp [hx, hy] at h
  | ok r =>
    simp only [hx, hy] at h
    exact ⟨r.2, by rw [← h.1], h.2⟩

end Steps

section Order

variable {d e : Draft}

/-! ### Adding symbols -/

/-- A step that puts one symbol, unless it is there already, or that always has a fault. -/
def Puts (x : Load Unit) : Prop :=
  (∀ d, Fails x d) ∨ ∃ s y w, ∀ d : Draft, x.run d = if s ∈ d.program.symbolIds then .error w
    else .ok ((), { d with program := d.program.putSymbol s y })

theorem puts_bind {α : Type} {x : Load α} {f : α → Load Unit} (hx : Reads x)
    (hf : ∀ a, Puts (f a)) : Puts (x >>= f) := by
  obtain ⟨r, hr⟩ := hx
  cases r with
  | error w => exact Or.inl fun d => Fails.bind ⟨w, hr d⟩ f
  | ok a =>
    have hrun : ∀ d, (x >>= f).run d = (f a).run d := by
      intro d
      rw [StateT.run_bind, hr]
      rfl
    simpa only [Puts, Fails, hrun] using hf a

/-- A symbol is put if it is not there yet and what there is to know about it can be read. -/
theorem puts_unless {s : SymbolId} {x : Load Symbol} {rest : Load Unit} (w : SnapshotFault)
    (hx : Reads x) (hrest : rest = x >>= fun y => edit fun p => p.putSymbol s y) :
    Puts (get >>= fun d : Draft =>
      if s ∈ d.program.symbolIds then fail w >>= fun _ : Unit => rest else rest) := by
  obtain ⟨r, hr⟩ := hx
  have hrun : ∀ d : Draft, (get >>= fun d : Draft =>
      if s ∈ d.program.symbolIds then fail w >>= fun _ : Unit => rest else rest).run d =
        if s ∈ d.program.symbolIds then .error (.snapshot w) else
          r.map (·, d) >>= fun y => (edit fun p => p.putSymbol s y.1).run y.2 := by
    intro d
    have hlast : rest.run d =
        r.map (·, d) >>= fun y => (edit fun p => p.putSymbol s y.1).run y.2 := by
      rw [hrest, StateT.run_bind, hr]
    rw [← hlast]
    change StateT.run (if _ then _ else _) d = _
    split <;> rfl
  cases r with
  | error w' =>
    refine Or.inl fun d => ?_
    rw [Fails, hrun]
    split
    · exact ⟨_, rfl⟩
    · exact ⟨w', rfl⟩
  | ok y => exact Or.inr ⟨s, y, _, hrun⟩

theorem puts_addSymbol (j : Json) : Puts (addSymbol j) := by
  refine puts_bind (reads_entry j) fun members => puts_bind (reads_required ..) fun id => ?_
  refine puts_bind (reads_required ..) fun name => puts_bind (reads_keyOf id) fun k => ?_
  refine puts_unless (.duplicateSymbol id) (reads_bind (reads_listed members "flags") fun l =>
    reads_bind (reads_flagsOf name l) fun flags => reads_pure { name, flags }) ?_
  simp only [bind_assoc, pure_bind]

/-- Two symbols may be put in any order. -/
theorem alike_putSymbol {p : Program} {s t : SymbolId} (hst : s ≠ t) (x y : Symbol) :
    ((p.putSymbol s x).putSymbol t y).Alike ((p.putSymbol t y).putSymbol s x) := by
  have hget : ∀ u, ((p.putSymbol t y).putSymbol s x).symbols.get? u =
      ((p.putSymbol s x).putSymbol t y).symbols.get? u := by
    intro u
    simp only [Program.get?_putSymbol]
    by_cases hs : s = u
    · rw [if_pos hs, if_neg fun ht => hst (hs.trans ht.symm), if_pos hs]
    · rw [if_neg hs, if_neg hs]
  refine ⟨rfl, fun u => ?_, fun u => ?_, fun u _ => hget u, fun _ _ => rfl⟩
  · simp only [Program.mem_symbolIds_putSymbol]
    exact or_left_comm
  · rw [Program.symbol, hget]
    rfl

theorem Puts.comm {x y : Load Unit} (hx : Puts x) (hy : Puts y) (d : Draft) :
    EndAlike everySymbol (do x; y) (do y; x) d d := by
  rcases hx with hx | ⟨s, a, v, hx⟩
  · exact endAlike_of_fails ((hx d).bind _) (fails_bind fun _ d' _ => hx d')
  rcases hy with hy | ⟨t, b, w, hy⟩
  · exact endAlike_of_fails (fails_bind fun _ d' _ => hy d') ((hy d).bind _)
  unfold EndAlike
  -- a fault comes up in both orders if one of the two is there already, or if they are the same
  by_cases hs : s ∈ d.program.symbolIds <;> by_cases ht : t ∈ d.program.symbolIds <;>
    by_cases hst : s = t <;>
    simp only [StateT.run_bind, hx, hy, hs, ht, hst, Program.mem_symbolIds_putSymbol, ↓reduceIte,
      ok_bind, error_bind, or_true, or_false]
  rw [if_neg fun hts => hst hts.symm]
  exact ⟨trivial, alike_putSymbol hst a b, rfl⟩

/-- Two steps over a list that commute may be exchanged. -/
theorem endAlike_swap {f : Json → Load Unit} (hf : ∀ j, Respects everySymbol (f j))
    (hd : d.Agrees everySymbol e) {i j : Json} (l : List Json)
    (h : EndAlike everySymbol (do f j; f i) (do f i; f j) d d) :
    EndAlike everySymbol ((j :: i :: l).forM f) ((i :: j :: l).forM f) d e := by
  have hagree := respects_bind (hf i) (fun _ => hf j) d e hd
  have hrest : Respects everySymbol (l.forM f) := respects_forM fun k _ => hf k
  have hboth := endAlike_bind (h.trans hagree) fun _ d' e' _ hd' => hrest d' e' hd'
  simp only [bind_assoc] at hboth
  exact hboth

/-- The symbols of a document may be added in any order. -/
theorem endAlike_addSymbols {l l' : List Json} (h : l.Perm l') {d e : Draft}
    (hd : d.Agrees everySymbol e) :
    EndAlike everySymbol (l.forM addSymbol) (l'.forM addSymbol) d e := by
  induction h generalizing d e with
  | nil => exact ⟨rfl, hd⟩
  | cons j _ ih =>
    exact endAlike_bind (respects_addSymbol j d e hd) fun _ d' e' _ hd' => ih hd'
  | swap i j l =>
    exact endAlike_swap respects_addSymbol hd l ((puts_addSymbol j).comm (puts_addSymbol i) d)
  | trans _ _ ih₁ ih₂ => exact (ih₁ (Draft.Agrees.refl _ d)).trans (ih₂ hd)

/-! ### Connecting symbols -/

/-- A step that only changes one symbol, and only looks at that one. -/
structure Local (s : SymbolId) (x : Load Unit) : Prop where
  respects : ∀ K : SymbolId → Prop, K s → Respects K x
  frame : ∀ d : Draft, s ∈ d.program.symbolIds → Yields x d fun _ d' => d.Agrees (· ≠ s) d'

theorem frame_linkSymbol {j : Json} {s : SymbolId} (hj : entrySymbol? j = some s)
    (hs : s ∈ d.program.symbolIds) :
    Yields (linkSymbol j) d fun _ d' => d.Agrees (· ≠ s) d' := by
  refine yields_bind (yields_entry fun members hm => yields_bind (yields_required fun id hid =>
    yields_bind (yields_keyOf fun k hk => yields_bind (yields_listed (yields_bind ?_)))))
  subst hm
  obtain rfl : s = .listed k := by
    rw [entrySymbol?, memberOf, hid, Option.bind_some, hk, Option.map_some] at hj
    exact (Option.some.inj hj).symm
  have hmem {d' : Draft} (h : d.Agrees (· ≠ .listed k) d') : .listed k ∈ d'.program.symbolIds :=
    (h.program.mem _).mpr hs
  have hexports : ∀ d', d.Agrees (· ≠ .listed k) d' →
      Yields (do addExports (.listed k) (← exported members)) d' fun _ d' =>
        d.Agrees (· ≠ .listed k) d' := by
    intro d' h
    refine yields_bind (yields_exported fun table => yields_forM (fun e _ d' h => ?_) h)
    refine yields_bind (yields_symbolOf fun t _ => yields_bind (yields_get ?_))
    refine yields_bind (yields_lift fun n _ => yields_edit ?_)
    exact h.trans ⟨.of_addExport (hmem h) t n, rfl⟩
  have hstart := Draft.Agrees.refl (· ≠ .listed k) d
  refine (yields_forM (fun id _ d' h => ?_) hstart).mono fun _ d' h => ?_
  · refine yields_bind (yields_get (yields_bind (yields_keyOf fun key _ => ?_)))
    split
    · exact yields_edit (h.trans ⟨.of_addDeclaration (hmem h) _, rfl⟩)
    · exact yields_bind (yields_get (yields_throw _))
  · dsimp only
    split
    · refine yields_bind (yields_symbolOf fun t _ => yields_bind (yields_edit ?_))
      exact hexports _ (h.trans ⟨.of_setAliasTarget (hmem h) t, rfl⟩)
    · exact hexports d' h

theorem local_linkSymbol {j : Json} {s : SymbolId} (hj : entrySymbol? j = some s) :
    Local s (linkSymbol j) where
  respects _ hK := respects_linkSymbol fun _ ht => Option.some.inj (hj.symm.trans ht) ▸ hK
  frame _ hs := frame_linkSymbol hj hs

/-- Steps that change different symbols commute. -/
theorem Local.comm {s t : SymbolId} {x y : Load Unit} (hx : Local s x) (hy : Local t y)
    (hst : s ≠ t) (hs : s ∈ d.program.symbolIds) (ht : t ∈ d.program.symbolIds) :
    EndAlike everySymbol (do x; y) (do y; x) d d := by
  have hxs := hx.respects (· = s) rfl
  have hyt := hy.respects (· = t) rfl
  have off_s {d d' : Draft} (h : d.Agrees (· ≠ s) d') : d.Agrees (· = t) d' :=
    h.mono fun _ hu => hu ▸ hst.symm
  have off_t {d d' : Draft} (h : d.Agrees (· ≠ t) d') : d.Agrees (· = s) d' :=
    h.mono fun _ hu => hu ▸ hst
  cases hrx : x.run d with
  | error w =>
    refine endAlike_of_fails (Fails.bind ⟨w, hrx⟩ _) (fails_bind fun _ e hr => ?_)
    exact (hxs d e (off_t (hy.frame d ht _ e hr))).fails ⟨w, hrx⟩
  | ok r =>
    obtain ⟨_, d₁⟩ := r
    have hd₁ := hx.frame d hs _ d₁ hrx
    cases hry : y.run d with
    | error w =>
      refine endAlike_of_fails (fails_bind fun _ e hr => ?_) (Fails.bind ⟨w, hry⟩ _)
      exact (hyt d e (off_s (hx.frame d hs _ e hr))).fails ⟨w, hry⟩
    | ok r =>
      obtain ⟨_, e₁⟩ := r
      have he₁ := hy.frame d ht _ e₁ hry
      obtain ⟨d₂, hr₂, hd₂⟩ := (hyt d d₁ (off_s hd₁)).exists_run hry
      obtain ⟨e₂, hr₂', he₂⟩ := (hxs d e₁ (off_t he₁)).exists_run hrx
      have hfd := hy.frame d₁ ((hd₁.program.mem t).mpr ht) _ d₂ hr₂
      have hfe := hx.frame e₁ ((he₁.program.mem s).mpr hs) _ e₂ hr₂'
      -- what one step has changed the other one has left, and the rest is as before
      have hats : d₂.Agrees (· = s) e₂ := (off_t hfd).symm.trans he₂
      have hatt : d₂.Agrees (· = t) e₂ := hd₂.symm.trans (off_s hfe)
      have helse : d₂.Agrees (fun u => u ≠ s ∧ u ≠ t) e₂ :=
        (hfd.mono fun _ hu => hu.2).symm.trans ((hd₁.mono fun _ hu => hu.1).symm.trans
          ((he₁.mono fun _ hu => hu.2).trans (hfe.mono fun _ hu => hu.1)))
      have hagree : d₂.Agrees everySymbol e₂ :=
        ((hats.or hatt).or helse).mono fun u _ => by tauto
      unfold EndAlike
      rw [StateT.run_bind, StateT.run_bind, hrx, hry, ok_bind, ok_bind, hr₂, hr₂']
      exact ⟨rfl, hagree⟩

/-- The symbols of a document may be connected in any order, if they have different keys. -/
theorem endAlike_linkSymbols {l l' : List Json} (h : l.Perm l') {d e : Draft}
    (hd : d.Agrees everySymbol e)
    (hmem : ∀ j ∈ l, ∃ s ∈ d.program.symbolIds, entrySymbol? j = some s)
    (hdistinct : l.Pairwise fun i j => entrySymbol? i ≠ entrySymbol? j) :
    EndAlike everySymbol (l.forM linkSymbol) (l'.forM linkSymbol) d e := by
  have hlink (j : Json) : Respects everySymbol (linkSymbol j) :=
    respects_linkSymbol fun _ _ => trivial
  induction h generalizing d e with
  | nil => exact ⟨rfl, hd⟩
  | cons j _ ih =>
    rw [List.pairwise_cons] at hdistinct
    rw [List.forall_mem_cons] at hmem
    obtain ⟨⟨s, hs, hj⟩, hmem⟩ := hmem
    refine endAlike_bind (hlink j d e hd) fun _ d' e' hr hd' => ih hd' ?_ hdistinct.2
    have hframe := frame_linkSymbol hj hs _ d' hr
    intro i hi
    obtain ⟨t, ht, hit⟩ := hmem i hi
    exact ⟨t, (hframe.program.mem t).mpr ht, hit⟩
  | swap i j l =>
    obtain ⟨t, ht, hj⟩ := hmem j (List.mem_cons_self ..)
    obtain ⟨s, hs, hi⟩ := hmem i (List.mem_cons_of_mem _ (List.mem_cons_self ..))
    have hne : t ≠ s := by
      rintro rfl
      exact (List.pairwise_cons.mp hdistinct).1 i (List.mem_cons_self ..) (hj.trans hi.symm)
    exact endAlike_swap hlink hd l ((local_linkSymbol hj).comm (local_linkSymbol hi) hne ht hs)
  | trans h₁ _ ih₁ ih₂ =>
    refine (ih₁ (Draft.Agrees.refl _ d) hmem hdistinct).trans (ih₂ hd ?_ ?_)
    · exact fun j hj => hmem j (h₁.mem_iff.mpr hj)
    · exact (h₁.pairwise_iff fun h => h.symm).mp hdistinct

/-! ### Documents -/

/-- Symbols that have been added were new, and they are different ones. -/
theorem yields_addSymbols_distinct (l : List Json) (d : Draft) :
    Yields (l.forM addSymbol) d fun _ _ =>
      (∀ j ∈ l, ∃ s, s ∉ d.program.symbolIds ∧ entrySymbol? j = some s) ∧
        l.Pairwise fun i j => entrySymbol? i ≠ entrySymbol? j := by
  induction l generalizing d with
  | nil => exact yields_pure ⟨by simp, List.Pairwise.nil⟩
  | cons j l ih =>
    refine yields_bind ((judges_addSymbol j).yields.mono ?_)
    rintro _ d₁ ⟨⟨_, hnew⟩, k, name, flags, hk, _, rfl⟩
    refine (ih _).mono fun _ d₂ h => ?_
    have hj : entrySymbol? j = some (.listed k) := congrArg (Option.map Entity.listed) hk
    have hold : ∀ i ∈ l, ∃ s, s ≠ .listed k ∧ s ∉ d.program.symbolIds ∧
        entrySymbol? i = some s := by
      intro i hi
      obtain ⟨s, hs, his⟩ := h.1 i hi
      rw [Program.mem_symbolIds_putSymbol, not_or] at hs
      exact ⟨s, hs.1, hs.2, his⟩
    refine ⟨List.forall_mem_cons.mpr ⟨⟨_, hnew k hk, hj⟩, fun i hi => ?_⟩,
      List.pairwise_cons.mpr ⟨fun i hi => ?_, h.2⟩⟩
    · obtain ⟨s, _, hs⟩ := hold i hi
      exact ⟨s, hs⟩
    · obtain ⟨s, hne, _, his⟩ := hold i hi
      rw [hj, his]
      exact fun he => hne (Option.some.inj he).symm

/-- Two documents that differ in the order of their symbols build alike. -/
theorem endAlike_build {members members' : List (String × Json)} {l l' : List Json}
    (hl : Json.member? members "symbols" = some (.arr l))
    (hl' : Json.member? members' "symbols" = some (.arr l')) (hperm : l.Perm l')
    (hrest : ∀ name, name ≠ "symbols" → Json.member? members' name = Json.member? members name) :
    EndAlike everySymbol (build members) (build members')
      ⟨Program.empty, ∅⟩ ⟨Program.empty, ∅⟩ := by
  have hlisted : ∀ name, name ≠ "symbols" → listed members' name = listed members name := by
    intro name hn
    unfold listed
    rw [hrest name hn]
  have hsymbols : listed members "symbols" = pure l := by
    unfold listed
    rw [hl]
    rfl
  have hsymbols' : listed members' "symbols" = pure l' := by
    unfold listed
    rw [hl']
    rfl
  unfold build
  rw [hsymbols, hsymbols', pure_bind, pure_bind, hlisted "files" (by decide),
    hlisted "globals" (by decide), hlisted "resolutions" (by decide)]
  refine endAlike_bind (endAlike_addSymbols hperm (.refl _ _)) fun _ d₁ e₁ hr₁ h₁ => ?_
  have hok₁ := yields_addSymbols (.empty .any) (fun _ _ _ _ => trivial) _ d₁ hr₁
  obtain ⟨hkeys, hdistinct⟩ := yields_addSymbols_distinct l _ _ d₁ hr₁
  refine endAlike_reads (reads_listed ..) fun items _ => ?_
  have hfiles := respects_mapM (l := items) fun j _ => respects_addFile j
  refine endAlike_bind (hfiles d₁ e₁ h₁) fun files d₂ e₂ hr₂ h₂ => ?_
  obtain ⟨_, _, hok₂⟩ := yields_addFiles hok₁ (fun _ _ t _ => nodeConforms_any t) _ d₂ hr₂
  have hmem : ∀ j ∈ l, ∃ s ∈ d₂.program.symbolIds, entrySymbol? j = some s := by
    intro j hj
    obtain ⟨s, _, hs⟩ := hkeys j hj
    exact ⟨s, (hok₂.known s (Or.inl (Or.inr ⟨j, hj, hs⟩))).1, hs⟩
  refine endAlike_bind (endAlike_linkSymbols hperm h₂ hmem hdistinct) fun _ d₃ e₃ _ h₃ => ?_
  refine respects_bind (respects_forM fun f _ => respects_linkFile f) (fun _ => ?_) d₃ e₃ h₃
  refine respects_bind (reads_listed ..).respects fun ids => ?_
  refine respects_bind (respects_forM fun id _ => ?_) fun _ => ?_
  · exact respects_bind (respects_symbolOf id) fun s => respects_aside fun _ _ _ => rfl
  · refine respects_bind (reads_listed ..).respects fun items => ?_
    exact respects_forM fun j _ => respects_addResolution j

end Order

theorem load_eq_ok_iff {members : List (String × Json)} {p : Program} :
    load (.obj members) = .ok p ↔
      ∃ d, (build members).run ⟨Program.empty, ∅⟩ = .ok ((), d) ∧ d.program = p := by
  rw [load, bind_eq_ok_iff]
  constructor
  · rintro ⟨⟨_, d⟩, hd, hp⟩
    exact ⟨d, hd, Except.ok.inj hp⟩
  · rintro ⟨d, hd, rfl⟩
    exact ⟨((), d), hd, rfl⟩

/-- A document with its symbols in another order describes a program that is alike. -/
theorem exists_load_alike {members members' : List (String × Json)} {l l' : List Json}
    (hl : Json.member? members "symbols" = some (.arr l))
    (hl' : Json.member? members' "symbols" = some (.arr l')) (hperm : l.Perm l')
    (hrest : ∀ name, name ≠ "symbols" → Json.member? members' name = Json.member? members name)
    {p : Program} (hp : load (.obj members) = .ok p) :
    ∃ q, load (.obj members') = .ok q ∧ p.Alike q := by
  obtain ⟨d, hd, rfl⟩ := load_eq_ok_iff.mp hp
  obtain ⟨e, he, hagree⟩ := (endAlike_build hl hl' hperm hrest).exists_run hd
  exact ⟨e.program, load_eq_ok_iff.mpr ⟨e, he, rfl⟩, hagree.program⟩

/-- The order of the symbols of a document does not matter: it describes a program in every order or
in none, and the programs give the same answers. -/
theorem load_perm {members members' : List (String × Json)} {l l' : List Json}
    (hl : Json.member? members "symbols" = some (.arr l))
    (hl' : Json.member? members' "symbols" = some (.arr l')) (hperm : l.Perm l')
    (hrest : ∀ name, name ≠ "symbols" → Json.member? members' name = Json.member? members name) :
    ((∃ p, load (.obj members) = .ok p) ↔ ∃ q, load (.obj members') = .ok q) ∧
      ∀ p q, load (.obj members) = .ok p → load (.obj members') = .ok q → p.AnswersAlike q := by
  constructor
  · constructor
    · rintro ⟨p, hp⟩
      obtain ⟨q, hq, _⟩ := exists_load_alike hl hl' hperm hrest hp
      exact ⟨q, hq⟩
    · rintro ⟨q, hq⟩
      obtain ⟨p, hp, _⟩ :=
        exists_load_alike hl' hl hperm.symm (fun name hn => (hrest name hn).symm) hq
      exact ⟨p, hp⟩
  · intro p q hp hq
    obtain ⟨q', hq', halike⟩ := exists_load_alike hl hl' hperm hrest hp
    obtain rfl : q' = q := Except.ok.inj (hq'.symm.trans hq)
    exact halike.answersAlike

/-- A module that exports an alias and what it stands for, with the symbols of the document in some
order. -/
def listingMembers (symbols : List Json) : List (String × Json) :=
  [("symbols", .arr symbols),
    ("files", .arr [moduleEntry "main" [("B", "b"), ("A", "a")] ["./lib"]])]

theorem load_listingMembers : ∃ p q,
    load (.obj (listingMembers [symbolEntry "a", aliasSymbol "a"])) = .ok p ∧
    load (.obj (listingMembers [aliasSymbol "a", symbolEntry "a"])) = .ok q ∧
    p.symbolIds ≠ q.symbolIds ∧ p.AnswersAlike q := by
  have hp : (load (.obj (listingMembers [symbolEntry "a", aliasSymbol "a"]))).toOption.map
      (fun p => p.symbolIds.drop 2) = some [.listed (.text "a"), .listed (.text "b"),
        .ofFile (.node 0), .wildcards (.ofFile (.node 0))] := by cbv
  have hq : (load (.obj (listingMembers [aliasSymbol "a", symbolEntry "a"]))).toOption.map
      (fun p => p.symbolIds.drop 2) = some [.listed (.text "b"), .listed (.text "a"),
        .ofFile (.node 0), .wildcards (.ofFile (.node 0))] := by cbv
  obtain ⟨p, hp, hids⟩ := map_toOption_eq_some_iff.mp hp
  obtain ⟨q, hq, hids'⟩ := map_toOption_eq_some_iff.mp hq
  have hsymbols (l : List Json) : Json.member? (listingMembers l) "symbols" = some (.arr l) := rfl
  have hrest (l l' : List Json) (name : String) (hn : name ≠ "symbols") :
      Json.member? (listingMembers l') name = Json.member? (listingMembers l) name := by
    simp [listingMembers, Json.member?, hn.symm]
  have hperm := load_perm (hsymbols _) (hsymbols _)
    (List.Perm.swap (aliasSymbol "a") (symbolEntry "a") []) (hrest _ _)
  refine ⟨p, q, hp, hq, fun h => ?_, hperm.2 p q hp hq⟩
  rw [← h, hids] at hids'
  simp at hids'

end Snapshot

end ApiSurface
