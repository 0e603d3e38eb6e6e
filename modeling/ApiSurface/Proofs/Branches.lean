import ApiSurface.Proofs.Exposure

/-! The exports of a module by a plain recursion, whose branches share nothing: a module is left
out only below itself, and comes up again on every other way that leads to it. Sharing what has
been seen among all branches makes no difference, neither to the table nor to the first fault. -/

namespace ApiSurface

/-! ### Wandering -/

namespace Network

variable {ε α : Type} [DecidableEq α]

/-- The edges on all ways that do not come back to a place of their own, each with the place that
is entered over the edge. -/
def wander (G : Network ε α) (path : List α) (pending : List ε) : List (ε × Option α) :=
  match pending with
  | [] => []
  | e :: rest =>
    match _h : G.target e with
    | none => (e, none) :: G.wander path rest
    | some a =>
      if _ : a ∈ path then (e, none) :: G.wander path rest
      else (e, some a) :: (G.wander (a :: path) (G.edges a) ++ G.wander path rest)
termination_by (unseen G.places path, pending.length)
decreasing_by
  · exact Prod.Lex.right _ (by simp)
  · exact Prod.Lex.right _ (by simp)
  · rename_i hp
    exact Prod.Lex.left _ _ (unseen_cons_lt (G.target_mem _h) hp)
  · exact Prod.Lex.right _ (by simp)

/-- The edges that are passed by wandering. -/
def tried (G : Network ε α) (path : List α) (pending : List ε) : List ε :=
  (G.wander path pending).map Prod.fst

/-- The places that are entered by wandering, each as often as a way leads there. -/
def visited (G : Network ε α) (path : List α) (pending : List ε) : List α :=
  (G.wander path pending).filterMap Prod.snd

variable {G : Network ε α} {path : List α}

theorem wander_cons_of_path {e : ε} (rest : List ε) (h : ∀ a, G.target e = some a → a ∈ path) :
    G.wander path (e :: rest) = (e, none) :: G.wander path rest := by
  rw [wander]
  split
  · rfl
  · rename_i a ha
    rw [dif_pos (h a ha)]

theorem wander_cons_of_notMem {e : ε} {a : α} (rest : List ε) (h : G.target e = some a)
    (hp : a ∉ path) : G.wander path (e :: rest) =
      (e, some a) :: (G.wander (a :: path) (G.edges a) ++ G.wander path rest) := by
  rw [wander]
  split
  · simp_all
  · rename_i b hb
    obtain rfl : a = b := Option.some.inj (h.symm.trans hb)
    rw [dif_neg hp]

/-- After a walk through a place the rest of the walk is the same as without it, except that the
places behind it are left out. -/
theorem entered_after {a : α} (rest : List ε) :
    G.entered ((G.entered (a :: path) (G.edges a)).reverse ++ a :: path) rest =
      (G.entered path rest).filter (· ∉ a :: G.entered (a :: path) (G.edges a)) := by
  have hsub : path ⊆ (G.entered (a :: path) (G.edges a)).reverse ++ a :: path :=
    fun b hb => List.mem_append_right _ (List.mem_cons_of_mem _ hb)
  rw [entered_of_finished (R := fun _ => True) hsub]
  · apply List.filter_congr
    intro b hb
    have hb := (nodup_entered path rest).2 b hb
    simp [hb, and_comm]
  · simp
  · simp
  · intro b hb hp _
    apply finished_of_entered
    simpa [hp, or_comm] using hb

/-- Wandering finds what a walk finds along its edges. -/
theorem findSome?_tried {φ : Type} (f : ε → Option φ) (pending : List ε) :
    (G.tried path pending).findSome? f = (G.passed path pending).findSome? f := by
  unfold tried
  fun_induction wander G path pending with
  | case1 => simp [passed]
  | case2 path e rest h ih =>
    rw [passed_cons_of_seen _ (by simp [h]), List.map_cons, List.findSome?_cons,
      List.findSome?_cons, ih]
  | case3 path e rest a h hp ih =>
    rw [passed_cons_of_seen _ (by simpa [h] using hp), List.map_cons, List.findSome?_cons,
      List.findSome?_cons, ih]
  | case4 path e rest a h hp ih₁ ih₂ =>
    -- if nothing is found at the place and behind it, the walk may leave all of it out
    have hrest : ((G.passed (a :: path) (G.edges a)).findSome? f).or
        ((G.passed path rest).findSome? f) =
          ((G.passed (a :: path) (G.edges a)).findSome? f).or
            ((G.passed ((G.entered (a :: path) (G.edges a)).reverse ++ a :: path) rest
              ).findSome? f) := by
      cases hfound : (G.passed (a :: path) (G.edges a)).findSome? f with
      | some x => rfl
      | none =>
        rw [List.findSome?_eq_none_iff] at hfound
        rw [Option.none_or, Option.none_or]
        symm
        apply findSome?_passed_of_finished
        · exact fun b hb => List.mem_append_right _ (List.mem_cons_of_mem _ hb)
        · intro b hb hp
          have hb : b ∈ a :: G.entered (a :: path) (G.edges a) := by
            simpa [hp, or_comm] using hb
          refine ⟨finished_of_entered hb, fun e he => hfound e (mem_passed.mpr ?_)⟩
          rcases List.mem_cons.mp hb with rfl | hb
          · exact Or.inl he
          · exact Or.inr ⟨b, hb, he⟩
    rw [passed_cons_of_notMem rest h hp, passed_append, List.map_cons, List.map_append,
      List.findSome?_cons, List.findSome?_cons, List.findSome?_append, List.findSome?_append, ih₁,
      ih₂, hrest]

open Table in
/-- Of the entries of the places, wandering comes to the same first ones as a walk. -/
theorem firsts_visited {κ β : Type} [DecidableEq κ] (f : α → List (κ × β)) (pending : List ε) :
    firsts ((G.visited path pending).flatMap f) = firsts ((G.entered path pending).flatMap f) := by
  unfold visited
  fun_induction wander G path pending with
  | case1 => simp [entered]
  | case2 path e rest h ih =>
    rw [entered_cons_of_seen _ (by simp [h])]
    exact ih
  | case3 path e rest a h hp ih =>
    rw [entered_cons_of_seen _ (by simpa [h] using hp)]
    exact ih
  | case4 path e rest a h hp ih₁ ih₂ =>
    have hwander : ((e, some a) :: (G.wander (a :: path) (G.edges a) ++ G.wander path rest)
        ).filterMap Prod.snd = a :: ((G.wander (a :: path) (G.edges a)).filterMap Prod.snd ++
          (G.wander path rest).filterMap Prod.snd) := by
      simp
    rw [hwander, entered_cons_of_notMem rest h hp, entered_append, entered_after]
    generalize (G.wander (a :: path) (G.edges a)).filterMap Prod.snd = visited₁ at ih₁ ⊢
    generalize (G.wander path rest).filterMap Prod.snd = visited₂ at ih₂ ⊢
    generalize G.entered (a :: path) (G.edges a) = entered₁ at ih₁ ⊢
    calc firsts ((a :: (visited₁ ++ visited₂)).flatMap f)
      _ = firsts (f a ++ (visited₁.flatMap f ++ visited₂.flatMap f)) := by
        rw [List.flatMap_cons, List.flatMap_append]
      _ = firsts (f a ++ (entered₁.flatMap f ++ (G.entered path rest).flatMap f)) :=
        firsts_append_congr rfl (firsts_append_congr ih₁ ih₂)
      _ = firsts ((a :: entered₁).flatMap f ++ (G.entered path rest).flatMap f) := by
        rw [List.flatMap_cons, List.append_assoc]
      _ = firsts ((a :: entered₁ ++
            (G.entered path rest).filter (· ∉ a :: entered₁)).flatMap f) := by
        rw [firsts_flatMap_append, List.flatMap_append]

end Network

/-! ### Faults -/

namespace Program

variable {p : Program}

/-- Why a statement cannot be read, if it cannot. -/
def readFault? (p : Program) (d : NodeId) : Option Fault :=
  match p.wildcardModule? d with
  | .error e => some e
  | .ok none => none
  | .ok (some m) =>
    match p.wildcards m with
    | .error e => some e
    | .ok _ => none

theorem readFault?_of_error {d : NodeId} {e : Fault} (h : p.wildcardModule? d = .error e) :
    p.readFault? d = some e := by
  rw [readFault?, h]

theorem readFault?_of_none {d : NodeId} (h : p.wildcardModule? d = .ok none) :
    p.readFault? d = none := by
  rw [readFault?, h]

theorem readFault?_of_module {d : NodeId} {m : SymbolId} (h : p.wildcardModule? d = .ok (some m)) :
    p.readFault? d = match p.wildcards m with
      | .error e => some e
      | .ok _ => none := by
  rw [readFault?, h]

theorem readFault?_eq_none_iff {d : NodeId} : p.readFault? d = none ↔ p.Readable d := by
  unfold readFault? Readable
  cases p.wildcardModule? d with
  | error e => simp
  | ok r =>
    cases r with
    | none => simp
    | some m => cases hm : p.wildcards m <;> simp [hm]

/-- The modules behind some statements are not found because of the first statement that cannot
be read. -/
theorem findSome?_readFault?_of_behind {seen : List SymbolId} {ds : List NodeId} {e : Fault}
    (h : p.behind seen ds = .error e) (hseen : ∀ m ∈ seen, ∃ es, p.wildcards m = .ok es) :
    (p.exportNetwork.passed seen ds).findSome? p.readFault? = some e := by
  fun_induction behind p seen ds with
  | case1 seen => cases h
  | case2 seen d rest e' hd =>
    obtain rfl := Except.error.inj h
    obtain ⟨more, hmore⟩ := Network.passed_cons p.exportNetwork seen d rest
    rw [hmore, List.findSome?_cons, readFault?_of_error hd]
  | case3 seen d rest hd ih =>
    rw [Network.passed, walk_cons_of_none _ hd, List.map_cons, List.findSome?_cons,
      readFault?_of_none hd]
    exact ih h hseen
  | case4 seen d rest m hd hs ih =>
    obtain ⟨es, hes⟩ := hseen m hs
    rw [Network.passed, walk_cons_of_mem _ hd hs, List.map_cons, List.findSome?_cons,
      readFault?_of_module hd, hes]
    exact ih h hseen
  | case5 seen d rest m hd hs e' hm =>
    obtain rfl := Except.error.inj h
    obtain ⟨more, hmore⟩ := Network.passed_cons p.exportNetwork seen d rest
    rw [hmore, List.findSome?_cons, readFault?_of_module hd, hm]
  | case6 seen d rest m hd hs inner hi hm e' hb ih =>
    obtain rfl := Except.error.inj h
    have ih := ih hb (List.forall_mem_cons.mpr ⟨⟨inner, hi⟩, hseen⟩)
    rw [passed_cons_of_module rest hd hs hi, List.findSome?_cons, readFault?_of_module hd, hi,
      List.findSome?_append, ih, Option.some_or]
  | case7 seen d rest m hd hs inner hi hm below mid h₁ hb e' he ih₁ ih₂ =>
    obtain rfl := Except.error.inj h
    obtain ⟨hr, hmid⟩ := readable_of_behind hb (List.forall_mem_cons.mpr ⟨⟨inner, hi⟩, hseen⟩)
    have hnone : (p.exportNetwork.passed (m :: seen) inner).findSome? p.readFault? = none :=
      List.findSome?_eq_none_iff.mpr fun x hx => readFault?_eq_none_iff.mpr (hr x hx)
    rw [passed_cons_of_module rest hd hs hi, List.findSome?_cons, readFault?_of_module hd, hi,
      List.findSome?_append, hnone, Option.none_or, Network.passed, walk_after hb]
    exact ih₂ he hmid
  | case8 => cases h
  | case9 seen d rest m hd hs inner hi hm => exact absurd (mem_symbolIds_of_wildcards hi) hm

/-- What comes of a search for exports: the fault that ended it, or the first entry of each
name. -/
def settled (fault : Option Fault) (entries : List (Key × SymbolId)) :
    Except Fault (Table Key SymbolId) :=
  match fault with
  | some e => .error e
  | none => .ok ⟨Table.firsts entries, Table.nodup_firsts entries⟩

theorem settled_congr {fault : Option Fault} {l l' : List (Key × SymbolId)}
    (h : Table.firsts l = Table.firsts l') : settled fault l = settled fault l' := by
  cases fault with
  | some e => rfl
  | none => simp only [settled, h]

theorem exportTable_eq_settled {m : SymbolId} {ds : List NodeId} (h : p.wildcards m = .ok ds) :
    p.exportTable m = settled ((p.exportNetwork.passed [m] ds).findSome? p.readFault?)
      ((p.ownExports m).entries ++ (p.exportNetwork.entered [m] ds).flatMap p.passedOn) := by
  cases ht : p.exportTable m with
  | error e =>
    have hb : p.behind [m] ds = .error e := by
      rw [exportTable, h] at ht
      cases hb : p.behind [m] ds with
      | error e' =>
        simp only [hb] at ht
        obtain rfl := Except.error.inj ht
        rfl
      | ok r => simp only [hb, reduceCtorEq] at ht
    rw [findSome?_readFault?_of_behind hb (by simpa using ⟨ds, h⟩)]
    rfl
  | ok t =>
    obtain ⟨hl, he⟩ := exportTable_eq_ok_iff.mp ht
    obtain ⟨ds', hds', hr⟩ := legible_iff.mp hl
    obtain rfl : ds = ds' := Except.ok.inj (h.symm.trans hds')
    have hnone : (p.exportNetwork.passed [m] ds).findSome? p.readFault? = none :=
      List.findSome?_eq_none_iff.mpr fun x hx => readFault?_eq_none_iff.mpr (hr x hx)
    rw [hnone, settled, Except.ok.injEq, Table.mk.injEq, he, exposed_eq, edges_exportNetwork h]

/-! ### Unshared tables -/

/-- The exports of a module by name below the modules of a path, where each branch of the
recursion knows only its own path. -/
def unsharedTable (p : Program) (path : List SymbolId) (m : SymbolId) :
    Except Fault (Table Key SymbolId) :=
  if _hp : m ∈ path then .ok ∅
  else match _h : p.wildcards m with
    | .error e => .error e
    | .ok ds => ds.foldlM (fun t d => do
        match ← p.wildcardModule? d with
        | none => return t
        | some x =>
          return t.union ((← p.unsharedTable (m :: path) x).filterKeys (· ≠ .text defaultName)))
      (p.ownExports m)
termination_by unseen p.symbolIds path
decreasing_by exact unseen_cons_lt (mem_symbolIds_of_wildcards _h) _hp

/-- What a wildcard re-export at the end of a path adds to a table. -/
def unsharedStep (p : Program) (path : List SymbolId) (t : Table Key SymbolId) (d : NodeId) :
    Except Fault (Table Key SymbolId) := do
  match ← p.wildcardModule? d with
  | none => return t
  | some x =>
    return t.union ((← p.unsharedTable path x).filterKeys (· ≠ .text defaultName))

theorem unsharedTable_of_wildcards {path : List SymbolId} {m : SymbolId} {ds : List NodeId}
    (hm : m ∉ path) (h : p.wildcards m = .ok ds) :
    p.unsharedTable path m = ds.foldlM (p.unsharedStep (m :: path)) (p.ownExports m) := by
  rw [unsharedTable, dif_neg hm]
  split
  · simp_all
  · rename_i ds' h'
    obtain rfl : ds = ds' := Except.ok.inj (h.symm.trans h')
    rfl

theorem unsharedTable_of_mem {path : List SymbolId} {m : SymbolId} (hm : m ∈ path) :
    p.unsharedTable path m = .ok ∅ := by
  rw [unsharedTable, dif_pos hm]

theorem unsharedTable_of_error {path : List SymbolId} {m : SymbolId} {e : Fault} (hm : m ∉ path)
    (h : p.wildcards m = .error e) : p.unsharedTable path m = .error e := by
  rw [unsharedTable, dif_neg hm]
  split
  · rename_i e' h'
    obtain rfl : e = e' := Except.error.inj (h.symm.trans h')
    rfl
  · simp_all

section Step

variable {path : List SymbolId} {t : Table Key SymbolId} {d : NodeId}

theorem unsharedStep_of_none (h : p.wildcardModule? d = .ok none) :
    p.unsharedStep path t d = .ok t := by
  rw [unsharedStep, h]
  rfl

theorem unsharedStep_of_module {x : SymbolId} (h : p.wildcardModule? d = .ok (some x)) :
    p.unsharedStep path t d = (p.unsharedTable path x).map fun u =>
      t.union (u.filterKeys (· ≠ .text defaultName)) := by
  rw [unsharedStep, h, ok_bind]
  dsimp only
  cases p.unsharedTable path x <;> rfl

end Step

/-- Behind a statement that leads to a module off the path, wandering goes through that module,
whether it has a table or not. -/
theorem wander_cons_of_module {path : List SymbolId} {d : NodeId} {m : SymbolId}
    {inner : List NodeId} (rest : List NodeId) (hd : p.wildcardModule? d = .ok (some m))
    (hp : m ∉ path) (hi : p.wildcards m = .ok inner) :
    p.exportNetwork.wander path (d :: rest) =
      (d, if p.hasTable m then some m else none) ::
        (p.exportNetwork.wander (m :: path) inner ++ p.exportNetwork.wander path rest) := by
  by_cases ht : p.hasTable m = true
  · rw [Network.wander_cons_of_notMem _ (target_eq_some_iff.mpr ⟨hd, ht⟩) hp,
      edges_exportNetwork hi, if_pos ht]
  · have hnone : ∀ a, p.exportNetwork.target d = some a → a ∈ path := by
      intro a ha
      obtain ⟨hda, hta⟩ := target_eq_some_iff.mp ha
      obtain rfl : m = a := Option.some.inj (Except.ok.inj (hd.symm.trans hda))
      exact absurd hta ht
    obtain rfl := wildcards_of_not_hasTable (by simpa using ht) hi
    rw [Network.wander_cons_of_path _ hnone, if_neg ht, Network.wander, List.nil_append]

/-- What comes of a search for the exports of a module at the end of a path. -/
def wandered (p : Program) (path : List SymbolId) (own : Table Key SymbolId) (ds : List NodeId) :
    Except Fault (Table Key SymbolId) :=
  settled ((p.exportNetwork.tried path ds).findSome? p.readFault?)
    (own.entries ++ (p.exportNetwork.visited path ds).flatMap p.passedOn)

theorem wandered_of_fault {path : List SymbolId} {own : Table Key SymbolId} {d : NodeId}
    {rest : List NodeId} {e : Fault} (h : p.readFault? d = some e) :
    p.wandered path own (d :: rest) = .error e := by
  obtain ⟨more, hmore⟩ := Network.passed_cons p.exportNetwork path d rest
  rw [wandered, Network.findSome?_tried, hmore, List.findSome?_cons, h]
  rfl

/-- A re-export that leads to nothing new changes nothing. -/
theorem wandered_cons_of_path {path : List SymbolId} {own : Table Key SymbolId} {d : NodeId}
    {rest : List NodeId} (h : p.readFault? d = none)
    (hp : ∀ a, p.exportNetwork.target d = some a → a ∈ path) :
    p.wandered path own (d :: rest) = p.wandered path own rest := by
  rw [wandered, Network.tried, Network.visited, Network.wander_cons_of_path rest hp,
    List.map_cons, List.findSome?_cons, h]
  rfl

/-- Behind a module, the search goes on from the table that the module has been joined to. -/
theorem wandered_cons_of_module {path : List SymbolId} {own : Table Key SymbolId} {d : NodeId}
    {m : SymbolId} {inner : List NodeId} (rest : List NodeId)
    (hd : p.wildcardModule? d = .ok (some m)) (hp : m ∉ path) (hi : p.wildcards m = .ok inner) :
    p.wandered path own (d :: rest) = p.wandered (m :: path) (p.ownExports m) inner >>= fun u =>
      p.wandered path (own.union (u.filterKeys (· ≠ .text defaultName))) rest := by
  have hfault : p.readFault? d = none := by rw [readFault?_of_module hd, hi]
  have htried : p.exportNetwork.tried path (d :: rest) =
      d :: (p.exportNetwork.tried (m :: path) inner ++ p.exportNetwork.tried path rest) := by
    rw [Network.tried, wander_cons_of_module rest hd hp hi, List.map_cons, List.map_append]
    rfl
  have hvisited : (p.exportNetwork.visited path (d :: rest)).flatMap p.passedOn =
      p.passedOn m ++ (p.exportNetwork.visited (m :: path) inner).flatMap p.passedOn ++
        (p.exportNetwork.visited path rest).flatMap p.passedOn := by
    rw [Network.visited, wander_cons_of_module rest hd hp hi, List.filterMap_cons,
      List.filterMap_append]
    by_cases ht : p.hasTable m = true
    · rw [if_pos ht, List.append_assoc]
      simp [Network.visited]
    · rw [if_neg ht, passedOn_of_not_hasTable (by simpa using ht)]
      simp [Network.visited]
  rw [wandered, wandered, htried, hvisited, List.findSome?_cons, hfault, List.findSome?_append]
  cases hinner : (p.exportNetwork.tried (m :: path) inner).findSome? p.readFault? with
  | some e => rfl
  | none =>
    rw [Option.none_or, settled, ok_bind, wandered]
    apply settled_congr
    have hfilter := ModuleTree.filter_firsts p m (p.exportNetwork.visited (m :: path) inner)
    rw [Table.entries_union, Table.firsts_firsts_append, ← List.append_assoc]
    apply Table.firsts_append_congr _ rfl
    rw [← Table.firsts_append_firsts, ← List.flatMap_cons, ← hfilter]
    rfl

/-- A fold over wildcard re-exports goes through them as wandering does, if the tables of the
modules off the path are known to. -/
theorem foldlM_unsharedStep {path : List SymbolId}
    (hpath : ∀ x ∈ path, ∃ es, p.wildcards x = .ok es)
    (hoff : ∀ x inner, x ∉ path → p.wildcards x = .ok inner →
      p.unsharedTable path x = p.wandered (x :: path) (p.ownExports x) inner)
    (own : Table Key SymbolId) (ds : List NodeId) :
    ds.foldlM (p.unsharedStep path) own = p.wandered path own ds := by
  induction ds generalizing own with
  | nil =>
    have hentries : Table.firsts (own.entries ++ []) = own.entries := by
      rw [List.append_nil, Table.firsts_of_nodup own.nodup]
    simp only [wandered, Network.tried, Network.visited, Network.wander, List.map_nil,
      List.findSome?_nil, settled, List.filterMap_nil, List.flatMap_nil, hentries]
    rfl
  | cons d rest ih =>
    rw [List.foldlM_cons]
    cases hd : p.wildcardModule? d with
    | error e =>
      rw [wandered_of_fault (readFault?_of_error hd), unsharedStep, hd]
      rfl
    | ok r =>
      cases r with
      | none =>
        rw [unsharedStep_of_none hd, ok_bind, ih, wandered_cons_of_path (readFault?_of_none hd)]
        intro a ha
        rw [target_eq_some_iff, hd] at ha
        cases ha.1
      | some x =>
        rw [unsharedStep_of_module hd]
        by_cases hx : x ∈ path
        · obtain ⟨es, hes⟩ := hpath x hx
          rw [unsharedTable_of_mem hx, wandered_cons_of_path]
          · exact ih own
          · rw [readFault?_of_module hd, hes]
          · intro a ha
            obtain ⟨hda, _⟩ := target_eq_some_iff.mp ha
            obtain rfl : x = a := Option.some.inj (Except.ok.inj (hd.symm.trans hda))
            exact hx
        · cases hi : p.wildcards x with
          | error e =>
            rw [unsharedTable_of_error hx hi, wandered_of_fault]
            · rfl
            · rw [readFault?_of_module hd, hi]
          | ok inner =>
            rw [hoff x inner hx hi, wandered_cons_of_module rest hd hx hi]
            cases p.wandered (x :: path) (p.ownExports x) inner with
            | error e => rfl
            | ok u => exact ih _

/-- By the plain recursion a module has the first entries on all ways that do not come back. -/
theorem unsharedTable_eq_wandered {path : List SymbolId} {m : SymbolId} {ds : List NodeId}
    (hpath : ∀ x ∈ path, ∃ es, p.wildcards x = .ok es) (hm : m ∉ path)
    (h : p.wildcards m = .ok ds) :
    p.unsharedTable path m = p.wandered (m :: path) (p.ownExports m) ds := by
  induction path, m using unsharedTable.induct p generalizing ds with
  | case1 path m hmem => exact absurd hmem hm
  | case2 path m _ e he => simp [he] at h
  | case3 path m _ es hes ih =>
    have hpath : ∀ x ∈ m :: path, ∃ es, p.wildcards x = .ok es :=
      List.forall_mem_cons.mpr ⟨⟨es, hes⟩, hpath⟩
    rw [unsharedTable_of_wildcards hm h]
    exact foldlM_unsharedStep hpath (fun x inner hx hi => ih x hpath hx hi) _ ds

/-- The exports of a module by name, found with one list of the modules seen on all branches, are
those of the plain recursion, in which a module is left out only below itself: the same entries
in the same order, or the same fault. -/
theorem exportTable_eq_unsharedTable (p : Program) (m : SymbolId) :
    p.exportTable m = p.unsharedTable [] m := by
  cases h : p.wildcards m with
  | error e =>
    rw [unsharedTable_of_error List.not_mem_nil h, exportTable, h]
  | ok ds =>
    rw [exportTable_eq_settled h, unsharedTable_eq_wandered (by simp) List.not_mem_nil h,
      wandered, Network.findSome?_tried]
    apply settled_congr
    exact Table.firsts_append_congr rfl (Network.firsts_visited p.passedOn ds).symm

end Program

end ApiSurface
