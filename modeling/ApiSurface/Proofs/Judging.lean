import ApiSurface.Proofs.Kinds

/-! Steps of loading that end either way. Such a step judges an entry: if it ends without a fault,
then the values of the entry are of the right kinds, and what they say is right. If it has a fault
of the document, then they say something wrong, and otherwise one of them is of a wrong kind. No
fault is one of loose parts. -/

namespace ApiSurface

/-- The faults of a program whose parts do not belong together: a wildcard re-export without an
owner, a file that stands for nothing, or a node outside of all files. -/
def Fault.Dangling : Fault → Prop
  | .snapshot (.noOwner _) => True
  | .entry (.noModule _) => True
  | .wildcard (.fileNotModule _) => True
  | .misuse (.detached _ _) => True
  | _ => False

/-- The defects of a value that is of a wrong kind for its place in a document. -/
def Defect.WrongKind : Defect → Prop
  | .wrongShape | .tableNotObject | .flagNotText => True
  | _ => False

/-- What a fault says about an entry. -/
inductive Fault.Blames (kinds sound : Prop) : Fault → Prop where
  | document {why : SnapshotFault} (hw : ∀ file, why ≠ .noOwner file) (h : ¬sound) :
      Blames kinds sound (.snapshot why)
  | value {why : Defect} (hw : why.WrongKind) (h : ¬kinds) : Blames kinds sound (.defect why)

namespace Fault.Blames

variable {kinds kinds' sound sound' : Prop} {e : Fault}

theorem imp (h : e.Blames kinds sound) (hk : kinds' → kinds) (hs : sound' → sound) :
    e.Blames kinds' sound' := by
  cases h with
  | document hw hn => exact .document hw (mt hs hn)
  | value hw hn => exact .value hw (mt hk hn)

theorem not_dangling (h : e.Blames kinds sound) : ¬e.Dangling := by
  cases h with
  | @document why hw _ =>
    cases why with
    | noOwner file => exact absurd rfl (hw file)
    | _ => exact id
  | value => exact id

end Fault.Blames

namespace Snapshot

section Judges

variable {α β : Type} {d : Draft} {kinds kinds' sound sound' : Prop} {post : α → Draft → Prop}

/-- How a step judges an entry. -/
def Judges (x : Load α) (d : Draft) (kinds sound : Prop) (post : α → Draft → Prop) : Prop :=
  match x.run d with
  | .ok (a, d') => kinds ∧ sound ∧ post a d'
  | .error e => e.Blames kinds sound

theorem Judges.yields {x : Load α} (h : Judges x d kinds sound post) :
    Yields x d fun a d' => sound ∧ post a d' := by
  intro a d' hr
  simp only [Judges, hr] at h
  exact h.2

theorem Judges.mono {x : Load α} {post' : α → Draft → Prop} (h : Judges x d kinds sound post)
    (hp : ∀ a d', post a d' → post' a d') : Judges x d kinds sound post' := by
  unfold Judges at h ⊢
  split at h
  · exact ⟨h.1, h.2.1, hp _ _ h.2.2⟩
  · exact h

/-- The same judgement in other words. -/
theorem Judges.congr {x : Load α} (h : Judges x d kinds sound post) (hk : kinds' ↔ kinds)
    (hs : sound' ↔ sound) : Judges x d kinds' sound' post := by
  rwa [propext hk, propext hs]

theorem Judges.and {x : Load α} {post' : α → Draft → Prop} (h : Judges x d kinds sound post)
    (hy : Yields x d post') : Judges x d kinds sound fun a d' => post a d' ∧ post' a d' := by
  unfold Judges at h ⊢
  split at h
  · rename_i hr
    exact ⟨h.1, h.2.1, h.2.2, hy _ _ hr⟩
  · exact h

theorem judges_pure {a : α} (hk : kinds) (hs : sound) (h : post a d) :
    Judges (pure a) d kinds sound post :=
  ⟨hk, hs, h⟩

theorem judges_fail {why : SnapshotFault} (hw : ∀ file, why ≠ .noOwner file) (hs : ¬sound) :
    Judges (fail why) d kinds sound post :=
  Fault.Blames.document hw hs

theorem judges_defect {why : Defect} (hw : why.WrongKind) (hk : ¬kinds) :
    Judges (throw (.defect why)) d kinds sound post :=
  Fault.Blames.value hw hk

/-- Two steps behind each other. What is asked of both is asked of the first one, and the second
one judges it when the first one has ended. -/
theorem judges_bind {x : Load α} {f : α → Load β} {post : β → Draft → Prop}
    {mid : α → Draft → Prop} (hx : Judges x d kinds' sound' mid) (hk : kinds → kinds')
    (hs : sound → sound')
    (hf : ∀ a d', kinds' → sound' → mid a d' → Judges (f a) d' kinds sound post) :
    Judges (x >>= f) d kinds sound post := by
  unfold Judges at hx ⊢
  rw [StateT.run_bind]
  cases hr : x.run d with
  | error e =>
    rw [hr] at hx
    exact hx.imp hk hs
  | ok r =>
    rw [hr] at hx
    exact hf r.1 r.2 hx.1 hx.2.1 hx.2.2

/-- A step that ends without a fault, whatever the entry is. -/
theorem judges_after {x : Load α} {f : α → Load β} {post : β → Draft → Prop} {a : α} {d' : Draft}
    (hx : x.run d = .ok (a, d')) (hf : Judges (f a) d' kinds sound post) :
    Judges (x >>= f) d kinds sound post := by
  unfold Judges at hf ⊢
  rwa [StateT.run_bind, hx, ok_bind]

/-- Looking at the draft changes nothing. -/
theorem judges_get {f : Draft → Load β} {post : β → Draft → Prop}
    (hf : Judges (f d) d kinds sound post) : Judges (get >>= f) d kinds sound post :=
  judges_after rfl hf

theorem judges_forM {l : List α} {f : α → Load Unit} {I : Draft → Prop} {P Q : α → Prop}
    (step : ∀ a ∈ l, ∀ d, I d → Judges (f a) d (P a) (Q a) fun _ => I) (h : I d) :
    Judges (l.forM f) d (∀ a ∈ l, P a) (∀ a ∈ l, Q a) fun _ => I := by
  induction l generalizing d with
  | nil => exact judges_pure (by simp) (by simp) h
  | cons a l ih =>
    rw [List.forall_mem_cons, List.forall_mem_cons]
    refine judges_bind (step a (List.mem_cons_self ..) d h) And.left And.left ?_
    intro _ d' hP hQ h'
    exact (ih (fun b hb => step b (List.mem_cons_of_mem _ hb)) h').congr (and_iff_right hP)
      (and_iff_right hQ)

/-! Reading the members of an entry. -/

theorem judges_entry (j : Json) :
    Judges (entry j) d (IsObject j) True fun members d' => j = .obj members ∧ d' = d := by
  unfold entry
  split
  · exact judges_pure (isObject_obj _) trivial ⟨rfl, rfl⟩
  · rename_i hj
    refine judges_defect trivial ?_
    rintro ⟨members, h⟩
    exact hj members h

theorem judges_keyOf (v : Json) :
    Judges (keyOf v) d (HasKey v) True fun k d' => v.key? = some k ∧ d' = d := by
  unfold keyOf
  split
  · rename_i k hk
    exact judges_pure ⟨k, hk⟩ trivial ⟨hk, rfl⟩
  · rename_i hk
    exact judges_defect trivial fun ⟨k, h⟩ => nomatch hk.symm.trans h

theorem judges_required (kind : EntryKind) (members : List (String × Json)) (name : String) :
    Judges (required kind members name) d True (memberOf (.obj members) name).isSome
      fun v d' => memberOf (.obj members) name = some v ∧ d' = d := by
  unfold required
  rw [memberOf_obj]
  split
  · rename_i v hv
    exact judges_pure trivial (by simp [hv]) ⟨hv, rfl⟩
  · rename_i hv
    exact judges_fail (by simp) (by simp [hv])

theorem judges_listed (members : List (String × Json)) (name : String) :
    Judges (listed members name) d (∀ v ∈ memberOf (.obj members) name, IsList v) True
      fun l d' => l = entriesOf (.obj members) name ∧ d' = d := by
  unfold listed entriesOf
  rw [memberOf_obj]
  split
  · rename_i hm
    exact judges_pure (by simp [hm]) trivial ⟨by simp [hm], rfl⟩
  · rename_i v hm
    split
    · rename_i items hi
      refine judges_pure (fun w hw => ?_) trivial ⟨by simp [hm, hi], rfl⟩
      exact Option.some.inj (hm.symm.trans hw) ▸ ⟨items, hi⟩
    · rename_i hi
      refine judges_defect trivial fun hk => ?_
      obtain ⟨items, h⟩ := hk v hm
      cases hi.symm.trans h

theorem judges_exported (members : List (String × Json)) :
    Judges (exported members) d (∀ v ∈ memberOf (.obj members) "exports", IsObject v) True
      fun table d' => table = exportsIn (.obj members) ∧ d' = d := by
  unfold exported exportsIn
  rw [memberOf_obj]
  split
  · rename_i hm
    exact judges_pure (by simp [hm]) trivial ⟨by simp [hm], rfl⟩
  · rename_i table hm
    exact judges_pure (by simp [hm]) trivial ⟨by simp [hm], rfl⟩
  · rename_i v hv hm
    refine judges_defect trivial fun hk => ?_
    obtain ⟨table, rfl⟩ := hk v hm
    exact hv table rfl

theorem judges_nameOf (v : Json) :
    Judges (liftM (nameOf v) : Load Name) d (HasKey v) True fun _ d' => d' = d := by
  have hname : v.name?.isSome ↔ HasKey v := by
    unfold Json.name? HasKey
    split <;> simp [*]
  unfold nameOf
  split
  · rename_i n hn
    exact judges_pure (hname.mp (by simp [hn])) trivial rfl
  · rename_i hn
    exact judges_defect trivial fun hk => by simpa [hn] using hname.mpr hk

end Judges

end Snapshot

end ApiSurface
