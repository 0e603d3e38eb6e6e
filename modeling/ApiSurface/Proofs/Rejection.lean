import ApiSurface.Command
import ApiSurface.Proofs.Acceptance
import ApiSurface.Tool

/-! How reading a file ends, whatever its bytes are, and what commands and tools make of it. A fault
of the document is told to the user. A value of a wrong kind is no such fault: reading passes it on
as it is, and so does everything that reads. This holds for any console. Half of a pair of units
that stands alone is no character, so documents that depend on what stands for it are left out. -/

namespace ApiSurface

namespace Snapshot

/-- The document in a file, if its bytes are a text and the text is a document. -/
def document? (half : Nat → Char) (bytes : List UInt8) : Option Json :=
  match Text.utf8Decode bytes with
  | .ok cs => (Json.parse (Text.foldLineEnds cs) half).toOption
  | .error _ => none

/-- The faults of a document that is beyond the limits of the reader. -/
def BeyondLimits (e : Fault) : Prop := (∃ digits, e = .digits digits) ∨ e = .defect .tooDeep

variable {path : String} {bytes : List UInt8} {half : Nat → Char}

theorem read_of_no_document (h : document? half bytes = none) :
    ∃ e, read path (.bytes bytes) half = .error e ∧
      ((∃ why, e = .snapshot why) ∨ BeyondLimits e) := by
  unfold document? at h
  unfold read
  split at h
  · rename_i cs hcs
    rw [show text path (.bytes bytes) = .ok (Text.foldLineEnds cs) by rw [text, hcs], ok_bind]
    cases hp : Json.parse (Text.foldLineEnds cs) half with
    | ok doc => simp [hp, Except.toOption] at h
    | error f =>
      cases f with
      | malformed why => exact ⟨_, rfl, Or.inl ⟨_, rfl⟩⟩
      | digits count => exact ⟨_, rfl, Or.inr (Or.inl ⟨count, rfl⟩)⟩
      | tooDeep => exact ⟨_, rfl, Or.inr (Or.inr rfl)⟩
  · rename_i fault hfault
    rw [text, hfault]
    exact ⟨_, rfl, Or.inl ⟨_, rfl⟩⟩

theorem read_of_document {doc : Json} (h : document? half bytes = some doc) :
    (IsObject doc → read path (.bytes bytes) half = load doc) ∧
      (¬IsObject doc → read path (.bytes bytes) half = .error (.snapshot (.notObject path))) := by
  unfold document? at h
  split at h
  · rename_i cs hcs
    have hp : Json.parse (Text.foldLineEnds cs) half = .ok doc := by
      cases hp : Json.parse (Text.foldLineEnds cs) half with
      | error f => simp [hp, Except.toOption] at h
      | ok doc' => simpa [hp, Except.toOption] using h
    unfold read
    rw [show text path (.bytes bytes) = .ok (Text.foldLineEnds cs) by rw [text, hcs], ok_bind, hp]
    constructor
    · rintro ⟨members, rfl⟩
      rfl
    · intro hno
      cases doc with
      | obj members => exact absurd (isObject_obj members) hno
      | _ => rfl
  · cases h

theorem exists_load_iff {doc : Json} : (∃ p, load doc = .ok p) ↔ Kinded doc ∧ Sound doc := by
  rcases load_judges doc with ⟨p, hp, hk, hs, _⟩ | ⟨e, he, hb⟩
  · exact iff_of_true ⟨p, hp⟩ ⟨hk, hs⟩
  · refine iff_of_false (fun ⟨p, hp⟩ => nomatch he.symm.trans hp) fun ⟨hk, hs⟩ => ?_
    cases hb with
    | document _ hn => exact hn hs
    | value _ hn => exact hn hk

theorem blames_of_load {doc : Json} {e : Fault} (h : load doc = .error e) :
    e.Blames (Kinded doc) (Sound doc) := by
  rcases load_judges doc with ⟨p, hp, _⟩ | ⟨e', he, hb⟩
  · cases hp.symm.trans h
  · exact Except.error.inj (he.symm.trans h) ▸ hb

end Snapshot

open Snapshot

/-- A command whose snapshot cannot be read ends with the fault of reading it. -/
theorem Command.run_of_fault {c : Command} {content : Content} {host : Host} {e : Fault}
    (h : read c.snapshot content host.half = .error e) :
    c.run content host = failure e host.console := by
  unfold run
  rw [h]

/-- A fault of the input is told if the console takes its line. -/
theorem Command.failure_of_report {e : Fault} {message err : String} {console : Console}
    (he : e.report? = some message) (h : console ("[red]Error:[/red] " ++ message) = some err) :
    failure e console = .ok ⟨1, "", err⟩ := by
  simp only [failure, he, Page.print, h, ok_bind, String.append_empty]
  rfl

namespace Tool

/-- A call of a tool with all the arguments that it needs, on a snapshot that is a file. -/
structure Asks (place : Place) (tool : Tool) (arguments : List (String × Json)) (path : String)
    (bytes : List UInt8) : Prop where
  known : tool ∈ all
  complete : ∀ r, .str r ∈ entriesOf tool.schema "required" → (Json.member? arguments r).isSome
  snapshot : ∃ s, Json.member? arguments "snapshot" = some (.str s) ∧
    path = Path.within place.directory s
  found : place.look path = .bytes bytes

theorem argument_of_isSome {arguments : List (String × Json)} {r : String}
    (h : (Json.member? arguments r).isSome) : ∃ v, argument arguments r = .ok v := by
  obtain ⟨v, hv⟩ := Option.isSome_iff_exists.mp h
  exact ⟨v, by rw [argument, hv]⟩

/-- Every tool first reads its snapshot. -/
theorem Asks.result_eq {place : Place} {tool : Tool} {arguments : List (String × Json)}
    {path : String} {bytes : List UInt8} (h : Asks place tool arguments path bytes)
    (half : Nat → Char) : ∃ f, result place tool.name arguments half =
      (read path (.bytes bytes) half).mapError Refusal.fault >>= f := by
  obtain ⟨s, hs, hpath⟩ := h.snapshot
  have harg : argument arguments "snapshot" = .ok (.str s) := by rw [argument, hs]
  have hprogram : program place half (.str s) =
      (read path (.bytes bytes) half).mapError .fault := by
    rw [program, ← hpath, h.found]
  have hcomplete := h.complete
  have hknown := h.known
  simp only [all, List.mem_cons, List.not_mem_nil, or_false] at hknown
  rcases hknown with rfl | rfl | rfl
  · obtain ⟨entry, he⟩ := argument_of_isSome (hcomplete "entry" (by simp [form, entriesOf,
      memberOf, Json.member?, Json.items?]))
    rw [result, if_pos rfl, harg, he, ← hprogram]
    exact ⟨_, rfl⟩
  · obtain ⟨entry, he⟩ := argument_of_isSome (hcomplete "entry" (by simp [form, entriesOf,
      memberOf, Json.member?, Json.items?]))
    obtain ⟨name, hn⟩ := argument_of_isSome (hcomplete "name" (by simp [form, entriesOf,
      memberOf, Json.member?, Json.items?]))
    rw [result, if_neg (by decide), if_pos rfl, harg, he, hn, ← hprogram]
    exact ⟨_, rfl⟩
  · rw [result, if_neg (by decide), if_neg (by decide), if_pos rfl, harg, ← hprogram]
    exact ⟨_, rfl⟩

theorem Asks.call_of_fault {place : Place} {tool : Tool} {arguments : List (String × Json)}
    {path : String} {bytes : List UInt8} {half : Nat → Char} {e : Fault}
    (h : Asks place tool arguments path bytes) (he : read path (.bytes bytes) half = .error e) :
    call place tool.name arguments half =
      match e.report? with
      | some message => .ok (errorJson message).toLine
      | none => .error e := by
  obtain ⟨f, hf⟩ := h.result_eq half
  rw [call, hf, he]
  rfl

end Tool

/-- How reading a file ends, if what is found in it is the same whatever stands for half of a pair
that stands alone. Bytes that are no document, or one that is no object, are a fault of the
document, apart from the limits of the reader. An object is loaded if and only if its values are of
the right kinds and it is sound. If only the second part fails, then the fault is one of the
document, which a command tells on its console with status one and a tool with an error as its
result. If only the first part fails, then it is a defect, and commands and tools pass it on. -/
theorem read_ends {bytes : List UInt8} {found : Option Json}
    (hfound : ∀ half, document? half bytes = found) (path : String) (host : Host) :
    (found = none → ∃ e, read path (.bytes bytes) host.half = .error e ∧
      ((∃ why, e = .snapshot why) ∨ BeyondLimits e)) ∧
    (∀ doc, found = some doc →
      (¬IsObject doc → read path (.bytes bytes) host.half = .error (.snapshot (.notObject path))) ∧
      (IsObject doc →
        ((∃ p, read path (.bytes bytes) host.half = .ok p) ↔ Kinded doc ∧ Sound doc) ∧
        (∀ e, read path (.bytes bytes) host.half = .error e →
          (∃ why, e = .snapshot why ∧ ¬Sound doc) ∨
            ∃ why : Defect, why.WrongKind ∧ e = .defect why ∧ ¬Kinded doc))) ∧
    (∀ why, read path (.bytes bytes) host.half = .error (.snapshot why) →
      (∀ c : Command, c.snapshot = path →
        ∀ err, host.console ("[red]Error:[/red] " ++ why.message) = some err →
          c.run (.bytes bytes) host = .ok ⟨1, "", err⟩) ∧
      ∀ place tool arguments, Tool.Asks place tool arguments path bytes →
        Tool.call place tool.name arguments host.half =
          .ok (Tool.errorJson why.message).toLine) ∧
    ∀ why, read path (.bytes bytes) host.half = .error (.defect why) →
      (∀ c : Command, c.snapshot = path → c.run (.bytes bytes) host = .error (.defect why)) ∧
      ∀ place tool arguments, Tool.Asks place tool arguments path bytes →
        Tool.call place tool.name arguments host.half = .error (.defect why) := by
  obtain rfl := hfound host.half
  refine ⟨read_of_no_document, fun doc hdoc => ⟨(read_of_document hdoc).2, fun hobj => ?_⟩,
    fun why hr => ⟨?_, fun place tool arguments hasks => hasks.call_of_fault hr⟩,
    fun why hr => ⟨?_, fun place tool arguments hasks => hasks.call_of_fault hr⟩⟩
  · rw [(read_of_document hdoc).1 hobj]
    refine ⟨exists_load_iff, fun e he => ?_⟩
    cases blames_of_load he with
    | @document why _ hs => exact Or.inl ⟨why, rfl, hs⟩
    | @value why hw hk => exact Or.inr ⟨why, hw, rfl, hk⟩
  · rintro c rfl err herr
    rw [c.run_of_fault hr]
    exact Command.failure_of_report rfl herr
  · rintro c rfl
    exact c.run_of_fault hr

/-! A file whose symbols are a number. -/

def Snapshot.numberedBytes : List UInt8 := "\x7b\"symbols\": 5\x7d".toUTF8.toList

def Snapshot.numberedDoc : Json := .obj [("symbols", .int 5)]

theorem Snapshot.sound_numberedDoc : Sound numberedDoc := by
  constructor
  case symbols => exact ⟨nofun, nofun, List.Pairwise.nil⟩
  all_goals simp [numberedDoc, entriesOf, memberOf, Json.member?, Json.items?]

theorem Snapshot.not_kinded_numberedDoc : ¬Kinded numberedDoc := by
  intro h
  obtain ⟨items, hi⟩ := h.symbols.1 (.int 5) rfl
  cases hi

/-- It is a sound document that is not loaded, and the defect is not told to anyone. -/
theorem read_numberedBytes :
    (∀ half, document? half numberedBytes = some numberedDoc) ∧ Sound numberedDoc ∧
      ∃ why : Defect, why.WrongKind ∧ read "a" (.bytes numberedBytes) = .error (.defect why) ∧
        (Command.globals "a" false).run (.bytes numberedBytes) = .error (.defect why) := by
  have hdoc : ∀ half, document? half numberedBytes = some numberedDoc := by
    intro half
    cbv
  have hends := read_ends hdoc "a" {}
  dsimp only at hends
  obtain ⟨-, hobject, -, hdefect⟩ := hends
  obtain ⟨hiff, hcases⟩ := (hobject numberedDoc rfl).2 (isObject_obj _)
  refine ⟨hdoc, sound_numberedDoc, ?_⟩
  cases hr : read "a" (.bytes numberedBytes) with
  | ok p => exact absurd (hiff.mp ⟨p, hr⟩).1 not_kinded_numberedDoc
  | error e =>
    rcases hcases e hr with ⟨_, _, hs⟩ | ⟨why, hw, rfl, _⟩
    · exact absurd sound_numberedDoc hs
    · exact ⟨why, hw, rfl, (hdefect why hr).1 _ rfl⟩

end ApiSurface
