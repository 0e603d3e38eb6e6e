import ApiSurface.Text.Markup
import Mathlib.Data.List.Basic

/-! Marked text by its parts, and what is assumed of a console. A text is cut into tags, tags that a
backslash keeps as text, and text without brackets. A console that reads markup prints such a text
without its tags, or refuses it if a closing tag has nothing to close. Brackets that hold anything
else than the name of a style, and more than one backslash in front of a bracket, are left to the
console. The console without colours reads markup in this sense. -/

namespace ApiSurface

/-! ### Parts -/

/-- What the brackets of a tag hold. -/
inductive Mark where
  | opening (style : String)
  | closing (style : String)

namespace Mark

def body : Mark → String
  | .opening style => style
  | .closing style => "/" ++ style

/-- The name of a style begins with a small letter and has no signs but blanks and dashes. -/
def isName (style : String) : Bool :=
  style.toList.head?.any Char.isLower &&
    style.toList.all fun c => c.isAlphanum || c = ' ' || c = '-' || c = '_'

/-- A tag with the name of a style, or a closing tag without a name. -/
def Proper : Mark → Prop
  | .opening style => isName style = true
  | .closing style => style = "" ∨ isName style = true

end Mark

/-- A text in which nothing is read as markup, and that keeps no tag behind it: it has no opening
bracket and does not end with a backslash. -/
def Text.Plain (s : String) : Prop := '[' ∉ s.toList ∧ s.toList.getLast? ≠ some '\\'

instance (s : String) : Decidable (Text.Plain s) := inferInstanceAs (Decidable (_ ∧ _))

inductive Part where
  | text (s : String)
  | tag (m : Mark)
  /-- A tag with a backslash in front. -/
  | kept (m : Mark)

namespace Part

def source : Part → String
  | .text s => s
  | .tag m => "[" ++ m.body ++ "]"
  | .kept m => "\\[" ++ m.body ++ "]"

/-- What is to be seen of a part. -/
def visible : Part → String
  | .text s => s
  | .tag _ => ""
  | .kept m => "[" ++ m.body ++ "]"

def Proper : Part → Prop
  | .text s => Text.Plain s
  | .tag m => m.Proper
  | .kept m => m.Proper

/-- The styles that are open behind a part, innermost first. A closing tag without a name closes the
innermost style, and one with a name the innermost style of that name. None when there is no such
style. -/
def after? (same : String → String → Bool) (styles : List String) : Part → Option (List String)
  | .text _ => some styles
  | .kept _ => some styles
  | .tag (.opening style) => some (style :: styles)
  | .tag (.closing style) =>
    if style = "" then styles.tail?
    else if styles.any (same style) then some (styles.eraseP (same style))
    else none

end Part

/-- A marked text, cut into its parts. -/
abbrev Marked := List Part

namespace Marked

def source (l : Marked) : String := String.join (l.map Part.source)

def visible (l : Marked) : String := String.join (l.map Part.visible)

def Proper (l : Marked) : Prop := ∀ x ∈ l, x.Proper

/-- Every closing tag closes a style. -/
def Fits (same : String → String → Bool) (l : Marked) : Prop :=
  (l.foldlM (Part.after? same) []).isSome = true

instance (same : String → String → Bool) (l : Marked) : Decidable (Fits same l) :=
  inferInstanceAs (Decidable (_ = true))

theorem source_append (l l' : Marked) : source (l ++ l') = source l ++ source l' := by
  rw [source, List.map_append, String.join_append]
  rfl

theorem visible_append (l l' : Marked) : visible (l ++ l') = visible l ++ visible l' := by
  rw [visible, List.map_append, String.join_append]
  rfl

theorem source_cons (x : Part) (l : Marked) : source (x :: l) = x.source ++ source l := by
  rw [source, List.map_cons, String.join_cons]
  rfl

theorem visible_cons (x : Part) (l : Marked) : visible (x :: l) = x.visible ++ visible l := by
  rw [visible, List.map_cons, String.join_cons]
  rfl

end Marked

/-- What is assumed of a console. It prints a marked text without its tags and with the tags that a
backslash keeps, and it refuses the text if a closing tag has nothing to close. Which names are the
same style is up to the console. So are the texts that it prints as they are: it may break wide
lines and put signs in the place of their names. -/
structure Console.Reads (console : Console) (same : String → String → Bool)
    (keeps : String → Prop) : Prop where
  same_self : ∀ style, Mark.isName style = true → same style style = true
  prints : ∀ l : Marked, l.Proper → l.Fits same → keeps l.visible →
    console l.source = some (l.visible ++ "\n")
  refuses : ∀ l : Marked, l.Proper → ¬l.Fits same → console l.source = none

/-! ### Readings -/

/-- How a text is read: by its parts, and whether there is a backslash behind them. -/
structure Reading where
  parts : Marked
  slash : Bool

namespace Reading

/-- The backslash at the end of a text. -/
def ending (r : Reading) : String := if r.slash then "\\" else ""

/-- A reading of a text. -/
structure Of (r : Reading) (t : String) : Prop where
  proper : r.parts.Proper
  source : r.parts.source ++ r.ending = t

/-- A text with a closing tag behind it. A backslash at its end keeps the tag. -/
def beforeTag (r : Reading) (style : String) : Marked :=
  r.parts ++ [if r.slash then .kept (.closing style) else .tag (.closing style)]

/-- A text with another one behind it. -/
def beforeText (r : Reading) (s : String) : Marked := r.parts ++ [.text (r.ending ++ s)]

/-- What is to be seen of a text in front of a closing tag, or in front of text. -/
def seen (r : Reading) : Option String → String
  | some style => (r.beforeTag style).visible
  | none => r.parts.visible ++ r.ending

/-- A text without markup. -/
def plain (s : String) : Reading := ⟨[.text s], false⟩

theorem plain_of {s : String} (h : Text.Plain s) : (plain s).Of s :=
  ⟨List.forall_mem_singleton.mpr h, by simp [plain, ending, Marked.source, Part.source]⟩

theorem seen_plain (next : Option String) (s : String) : (plain s).seen next = s := by
  cases next <;> simp [seen, beforeTag, plain, ending, Marked.visible, Part.visible]

end Reading

/-! ### Texts that are seen as they are -/

namespace Part

/-- A tag has more characters than are to be seen of it. -/
theorem length_visible (x : Part) : x.visible.length ≤ x.source.length ∧
    (x.visible.length = x.source.length → ∃ s, x = .text s) := by
  have hopen : "[".length = 1 := rfl
  have hkept : "\\[".length = 2 := rfl
  cases x with
  | text s => exact ⟨Nat.le_refl _, fun _ => ⟨s, rfl⟩⟩
  | tag m =>
    simp only [visible, source, String.length_append, String.length_empty]
    exact ⟨by omega, fun h => by omega⟩
  | kept m =>
    simp only [visible, source, String.length_append]
    exact ⟨by omega, fun h => by omega⟩

theorem exists_text {x : Part} (h : '[' ∉ x.source.toList) : ∃ s, x = .text s := by
  cases x with
  | text s => exact ⟨s, rfl⟩
  | tag m => exact absurd (by simp [source]) h
  | kept m => exact absurd (by simp [source]) h

end Part

theorem Text.plain_append {s t : String} (hs : Plain s) (ht : Plain t) : Plain (s ++ t) := by
  rw [Plain, String.toList_append, List.mem_append, List.getLast?_append]
  refine ⟨not_or.mpr ⟨hs.1, ht.1⟩, ?_⟩
  cases h : t.toList.getLast? with
  | none => exact hs.2
  | some c =>
    have hlast := ht.2
    rwa [h] at hlast

namespace Marked

variable {l : Marked}

theorem length_visible (l : Marked) : l.visible.length ≤ l.source.length ∧
    (l.visible.length = l.source.length → ∀ x ∈ l, ∃ s, x = .text s) := by
  induction l with
  | nil => exact ⟨Nat.le_refl _, fun _ => nofun⟩
  | cons x l ih =>
    have hx := x.length_visible
    rw [visible_cons, source_cons, String.length_append, String.length_append]
    refine ⟨by omega, fun h => List.forall_mem_cons.mpr ⟨hx.2 ?_, ih.2 ?_⟩⟩
    · omega
    · omega

/-- Of a text without tags all is to be seen, and of no other one. -/
theorem visible_eq_source_iff : l.visible = l.source ↔ ∀ x ∈ l, ∃ s, x = .text s := by
  constructor
  · intro h
    exact l.length_visible.2 (congrArg String.length h)
  · intro h
    refine congrArg String.join (List.map_congr_left fun x hx => ?_)
    obtain ⟨s, rfl⟩ := h x hx
    rfl

theorem plain_source (hl : l.Proper) (h : ∀ x ∈ l, ∃ s, x = .text s) : Text.Plain l.source := by
  induction l with
  | nil => decide
  | cons x l ih =>
    obtain ⟨hx, hrest⟩ := List.forall_mem_cons.mp hl
    obtain ⟨⟨s, rfl⟩, htexts⟩ := List.forall_mem_cons.mp h
    rw [source_cons]
    exact Text.plain_append hx (ih hrest htexts)

theorem notMem_source_iff (hl : l.Proper) :
    '[' ∉ l.source.toList ↔ ∀ x ∈ l, ∃ s, x = .text s := by
  constructor
  · intro h x hx
    refine Part.exists_text fun hmem => h ?_
    rw [source, String.toList_join]
    exact List.mem_flatMap.mpr ⟨x.source, List.mem_map.mpr ⟨x, hx, rfl⟩, hmem⟩
  · intro h
    exact (plain_source hl h).1

end Marked

namespace Reading

variable {r : Reading} {t : String}

/-- In front of text, a text is seen as it is exactly if it has no bracket. -/
theorem seen_text_eq_iff (h : r.Of t) : r.seen none = t ↔ '[' ∉ t.toList := by
  have hending : '[' ∉ r.ending.toList := by
    rw [ending]
    cases r.slash <;> decide
  have hmem : '[' ∉ t.toList ↔ '[' ∉ r.parts.source.toList := by
    rw [← h.source, String.toList_append, List.mem_append, not_or]
    exact and_iff_left hending
  rw [hmem, Marked.notMem_source_iff h.proper, ← Marked.visible_eq_source_iff, seen, ← h.source]
  exact String.append_left_inj r.ending

/-- In front of a closing tag, a text is seen as it is exactly if it is plain. -/
theorem seen_tag_eq_iff (h : r.Of t) (style : String) : r.seen (some style) = t ↔ Text.Plain t := by
  obtain ⟨parts, slash⟩ := r
  obtain ⟨hproper, hsource⟩ := h
  rw [seen, beforeTag, Marked.visible_append, ← hsource]
  cases slash with
  | false =>
    change Marked.visible parts ++ "" = Marked.source parts ++ "" ↔ Text.Plain (_ ++ "")
    rw [String.append_empty, String.append_empty, Marked.visible_eq_source_iff]
    constructor
    · exact Marked.plain_source hproper
    · intro hplain
      exact (Marked.notMem_source_iff hproper).mp hplain.1
  | true =>
    -- the text ends with a backslash, and what is seen with the bracket that it keeps
    have hlast : (Marked.source parts ++ "\\").toList.getLast? = some '\\' := by simp
    refine iff_of_false (fun heq => ?_) fun hplain => hplain.2 hlast
    have hbracket := congrArg (fun s => s.toList.getLast?) heq
    change _ = (Marked.source parts ++ "\\").toList.getLast? at hbracket
    rw [hlast] at hbracket
    have hend : Marked.visible [.kept (.closing style)] = "[/" ++ style ++ "]" := by
      simp [Marked.visible, Part.visible, Mark.body, ← String.append_assoc]
    change (_ ++ Marked.visible [.kept (.closing style)]).toList.getLast? = _ at hbracket
    rw [hend, String.toList_append, String.toList_append, ← List.append_assoc] at hbracket
    exact absurd (List.getLast?_concat.symm.trans hbracket) (by decide)

end Reading

/-! ### The console without colours -/

namespace Mark

theorem ne_bracket_of_isName {style : String} (h : isName style = true) :
    ∀ c ∈ style.toList, c ≠ '[' ∧ c ≠ ']' := by
  intro c hc
  have hall := List.all_eq_true.mp (Bool.and_eq_true_iff.mp h).2 c hc
  constructor
  · rintro rfl
    revert hall
    decide
  · rintro rfl
    revert hall
    decide

theorem exists_lower_of_isName {style : String} (h : isName style = true) :
    ∃ c more, style.toList = c :: more ∧ c.isLower = true := by
  obtain ⟨c, hc, hlower⟩ := (Option.any_eq_true ..).mp (Bool.and_eq_true_iff.mp h).1
  obtain ⟨more, hmore⟩ := List.head?_eq_some_iff.mp hc
  exact ⟨c, more, hmore, hlower⟩

/-- A proper tag is one for the console. -/
theorem Proper.body_eq {m : Mark} (h : m.Proper) : ∃ c more, m.body.toList = c :: more ∧
    Text.Tag.isStart c = true ∧ ∀ x ∈ more, x ≠ '[' ∧ x ≠ ']' := by
  cases m with
  | opening style =>
    obtain ⟨c, more, hmore, hc⟩ := exists_lower_of_isName h
    refine ⟨c, more, hmore, by simp [Text.Tag.isStart, hc], fun x hx => ?_⟩
    exact ne_bracket_of_isName h x (hmore ▸ List.mem_cons_of_mem c hx)
  | closing style =>
    refine ⟨'/', style.toList, by simp [body], by decide, ?_⟩
    rcases h with rfl | h
    · nofun
    · exact ne_bracket_of_isName h

end Mark

namespace Text

theorem Tag.at?_of_char {c : Char} (hb : c ≠ '[') (hs : c ≠ '\\') (s : List Char) :
    at? (c :: s) = none := by
  simp [at?, hs, hb]

/-- A backslash belongs to the tag behind it. -/
theorem Tag.at?_backslash (s : List Char) :
    at? ('\\' :: s) = (at? s).map fun t => ⟨t.slashes + 1, t.body⟩ := by
  unfold at?
  simp only [List.takeWhile_cons, decide_true, if_true, List.length_cons, List.drop_succ_cons]
  split
  · split <;> rfl
  · rfl

/-- No tag begins in a plain text. -/
theorem Tag.at?_append {s : List Char} (hne : s ≠ []) (hb : '[' ∉ s)
    (hs : s.getLast? ≠ some '\\') (r : List Char) : at? (s ++ r) = none := by
  induction s with
  | nil => exact absurd rfl hne
  | cons c s ih =>
    by_cases hc : c = '\\'
    · obtain rfl := hc
      cases s with
      | nil => exact absurd rfl hs
      | cons d s =>
        have hrest := ih (List.cons_ne_nil d s) (fun h => hb (List.mem_cons_of_mem _ h)) hs
        rw [List.cons_append, at?_backslash, hrest]
        rfl
    · exact at?_of_char (fun h => hb (h ▸ List.mem_cons_self ..)) hc _

theorem Tag.at?_mark {m : Mark} (hm : m.Proper) (r : List Char) :
    at? ('[' :: (m.body.toList ++ ']' :: r)) = some ⟨0, m.body.toList⟩ := by
  obtain ⟨c, more, hbody, hc, hfree⟩ := hm.body_eq
  have htake : (more ++ ']' :: r).takeWhile (fun x => x ≠ '[' && x ≠ ']') = more := by
    rw [List.takeWhile_append_of_pos]
    · simp
    · intro x hx
      simpa using hfree x hx
  have hdrop : ((more ++ ']' :: r).drop more.length).head? = some ']' := by simp
  rw [hbody, at?]
  change (if isStart c && ((more ++ ']' :: r).drop ((more ++ ']' :: r).takeWhile
    fun x => x ≠ '[' && x ≠ ']').length).head? = some ']' then
      some (⟨0, c :: (more ++ ']' :: r).takeWhile fun x => x ≠ '[' && x ≠ ']'⟩ : Tag) else none) = _
  simp only [htake, hdrop, hc]
  rfl

theorem pieces_skip (k : Nat) (s : List Char) : pieces k s = pieces 0 (s.drop k) := by
  induction k generalizing s with
  | zero => rfl
  | succ k ih =>
    cases s with
    | nil => rfl
    | cons c s => exact ih s

theorem pieces_of_tag {s : List Char} {t : Tag} (h : Tag.at? s = some t) :
    pieces 0 s = t.pieces ++ pieces 0 (s.drop t.length) := by
  cases s with
  | nil => cases h
  | cons c s =>
    rw [pieces, h]
    change t.pieces ++ pieces (t.slashes + t.body.length + 1) s = _
    rw [pieces_skip]
    rfl

/-- A plain text is read character by character. -/
theorem pieces_append {s : List Char} (hb : '[' ∉ s) (hs : s.getLast? ≠ some '\\') (r : List Char) :
    pieces 0 (s ++ r) = s.map .char ++ pieces 0 r := by
  induction s with
  | nil => rfl
  | cons c s ih =>
    have hnone := Tag.at?_append (List.cons_ne_nil c s) hb hs r
    have hrest := ih (fun h => hb (List.mem_cons_of_mem c h))
      fun h => hs (by simp [List.getLast?_cons, h])
    rw [List.cons_append] at hnone ⊢
    rw [pieces, hnone, hrest]
    rfl

end Text

open Text

/-- The pieces that the console makes of a part. -/
def Part.pieces : Part → List Piece
  | .text s => s.toList.map .char
  | .tag m => Tag.pieces ⟨0, m.body.toList⟩
  | .kept m => Tag.pieces ⟨1, m.body.toList⟩

theorem Part.pieces_append {x : Part} (hx : x.Proper) (r : List Char) :
    Text.pieces 0 (x.source.toList ++ r) = x.pieces ++ Text.pieces 0 r := by
  cases x with
  | text s => exact Text.pieces_append hx.1 hx.2 r
  | tag m =>
    have hsource : (Part.tag m).source.toList ++ r = '[' :: (m.body.toList ++ ']' :: r) := by
      simp [source]
    rw [hsource, pieces_of_tag (Tag.at?_mark hx r)]
    simp [pieces, Tag.length]
  | kept m =>
    have hsource : (Part.kept m).source.toList ++ r =
        '\\' :: '[' :: (m.body.toList ++ ']' :: r) := by
      simp [source]
    have htag := Tag.at?_backslash ('[' :: (m.body.toList ++ ']' :: r))
    rw [Tag.at?_mark hx r] at htag
    rw [hsource, pieces_of_tag htag]
    simp [pieces, Tag.length, Nat.add_comm 1]

theorem Marked.pieces_source {l : Marked} (hl : l.Proper) :
    Text.pieces 0 l.source.toList = l.flatMap Part.pieces := by
  induction l with
  | nil => rfl
  | cons x l ih =>
    obtain ⟨hx, hl⟩ := List.forall_mem_cons.mp hl
    rw [source_cons, String.toList_append, Part.pieces_append hx, ih hl, List.flatMap_cons]

namespace Text

theorem settle_char {c : Char} {ps : List Piece} (h : c = '\\' → ps.head? ≠ some (.char '['))
    (styles : List (List Char)) :
    settle styles (.char c :: ps) = (settle styles ps).map (c :: ·) := by
  rw [settle]
  rintro rest rfl hc
  exact h hc rfl

theorem settle_append {s : List Char} (hb : '[' ∉ s) (hs : s.getLast? ≠ some '\\')
    (styles : List (List Char)) (ps : List Piece) :
    settle styles (s.map .char ++ ps) = (settle styles ps).map (s ++ ·) := by
  induction s with
  | nil => exact Option.map_id'.symm
  | cons c s ih =>
    have hrest := ih (fun h => hb (List.mem_cons_of_mem c h))
      fun h => hs (by simp [List.getLast?_cons, h])
    rw [List.map_cons, List.cons_append, settle_char, hrest, Option.map_map]
    · rfl
    · rintro rfl
      cases s with
      | nil => exact absurd rfl hs
      | cons d s =>
        intro hd
        have hd : d = '[' := by simpa using hd
        exact hb (by simp [hd])

/-- The style of a name, as the console compares it. -/
def styleOf (style : String) : List Char := Tag.style ⟨0, style.toList⟩

/-- Two names of one style. -/
def sameStyle (a b : String) : Bool := styleOf a == styleOf b

theorem toLower_of_isLower {c : Char} (h : c.isLower = true) : c.toLower = c := by
  have hlower := Bool.and_eq_true_iff.mp h
  have hnot : ¬(c.val ≥ 'A'.val ∧ c.val ≤ 'Z'.val) := by
    rintro ⟨_, hle⟩
    exact absurd (UInt32.le_trans (of_decide_eq_true hlower.1) hle) (by decide)
  exact dif_neg hnot

theorem ne_of_isLower {c d : Char} (h : c.isLower = true) (hd : d.isLower = false) : c ≠ d := by
  rintro rfl
  rw [h] at hd
  cases hd

theorem isWhitespace_of_isLower {c : Char} (h : c.isLower = true) : c.isWhitespace = false := by
  simp [Char.isWhitespace, ne_of_isLower h (d := ' ') rfl, ne_of_isLower h (d := '\t') rfl,
    ne_of_isLower h (d := '\r') rfl, ne_of_isLower h (d := '\n') rfl]

theorem isWhitespace_toLower {c : Char} (h : c.isLower = true) :
    c.toLower.isWhitespace = false := by
  rw [toLower_of_isLower h, isWhitespace_of_isLower h]

/-- What is behind the first character of a tag in its style. -/
def styleRest (more : List Char) : List Char :=
  (((more.takeWhile (· ≠ '=')).map Char.toLower).reverse.dropWhile Char.isWhitespace).reverse

theorem reverse_dropWhile_cons {p : Char → Bool} {c : Char} (hc : p c = false) (l : List Char) :
    ((c :: l).reverse.dropWhile p).reverse = c :: (l.reverse.dropWhile p).reverse := by
  rw [List.reverse_cons, List.dropWhile_append]
  split
  · rename_i h
    simp [hc, List.isEmpty_iff.mp h]
  · simp

theorem styleRest_cons {c : Char} (he : c ≠ '=') (hb : c.toLower.isWhitespace = false)
    (more : List Char) : styleRest (c :: more) = c.toLower :: styleRest more := by
  rw [styleRest, List.takeWhile_cons_of_pos (by simpa using he), List.map_cons,
    reverse_dropWhile_cons hb]
  rfl

theorem Tag.style_cons {c : Char} (he : c ≠ '=') (hb : c.toLower.isWhitespace = false) (k : Nat)
    (more : List Char) : Tag.style ⟨k, c :: more⟩ = c.toLower :: styleRest more := by
  rw [← styleRest_cons he hb, style, styleRest]
  dsimp only
  rw [List.takeWhile_cons_of_pos (by simpa using he), List.map_cons,
    List.dropWhile_cons_of_neg (by simpa using hb)]

/-- The style of a name begins with its first letter. -/
theorem exists_styleOf {style : String} (h : Mark.isName style = true) :
    ∃ c more, style.toList = c :: more ∧ c.isLower = true ∧
      styleOf style = c :: styleRest more := by
  obtain ⟨c, more, hmore, hc⟩ := Mark.exists_lower_of_isName h
  refine ⟨c, more, hmore, hc, ?_⟩
  rw [styleOf, hmore, Tag.style_cons (ne_of_isLower hc rfl) (isWhitespace_toLower hc),
    toLower_of_isLower hc]

theorem Tag.pieces_opening {style : String} (h : Mark.isName style = true) :
    Tag.pieces ⟨0, style.toList⟩ = [.literal [], .opening (styleOf style)] := by
  obtain ⟨c, more, _, hc, hstyle⟩ := exists_styleOf h
  rw [Tag.pieces]
  dsimp only
  rw [if_neg (by decide)]
  split
  · rename_i name hname
    exact absurd (List.cons.inj (hstyle.symm.trans hname)).1 (ne_of_isLower hc rfl)
  · rfl

theorem Tag.pieces_closing {style : String} (h : Mark.isName style = true) :
    Tag.pieces ⟨0, '/' :: style.toList⟩ = [.literal [], .closing (styleOf style)] := by
  obtain ⟨c, more, hmore, hc, hstyle⟩ := exists_styleOf h
  have hclosing : Tag.style ⟨0, '/' :: style.toList⟩ = '/' :: styleOf style := by
    rw [Tag.style_cons (by decide) (by decide), hmore,
      styleRest_cons (ne_of_isLower hc rfl) (isWhitespace_toLower hc), toLower_of_isLower hc,
      hstyle]
    rfl
  have hdrop : (styleOf style).dropWhile Char.isWhitespace = styleOf style := by
    rw [hstyle, List.dropWhile_cons_of_neg (by simp [isWhitespace_of_isLower hc])]
  simp [Tag.pieces, hclosing, hdrop]

theorem Tag.pieces_kept (body : List Char) :
    Tag.pieces ⟨1, body⟩ = [.literal [], .literal ('[' :: (body ++ [']']))] := by
  simp [Tag.pieces]

/-- What a closing tag does to the styles that are open. -/
theorem settle_closing (styles : List (List Char)) (name : List Char) (ps : List Piece) :
    settle styles (.closing name :: ps) =
      (if name = [] then styles.tail? else if name ∈ styles then some (styles.erase name)
        else none).bind (settle · ps) := by
  cases styles with
  | nil =>
    rw [settle]
    by_cases hn : name = [] <;> simp [hn]
  | cons innermost outer =>
    rw [settle]
    split
    · rfl
    · split <;> rfl

theorem any_sameStyle (style : String) (styles : List String) :
    styles.any (sameStyle style) = true ↔ styleOf style ∈ styles.map styleOf := by
  rw [List.any_eq_true, List.mem_map]
  refine exists_congr fun x => and_congr_right fun _ => ?_
  rw [sameStyle, beq_iff_eq, eq_comm]

theorem map_eraseP_sameStyle (style : String) (styles : List String) :
    (styles.eraseP (sameStyle style)).map styleOf = (styles.map styleOf).erase (styleOf style) := by
  rw [List.erase_eq_eraseP, List.eraseP_map]
  rfl

end Text

/-- Behind a part the console goes on with the styles that are open there. -/
theorem Part.settle_pieces {x : Part} (hx : x.Proper) (styles : List String) (ps : List Piece) :
    settle (styles.map styleOf) (x.pieces ++ ps) = (x.after? sameStyle styles).bind fun inner =>
      (settle (inner.map styleOf) ps).map (x.visible.toList ++ ·) := by
  cases x with
  | text s => exact settle_append hx.1 hx.2 _ ps
  | kept m =>
    rw [pieces, Tag.pieces_kept, List.cons_append, List.cons_append, settle, settle,
      Option.map_map]
    simp [after?, visible, Function.comp_def]
  | tag m =>
    cases m with
    | opening style =>
      rw [pieces, Mark.body, Tag.pieces_opening hx, List.cons_append, List.cons_append, settle,
        settle]
      rfl
    | closing style =>
      have hbody : (Mark.closing style).body.toList = '/' :: style.toList := by simp [Mark.body]
      rw [pieces, hbody, after?]
      by_cases hs : style = ""
      · obtain rfl := hs
        have hclose : Tag.pieces ⟨0, '/' :: "".toList⟩ = [.literal [], .closing []] := by rfl
        rw [hclose, List.cons_append, List.cons_append, settle, settle_closing, if_pos rfl,
          if_pos rfl]
        cases styles <;> rfl
      · obtain ⟨c, more, _, _, hstyle⟩ := exists_styleOf (hx.resolve_left hs)
        have hne : styleOf style ≠ [] := hstyle ▸ List.cons_ne_nil c _
        rw [Tag.pieces_closing (hx.resolve_left hs), List.cons_append, List.cons_append, settle,
          settle_closing, if_neg hs, if_neg hne, ← map_eraseP_sameStyle]
        simp only [← any_sameStyle]
        split <;> rfl

theorem Marked.settle_pieces {l : Marked} (hl : l.Proper) (styles : List String) :
    settle (styles.map styleOf) (l.flatMap Part.pieces) =
      (l.foldlM (Part.after? sameStyle) styles).map fun _ => l.visible.toList := by
  induction l generalizing styles with
  | nil => rfl
  | cons x l ih =>
    obtain ⟨hx, hrest⟩ := List.forall_mem_cons.mp hl
    rw [List.flatMap_cons, Part.settle_pieces hx, List.foldlM_cons, visible_cons,
      String.toList_append]
    change _ = Option.map _ (Option.bind _ _)
    rw [Option.map_bind]
    refine Option.bind_congr fun inner _ => ?_
    rw [ih hrest, Option.map_map]
    rfl

namespace Console

theorem colourless_source {l : Marked} (hl : l.Proper) : colourless l.source =
    (l.foldlM (Part.after? sameStyle) []).map fun _ => l.visible ++ "\n" := by
  have hsettle := Marked.settle_pieces hl []
  rw [List.map_nil] at hsettle
  rw [colourless, Text.plain?, Marked.pieces_source hl, hsettle, Option.map_map, Option.map_map]
  simp [Function.comp_def]

/-- The console without colours reads markup, and keeps every text. -/
theorem reads_colourless : colourless.Reads sameStyle fun _ => True where
  same_self style _ := beq_self_eq_true (styleOf style)
  prints l hl hfits _ := by
    obtain ⟨styles, hstyles⟩ := Option.isSome_iff_exists.mp hfits
    rw [colourless_source hl, hstyles]
    rfl
  refuses l hl hfits := by
    rw [colourless_source hl, Option.not_isSome_iff_eq_none.mp hfits]
    rfl

end Console

end ApiSurface
