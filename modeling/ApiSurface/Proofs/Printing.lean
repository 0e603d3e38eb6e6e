import ApiSurface.Command
import ApiSurface.Proofs.Markup
import ApiSurface.Proofs.Rejection

/-! What the pages of a surface print on a console that reads markup. Names stand between the tags
of a line and are read as marked text themselves. So a page shows of a name what is seen of it in
front of the next tag, and that is the name itself only if it has no brackets and does not end with
a backslash. If this is so for every text that the pages take over, they are printed as they are
stored. But a closing tag in the name of an export leaves a line with nothing to close, and then the
command fails. -/

namespace ApiSurface

/-! ### Lines -/

/-- A marked text is proper, and it is the given line, of which the given text is seen. -/
structure Marked.IsLine (l : Marked) (line seen : String) : Prop where
  proper : l.Proper
  source : l.source = line
  visible : l.visible = seen

namespace Marked.IsLine

variable {l l' : Marked} {a a' s s' : String}

theorem append (h : l.IsLine a s) (h' : l'.IsLine a' s') :
    Marked.IsLine (l ++ l') (a ++ a') (s ++ s') where
  proper := List.forall_mem_append.mpr ⟨h.proper, h'.proper⟩
  source := by rw [source_append, h.source, h'.source]
  visible := by rw [visible_append, h.visible, h'.visible]

theorem text (h : Text.Plain s) : Marked.IsLine [.text s] s s where
  proper := List.forall_mem_singleton.mpr h
  source := by simp [Marked.source, Part.source]
  visible := by simp [Marked.visible, Part.visible]

theorem tag {m : Mark} (h : m.Proper) : Marked.IsLine [.tag m] ("[" ++ m.body ++ "]") "" where
  proper := List.forall_mem_singleton.mpr h
  source := by simp [Marked.source, Part.source]
  visible := by simp [Marked.visible, Part.visible]

theorem opening {style : String} (h : Mark.isName style = true) :
    Marked.IsLine [.tag (.opening style)] ("[" ++ style ++ "]") "" := tag h

theorem close : Marked.IsLine [.tag (.closing "")] "[/]" "" := tag (Or.inl rfl)

/-- A blank and the tag behind it. -/
theorem dim : Marked.IsLine [.text " ", .tag (.opening "dim")] " [dim]" " " :=
  (text (by decide)).append (opening (by decide))

theorem congr (h : l.IsLine a s) (ha : a = a') (hs : s = s') : l.IsLine a' s' := ha ▸ hs ▸ h

end Marked.IsLine

namespace Reading

variable {r : Reading} {t : String}

theorem isLine_beforeTag (h : r.Of t) {style : String} (hs : (Mark.closing style).Proper) :
    (r.beforeTag style).IsLine (t ++ "[/" ++ style ++ "]") (r.seen (some style)) where
  proper := by
    refine List.forall_mem_append.mpr ⟨h.proper, List.forall_mem_singleton.mpr ?_⟩
    split <;> exact hs
  source := by
    rw [beforeTag, Marked.source_append, ← h.source, ending, ← String.toList_inj]
    cases r.slash <;> simp [Marked.source, Part.source, Mark.body]
  visible := rfl

/-- A text with one closing tag in it. -/
theorem of_closing {a style b : String} (ha : Text.Plain a) (hs : (Mark.closing style).Proper)
    (hb : Text.Plain b) :
    Of ⟨[.text a, .tag (.closing style), .text b], false⟩ (a ++ "[/" ++ style ++ "]" ++ b) where
  proper := by
    simp only [Marked.Proper, List.forall_mem_cons]
    exact ⟨ha, hs, hb, nofun⟩
  source := by
    rw [← String.toList_inj]
    simp [ending, Marked.source, Part.source, Mark.body]

theorem plain_ending {s : String} (hs : Text.Plain s) (hne : s ≠ "") :
    Text.Plain (r.ending ++ s) := by
  rw [Text.Plain, String.toList_append, List.mem_append, List.getLast?_append]
  constructor
  · refine not_or.mpr ⟨?_, hs.1⟩
    rw [ending]
    cases r.slash <;> decide
  · cases hlast : s.toList.getLast? with
    | none => exact absurd (String.toList_eq_nil_iff.mp (List.getLast?_eq_none_iff.mp hlast)) hne
    | some c =>
      have hc := hs.2
      rwa [hlast] at hc

theorem isLine_beforeText (h : r.Of t) {s : String} (hs : Text.Plain s) (hne : s ≠ "") :
    (r.beforeText s).IsLine (t ++ s) (r.seen none ++ s) := by
  refine ⟨List.forall_mem_append.mpr ⟨h.proper, List.forall_mem_singleton.mpr ?_⟩, ?_, ?_⟩
  · exact plain_ending hs hne
  · rw [beforeText, Marked.source_append, ← h.source]
    simp [Marked.source, Part.source, String.append_assoc]
  · rw [beforeText, Marked.visible_append, seen]
    simp [Marked.visible, Part.visible, String.append_assoc]

end Reading

namespace Text

theorem plain_join {l : List String} (h : ∀ s ∈ l, Plain s) : Plain (String.join l) := by
  induction l with
  | nil => decide
  | cons a l ih =>
    obtain ⟨ha, hl⟩ := List.forall_mem_cons.mp h
    rw [String.join_cons]
    exact plain_append ha (ih hl)

theorem plain_toString (n : Nat) : Plain (toString n) := by
  have hdigit : ∀ c ∈ (toString n).toList, c.isDigit = true := by
    intro c hc
    rw [Nat.toString_eq_repr, Nat.toList_repr] at hc
    exact Nat.isDigit_of_mem_toDigits (by decide) (by decide) hc
  exact ⟨fun h => absurd (hdigit _ h) (by decide),
    fun h => absurd (hdigit _ (List.mem_of_getLast? h)) (by decide)⟩

theorem plain_intercalate {sep : String} (hsep : Plain sep) {l : List String}
    (h : ∀ s ∈ l, Plain s) : Plain (String.intercalate sep l) := by
  induction l with
  | nil => exact (by decide : Plain "")
  | cons a l ih =>
    obtain ⟨ha, hl⟩ := List.forall_mem_cons.mp h
    cases l with
    | nil => rwa [String.intercalate_singleton]
    | cons b l =>
      rw [String.intercalate_cons_cons]
      exact plain_append (plain_append ha hsep) (ih hl)

end Text

namespace TreeLine

/-- Where a reference stands, as its line tells. -/
def place (r : Reference) : String :=
  r.mention.file.name.shown ++ ":" ++ r.mention.node.start.shown

/-- What stands in front of the label of a reference. -/
def front (base : String) (guides : List Bool) (isLast : Bool) : String :=
  base ++ guideText guides ++ (if isLast then "└─" else "├─") ++ " "

/-- The texts that the line of a tree takes over. -/
def takenOver : TreeLine → List String
  | .reference _ _ r => [r.label.shown, place r]
  | .more _ _ => []

/-- The line of a tree without tags. The view tells what is seen of a text in front of a closing
tag, or in front of text. -/
def plain (view : Option String → String → String) (base : String) : TreeLine → String
  | .reference guides isLast r =>
    front base guides isLast ++ view (some "") r.label.shown ++ " " ++ view (some "") (place r) ++
      (if r.mention.declarationIndex = 0 then ""
        else " #" ++ toString r.mention.declarationIndex)
  | .more guides count => base ++ guideText guides ++ "… " ++ toString count ++ " more"

/-- The line of a tree by its parts, with readings of the texts in it. -/
def marked (read : String → Reading) (base : String) : TreeLine → Marked
  | .reference guides isLast r =>
    [.text (front base guides isLast),
      .tag (.opening (if r.isImport then "magenta" else "cyan"))] ++
      (read r.label.shown).beforeTag "" ++ [.text " ", .tag (.opening "dim")] ++
      (read (place r)).beforeTag "" ++
      (if r.mention.declarationIndex = 0 then [] else
        [.text " ", .tag (.opening "dim"), .text ("#" ++ toString r.mention.declarationIndex),
          .tag (.closing "")])
  | .more guides count =>
    [.text (base ++ guideText guides), .tag (.opening "dim"),
      .text ("… " ++ toString count ++ " more"), .tag (.closing "")]

theorem plain_guideText (guides : List Bool) : Text.Plain (guideText guides) := by
  refine Text.plain_join (List.forall_mem_map.mpr fun later _ => ?_)
  cases later
  · decide
  · decide

theorem plain_front {base : String} (hb : Text.Plain base) (guides : List Bool) (isLast : Bool) :
    Text.Plain (front base guides isLast) := by
  refine Text.plain_append (Text.plain_append (Text.plain_append hb (plain_guideText guides)) ?_)
    (by decide)
  cases isLast
  · decide
  · decide

/-- The number of a declaration behind the place of a reference. The first one is not told. -/
theorem isLine_index (n : Nat) : Marked.IsLine
    (if n = 0 then [] else
      [.text " ", .tag (.opening "dim"), .text ("#" ++ toString n), .tag (.closing "")])
    (if n = 0 then "" else " [dim]#" ++ toString n ++ "[/]")
    (if n = 0 then "" else " #" ++ toString n) := by
  split
  · exact ⟨nofun, rfl, rfl⟩
  · have hnumber : Text.Plain ("#" ++ toString n) :=
      Text.plain_append (by decide) (Text.plain_toString n)
    refine (Marked.IsLine.dim.append ((Marked.IsLine.text hnumber).append .close)).congr ?_ ?_
    · rw [← String.toList_inj]
      simp
    · rw [← String.toList_inj]
      simp

theorem isLine_marked {base : String} (hb : Text.Plain base) {read : String → Reading}
    {l : TreeLine} (h : ∀ t ∈ l.takenOver, (read t).Of t) :
    (l.marked read base).IsLine (l.text base)
      (l.plain (fun next t => (read t).seen next) base) := by
  cases l with
  | reference guides isLast r =>
    have hclose : (Mark.closing "").Proper := Or.inl rfl
    have hlabel := h r.label.shown (List.mem_cons_self ..)
    have hplace := h (place r) (List.mem_cons_of_mem _ (List.mem_cons_self ..))
    have hstyle : Mark.isName (if r.isImport then "magenta" else "cyan") = true := by
      cases r.isImport <;> decide
    refine (((((Marked.IsLine.text (plain_front hb guides isLast)).append (.opening hstyle)).append
      (Reading.isLine_beforeTag hlabel hclose)).append .dim).append
        (Reading.isLine_beforeTag hplace hclose)).append (isLine_index _) |>.congr ?_ ?_
    · rw [← String.toList_inj]
      simp [text, front, place]
    · simp only [plain, String.append_empty]
  | more guides count =>
    have hfront := Text.plain_append hb (plain_guideText guides)
    have hcount : Text.Plain ("… " ++ toString count ++ " more") :=
      Text.plain_append (Text.plain_append (by decide) (Text.plain_toString count))
        (by decide)
    have hdim := (Marked.IsLine.opening (by decide : Mark.isName "dim" = true)).append
      ((Marked.IsLine.text hcount).append .close)
    refine ((Marked.IsLine.text hfront).append hdim).congr ?_ ?_
    · rw [← String.toList_inj]
      simp [text]
    · rw [← String.toList_inj]
      simp [plain]

/-- The tags of a line fit if the texts in it have none. -/
theorem fits_marked {same : String → String → Bool} (l : TreeLine) (base : String) :
    (l.marked Reading.plain base).Fits same := by
  cases l with
  | reference guides isLast r =>
    by_cases hi : r.mention.declarationIndex = 0
    · rw [marked, if_pos hi]
      rfl
    · rw [marked, if_neg hi]
      rfl
  | more guides count => rfl

end TreeLine

/-! ### Pages -/

namespace Page

variable {console : Console} {page page' : Page} {lines lines' : List Marked}
  {plain plain' : List String}

/-- A page by the parts of its texts, with what is seen of them. -/
structure Consists (page : Page) (lines : List Marked) (plain : List String) : Prop where
  proper : ∀ l ∈ lines, l.Proper
  source : lines.map Marked.source = page
  visible : lines.map Marked.visible = plain

namespace Consists

theorem nil : Consists [] [] [] := ⟨nofun, rfl, rfl⟩

theorem cons {l : Marked} {line seen : String} (hl : l.IsLine line seen)
    (h : Consists page lines plain) : Consists (line :: page) (l :: lines) (seen :: plain) where
  proper := List.forall_mem_cons.mpr ⟨hl.proper, h.proper⟩
  source := by rw [List.map_cons, hl.source, h.source]
  visible := by rw [List.map_cons, hl.visible, h.visible]

theorem append (h : Consists page lines plain) (h' : Consists page' lines' plain') :
    Consists (page ++ page') (lines ++ lines') (plain ++ plain') where
  proper := List.forall_mem_append.mpr ⟨h.proper, h'.proper⟩
  source := by rw [List.map_append, h.source, h'.source]
  visible := by rw [List.map_append, h.visible, h'.visible]

theorem map {α : Type} {l : List α} {line seen : α → String} {f : α → Marked}
    (h : ∀ x ∈ l, (f x).IsLine (line x) (seen x)) :
    Consists (l.map line) (l.map f) (l.map seen) where
  proper := List.forall_mem_map.mpr fun x hx => (h x hx).proper
  source := by
    rw [List.map_map]
    exact List.map_congr_left fun x hx => (h x hx).source
  visible := by
    rw [List.map_map]
    exact List.map_congr_left fun x hx => (h x hx).visible

theorem flatMap {α : Type} {l : List α} {page : α → Page} {lines : α → List Marked}
    {plain : α → List String} (h : ∀ x ∈ l, Consists (page x) (lines x) (plain x)) :
    Consists (l.flatMap page) (l.flatMap lines) (l.flatMap plain) where
  proper := List.forall_mem_flatMap.mpr fun x hx => (h x hx).proper
  source := by
    rw [List.map_flatMap]
    exact List.flatMap_congr fun x hx => (h x hx).source
  visible := by
    rw [List.map_flatMap]
    exact List.flatMap_congr fun x hx => (h x hx).visible

end Consists

theorem print_cases (console : Console) (page : Page) :
    (∃ out, page.print console = .ok out) ∨
      page.print console = .error (.defect .unbalancedMarkup) := by
  induction page with
  | nil => exact .inl ⟨"", rfl⟩
  | cons s page ih =>
    rw [print]
    cases console s with
    | none => exact .inr rfl
    | some t =>
      obtain ⟨out, hout⟩ | hout := ih
      · exact .inl ⟨t ++ out, by rw [hout]; rfl⟩
      · exact .inr (by rw [hout]; rfl)

/-- A page with a text that the console refuses is not printed. -/
theorem print_of_refused {t : String} (ht : t ∈ page) (h : console t = none) :
    page.print console = .error (.defect .unbalancedMarkup) := by
  induction page with
  | nil => cases ht
  | cons s page ih =>
    rw [print]
    rcases List.mem_cons.mp ht with rfl | ht
    · rw [h]
    · rw [ih ht]
      cases console s <;> rfl

/-- A page whose texts the console reads and keeps is printed. -/
theorem Consists.print_eq {same : String → String → Bool} {keeps : String → Prop}
    (h : Consists page lines plain) (hc : console.Reads same keeps)
    (hfits : ∀ l ∈ lines, l.Fits same) (hkeeps : ∀ t ∈ plain, keeps t) :
    page.print console = .ok (String.join (plain.map (· ++ "\n"))) := by
  obtain ⟨hproper, rfl, rfl⟩ := h
  induction lines with
  | nil => rfl
  | cons l lines ih =>
    obtain ⟨hl, hproper⟩ := List.forall_mem_cons.mp hproper
    obtain ⟨hlfits, hfits⟩ := List.forall_mem_cons.mp hfits
    obtain ⟨hlkeeps, hkeeps⟩ := List.forall_mem_cons.mp hkeeps
    rw [List.map_cons, print, hc.prints l hl hlfits hlkeeps, ih hfits hproper hkeeps]
    simp only [List.map_cons, String.join_cons]
    rfl

end Page

namespace Program

/-! ### Surfaces -/

variable (p : Program)

/-- What kind of thing an export stands for. -/
def kindsOf (e : Export) : String :=
  let labels := (p.symbol e.terminal).flagLabels
  if labels.isEmpty then "symbol" else String.intercalate ", " labels

/-- The texts that the line of an export takes over. -/
def exportTexts (x : SymbolId) (e : Export) : List String :=
  (p.symbol x).name.shown ::
    if e.terminal ≠ x then [(p.symbol e.terminal).name.shown] else []

/-- The texts that the pages of a surface take over. -/
def takenOver (limit : Option Int) (s : Surface) (modules : List Name) : List String :=
  s.entry.name.shown :: (s.exports.entries.flatMap fun e => p.exportTexts e.1 e.2 ++
    (Reference.linesAll limit [] 0 e.2.references).flatMap TreeLine.takenOver) ++
      modules.map Name.shown

/-- The line of an export without tags. -/
def plainExport (view : Option String → String → String) (x : SymbolId) (e : Export) : String :=
  view (some "") (p.symbol x).name.shown ++
    (if e.terminal ≠ x then " → " ++ view (some "") (p.symbol e.terminal).name.shown else "") ++
    " (" ++ p.kindsOf e ++ ")"

/-- The line of an export by its parts. -/
def exportMarked (name target : Reading) (x : SymbolId) (e : Export) : Marked :=
  [.tag (.opening "bold cyan")] ++ name.beforeTag "" ++
    (if e.terminal ≠ x then [.text " ", .tag (.opening "dim"), .text "→ "] ++ target.beforeTag ""
      else []) ++
    [.text (" (" ++ p.kindsOf e ++ ")")]

theorem plain_kindsOf (e : Export) : Text.Plain (" (" ++ p.kindsOf e ++ ")") := by
  refine Text.plain_append (Text.plain_append (by decide) ?_) (by decide)
  unfold kindsOf
  dsimp only
  split
  · decide
  · refine Text.plain_intercalate (by decide) (List.forall_mem_map.mpr fun f _ => ?_)
    cases f <;> decide

theorem isLine_exportMarked {name target : Reading} {x : SymbolId} {e : Export}
    (hname : name.Of (p.symbol x).name.shown)
    (htarget : e.terminal ≠ x → target.Of (p.symbol e.terminal).name.shown) :
    (p.exportMarked name target x e).IsLine (p.exportLine x e) (name.seen (some "") ++
      (if e.terminal ≠ x then " → " ++ target.seen (some "") else "") ++
        " (" ++ p.kindsOf e ++ ")") := by
  have hclose : (Mark.closing "").Proper := Or.inl rfl
  have harrow : Marked.IsLine (if e.terminal ≠ x then
        [.text " ", .tag (.opening "dim"), .text "→ "] ++ target.beforeTag "" else [])
      (if e.terminal ≠ x then " [dim]→ " ++ (p.symbol e.terminal).name.shown ++ "[/]" else "")
      (if e.terminal ≠ x then " → " ++ target.seen (some "") else "") := by
    split
    · rename_i he
      have hsign : Marked.IsLine [.text "→ "] "→ " "→ " := .text (by decide)
      refine ((Marked.IsLine.dim.append hsign).append
        (Reading.isLine_beforeTag (htarget he) hclose)).congr ?_ ?_
      · rw [← String.toList_inj]
        simp
      · rfl
    · exact ⟨nofun, rfl, rfl⟩
  have hopen : Marked.IsLine [.tag (.opening "bold cyan")] "[bold cyan]" "" := .opening (by decide)
  refine (((hopen.append (Reading.isLine_beforeTag hname hclose)).append harrow).append
    (.text (p.plain_kindsOf e))).congr ?_ ?_
  · rw [← String.toList_inj]
    delta exportLine
    simp [kindsOf]
  · simp only [String.empty_append, String.append_assoc]

/-- The line above the exports by its parts. -/
def headerMarked (name : Reading) : Marked :=
  [.text "\n", .tag (.opening "bold"), .text "Exports of ", .tag (.opening "cyan")] ++
    name.beforeTag "cyan" ++ [.tag (.closing ""), .text "\n"]

theorem isLine_headerMarked {name : Reading} {t : String} (h : name.Of t) :
    (headerMarked name).IsLine ("\n[bold]Exports of [cyan]" ++ t ++ "[/cyan][/]\n")
      ("\nExports of " ++ name.seen (some "cyan") ++ "\n") := by
  have hbreak : Marked.IsLine [.text "\n"] "\n" "\n" := .text (by decide)
  have hbold : Marked.IsLine [.tag (.opening "bold")] "[bold]" "" := .opening (by decide)
  have hwords : Marked.IsLine [.text "Exports of "] "Exports of " "Exports of " :=
    .text (by decide)
  have hcyan : Marked.IsLine [.tag (.opening "cyan")] "[cyan]" "" := .opening (by decide)
  refine (((hbreak.append (hbold.append (hwords.append hcyan))).append
    (Reading.isLine_beforeTag h (Or.inr (by decide)))).append
      (Marked.IsLine.close.append hbreak)).congr ?_ ?_
  · rw [← String.toList_inj]
    simp
  · rfl

/-- A heading of a page by its parts. -/
def headingMarked (front style words : String) : Marked :=
  [.text front, .tag (.opening style), .text words, .tag (.closing "")]

theorem isLine_headingMarked {front style words : String} (hf : Text.Plain front)
    (hs : Mark.isName style = true) (hw : Text.Plain words) :
    (headingMarked front style words).IsLine (front ++ "[" ++ style ++ "]" ++ words ++ "[/]")
      (front ++ words) := by
  refine ((Marked.IsLine.text hf).append ((Marked.IsLine.opening hs).append
    ((Marked.IsLine.text hw).append .close))).congr ?_ ?_
  · simp only [String.append_assoc]
  · simp only [String.empty_append, String.append_empty]

/-- The line of a module that is passed through by its parts. -/
def moduleMarked (name : Reading) : Marked := [.text "  export * from \""] ++ name.beforeText "\""

theorem isLine_moduleMarked {name : Reading} {t : String} (h : name.Of t) :
    (moduleMarked name).IsLine ("  export * from \"" ++ t ++ "\"")
      ("  export * from \"" ++ (name.seen none ++ "\"")) := by
  have hwords := Marked.IsLine.text (s := "  export * from \"") (by decide)
  have hname := Reading.isLine_beforeText (s := "\"") h (by decide) (by decide)
  refine (hwords.append hname).congr ?_ rfl
  rw [String.append_assoc]

/-- The counts of a surface. -/
def counts (s : Surface) : String :=
  "Exports: " ++ toString s.exports.size ++ " | Globals: " ++ toString s.globals.length ++
    " | Warnings: " ++ toString s.warnings.length

theorem plain_counts (s : Surface) : Text.Plain (counts s) := by
  refine Text.plain_append (Text.plain_append (Text.plain_append (Text.plain_append
    (Text.plain_append ?_ ?_) ?_) ?_) ?_) ?_
  · decide
  · exact Text.plain_toString _
  · decide
  · exact Text.plain_toString _
  · decide
  · exact Text.plain_toString _

/-- The lines of the exports without tags. -/
def plainExports (view : Option String → String → String) (limit : Option Int) (s : Surface) :
    List String :=
  ("\nExports of " ++ view (some "cyan") s.entry.name.shown ++ "\n") ::
    (if s.exports.entries.isEmpty then ["  No exports found"]
      else s.exports.entries.flatMap fun e => p.plainExport view e.1 e.2 ::
        (Reference.linesAll limit [] 0 e.2.references).map (TreeLine.plain view "  "))

/-- The lines behind the exports without tags. -/
def plainSummary (view : Option String → String → String) (s : Surface) (modules : List Name) :
    List String :=
  (if modules.isEmpty then [] else "\nExternal modules:" ::
    modules.map fun m => "  export * from \"" ++ (view none m.shown ++ "\"")) ++ ["\n" ++ counts s]

def plainLines (view : Option String → String → String) (limit : Option Int) (s : Surface)
    (modules : List Name) : List String :=
  p.plainExports view limit s ++ plainSummary view s modules

/-- The text of a surface without tags. -/
def plainSurface (view : Option String → String → String) (limit : Option Int) (s : Surface)
    (modules : List Name) : String :=
  String.join ((p.plainLines view limit s modules).map (· ++ "\n"))

/-- The lines of the exports by their parts. -/
def exportsMarked (read : String → Reading) (limit : Option Int) (s : Surface) : List Marked :=
  headerMarked (read s.entry.name.shown) ::
    (if s.exports.entries.isEmpty then [headingMarked "  " "dim" "No exports found"]
      else s.exports.entries.flatMap fun e =>
        p.exportMarked (read (p.symbol e.1).name.shown) (read (p.symbol e.2.terminal).name.shown)
          e.1 e.2 ::
        (Reference.linesAll limit [] 0 e.2.references).map (TreeLine.marked read "  "))

/-- The lines behind the exports by their parts. -/
def summaryMarked (read : String → Reading) (s : Surface) (modules : List Name) : List Marked :=
  (if modules.isEmpty then [] else headingMarked "\n" "green" "External modules:" ::
    modules.map fun m => moduleMarked (read m.shown)) ++ [headingMarked "\n" "dim" (counts s)]

/-- All lines of a surface by their parts. -/
def surfaceMarked (read : String → Reading) (limit : Option Int) (s : Surface)
    (modules : List Name) : List Marked :=
  p.exportsMarked read limit s ++ summaryMarked read s modules

/-- What is seen of texts under their readings. -/
def viewOf (read : String → Reading) (next : Option String) (t : String) : String :=
  (read t).seen next

theorem exportLine_mem_exportsPage {limit : Option Int} {s : Surface} {e : SymbolId × Export}
    (he : e ∈ s.exports.entries) : p.exportLine e.1 e.2 ∈ p.exportsPage limit s := by
  have hsome : s.exports.entries.isEmpty = false := by
    rw [List.isEmpty_eq_false_iff]
    exact List.ne_nil_of_mem he
  rw [exportsPage, hsome]
  refine List.mem_cons_of_mem _ (List.mem_flatMap.mpr ⟨e, he, ?_⟩)
  exact List.mem_cons_self ..

section Readings

variable {p} {limit : Option Int} {s : Surface} {modules : List Name} {read : String → Reading}

theorem consists_exportsPage (h : ∀ t ∈ p.takenOver limit s modules, (read t).Of t) :
    Page.Consists (p.exportsPage limit s) (p.exportsMarked read limit s)
      (p.plainExports (viewOf read) limit s) := by
  obtain ⟨hall, _⟩ := List.forall_mem_append.mp h
  obtain ⟨hentry, hall⟩ := List.forall_mem_cons.mp hall
  have hexports := List.forall_mem_flatMap.mp hall
  refine .cons (isLine_headerMarked hentry) ?_
  split
  · refine .cons (isLine_headingMarked (by decide) (by decide) ?_) .nil
    decide
  · refine .flatMap fun e he => ?_
    obtain ⟨htexts, hlines⟩ := List.forall_mem_append.mp (hexports e he)
    obtain ⟨hname, htarget⟩ := List.forall_mem_cons.mp htexts
    refine .cons (p.isLine_exportMarked hname fun hne => ?_) (.map fun l hl => ?_)
    · exact htarget _ (by rw [if_pos hne]; exact List.mem_singleton_self _)
    · exact TreeLine.isLine_marked (by decide) (List.forall_mem_flatMap.mp hlines l hl)

theorem consists_summaryPage (h : ∀ t ∈ p.takenOver limit s modules, (read t).Of t) :
    Page.Consists (summaryPage s modules) (summaryMarked read s modules)
      (plainSummary (viewOf read) s modules) := by
  have hmodules := List.forall_mem_map.mp (List.forall_mem_append.mp h).2
  have hcounts : (headingMarked "\n" "dim" (counts s)).IsLine
      ("\n[dim]Exports: " ++ toString s.exports.size ++ " | Globals: " ++
        toString s.globals.length ++ " | Warnings: " ++ toString s.warnings.length ++ "[/]")
      ("\n" ++ counts s) := by
    refine (isLine_headingMarked (by decide) (by decide) (plain_counts s)).congr ?_ rfl
    rw [← String.toList_inj]
    simp [counts]
  rw [summaryPage, List.isEmpty_map]
  refine .append ?_ (.cons hcounts .nil)
  split
  · exact .nil
  · refine .cons ?_ (.map fun m hm => isLine_moduleMarked (hmodules m hm))
    exact isLine_headingMarked (by decide) (by decide) (by decide)

/-! ### Tags that fit -/

variable {same : String → String → Bool}

theorem fits_headingMarked (front style words : String) :
    (headingMarked front style words).Fits same := rfl

theorem fits_exportsMarked (hcyan : same "cyan" "cyan" = true) :
    ∀ l ∈ p.exportsMarked Reading.plain limit s, l.Fits same := by
  refine List.forall_mem_cons.mpr ⟨?_, ?_⟩
  · simp [Marked.Fits, headerMarked, Reading.plain, Reading.beforeTag, Part.after?, hcyan]
  split
  · exact List.forall_mem_singleton.mpr (fits_headingMarked ..)
  · refine List.forall_mem_flatMap.mpr fun e he => List.forall_mem_cons.mpr ⟨?_, ?_⟩
    · unfold exportMarked
      split <;> rfl
    · exact List.forall_mem_map.mpr fun l _ => l.fits_marked "  "

theorem fits_summaryMarked : ∀ l ∈ summaryMarked Reading.plain s modules, l.Fits same := by
  refine List.forall_mem_append.mpr ⟨?_, List.forall_mem_singleton.mpr (fits_headingMarked ..)⟩
  split
  · nofun
  · refine List.forall_mem_cons.mpr ⟨fits_headingMarked .., List.forall_mem_map.mpr fun m hm => ?_⟩
    rfl

/-- A closing tag in the name of an export closes the style of its line, or nothing at all. Then the
line has nothing left to close. -/
theorem not_fits_exportMarked (a style b : String) (target : Reading) (x : SymbolId) (e : Export) :
    ¬(p.exportMarked ⟨[.text a, .tag (.closing style), .text b], false⟩ target x e).Fits same := by
  have hnone : [Part.tag (.opening "bold cyan"), .text a, .tag (.closing style), .text b,
      .tag (.closing "")].foldlM (Part.after? same) [] = none := by
    by_cases hs : style = ""
    · simp [Part.after?, hs]
    · by_cases hb : same style "bold cyan" = true
      · simp [Part.after?, hs, hb]
      · simp [Part.after?, hs, hb]
  have hsplit : ∃ rest, p.exportMarked ⟨[.text a, .tag (.closing style), .text b], false⟩ target x
      e = [.tag (.opening "bold cyan"), .text a, .tag (.closing style), .text b,
        .tag (.closing "")] ++ rest := ⟨_, rfl⟩
  obtain ⟨rest, hrest⟩ := hsplit
  rw [Marked.Fits, hrest, List.foldlM_append, hnone]
  exact Bool.false_ne_true

end Readings

end Program

/-! ### Commands -/

namespace Command

variable {p : Program} {s : Surface} {host : Host}

theorem run_collect {path entry : String} {content : Snapshot.Content}
    (hread : Snapshot.read path content host.half = .ok p) (hs : p.surfaceOf (.str entry) = .ok s)
    (depth : Int) (asJson : Bool) : (collect path entry depth asJson).run content host =
      runCollect p s depth asJson host.console := by
  simp only [run, snapshot, hread, hs]

section Collect

variable {console : Console} {same : String → String → Bool} {keeps : String → Prop}
  {read : String → Reading} {modules : List Name} {depth : Int}

/-- If all lines fit and are kept, they are printed as they are seen. -/
theorem runCollect_of_fits (hc : console.Reads same keeps)
    (hm : sortedNames s.externalModules = .ok modules)
    (h : ∀ t ∈ p.takenOver (some depth) s modules, (read t).Of t) {err : String}
    (herr : (warningPage p s).print console = .ok err)
    (hfits : ∀ l ∈ p.surfaceMarked read (some depth) s modules, l.Fits same)
    (hkeeps : ∀ t ∈ p.plainLines (Program.viewOf read) (some depth) s modules, keeps t) :
    runCollect p s depth false console =
      .ok ⟨0, p.plainSurface (Program.viewOf read) (some depth) s modules, err⟩ := by
  obtain ⟨hef, hsf⟩ := List.forall_mem_append.mp hfits
  obtain ⟨hek, hsk⟩ := List.forall_mem_append.mp hkeeps
  have hexports := (Program.consists_exportsPage h).print_eq hc hef hek
  have hsummary := (Program.consists_summaryPage h).print_eq hc hsf hsk
  have htext : p.surfaceText (some depth) s console =
      .ok (p.plainSurface (Program.viewOf read) (some depth) s modules) := by
    rw [Program.surfaceText, hexports, ok_bind, hm, ok_bind, hsummary, Program.plainSurface,
      Program.plainLines, List.map_append, String.join_append]
    rfl
  rw [runCollect, herr, ok_bind, if_neg (by simp), htext]
  rfl

/-- If the console refuses a line, then the command fails. -/
theorem runCollect_of_refused (hm : sortedNames s.externalModules = .ok modules) {t : String}
    (ht : t ∈ p.exportsPage (some depth) s ++ Program.summaryPage s modules)
    (h : console t = none) :
    runCollect p s depth false console = .error (.defect .unbalancedMarkup) := by
  have htext : p.surfaceText (some depth) s console = .error (.defect .unbalancedMarkup) := by
    rw [Program.surfaceText]
    rcases List.mem_append.mp ht with ht | ht
    · rw [Page.print_of_refused ht h]
      rfl
    · obtain ⟨out, hout⟩ | hout := Page.print_cases console (p.exportsPage (some depth) s)
      · rw [hout, ok_bind, hm, ok_bind, Page.print_of_refused ht h]
        rfl
      · rw [hout]
        rfl
  rw [runCollect]
  obtain ⟨err, herr⟩ | herr := Page.print_cases console (warningPage p s)
  · rw [herr, ok_bind, if_neg (by simp), htext]
    rfl
  · rw [herr]
    rfl

end Collect

/-- The command prints a surface with every text as it is seen in front of the tag behind it, or it
fails if a closing tag in some line has nothing to close. In front of a closing tag a text is seen
as it is stored if and only if it has no bracket and does not end with a backslash, and in front of
text if it has no bracket. So a surface of plain texts is printed as it is stored. But a closing tag
in the name of an export always fails the command. -/
theorem collect_prints {same : String → String → Bool} {keeps : String → Prop}
    (hc : host.console.Reads same keeps) {path entry : String} {content : Snapshot.Content}
    {modules : List Name} (hread : Snapshot.read path content host.half = .ok p)
    (hs : p.surfaceOf (.str entry) = .ok s) (hm : sortedNames s.externalModules = .ok modules)
    (depth : Int) :
    (∀ read : String → Reading, (∀ t ∈ p.takenOver (some depth) s modules, (read t).Of t) →
      (∀ err, (warningPage p s).print host.console = .ok err →
        (∀ l ∈ p.surfaceMarked read (some depth) s modules, l.Fits same) →
        (∀ t ∈ p.plainLines (Program.viewOf read) (some depth) s modules, keeps t) →
        (collect path entry depth false).run content host =
          .ok ⟨0, p.plainSurface (Program.viewOf read) (some depth) s modules, err⟩) ∧
      ∀ l ∈ p.surfaceMarked read (some depth) s modules, ¬l.Fits same →
        (collect path entry depth false).run content host =
          .error (.defect .unbalancedMarkup)) ∧
    (∀ (r : Reading) (t : String), r.Of t →
      (∀ style, r.seen (some style) = t ↔ Text.Plain t) ∧ (r.seen none = t ↔ '[' ∉ t.toList)) ∧
    ((∀ t ∈ p.takenOver (some depth) s modules, Text.Plain t) →
      ∀ err, (warningPage p s).print host.console = .ok err →
        (∀ t ∈ p.plainLines (fun _ t => t) (some depth) s modules, keeps t) →
        (collect path entry depth false).run content host =
          .ok ⟨0, p.plainSurface (fun _ t => t) (some depth) s modules, err⟩) ∧
    ∀ e ∈ s.exports.entries, ∀ a style b : String,
      (p.symbol e.1).name.shown = a ++ "[/" ++ style ++ "]" ++ b → Text.Plain a → Text.Plain b →
      (Mark.closing style).Proper →
      (e.2.terminal ≠ e.1 → ∃ r : Reading, r.Of (p.symbol e.2.terminal).name.shown) →
      (collect path entry depth false).run content host = .error (.defect .unbalancedMarkup) := by
  rw [run_collect hread hs]
  refine ⟨fun read h => ⟨fun err herr hfits hkeeps => ?_, fun l hl hnot => ?_⟩, fun r t hr => ?_,
    fun hplain err herr hkeeps => ?_, fun e he a style b hname ha hb hstyle htarget => ?_⟩
  · exact runCollect_of_fits hc hm h herr hfits hkeeps
  · have hpages := (Program.consists_exportsPage h).append (Program.consists_summaryPage h)
    refine runCollect_of_refused hm ?_ (hc.refuses l (hpages.proper l hl) hnot)
    rw [← hpages.source]
    exact List.mem_map_of_mem hl
  · exact ⟨Reading.seen_tag_eq_iff hr, Reading.seen_text_eq_iff hr⟩
  · have hview : Program.viewOf Reading.plain = fun _ t => t := by
      funext next t
      exact Reading.seen_plain next t
    have hfits : ∀ l ∈ p.surfaceMarked Reading.plain (some depth) s modules, l.Fits same :=
      List.forall_mem_append.mpr ⟨Program.fits_exportsMarked (hc.same_self "cyan" (by decide)),
        Program.fits_summaryMarked⟩
    rw [← hview] at hkeeps ⊢
    exact runCollect_of_fits hc hm (fun t ht => Reading.plain_of (hplain t ht)) herr hfits hkeeps
  · obtain ⟨target, htarget⟩ : ∃ r : Reading,
        e.2.terminal ≠ e.1 → r.Of (p.symbol e.2.terminal).name.shown := by
      by_cases hne : e.2.terminal ≠ e.1
      · obtain ⟨r, hr⟩ := htarget hne
        exact ⟨r, fun _ => hr⟩
      · exact ⟨Reading.plain "", fun h => absurd h hne⟩
    have hline := p.isLine_exportMarked (hname ▸ Reading.of_closing ha hstyle hb) htarget
    refine runCollect_of_refused hm (List.mem_append_left _ (p.exportLine_mem_exportsPage he)) ?_
    rw [← hline.source]
    exact hc.refuses _ hline.proper (Program.not_fits_exportMarked a style b target e.1 e.2)

end Command

/-! A file with an export whose name ends with a backslash. -/

def Snapshot.slashedText : String :=
  "\x7b\"symbols\":[\x7b\"id\":\"a\",\"name\":\"A\\\\\",\"declarations\":[\"a\"]\x7d]," ++
    "\"files\":[\x7b\"fileName\":\"m\",\"statements\":[\x7b\"id\":\"a\"," ++
    "\"kind\":\"enum_declaration\"\x7d],\"exports\":\x7b\"A\":\"a\"\x7d\x7d]\x7d"

def Snapshot.slashed : Json := .obj [
  ("symbols", .arr [.obj [("id", .str "a"), ("name", .str "A\\"),
    ("declarations", .arr [.str "a"])]]),
  ("files", .arr [.obj [("fileName", .str "m"),
    ("statements", .arr [.obj [("id", .str "a"), ("kind", .str "enum_declaration")]]),
    ("exports", .obj [("A", .str "a")])]])]

def Snapshot.slashedBytes : List UInt8 := slashedText.toUTF8.toList

set_option maxRecDepth 20000 in
theorem Snapshot.document?_slashedBytes :
    document? Json.privateHalf slashedBytes = some slashed := by
  have hdecode : (Text.utf8Decode slashedBytes).toOption.map Text.foldLineEnds =
      some slashedText.toList := by decide +kernel
  obtain ⟨cs, hcs, hfold⟩ := map_toOption_eq_some_iff.mp hdecode
  have hparse : (Json.parse slashedText.toList).toOption = some slashed := by cbv
  rw [document?, hcs, ← hparse, ← hfold]

/-- How the texts of this file are read. -/
def Reading.slashed (t : String) : Reading :=
  if t = "A\\" then ⟨[.text "A"], true⟩ else Reading.plain t

/-- The name keeps the tag behind it as text and is not printed as it is stored. A name with a
bracket in it loses what the bracket holds. -/
theorem collect_slashed : ∃ p s, Snapshot.read "a" (.bytes Snapshot.slashedBytes) = .ok p ∧
    p.surfaceOf (.str "m") = .ok s ∧
    (s.exports.entries.map fun e => (p.symbol e.1).name.shown) = ["A\\"] ∧
    (Command.collect "a" "m" 10 false).run (.bytes Snapshot.slashedBytes) = .ok ⟨0,
      "\nExports of m\n\nA[/] (symbol)\n\nExports: 1 | Globals: 0 | Warnings: 0\n", ""⟩ ∧
    (Reading.slashed "A\\").seen (some "") ≠ "A\\" ∧
    (⟨[.text "src/", .tag (.opening "id"), .text ".ts"], false⟩ : Reading).Of "src/[id].ts" ∧
    (⟨[.text "src/", .tag (.opening "id"), .text ".ts"], false⟩ : Reading).seen (some "cyan") =
      "src/.ts" := by
  have hrun : ((Snapshot.load Snapshot.slashed).toOption.map fun p =>
      ((p.surfaceOf (.str "m")).toOption.map fun s =>
        (s.exports.entries.map fun e => (p.symbol e.1).name.shown,
          (sortedNames s.externalModules).toOption.map (List.map Name.shown),
          s.warnings.map fun w => w.message p, p.takenOver (some 10) s [],
          (p.surfaceMarked Reading.slashed (some 10) s []).map fun l =>
            decide (l.Fits Text.sameStyle),
          p.plainSurface (Program.viewOf Reading.slashed) (some 10) s []))) =
      some (some (["A\\"], some [], [], ["m", "A\\"], [true, true, true],
        "\nExports of m\n\nA[/] (symbol)\n\nExports: 1 | Globals: 0 | Warnings: 0\n")) := by
    cbv
  obtain ⟨p, hload, hrun⟩ := map_toOption_eq_some_iff.mp hrun
  obtain ⟨s, hs, hrun⟩ := map_toOption_eq_some_iff.mp hrun
  simp only [Prod.mk.injEq] at hrun
  obtain ⟨hnames, hmodules, hwarnings, htaken, hfits, hsurface⟩ := hrun
  obtain ⟨modules, hm, hmodules⟩ := map_toOption_eq_some_iff.mp hmodules
  obtain rfl := List.map_eq_nil_iff.mp hmodules
  have hread : Snapshot.read "a" (.bytes Snapshot.slashedBytes) = .ok p :=
    ((Snapshot.read_of_document Snapshot.document?_slashedBytes).1
      (Snapshot.isObject_obj _)).trans hload
  have hslashed : (Reading.slashed "A\\").Of "A\\" :=
    ⟨List.forall_mem_singleton.mpr (by decide : Text.Plain "A"), by decide⟩
  have hreadings : ∀ t ∈ p.takenOver (some 10) s [], (Reading.slashed t).Of t := by
    rw [htaken]
    simp only [List.forall_mem_cons]
    exact ⟨Reading.plain_of (by decide), hslashed, List.forall_mem_nil _⟩
  have herr : (Command.warningPage p s).print .colourless = .ok "" := by
    rw [Command.warningPage, List.map_eq_nil_iff.mp hwarnings]
    rfl
  have hall : ∀ l ∈ p.surfaceMarked Reading.slashed (some 10) s [], l.Fits Text.sameStyle := by
    intro l hl
    have hmem : decide (l.Fits Text.sameStyle) ∈ [true, true, true] :=
      hfits ▸ List.mem_map_of_mem hl
    simpa using hmem
  have hcollect := @Command.collect_prints p s {} Text.sameStyle (fun _ => True)
    Console.reads_colourless "a" "m" (.bytes Snapshot.slashedBytes) []
  dsimp only at hcollect
  obtain ⟨hprints, hseen, _⟩ := hcollect hread hs hm 10
  have hout := (hprints Reading.slashed hreadings).1 "" herr hall fun _ _ => trivial
  rw [hsurface] at hout
  refine ⟨p, s, hread, hs, hnames, hout, fun h => ?_, ⟨?_, by decide⟩, by decide⟩
  · exact (((hseen _ _ hslashed).1 "").mp h).2 rfl
  · simp only [Marked.Proper, List.forall_mem_cons]
    exact ⟨(by decide : Text.Plain "src/"), (by decide : Mark.isName "id" = true),
      (by decide : Text.Plain ".ts"), List.forall_mem_nil _⟩

end ApiSurface
