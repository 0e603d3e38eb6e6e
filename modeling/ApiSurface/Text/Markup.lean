/-! Styled text. A tag in square brackets opens a style, a tag that begins with
a slash closes one, and a backslash in front keeps a tag as text. How a console
reads such texts is its own affair: a console is a parameter of what is printed.
The one that is defined here has no colours and leaves out the tags. -/

namespace ApiSurface

/-- What a console writes when it prints a marked text. None when it refuses the text. -/
abbrev Console := String → Option String

namespace Text

/-- A tag as it stands in a text: the backslashes in front and what the brackets hold. -/
structure Tag where
  slashes : Nat
  body : List Char

namespace Tag

/-- Characters that a tag may begin with. -/
def isStart (c : Char) : Bool := c.isLower || c = '#' || c = '/' || c = '@'

/-- The tag at the front of a text, if there is one. -/
def at? (s : List Char) : Option Tag :=
  let slashes := (s.takeWhile (· = '\\')).length
  match s.drop slashes with
  | '[' :: c :: more =>
    let body := more.takeWhile fun x => x ≠ '[' && x ≠ ']'
    if isStart c && (more.drop body.length).head? = some ']' then some ⟨slashes, c :: body⟩
    else none
  | _ => none

/-- The number of characters that a tag takes. -/
def length (t : Tag) : Nat := t.slashes + t.body.length + 2

/-- The style that a tag names, up to letter case and blanks around it. -/
def style (t : Tag) : List Char :=
  let blank (c : Char) : Bool := c.isWhitespace
  let name := (t.body.takeWhile (· ≠ '=')).map Char.toLower
  ((name.dropWhile blank).reverse.dropWhile blank).reverse

end Tag

inductive Piece where
  | char (c : Char)
  | literal (s : List Char)
  | opening (style : List Char)
  | closing (style : List Char)

/-- The pieces for a tag. Two backslashes in front stand for one, and an odd one
keeps the tag as text. -/
def Tag.pieces (t : Tag) : List Piece :=
  let shown := Piece.literal (List.replicate (t.slashes / 2) '\\')
  if t.slashes % 2 = 1 then [shown, .literal ('[' :: t.body ++ [']'])]
  else match t.style with
    | '/' :: name => [shown, .closing (name.dropWhile Char.isWhitespace)]
    | name => [shown, .opening name]

/-- Cut a text into pieces, going over the characters of a tag already read. -/
def pieces : Nat → List Char → List Piece
  | _, [] => []
  | skip + 1, _ :: rest => pieces skip rest
  | 0, c :: rest =>
    match Tag.at? (c :: rest) with
    | none => .char c :: pieces 0 rest
    | some t => t.pieces ++ pieces (t.length - 1) rest

/-- The characters of pieces under the styles that are open, innermost first.
None when a closing tag has no style to close. -/
def settle : List (List Char) → List Piece → Option (List Char)
  | _, [] => some []
  | styles, .char '\\' :: .char '[' :: rest => (settle styles rest).map ('[' :: ·)
  | styles, .char c :: rest => (settle styles rest).map (c :: ·)
  | styles, .literal s :: rest => (settle styles rest).map (s ++ ·)
  | styles, .opening style :: rest => settle (style :: styles) rest
  | [], .closing _ :: _ => none
  | innermost :: outer, .closing style :: rest =>
    if style = [] then settle outer rest
    else if style ∈ innermost :: outer then settle ((innermost :: outer).erase style) rest
    else none

/-- Marked text without its tags. -/
def plain? (s : String) : Option String := (settle [] (pieces 0 s.toList)).map String.ofList

end Text

/-- A console that prints the text without its tags and ends the line. -/
def Console.colourless : Console := fun s => (Text.plain? s).map (· ++ "\n")

end ApiSurface
