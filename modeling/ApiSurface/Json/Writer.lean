import ApiSurface.Json.Basic

/-! Writing documents in plain ASCII, on one line or indented. -/

namespace ApiSurface.Json

/-- A `\u` escape of one 16-bit unit. -/
def unitEscape (n : Nat) : List Char := '\\' :: 'u' :: Text.hex 4 n

/-- One character of a string. Characters beyond 16 bits take two units. -/
def writtenChar (c : Char) : List Char :=
  if c = '\x22' then ['\\', '\x22']
  else if c = '\\' then ['\\', '\\']
  else if c = '\n' then ['\\', 'n']
  else if c = '\r' then ['\\', 'r']
  else if c = '\t' then ['\\', 't']
  else if c = '\x08' then ['\\', 'b']
  else if c = '\x0c' then ['\\', 'f']
  else if ' ' ≤ c && c ≤ '~' then [c]
  else if c.toNat < 0x10000 then unitEscape c.toNat
  else
    let n := c.toNat - 0x10000
    unitEscape (0xD800 + n / 0x400) ++ unitEscape (0xDC00 + n % 0x400)

def writtenString (s : String) : String :=
  String.ofList ('\x22' :: s.toList.flatMap writtenChar ++ ['\x22'])

inductive Layout where
  | line
  /-- Every item on its own line, two spaces deeper than what holds it. -/
  | indented
deriving DecidableEq

namespace Layout

/-- The break in front of an item at a depth. -/
def gap (layout : Layout) (depth : Nat) : String :=
  match layout with
  | .line => ""
  | .indented => "\n" ++ String.ofList (List.replicate (2 * depth) ' ')

/-- Items at a depth between an opening and a closing bracket. -/
def enclose (layout : Layout) (depth : Nat) (opening closing : String) (items : List String) :
    String :=
  let comma := match layout with
    | .line => ", "
    | .indented => ","
  if items.isEmpty then opening ++ closing
  else opening ++ layout.gap (depth + 1) ++
    String.intercalate (comma ++ layout.gap (depth + 1)) items ++ layout.gap depth ++ closing

end Layout

mutual

def write (layout : Layout) (depth : Nat) : Json → String
  | .null => "null"
  | .bool b => if b then "true" else "false"
  | .int n => toString n
  | .real x => x.toText "Infinity" "NaN"
  | .str s => writtenString s
  | .arr items => layout.enclose depth "[" "]" (writeItems layout (depth + 1) items)
  | .obj members => layout.enclose depth "\x7b" "\x7d" (writeMembers layout (depth + 1) members)

def writeItems (layout : Layout) (depth : Nat) : List Json → List String
  | [] => []
  | j :: rest => write layout depth j :: writeItems layout depth rest

def writeMembers (layout : Layout) (depth : Nat) : List (String × Json) → List String
  | [] => []
  | (name, value) :: rest =>
    (writtenString name ++ ": " ++ write layout depth value) :: writeMembers layout depth rest

end

/-- The text of a document on one line. -/
def toLine (j : Json) : String := j.write .line 0

/-- The text of a document over several lines. -/
def toLines (j : Json) : String := j.write .indented 0

end ApiSurface.Json
