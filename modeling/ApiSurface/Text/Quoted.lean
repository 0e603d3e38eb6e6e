import ApiSurface.Text.Hidden

/-! Quoted text: the form in which a piece of text is shown inside a message.
Characters that would not show are written as escapes. -/

namespace ApiSurface.Text

/-- Lower-case hexadecimal digits, padded with zeros to a least width. -/
def hex (width n : Nat) : List Char :=
  let digits := Nat.toDigits 16 n
  List.replicate (width - digits.length) '0' ++ digits

/-- One character between quotes of the given kind. -/
def quotedChar (quote c : Char) : List Char :=
  if c = quote || c = '\\' then ['\\', c]
  else if c = '\n' then ['\\', 'n']
  else if c = '\r' then ['\\', 'r']
  else if c = '\t' then ['\\', 't']
  else if !isHidden c then [c]
  else if c.toNat < 0x100 then '\\' :: 'x' :: hex 2 c.toNat
  else if c.toNat < 0x10000 then '\\' :: 'u' :: hex 4 c.toNat
  else '\\' :: 'U' :: hex 8 c.toNat

/-- Text between single quotes, or between double quotes when it holds single
quotes and no double ones. -/
def quoted (s : String) : String :=
  let cs := s.toList
  let quote := if '\x27' ∈ cs && '\x22' ∉ cs then '\x22' else '\x27'
  String.ofList (quote :: cs.flatMap (quotedChar quote) ++ [quote])

end ApiSurface.Text
