/-! Upper-casing as far as it can end in plain Latin letters. -/

namespace ApiSurface.Text

/-- The upper-case form of a character, which may be several letters. A character
whose upper case is not made of plain Latin letters stands for itself. -/
def upperChar (c : Char) : List Char :=
  if c.isLower then [c.toUpper]
  else match c.toNat with
    | 0x00DF => ['S', 'S']
    | 0x0131 => ['I']
    | 0x017F => ['S']
    | 0xFB00 => ['F', 'F']
    | 0xFB01 => ['F', 'I']
    | 0xFB02 => ['F', 'L']
    | 0xFB03 => ['F', 'F', 'I']
    | 0xFB04 => ['F', 'F', 'L']
    | 0xFB05 => ['S', 'T']
    | 0xFB06 => ['S', 'T']
    | _ => [c]

def upperCase (s : String) : String := String.ofList (s.toList.flatMap upperChar)

end ApiSurface.Text
