/-! Integers as people write them. Blanks around the number, a sign, zeros in front,
single underscores between digits and a fraction of zeros are let through, and what is
left has to be plain. -/

namespace ApiSurface.Text

/-- Spaces of any width and the ends of lines and pages. -/
def isBlank (c : Char) : Bool :=
  [(0x9, 0xD), (0x20, 0x20), (0x85, 0x85), (0xA0, 0xA0), (0x1680, 0x1680), (0x2000, 0x200A),
   (0x2028, 0x2029), (0x202F, 0x202F), (0x205F, 0x205F), (0x3000, 0x3000)].any
    fun r => r.1 ≤ c.toNat && c.toNat ≤ r.2

def trim (s : List Char) : List Char :=
  ((s.dropWhile isBlank).reverse.dropWhile isBlank).reverse

/-- Leave out zeros, and underscores among them, behind a first zero. The last of them stays
if nothing or a point follows. `last` is the character before the text. -/
def dropZeros (last : Char) : List Char → List Char
  | [] => [last]
  | '0' :: s => dropZeros '0' s
  | '_' :: s => dropZeros '_' s
  | '.' :: s => last :: '.' :: s
  | s => s

/-- A number from its first digit on, without zeros in front. -/
def fromDigit? : List Char → Option (List Char)
  | '0' :: s => some (dropZeros '0' s)
  | c :: s => if c.isDigit then some (c :: s) else none
  | [] => none

/-- A number from its sign on. A plus sign is left out. -/
def fromSign? : List Char → Option (List Char)
  | '+' :: s => fromDigit? s
  | '-' :: s => (fromDigit? s).map ('-' :: ·)
  | s => fromDigit? s

def dropFraction (s : List Char) : List Char :=
  match s.dropWhile (· ≠ '.') with
  | '.' :: '0' :: zeros => if zeros.all (· = '0') then s.takeWhile (· ≠ '.') else s
  | _ => s

def hasDoubleUnderscore : List Char → Bool
  | '_' :: '_' :: _ => true
  | _ :: s => hasDoubleUnderscore s
  | [] => false

/-- Leave out underscores, which may neither begin nor end a number, nor follow each other. -/
def dropUnderscores (s : List Char) : List Char :=
  if s.head? = some '_' || s.getLast? = some '_' || hasDoubleUnderscore s then s
  else s.filter (· ≠ '_')

/-- The number of digits up to which an integer is read. -/
def mostDigits : Nat := 4300

def plainNatural? : List Char → Option Nat
  | ['0'] => some 0
  | '0' :: _ => none
  | [] => none
  | ds =>
    if ds.all Char.isDigit && ds.length ≤ mostDigits then
      some (ds.foldl (fun n d => n * 10 + (d.toNat - 48)) 0)
    else none

/-- A plain integer: digits without a zero in front, perhaps behind a minus sign. -/
def plainInteger? : List Char → Option Int
  | '-' :: ds => (plainNatural? ds).map fun n => -(n : Int)
  | ds => (plainNatural? ds).map fun n => (n : Int)

def integer? (s : String) : Option Int := do
  plainInteger? (dropUnderscores (dropFraction (← fromSign? (trim s.toList))))

end ApiSurface.Text
