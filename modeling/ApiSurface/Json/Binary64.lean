/-! Numbers with 53 binary digits, as a document reader keeps them when they are
not written as integers. Reading rounds to the nearest such number, and writing
gives the fewest decimal digits that read back. All arithmetic is exact. -/

namespace ApiSurface

/-- A finite value is `mantissa * 2 ^ exponent` with its sign. The mantissa is below
`2 ^ 53`, and it is at least `2 ^ 52` unless the exponent is the least one. -/
inductive Binary64 where
  | finite (negative : Bool) (mantissa : Nat) (exponent : Int)
  | infinite (negative : Bool)
  | nan
deriving DecidableEq

namespace Binary64

def leastExponent : Int := -1074

def greatestExponent : Int := 971

/-- A ratio scaled by a power of two or ten, as numerator and denominator. -/
def scale (base : Nat) (power : Int) (num den : Nat) : Nat × Nat :=
  (num * base.pow power.toNat, den * base.pow (-power).toNat)

/-- The nearest integer to a ratio. A half goes to the even neighbour. -/
def nearest (num den : Nat) : Nat :=
  let whole := num / den
  let twice := 2 * (num % den)
  if twice < den || (twice = den && whole % 2 = 0) then whole else whole + 1

/-- The nearest value to a positive ratio. -/
def ofRatio (negative : Bool) (num den : Nat) : Binary64 :=
  let guess : Int := (num.log2 : Int) - den.log2
  let above := scale 2 (-guess) num den
  let top := if above.2 ≤ above.1 then guess else guess - 1
  let exponent := max (top - 52) leastExponent
  let scaled := scale 2 (-exponent) num den
  let mantissa := nearest scaled.1 scaled.2
  let carried := if mantissa = 1 <<< 53 then (1 <<< 52, exponent + 1) else (mantissa, exponent)
  if greatestExponent < carried.2 then .infinite negative
  else .finite negative carried.1 carried.2

/-- The nearest value to `digits * 10 ^ power`. -/
def ofDecimal (negative : Bool) (digits : Nat) (power : Int) : Binary64 :=
  let magnitude : Int := (Nat.toDigits 10 digits).length + power
  if digits = 0 || magnitude < -400 then .finite negative 0 leastExponent
  else if 400 < magnitude then .infinite negative
  else
    let r := scale 10 power digits 1
    ofRatio negative r.1 r.2

def isZero : Binary64 → Bool
  | .finite _ mantissa _ => mantissa = 0
  | _ => false

/-- The integer that a value equals, if it equals one. -/
def toInt? : Binary64 → Option Int
  | .finite negative mantissa exponent =>
    let r := scale 2 exponent mantissa 1
    if r.1 % r.2 = 0 then
      some (if negative then -((r.1 / r.2 : Nat) : Int) else ((r.1 / r.2 : Nat) : Int))
    else none
  | _ => none

/-- The least integer that is not below a finite value. -/
def ceil? : Binary64 → Option Int
  | .finite negative mantissa exponent =>
    let r := scale 2 exponent mantissa 1
    some (if negative then -((r.1 / r.2 : Nat) : Int) else ((r.1 + r.2 - 1) / r.2 : Nat))
  | _ => none

/-- One more than a value, rounded. -/
def next : Binary64 → Binary64
  | .finite negative mantissa exponent =>
    let r := scale 2 exponent mantissa 1
    let sum : Int := (if negative then -(r.1 : Int) else r.1) + r.2
    if sum = 0 then .finite false 0 leastExponent else ofRatio (sum < 0) sum.natAbs r.2
  | x => x

/-! ### The fewest digits -/

/-- The power of ten of the leading decimal digit of a ratio below one. -/
def leadingPower (den : Nat) : Nat → Nat → Int
  | 0, _ => 0
  | fuel + 1, num => if den ≤ num then 0 else leadingPower den fuel (num * 10) - 1

/-- The power of ten of the leading decimal digit of a positive ratio. No value is
so small that its first digit comes after 330 places. -/
def decimalPower (num den : Nat) : Int :=
  if den ≤ num then ((Nat.toDigits 10 (num / den)).length : Int) - 1
  else leadingPower den 330 num

/-- The multiple of a power of ten nearest to `4 * mantissa` units among those that
lie between the bounds, all in units of `2 ^ (exponent - 2)`. -/
def onGrid? (mantissa low high : Nat) (closed : Bool) (exponent power : Int) : Option Nat :=
  let unit := scale 2 (exponent - 2) 1 1
  let grid := scale 10 power 1 1
  -- one step of the grid, in units
  let step := (grid.1 * unit.2, grid.2 * unit.1)
  let below := 4 * mantissa * step.2 / step.1
  let inside (c : Nat) : Bool :=
    if closed then low * step.2 ≤ c * step.1 && c * step.1 ≤ high * step.2
    else low * step.2 < c * step.1 && c * step.1 < high * step.2
  let lower := 4 * mantissa * step.2 - below * step.1
  let upper := (below + 1) * step.1 - 4 * mantissa * step.2
  match inside below, inside (below + 1) with
  | true, true =>
    some (if lower < upper || (lower = upper && below % 2 = 0) then below else below + 1)
  | true, false => some below
  | false, true => some (below + 1)
  | false, false => none

/-- Try grids of more and more digits. The first with a hit gives the digits and
the power of ten of the last one. -/
def fewestDigits (mantissa : Nat) (exponent top : Int) : Nat → Nat → Nat × Int
  | _, 0 => (mantissa, 0)
  | count, fuel + 1 =>
    let low := if mantissa = 1 <<< 52 && leastExponent < exponent then 4 * mantissa - 1
      else 4 * mantissa - 2
    let power := top - (count : Int)
    match onGrid? mantissa low (4 * mantissa + 2) (mantissa % 2 = 0) exponent power with
    | some digits => (digits, power)
    | none => fewestDigits mantissa exponent top (count + 1) fuel

/-- The significant digits without zeros at the end, and the power of ten of the first. -/
def significant (mantissa : Nat) (exponent : Int) : List Char × Int :=
  let r := scale 2 exponent mantissa 1
  let found := fewestDigits mantissa exponent (decimalPower r.1 r.2) 0 17
  let digits := Nat.toDigits 10 found.1
  ((digits.reverse.dropWhile (· = '0')).reverse, found.2 + digits.length - 1)

/-- Digits are written positionally while the power of the first is at least -4 and
below 16, with one place after the point at least, and with an exponent of two
digits or more otherwise. -/
def layout (digits : List Char) (power : Int) : List Char :=
  if -4 ≤ power && power < 16 then
    if power < 0 then '0' :: '.' :: List.replicate (-power - 1).toNat '0' ++ digits
    else
      let width := power.toNat + 1
      let whole := digits.take width ++ List.replicate (width - digits.length) '0'
      let rest := digits.drop width
      whole ++ '.' :: (if rest = [] then ['0'] else rest)
  else
    let size := Nat.toDigits 10 power.natAbs
    let mark := 'e' :: (if power < 0 then '-' else '+') :: (if size.length < 2 then ['0'] else [])
    match digits with
    | [d] => d :: mark ++ size
    | d :: more => d :: '.' :: more ++ mark ++ size
    | [] => []

/-- Decimal text, with the given texts for an infinite value and for no number. -/
def toText (infinity noNumber : String) : Binary64 → String
  | .nan => noNumber
  | .infinite negative => if negative then "-" ++ infinity else infinity
  | .finite negative mantissa exponent =>
    let body := if mantissa = 0 then ['0', '.', '0'] else
      let s := significant mantissa exponent
      layout s.1 s.2
    String.ofList (if negative then '-' :: body else body)

end Binary64

end ApiSurface
