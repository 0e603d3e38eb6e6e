import ApiSurface.Json.Basic

/-! The order of values. Numbers are ordered by value, texts by their code points, and
arrays by the first items that differ. Values of other kinds, or of two kinds, have no
order. -/

namespace ApiSurface

/-- What a number amounts to, so that integers and other numbers can be compared. -/
inductive Quantity where
  | ratio (num : Int) (den : Nat)
  | infinite (negative : Bool)
  /-- No number, which is neither below nor above any other. -/
  | unordered

def Binary64.quantity : Binary64 → Quantity
  | .finite negative mantissa exponent =>
    let r := scale 2 exponent mantissa 1
    .ratio (if negative then -(r.1 : Int) else r.1) r.2
  | .infinite negative => .infinite negative
  | .nan => .unordered

namespace Quantity

def below : Quantity → Quantity → Bool
  | .ratio a b, .ratio c d => a * d < c * b
  | .ratio _ _, .infinite negative => !negative
  | .infinite negative, .ratio _ _ => negative
  | .infinite negative, .infinite negative' => negative && !negative'
  | _, _ => false

def isOrdered : Quantity → Bool
  | .unordered => false
  | _ => true

end Quantity

namespace Json

/-- What a value amounts to if it is a number. `true` and `false` count as one and zero. -/
def quantity? : Json → Option Quantity
  | .bool b => some (.ratio (if b then 1 else 0) 1)
  | .int n => some (.ratio n 1)
  | .real x => some x.quantity
  | _ => none

mutual

/-- Whether two values are the same: of equal keys, or alike item by item or member by
member. The order of members does not matter. -/
def same : Json → Json → Bool
  | .arr items, .arr others => sameItems items others
  | .obj members, .obj others =>
    members.length = others.length && sameMembers members others
  | a, b =>
    match a.key?, b.key? with
    | some k, some l => k = l
    | _, _ => false

def sameItems : List Json → List Json → Bool
  | [], [] => true
  | a :: items, b :: others => same a b && sameItems items others
  | _, _ => false

def sameMembers : List (String × Json) → List (String × Json) → Bool
  | [], _ => true
  | (name, a) :: members, others =>
    (match member? others name with
      | some b => same a b
      | none => false) && sameMembers members others

end

/-- Whether two values are equal. The value that is no number does not even equal itself. -/
def equals : Json → Json → Bool
  | .real .nan, _ => false
  | a, b => a.same b

mutual

/-- Whether a value goes before another one, for values that have an order. -/
def before? : Json → Json → Option Bool
  | .str a, .str b => some (a < b)
  | .arr items, .arr others => itemsBefore? items others
  | a, b => do return (← a.quantity?).below (← b.quantity?)

def itemsBefore? : List Json → List Json → Option Bool
  | _, [] => some false
  | [], _ :: _ => some true
  | a :: items, b :: others => if same a b then itemsBefore? items others else before? a b

end

end Json

end ApiSurface
