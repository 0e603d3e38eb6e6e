import ApiSurface.Json.Binary64
import ApiSurface.Text.Quoted

/-! Documents: values of the JSON format. The members of an object are ordered,
and a number written as an integer stays one. -/

namespace ApiSurface

inductive Json where
  | null
  | bool (b : Bool)
  | int (n : Int)
  | real (x : Binary64)
  | str (s : String)
  | arr (items : List Json)
  | obj (members : List (String × Json))
deriving Inhabited

/-- What identifies an entry of a document. Numbers are compared by value, and
`true` and `false` count as one and zero. -/
inductive Key where
  | null
  | number (n : Int)
  | real (x : Binary64)
  | text (s : String)
deriving DecidableEq

namespace Json

/-- Whether a value counts as set: everything does but null, false, zero and what is empty. -/
def isSet : Json → Bool
  | .null => false
  | .bool b => b
  | .int n => n ≠ 0
  | .real x => !x.isZero
  | .str s => s ≠ ""
  | .arr items => !items.isEmpty
  | .obj members => !members.isEmpty

/-- A value unless it is null. -/
def given? : Json → Option Json
  | .null => none
  | j => some j

/-- One more than a number. `true` and `false` count as one and zero. -/
def next? : Json → Option Json
  | .bool b => some (.int (if b then 2 else 1))
  | .int n => some (.int (n + 1))
  | .real x => some (.real x.next)
  | _ => none

/-- Arrays and objects identify nothing. -/
def key? : Json → Option Key
  | .null => some .null
  | .bool b => some (.number (if b then 1 else 0))
  | .int n => some (.number n)
  | .real x => some (match x.toInt? with
    | some n => .number n
    | none => .real x)
  | .str s => some (.text s)
  | .arr _ => none
  | .obj _ => none

/-- Whether a value is the given text. -/
def isText (s : String) : Json → Bool
  | .str t => t = s
  | _ => false

/-- A member of an object by its name. -/
def member? (members : List (String × Json)) (name : String) : Option Json :=
  (members.find? fun m => m.1 = name).map Prod.snd

/-- What a value lists: the items of an array, the characters of a string, the names
of an object. -/
def items? : Json → Option (List Json)
  | .arr items => some items
  | .str s => some (s.toList.map fun c => .str (String.singleton c))
  | .obj members => some (members.map fun m => .str m.1)
  | _ => none

/-! ### Values in messages -/

mutual

/-- A value inside another one: strings are quoted. -/
def quoted : Json → String
  | .null => "None"
  | .bool b => if b then "True" else "False"
  | .int n => toString n
  | .real x => x.toText "inf" "nan"
  | .str s => Text.quoted s
  | .arr items => "[" ++ String.intercalate ", " (quotedItems items) ++ "]"
  | .obj members => "\x7b" ++ String.intercalate ", " (quotedMembers members) ++ "\x7d"

def quotedItems : List Json → List String
  | [] => []
  | j :: rest => quoted j :: quotedItems rest

def quotedMembers : List (String × Json) → List String
  | [] => []
  | (name, value) :: rest => (Text.quoted name ++ ": " ++ quoted value) :: quotedMembers rest

end

/-- A value as a message shows it: a string stands for itself. -/
def shown : Json → String
  | .str s => s
  | j => j.quoted

end Json

/-- A value that can identify something, with the key that it counts as. -/
structure Name where
  value : Json
  key : Key
  value_key : value.key? = some key

namespace Name

def ofText (s : String) : Name := ⟨.str s, .text s, rfl⟩

/-- A name as a message shows it. -/
def shown (n : Name) : String := n.value.shown

end Name

/-- A value as a name. Arrays and objects are none. -/
def Json.name? (j : Json) : Option Name :=
  match h : j.key? with
  | some k => some ⟨j, k, h⟩
  | none => none

end ApiSurface
