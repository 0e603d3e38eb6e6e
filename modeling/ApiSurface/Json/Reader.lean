import ApiSurface.Json.Basic
import ApiSurface.Table

/-! Reading documents. A step of the reader returns what it leaves of the text with
a proof that it is shorter, and a problem is placed by the length of the text from
the offending character on. -/

namespace ApiSurface.Json

inductive Problem where
  | byteOrderMark | value | name | colon | comma | unterminated | control | escape | unicode | extra
deriving DecidableEq

def Problem.message : Problem → String
  | .byteOrderMark => "Unexpected UTF-8 BOM (decode using utf-8-sig)"
  | .value => "Expecting value"
  | .name => "Expecting property name enclosed in double quotes"
  | .colon => "Expecting ':' delimiter"
  | .comma => "Expecting ',' delimiter"
  | .unterminated => "Unterminated string starting at"
  | .control => "Invalid control character at"
  | .escape => "Invalid \\escape"
  | .unicode => "Invalid \\uXXXX escape"
  | .extra => "Extra data"

/-- Why the reader stops. -/
inductive Stop where
  /-- A problem and the number of characters from its place to the end of the text. -/
  | problem (what : Problem) (left : Nat)
  /-- An integer with too many digits. -/
  | digits (count : Nat)
  | tooDeep

/-- What a step leaves of a text. -/
abbrev Rest (s : List Char) := { r : List Char // r.length < s.length }

def isBlank (c : Char) : Bool := c = ' ' || c = '\t' || c = '\n' || c = '\r'

def skip (s : List Char) : List Char := s.dropWhile isBlank

theorem length_skip_le (s : List Char) : (skip s).length ≤ s.length :=
  (List.dropWhile_sublist _).length_le

theorem length_le_of_skip {s r : List Char} (h : skip s = r) : r.length ≤ s.length :=
  h ▸ length_skip_le s

theorem length_lt_of_skip {s r : List Char} {c : Char} (h : skip s = c :: r) :
    r.length < s.length :=
  length_le_of_skip h

/-! ### Strings -/

def hexDigit? (c : Char) : Option Nat :=
  if c.isDigit then some (c.toNat - 48)
  else if 'a' ≤ c && c ≤ 'f' then some (c.toNat - 87)
  else if 'A' ≤ c && c ≤ 'F' then some (c.toNat - 55)
  else none

def unit? (a b c d : Char) : Option Nat := do
  return (← hexDigit? a) * 4096 + (← hexDigit? b) * 256 + (← hexDigit? c) * 16 + (← hexDigit? d)

def isHighUnit (n : Nat) : Bool := 0xD800 ≤ n && n < 0xDC00

def isLowUnit (n : Nat) : Bool := 0xDC00 ≤ n && n < 0xE000

/-- The character of two units. -/
def pairChar (high low : Nat) : Char :=
  Char.ofNat (0x10000 + (high - 0xD800) * 0x400 + (low - 0xDC00))

/-- Half of a pair alone is no character. A reader is given what stands for it, so that
documents with such halves can be read under any choice that tells them apart. -/
def charOfUnit (half : Nat → Char) (n : Nat) : Char :=
  if isHighUnit n || isLowUnit n then half n else Char.ofNat n

/-- A character for private use for each half of a pair. -/
def privateHalf (n : Nat) : Char := Char.ofNat (0x10F800 + (n - 0xD800))

/-- The character of an escape whose `\u` has been read. Two units make one character if
they are a pair and text follows them. An escape never ends the text. -/
def unicodeChar (half : Nat → Char) (s : List Char) :
    Except Stop (Char × { r : List Char // r.length ≤ s.length }) :=
  match s with
  | a :: b :: c :: d :: rest =>
    match unit? a b c d with
    | none => .error (.problem .unicode (rest.length + 5))
    | some n =>
      match rest with
      | [] => .error (.problem .unicode 5)
      | '\\' :: 'u' :: a' :: b' :: c' :: d' :: e :: more =>
        if isHighUnit n then
          match unit? a' b' c' d' with
          | none => .error (.problem .unicode (more.length + 6))
          | some m =>
            if isLowUnit m then
              .ok (pairChar n m, ⟨e :: more, by simp only [List.length_cons]; omega⟩)
            else .ok (charOfUnit half n,
              ⟨'\\' :: 'u' :: a' :: b' :: c' :: d' :: e :: more,
                by simp only [List.length_cons]; omega⟩)
        else .ok (charOfUnit half n,
          ⟨'\\' :: 'u' :: a' :: b' :: c' :: d' :: e :: more,
            by simp only [List.length_cons]; omega⟩)
      | e :: more => .ok (charOfUnit half n, ⟨e :: more, by simp only [List.length_cons]; omega⟩)
  | r => .error (.problem .unicode (r.length + 1))

def simpleEscape? : Char → Option Char
  | '\x22' => some '\x22'
  | '\\' => some '\\'
  | '/' => some '/'
  | 'b' => some '\x08'
  | 'f' => some '\x0c'
  | 'n' => some '\n'
  | 'r' => some '\r'
  | 't' => some '\t'
  | _ => none

/-- The characters up to the closing quote of a string that begins with `opening`. -/
def stringChars (half : Nat → Char) (opening s : List Char) : Except Stop (List Char × Rest s) :=
  match s with
  | [] => .error (.problem .unterminated opening.length)
  | '\x22' :: r => .ok ([], ⟨r, Nat.lt_succ_self _⟩)
  | '\\' :: [] => .error (.problem .unterminated opening.length)
  | '\\' :: 'u' :: r =>
    match unicodeChar half r with
    | .error e => .error e
    | .ok (x, ⟨r', h⟩) =>
      match stringChars half opening r' with
      | .error e => .error e
      | .ok (xs, ⟨t, ht⟩) => .ok (x :: xs, ⟨t, by simp only [List.length_cons]; omega⟩)
  | '\\' :: c :: r =>
    match simpleEscape? c with
    | none => .error (.problem .escape (r.length + 2))
    | some x =>
      match stringChars half opening r with
      | .error e => .error e
      | .ok (xs, ⟨t, ht⟩) => .ok (x :: xs, ⟨t, by simp only [List.length_cons]; omega⟩)
  | c :: r =>
    if c < ' ' then .error (.problem .control (r.length + 1))
    else match stringChars half opening r with
      | .error e => .error e
      | .ok (xs, ⟨t, ht⟩) => .ok (c :: xs, ⟨t, Nat.lt_succ_of_lt ht⟩)
termination_by s.length
decreasing_by all_goals simp only [List.length_cons]; omega

/-! ### Numbers -/

def digitsValue (ds : List Char) : Nat := ds.foldl (fun n d => n * 10 + (d.toNat - 48)) 0

/-- The digits of a number in front of the point: a zero stands alone. -/
def wholeDigits : List Char → List Char
  | '0' :: _ => ['0']
  | s => s.takeWhile Char.isDigit

/-- The digits behind a point, and the length of the point with them. -/
def fraction : List Char → List Char × Nat
  | '.' :: r =>
    let ds := r.takeWhile Char.isDigit
    if ds.isEmpty then ([], 0) else (ds, ds.length + 1)
  | _ => ([], 0)

/-- The power of ten that follows a number, and the length of its text. -/
def power : List Char → Option (Int × Nat)
  | [] => none
  | e :: r =>
    let signed := match r with
      | '-' :: t => (true, 1, t)
      | '+' :: t => (false, 1, t)
      | _ => (false, 0, r)
    let ds := signed.2.2.takeWhile Char.isDigit
    if (e = 'e' || e = 'E') && !ds.isEmpty then
      let n : Int := digitsValue ds
      some (if signed.1 then -n else n, 1 + signed.2.1 + ds.length)
    else none

/-- The number that begins with the given digits, and how much of the text behind
them belongs to it, which is nothing for an integer. -/
def ofDigits (negative : Bool) (whole s : List Char) : Json × Nat :=
  let frac := fraction s
  match frac.1, power (s.drop frac.2) with
  | [], none =>
    let n : Int := digitsValue whole
    (.int (if negative then -n else n), 0)
  | places, exponent =>
    let e := exponent.getD (0, 0)
    (.real (.ofDecimal negative (digitsValue (whole ++ places)) (e.1 - places.length)),
      frac.2 + e.2)

/-- The number of digits up to which an integer is read. -/
def mostDigits : Nat := 4300

def unsign : List Char → List Char
  | '-' :: r => r
  | r => r

theorem length_unsign_le (s : List Char) : (unsign s).length ≤ s.length := by
  unfold unsign
  split
  · exact Nat.le_succ _
  · exact Nat.le_refl _

def number (s : List Char) : Except Stop (Json × Rest s) :=
  match h : wholeDigits (unsign s) with
  | [] => .error (.problem .value s.length)
  | d :: ds =>
    let rest := (unsign s).drop (ds.length + 1)
    let found := ofDigits (s.head? = some '-') (d :: ds) rest
    if found.2 = 0 && mostDigits < ds.length + 1 then .error (.digits (ds.length + 1))
    else .ok (found.1, ⟨rest.drop found.2, by
      have hs : unsign s ≠ [] := by
        intro hs
        rw [hs] at h
        cases h
      have := length_unsign_le s
      have := List.length_pos_iff.mpr hs
      simp only [rest, List.length_drop]
      omega⟩)

/-! ### Values -/

mutual

/-- The value at the front of a text. There is room for so many levels of brackets. -/
def value (half : Nat → Char) (room : Nat) (s : List Char) : Except Stop (Json × Rest s) :=
  match s with
  | '\x22' :: r =>
    match stringChars half s r with
    | .error e => .error e
    | .ok (cs, ⟨t, h⟩) => .ok (.str (String.ofList cs), ⟨t, Nat.lt_succ_of_lt h⟩)
  | '\x7b' :: r =>
    if room = 0 then .error .tooDeep
    else match h : skip r with
      | '\x7d' :: t => .ok (.obj [], ⟨t, Nat.lt_succ_of_lt (length_lt_of_skip h)⟩)
      | r' =>
        match members half (room - 1) r' with
        | .error e => .error e
        | .ok (ms, ⟨t, ht⟩) =>
          .ok (.obj (ms.foldl (fun acc m => Table.put m.1 m.2 acc) []),
            ⟨t, Nat.lt_succ_of_lt (Nat.lt_of_lt_of_le ht (length_le_of_skip h))⟩)
  | '[' :: r =>
    if room = 0 then .error .tooDeep
    else match h : skip r with
      | ']' :: t => .ok (.arr [], ⟨t, Nat.lt_succ_of_lt (length_lt_of_skip h)⟩)
      | r' =>
        match elements half (room - 1) r' with
        | .error e => .error e
        | .ok (xs, ⟨t, ht⟩) =>
          .ok (.arr xs, ⟨t, Nat.lt_succ_of_lt (Nat.lt_of_lt_of_le ht (length_le_of_skip h))⟩)
  | 'n' :: 'u' :: 'l' :: 'l' :: r => .ok (.null, ⟨r, by simp only [List.length_cons]; omega⟩)
  | 't' :: 'r' :: 'u' :: 'e' :: r => .ok (.bool true, ⟨r, by simp only [List.length_cons]; omega⟩)
  | 'f' :: 'a' :: 'l' :: 's' :: 'e' :: r =>
    .ok (.bool false, ⟨r, by simp only [List.length_cons]; omega⟩)
  | 'N' :: 'a' :: 'N' :: r => .ok (.real .nan, ⟨r, by simp only [List.length_cons]; omega⟩)
  | 'I' :: 'n' :: 'f' :: 'i' :: 'n' :: 'i' :: 't' :: 'y' :: r =>
    .ok (.real (.infinite false), ⟨r, by simp only [List.length_cons]; omega⟩)
  | '-' :: 'I' :: 'n' :: 'f' :: 'i' :: 'n' :: 'i' :: 't' :: 'y' :: r =>
    .ok (.real (.infinite true), ⟨r, by simp only [List.length_cons]; omega⟩)
  | r => number r
termination_by (s.length, 0)
decreasing_by all_goals exact Prod.Lex.left _ _ (Nat.lt_succ_of_le (length_le_of_skip h))

/-- The items of an array from one of them on, with the closing bracket. -/
def elements (half : Nat → Char) (room : Nat) (s : List Char) : Except Stop (List Json × Rest s) :=
  match value half room s with
  | .error e => .error e
  | .ok (j, ⟨r, h⟩) =>
    match hr : skip r with
    | ']' :: t => .ok ([j], ⟨t, Nat.lt_trans (length_lt_of_skip hr) h⟩)
    | ',' :: t =>
      have ht : (skip t).length < s.length :=
        Nat.lt_of_le_of_lt (length_skip_le t) (Nat.lt_trans (length_lt_of_skip hr) h)
      match elements half room (skip t) with
      | .error e => .error e
      | .ok (js, ⟨u, hu⟩) => .ok (j :: js, ⟨u, Nat.lt_trans hu ht⟩)
    | r' => .error (.problem .comma r'.length)
termination_by (s.length, 1)
decreasing_by
  · exact Prod.Lex.right _ Nat.zero_lt_one
  · exact Prod.Lex.left _ _ ht

/-- The members of an object from one of them on, with the closing bracket. -/
def members (half : Nat → Char) (room : Nat) (s : List Char) :
    Except Stop (List (String × Json) × Rest s) :=
  match s with
  | '\x22' :: r =>
    match stringChars half s r with
    | .error e => .error e
    | .ok (cs, ⟨r₁, h₁⟩) =>
      match h₂ : skip r₁ with
      | ':' :: r₂ =>
        have h₃ : (skip r₂).length < r.length :=
          Nat.lt_of_le_of_lt (length_skip_le r₂) (Nat.lt_trans (length_lt_of_skip h₂) h₁)
        match value half room (skip r₂) with
        | .error e => .error e
        | .ok (j, ⟨r₃, h₄⟩) =>
          match h₅ : skip r₃ with
          | '\x7d' :: t => .ok ([(String.ofList cs, j)],
              ⟨t, Nat.lt_succ_of_lt (Nat.lt_trans (length_lt_of_skip h₅) (Nat.lt_trans h₄ h₃))⟩)
          | ',' :: t =>
            have h₆ : (skip t).length < r.length := Nat.lt_of_le_of_lt (length_skip_le t)
              (Nat.lt_trans (length_lt_of_skip h₅) (Nat.lt_trans h₄ h₃))
            match members half room (skip t) with
            | .error e => .error e
            | .ok (ms, ⟨u, hu⟩) => .ok ((String.ofList cs, j) :: ms,
                ⟨u, Nat.lt_succ_of_lt (Nat.lt_trans hu h₆)⟩)
          | r' => .error (.problem .comma r'.length)
      | r' => .error (.problem .colon r'.length)
  | r => .error (.problem .name r.length)
termination_by (s.length, 1)
decreasing_by
  · exact Prod.Lex.left _ _ (Nat.lt_succ_of_lt h₃)
  · exact Prod.Lex.left _ _ (Nat.lt_succ_of_lt h₆)

end

/-- A problem with its place: line and column count from one, the offset from zero. -/
structure Malformed where
  problem : Problem
  line : Nat
  column : Nat
  offset : Nat
deriving DecidableEq

def Malformed.message (m : Malformed) : String :=
  m.problem.message ++ ": line " ++ toString m.line ++ " column " ++ toString m.column ++
    " (char " ++ toString m.offset ++ ")"

/-- Why a text is no document. -/
inductive Unreadable where
  | malformed (why : Malformed)
  | digits (count : Nat)
  | tooDeep

/-- Place a problem in a text, given how much of the text follows. -/
def Problem.locate (s : List Char) (what : Problem) (left : Nat) : Malformed :=
  let offset := s.length - left
  let before := s.take offset
  ⟨what, before.count '\n' + 1, (before.reverse.takeWhile (· ≠ '\n')).length + 1, offset⟩

/-- What a stop of the reader says about the text. -/
def Stop.unreadable (s : List Char) : Stop → Unreadable
  | .problem what left => .malformed (what.locate s left)
  | .digits count => .digits count
  | .tooDeep => .tooDeep

/-- The number of levels up to which a document is read. It stands for the limit on recursion
of the reader alone. All other recursions, those over nodes, modules, aliases and references,
are taken to stay within that limit. -/
def deepest : Nat := 990

/-- Read a whole text as one document. -/
def parse (s : List Char) (half : Nat → Char := privateHalf) : Except Unreadable Json :=
  if s.head? = some (Char.ofNat 0xFEFF) then
    .error (.malformed (Problem.byteOrderMark.locate s s.length))
  else match value half deepest (skip s) with
    | .error e => .error (e.unreadable s)
    | .ok (j, ⟨r, _⟩) =>
      match skip r with
      | [] => .ok j
      | r' => .error (.malformed (Problem.extra.locate s r'.length))

end ApiSurface.Json
