import ApiSurface.Json.Order
import ApiSurface.Proofs.Tables
import Mathlib.Algebra.Order.Field.Power
import Mathlib.Algebra.Order.Field.Rat
import Mathlib.Data.Rat.Cast.Order
import Mathlib.Data.String.Basic
import Mathlib.Order.WithBot
import Mathlib.Tactic.Linarith
import Mathlib.Tactic.Positivity
import Mathlib.Tactic.Ring

/-! Comparing values. The order of values is an order indeed, as far as values have one, except
for the value that is no number. It is neither below nor above any number, and a test with it has
an answer all the same. -/

namespace ApiSurface

/-! ### Numbers -/

namespace Quantity

/-- What a quantity amounts to. One without an order amounts to nothing in particular. -/
def value : Quantity → WithBot (WithTop ℚ)
  | .ratio num den => ((num / den : ℚ) : WithTop ℚ)
  | .infinite negative => if negative then ⊥ else ((⊤ : WithTop ℚ) : WithBot (WithTop ℚ))
  | .unordered => ⊥

/-- A quantity that has an order. -/
def Proper : Quantity → Prop
  | .ratio _ den => 0 < den
  | .infinite _ => True
  | .unordered => False

theorem below_eq {q r : Quantity} (hq : q.Proper) (hr : r.Proper) :
    q.below r = decide (q.value < r.value) := by
  match q, r with
  | .ratio a b, .ratio c d =>
    have hb : (0 : ℚ) < b := Nat.cast_pos.mpr hq
    have hd : (0 : ℚ) < d := Nat.cast_pos.mpr hr
    simp only [below, value, WithBot.coe_lt_coe, WithTop.coe_lt_coe, div_lt_div_iff₀ hb hd]
    norm_cast
  | .ratio a b, .infinite negative =>
    have htop : (((a / b : ℚ) : WithTop ℚ) : WithBot (WithTop ℚ)) < ((⊤ : WithTop ℚ) :) :=
      WithBot.coe_lt_coe.mpr (WithTop.coe_lt_top _)
    cases negative with
    | true => simp [below, value]
    | false => exact (decide_eq_true htop).symm
  | .infinite negative, .ratio c d => cases negative <;> simp [below, value]
  | .infinite negative, .infinite negative' =>
    cases negative <;> cases negative' <;> simp [below, value]

end Quantity

namespace Binary64

/-- Each value is kept in one way. -/
def Canonical : Binary64 → Prop
  | .finite _ mantissa exponent => mantissa < 2 ^ 53 ∧ leastExponent ≤ exponent ∧
      (2 ^ 52 ≤ mantissa ∨ exponent = leastExponent)
  | .infinite _ => True
  | .nan => False

/-- A power of two and its scaled ratio amount to the same. -/
theorem scale_two (mantissa : Nat) (exponent : Int) :
    ((scale 2 exponent mantissa 1).1 : ℚ) / (scale 2 exponent mantissa 1).2 =
      mantissa * 2 ^ exponent := by
  obtain ⟨n, rfl | rfl⟩ := exponent.eq_nat_or_neg
  · simp [scale]
  · simp [scale, div_eq_mul_inv]

theorem value_finite (negative : Bool) (mantissa : Nat) (exponent : Int) :
    (finite negative mantissa exponent).quantity.value =
      (((if negative then -1 else 1) * (mantissa * 2 ^ exponent) : ℚ) : WithTop ℚ) := by
  rw [← scale_two]
  cases negative <;> simp [quantity, Quantity.value, neg_div]

theorem proper_quantity {x : Binary64} (h : x.Canonical) : x.quantity.Proper := by
  cases x with
  | finite negative mantissa exponent => simp [quantity, Quantity.Proper, scale]
  | infinite negative => trivial
  | nan => exact h

/-- The integer of a value is what it amounts to. -/
theorem toInt?_eq_some_iff {x : Binary64} {n : Int} :
    x.toInt? = some n ↔ x.quantity.value = ((n : ℚ) : WithTop ℚ) := by
  cases x with
  | finite negative mantissa exponent =>
    rw [value_finite, WithBot.coe_inj, WithTop.coe_inj, ← scale_two, toInt?]
    have hden : 0 < (scale 2 exponent mantissa 1).2 := by simp [scale]
    generalize (scale 2 exponent mantissa 1).1 = num at hden ⊢
    generalize (scale 2 exponent mantissa 1).2 = den at hden ⊢
    have hden' : (den : ℚ) ≠ 0 := by positivity
    split
    · rename_i hmod
      obtain ⟨k, rfl⟩ := Nat.dvd_of_mod_eq_zero hmod
      rw [Nat.mul_div_cancel_left k hden, Nat.cast_mul, mul_div_cancel_left₀ _ hden']
      cases negative <;> simp <;> norm_cast
    · rename_i hmod
      refine iff_of_false (by simp) fun hn => hmod (Nat.mod_eq_zero_of_dvd ?_)
      obtain ⟨m, hm⟩ : ∃ m : Int, (num : ℚ) / den = m := by
        cases negative with
        | true => exact ⟨-n, by simp [← hn]⟩
        | false => exact ⟨n, by simp [← hn]⟩
      rw [div_eq_iff hden'] at hm
      exact Int.natCast_dvd_natCast.mp ⟨m, by rw [mul_comm]; exact_mod_cast hm⟩
  | infinite negative => cases negative <;> simp [toInt?, quantity, Quantity.value]
  | nan => simp [toInt?, quantity, Quantity.value]

/-- A mantissa and an exponent in the one way are determined by what they amount to. -/
theorem eq_of_mul_two_zpow_eq {m n : Nat} {d e : Int} {negative negative' : Bool}
    (hm : (finite negative m d).Canonical) (hn : (finite negative' n e).Canonical)
    (h : (m * 2 ^ d : ℚ) = n * 2 ^ e) : d ≤ e → m = n ∧ d = e := by
  intro hde
  obtain ⟨k, rfl⟩ : ∃ k : Nat, e = d + k := ⟨(e - d).toNat, by omega⟩
  have hmn : m = n * 2 ^ k := by
    rw [zpow_add₀ (by norm_num), mul_comm (2 ^ d : ℚ), ← mul_assoc] at h
    exact_mod_cast mul_right_cancel₀ (by positivity) h
  obtain ⟨hm, hd, _⟩ := hm
  obtain ⟨_, _, hn⟩ := hn
  cases k with
  | zero => simpa using hmn
  | succ k =>
    have hpow : 1 ≤ 2 ^ k := Nat.one_le_two_pow
    have hlarge : 2 ^ 52 ≤ n := hn.resolve_right (by push_cast; omega)
    rw [pow_succ] at hmn
    nlinarith

/-- Values in the one way that amount to the same are the same, unless they are integers, where
zero has two signs. -/
theorem eq_of_value_eq {x y : Binary64} (hx : x.Canonical) (hy : y.Canonical)
    (hi : x.toInt? = none) (h : x.quantity.value = y.quantity.value) : x = y := by
  match x, y with
  | .finite negative m d, .finite negative' n e =>
    have hm : m ≠ 0 := by
      rintro rfl
      cases negative <;> simp [toInt?, scale] at hi
    rw [value_finite, value_finite, WithBot.coe_inj, WithTop.coe_inj] at h
    have hpos : (0 : ℚ) < m * 2 ^ d := by positivity
    have hnonneg : (0 : ℚ) ≤ n * 2 ^ e := by positivity
    obtain rfl : negative = negative' := by
      cases negative <;> cases negative' <;> simp at h ⊢ <;> linarith
    have heq : (m * 2 ^ d : ℚ) = n * 2 ^ e := by
      cases negative <;> simpa using h
    rcases le_total d e with hde | hde
    · obtain ⟨rfl, rfl⟩ := eq_of_mul_two_zpow_eq hx hy heq hde
      rfl
    · obtain ⟨rfl, rfl⟩ := eq_of_mul_two_zpow_eq hy hx heq.symm hde
      rfl
  | .finite negative m d, .infinite negative' =>
    cases negative' <;> simp [quantity, Quantity.value] at h
  | .infinite negative, .finite negative' n e =>
    cases negative <;> simp [quantity, Quantity.value] at h
  | .infinite negative, .infinite negative' =>
    cases negative <;> cases negative' <;> simp [quantity, Quantity.value] at h ⊢

end Binary64

namespace Json

/-- A value that goes at most as far as another one. -/
def AtMost (x y : Json) : Prop := x.same y = true ∨ x.before? y = some true

/-- Values that are ordered, as far as they have an order. -/
structure Ordered (V : Json → Prop) : Prop where
  symm {x y : Json} : V x → V y → x.same y = true → y.same x = true
  trans {x y z : Json} : V x → V y → V z → x.AtMost y → y.AtMost z → x.AtMost z
  antisymm {x y : Json} : V x → V y → x.AtMost y → y.AtMost x → x.same y = true
  /-- If a value does not go before another one, that one goes at most as far. -/
  decides {x y : Json} : V x → V y → x.before? y = some false → y.AtMost x

/-! ### Kinds -/

/-- The kinds of values. Values of two kinds are never the same and have no order. -/
inductive Kind where
  | null
  | number
  | text
  | array
  | object

def kind : Json → Kind
  | .null => .null
  | .bool _ => .number
  | .int _ => .number
  | .real _ => .number
  | .str _ => .text
  | .arr _ => .array
  | .obj _ => .object

def Kind.ofKey : Key → Kind
  | .null => .null
  | .number _ => .number
  | .real _ => .number
  | .text _ => .text

theorem kind_of_key? {x : Json} {k : Key} (h : x.key? = some k) : x.kind = .ofKey k := by
  cases x with
  | real b =>
    obtain rfl := Option.some.inj h
    cases hb : b.toInt? <;> rfl
  | arr | obj => cases h
  | null | bool | int | str =>
    obtain rfl := Option.some.inj h
    rfl

/-- Values without items and members are the same if their keys are. -/
theorem same_of_key? {x y : Json} {k : Key} (hx : x.key? = some k) :
    x.same y = true ↔ y.key? = some k := by
  unfold same
  split
  · cases hx
  · cases hx
  · rw [hx]
    cases hy : y.key? with
    | none => simp
    | some l => simp [eq_comm]

theorem kind_of_same {x y : Json} (h : x.same y = true) : x.kind = y.kind := by
  cases hx : x.key? with
  | some k => rw [kind_of_key? hx, kind_of_key? ((same_of_key? hx).mp h)]
  | none =>
    unfold same at h
    split at h
    · rfl
    · rfl
    · simp [hx] at h

theorem kind_of_before? {x y : Json} {b : Bool} (h : x.before? y = some b) : x.kind = y.kind := by
  cases x <;> cases y <;> simp_all [before?, kind, quantity?]

theorem kind_of_atMost {x y : Json} (h : x.AtMost y) : x.kind = y.kind :=
  h.elim kind_of_same kind_of_before?

/-- It is enough to compare values of one kind. -/
theorem Ordered.of_kind {V : Json → Prop} (h : ∀ k, Ordered fun x => V x ∧ x.kind = k) :
    Ordered V where
  symm hx hy hs := (h _).symm ⟨hx, kind_of_same hs⟩ ⟨hy, rfl⟩ hs
  trans hx hy hz hxy hyz :=
    have hyk := kind_of_atMost hyz
    (h _).trans ⟨hx, (kind_of_atMost hxy).trans hyk⟩ ⟨hy, hyk⟩ ⟨hz, rfl⟩ hxy hyz
  antisymm hx hy hxy hyx := (h _).antisymm ⟨hx, kind_of_atMost hxy⟩ ⟨hy, rfl⟩ hxy hyx
  decides hx hy hb := (h _).decides ⟨hx, kind_of_before? hb⟩ ⟨hy, rfl⟩ hb

theorem Ordered.mono {V W : Json → Prop} (h : Ordered V) (hW : ∀ x, W x → V x) : Ordered W where
  symm hx hy := h.symm (hW _ hx) (hW _ hy)
  trans hx hy hz := h.trans (hW _ hx) (hW _ hy) (hW _ hz)
  antisymm hx hy := h.antisymm (hW _ hx) (hW _ hy)
  decides hx hy := h.decides (hW _ hx) (hW _ hy)

/-- Values that are compared by what they amount to. -/
theorem Ordered.of_measure {α : Type} [LinearOrder α] {V : Json → Prop} (measure : Json → α)
    (hsame : ∀ x y, V x → V y → (x.same y = true ↔ measure x = measure y))
    (hbefore : ∀ x y, V x → V y → x.before? y = some (decide (measure x < measure y))) :
    Ordered V := by
  have hle (x y : Json) (hx : V x) (hy : V y) : x.AtMost y ↔ measure x ≤ measure y := by
    rw [AtMost, hsame x y hx hy, hbefore x y hx hy, Option.some.injEq, decide_eq_true_eq,
      or_comm, le_iff_lt_or_eq]
  constructor
  · intro x y hx hy h
    exact (hsame y x hy hx).mpr ((hsame x y hx hy).mp h).symm
  · intro x y z hx hy hz hxy hyz
    exact (hle x z hx hz).mpr (((hle x y hx hy).mp hxy).trans ((hle y z hy hz).mp hyz))
  · intro x y hx hy hxy hyx
    exact (hsame x y hx hy).mpr (((hle x y hx hy).mp hxy).antisymm ((hle y x hy hx).mp hyx))
  · intro x y hx hy h
    rw [hbefore x y hx hy, Option.some.injEq, decide_eq_false_iff_not, not_lt] at h
    exact (hle y x hy hx).mpr h

/-! ### Numbers and texts -/

/-- A value as a document gives it: its numbers are kept in one way, and no name occurs twice in
an object. The value that is no number is left out. -/
inductive Regular : Json → Prop
  | null : Regular .null
  | bool (b : Bool) : Regular (.bool b)
  | int (n : Int) : Regular (.int n)
  | real {x : Binary64} (h : x.Canonical) : Regular (.real x)
  | str (s : String) : Regular (.str s)
  | arr {items : List Json} (h : ∀ x ∈ items, Regular x) : Regular (.arr items)
  | obj {members : List (String × Json)} (hn : (members.map Prod.fst).Nodup)
      (h : ∀ m ∈ members, Regular m.2) : Regular (.obj members)

/-- What a number amounts to. -/
def amount (x : Json) : WithBot (WithTop ℚ) := (x.quantity?.map Quantity.value).getD ⊥

/-- A number that equals an integer has it as its key, and any other one itself. -/
theorem number_cases {x : Json} (h : x.Regular) (hk : x.kind = .number) :
    (∃ q, x.quantity? = some q ∧ q.Proper) ∧
    ((∃ n : Int, x.key? = some (.number n) ∧ x.amount = ((n : ℚ) : WithTop ℚ)) ∨
      ∃ b : Binary64, x.key? = some (.real b) ∧ b.Canonical ∧ b.toInt? = none ∧
        x.amount = b.quantity.value) := by
  cases h with
  | null | str | arr | obj => cases hk
  | bool b =>
    refine ⟨⟨_, rfl, Nat.one_pos⟩, Or.inl ⟨_, rfl, ?_⟩⟩
    cases b <;> simp [amount, quantity?, Quantity.value]
  | int n =>
    exact ⟨⟨_, rfl, Nat.one_pos⟩, Or.inl ⟨n, rfl, by simp [amount, quantity?, Quantity.value]⟩⟩
  | @real b hb =>
    refine ⟨⟨_, rfl, Binary64.proper_quantity hb⟩, ?_⟩
    cases hi : b.toInt? with
    | some n => exact Or.inl ⟨n, by simp [key?, hi], Binary64.toInt?_eq_some_iff.mp hi⟩
    | none => exact Or.inr ⟨b, by simp [key?, hi], hb, hi, rfl⟩

theorem ordered_number : Ordered fun x => x.Regular ∧ x.kind = .number := by
  refine .of_measure amount (fun x y ⟨hx, hkx⟩ ⟨hy, hky⟩ => ?_) fun x y ⟨hx, hkx⟩ ⟨hy, hky⟩ => ?_
  · obtain ⟨_, hx⟩ := number_cases hx hkx
    obtain ⟨_, hy⟩ := number_cases hy hky
    rcases hx with ⟨n, hx, hn⟩ | ⟨b, hx, hb, hi, hn⟩ <;>
      rcases hy with ⟨m, hy, hm⟩ | ⟨c, hy, hc, hj, hm⟩ <;>
      rw [same_of_key? hx, hy, hn, hm]
    · simp [eq_comm]
    · exact iff_of_false (by simp) fun he => by
        simp [Binary64.toInt?_eq_some_iff.mpr he.symm] at hj
    · exact iff_of_false (by simp) fun he => by simp [Binary64.toInt?_eq_some_iff.mpr he] at hi
    · constructor
      · intro he
        rw [Key.real.inj (Option.some.inj he)]
      · intro he
        rw [Binary64.eq_of_value_eq hb hc hi he]
  · obtain ⟨⟨q, hq, hpq⟩, _⟩ := number_cases hx hkx
    obtain ⟨⟨r, hr, hpr⟩, _⟩ := number_cases hy hky
    have hbefore : x.before? y = some (q.below r) := by
      cases x <;> cases y <;> simp_all [before?, kind]
    rw [hbefore, Quantity.below_eq hpq hpr]
    simp [amount, hq, hr]

/-- What a text says. -/
def textOf : Json → String
  | .str s => s
  | _ => ""

theorem ordered_text : Ordered fun x => x.Regular ∧ x.kind = .text := by
  refine .of_measure textOf (fun x y ⟨_, hkx⟩ ⟨_, hky⟩ => ?_) fun x y ⟨_, hkx⟩ ⟨_, hky⟩ => ?_
  · cases x <;> cases y <;> simp_all [kind, same, key?, textOf]
  · cases x <;> cases y <;> simp_all [kind, before?, textOf]

theorem ordered_null : Ordered fun x => x.Regular ∧ x.kind = .null := by
  have hnull (x : Json) (h : x.Regular ∧ x.kind = .null) : x = .null := by
    cases x <;> simp_all [kind]
  have hsame : Json.null.same .null = true := by simp [same, key?]
  constructor
  · intro x y hx hy _
    rw [hnull x hx, hnull y hy, hsame]
  · intro x y z hx hy hz _ _
    rw [hnull x hx, hnull z hz]
    exact Or.inl hsame
  · intro x y hx hy _ _
    rw [hnull x hx, hnull y hy, hsame]
  · intro x y hx hy _
    rw [hnull x hx, hnull y hy]
    exact Or.inl hsame

/-! ### Arrays -/

section

variable {V : Json → Prop}

theorem Ordered.same_trans (h : Ordered V) {x y z : Json} (hx : V x) (hy : V y) (hz : V z)
    (hxy : x.same y = true) (hyz : y.same z = true) : x.same z = true :=
  h.antisymm hx hz (h.trans hx hy hz (Or.inl hxy) (Or.inl hyz))
    (h.trans hz hy hx (Or.inl (h.symm hy hz hyz)) (Or.inl (h.symm hx hy hxy)))

/-- A list of values that goes at most as far as another one. -/
def ItemsAtMost (l m : List Json) : Prop := sameItems l m = true ∨ itemsBefore? l m = some true

theorem itemsAtMost_nil (m : List Json) : ItemsAtMost [] m := by
  cases m <;> simp [ItemsAtMost, sameItems, itemsBefore?]

theorem not_itemsAtMost_nil (x : Json) (l : List Json) : ¬ItemsAtMost (x :: l) [] := by
  simp [ItemsAtMost, sameItems, itemsBefore?]

/-- The first items that differ decide. -/
theorem itemsAtMost_cons {x y : Json} {l m : List Json} : ItemsAtMost (x :: l) (y :: m) ↔
    x.same y = true ∧ ItemsAtMost l m ∨ x.same y = false ∧ x.AtMost y := by
  cases h : x.same y <;> simp [ItemsAtMost, AtMost, sameItems, itemsBefore?, h]

theorem ItemsAtMost.head {x y : Json} {l m : List Json} (h : ItemsAtMost (x :: l) (y :: m)) :
    x.AtMost y :=
  (itemsAtMost_cons.mp h).elim (fun h => Or.inl h.1) And.right

/-- Behind items that are the same, the rest decides. -/
theorem ItemsAtMost.tail {x y : Json} {l m : List Json} (h : ItemsAtMost (x :: l) (y :: m))
    (hs : x.same y = true) : ItemsAtMost l m :=
  (itemsAtMost_cons.mp h).elim And.right fun hne => by simp [hs] at hne

theorem Ordered.sameItems_symm (h : Ordered V) {l m : List Json} (hl : ∀ x ∈ l, V x)
    (hm : ∀ x ∈ m, V x) (hs : sameItems l m = true) : sameItems m l = true := by
  induction l generalizing m with
  | nil => cases m <;> simp_all [sameItems]
  | cons x l ih =>
    cases m with
    | nil => simp [sameItems] at hs
    | cons y m =>
      rw [sameItems, Bool.and_eq_true] at hs ⊢
      obtain ⟨hx, hl⟩ := List.forall_mem_cons.mp hl
      obtain ⟨hy, hm⟩ := List.forall_mem_cons.mp hm
      exact ⟨h.symm hx hy hs.1, ih hl hm hs.2⟩

theorem Ordered.itemsAtMost_trans (h : Ordered V) {k l m : List Json} (hk : ∀ x ∈ k, V x)
    (hl : ∀ x ∈ l, V x) (hm : ∀ x ∈ m, V x) (hkl : ItemsAtMost k l) (hlm : ItemsAtMost l m) :
    ItemsAtMost k m := by
  induction k generalizing l m with
  | nil => exact itemsAtMost_nil m
  | cons x k ih =>
    match l, m with
    | [], _ => exact absurd hkl (not_itemsAtMost_nil x k)
    | y :: l, [] => exact absurd hlm (not_itemsAtMost_nil y l)
    | y :: l, z :: m =>
      obtain ⟨hx, hk⟩ := List.forall_mem_cons.mp hk
      obtain ⟨hy, hl⟩ := List.forall_mem_cons.mp hl
      obtain ⟨hz, hm⟩ := List.forall_mem_cons.mp hm
      have hxyz : x.AtMost z := h.trans hx hy hz hkl.head hlm.head
      rw [itemsAtMost_cons]
      cases hxz : x.same z with
      | false => exact Or.inr ⟨rfl, hxyz⟩
      | true =>
        -- the item between two that are the same is the same as both
        have hzx : z.AtMost x := Or.inl (h.symm hx hz hxz)
        have hxy := h.antisymm hx hy hkl.head (h.trans hy hz hx hlm.head hzx)
        have hyz := h.antisymm hy hz hlm.head (h.trans hz hx hy hzx hkl.head)
        exact Or.inl ⟨rfl, ih hk hl hm (hkl.tail hxy) (hlm.tail hyz)⟩

theorem Ordered.sameItems_of_itemsAtMost (h : Ordered V) {l m : List Json} (hl : ∀ x ∈ l, V x)
    (hm : ∀ x ∈ m, V x) (hlm : ItemsAtMost l m) (hml : ItemsAtMost m l) :
    sameItems l m = true := by
  induction l generalizing m with
  | nil =>
    cases m with
    | nil => simp [sameItems]
    | cons y m => exact absurd hml (not_itemsAtMost_nil y m)
  | cons x l ih =>
    cases m with
    | nil => exact absurd hlm (not_itemsAtMost_nil x l)
    | cons y m =>
      obtain ⟨hx, hl⟩ := List.forall_mem_cons.mp hl
      obtain ⟨hy, hm⟩ := List.forall_mem_cons.mp hm
      have hxy := h.antisymm hx hy hlm.head hml.head
      rw [sameItems, Bool.and_eq_true]
      exact ⟨hxy, ih hl hm (hlm.tail hxy) (hml.tail (h.symm hx hy hxy))⟩

theorem Ordered.itemsAtMost_of_not_before (h : Ordered V) {l m : List Json} (hl : ∀ x ∈ l, V x)
    (hm : ∀ x ∈ m, V x) (hb : itemsBefore? l m = some false) : ItemsAtMost m l := by
  induction l generalizing m with
  | nil =>
    cases m with
    | nil => exact itemsAtMost_nil []
    | cons y m => simp [itemsBefore?] at hb
  | cons x l ih =>
    cases m with
    | nil => exact itemsAtMost_nil _
    | cons y m =>
      obtain ⟨hx, hl⟩ := List.forall_mem_cons.mp hl
      obtain ⟨hy, hm⟩ := List.forall_mem_cons.mp hm
      rw [itemsAtMost_cons]
      rw [itemsBefore?] at hb
      split at hb
      · rename_i hxy
        exact Or.inl ⟨h.symm hx hy hxy, ih hl hm hb⟩
      · rename_i hxy
        refine Or.inr ⟨?_, h.decides hx hy hb⟩
        exact Bool.eq_false_iff.mpr fun hyx => hxy (h.symm hy hx hyx)

theorem Ordered.arr (h : Ordered V) :
    Ordered fun x => ∃ items, x = .arr items ∧ ∀ y ∈ items, V y := by
  have hle (l m : List Json) : AtMost (.arr l) (.arr m) ↔ ItemsAtMost l m := by
    simp [AtMost, ItemsAtMost, same, before?]
  constructor
  · rintro _ _ ⟨l, rfl, hl⟩ ⟨m, rfl, hm⟩ hs
    rw [same] at hs ⊢
    exact h.sameItems_symm hl hm hs
  · rintro _ _ _ ⟨k, rfl, hk⟩ ⟨l, rfl, hl⟩ ⟨m, rfl, hm⟩ hkl hlm
    rw [hle] at hkl hlm ⊢
    exact h.itemsAtMost_trans hk hl hm hkl hlm
  · rintro _ _ ⟨l, rfl, hl⟩ ⟨m, rfl, hm⟩ hlm hml
    rw [hle] at hlm hml
    rw [same]
    exact h.sameItems_of_itemsAtMost hl hm hlm hml
  · rintro _ _ ⟨l, rfl, hl⟩ ⟨m, rfl, hm⟩ hb
    rw [before?] at hb
    exact (hle m l).mpr (h.itemsAtMost_of_not_before hl hm hb)

/-! ### Objects -/

theorem sameMembers_iff {l m : List (String × Json)} : sameMembers l m = true ↔
    ∀ e ∈ l, ∃ y, member? m e.1 = some y ∧ e.2.same y = true := by
  induction l with
  | nil => simp [sameMembers]
  | cons e l ih =>
    rw [sameMembers, Bool.and_eq_true, ih, List.forall_mem_cons]
    cases member? m e.1 <;> simp

theorem member?_eq_some_iff {members : List (String × Json)} (h : (members.map Prod.fst).Nodup)
    {name : String} {x : Json} : member? members name = some x ↔ (name, x) ∈ members :=
  Table.get?_eq_some_iff (t := ⟨members, h⟩)

/-- Two objects are the same if they have the same names, and the same values under them. -/
theorem same_obj_iff {l m : List (String × Json)} (hm : (m.map Prod.fst).Nodup) :
    same (.obj l) (.obj m) = true ↔ l.length = m.length ∧
      ∀ name x, (name, x) ∈ l → ∃ y, (name, y) ∈ m ∧ x.same y = true := by
  rw [same, Bool.and_eq_true, decide_eq_true_eq, sameMembers_iff]
  simp only [member?_eq_some_iff hm, Prod.forall]

theorem Ordered.same_obj_symm (h : Ordered V) {l m : List (String × Json)}
    (hl : (l.map Prod.fst).Nodup) (hm : (m.map Prod.fst).Nodup) (hlV : ∀ e ∈ l, V e.2)
    (hmV : ∀ e ∈ m, V e.2) (hs : same (.obj l) (.obj m) = true) :
    same (.obj m) (.obj l) = true := by
  rw [same_obj_iff hm] at hs
  rw [same_obj_iff hl]
  obtain ⟨hlen, hs⟩ := hs
  have hnames : l.map Prod.fst ⊆ m.map Prod.fst := by
    rintro name hn
    obtain ⟨⟨_, x⟩, hx, rfl⟩ := List.mem_map.mp hn
    obtain ⟨y, hy, _⟩ := hs _ x hx
    exact List.mem_map.mpr ⟨_, hy, rfl⟩
  have hperm := (hl.subperm hnames).perm_of_length_le (by simp [hlen])
  refine ⟨hlen.symm, fun name y hy => ?_⟩
  obtain ⟨⟨_, x⟩, hx, rfl⟩ := List.mem_map.mp
    (hperm.symm.subset (List.mem_map.mpr ⟨(name, y), hy, rfl⟩))
  obtain ⟨y', hy', hxy⟩ := hs _ x hx
  obtain rfl : y' = y := Option.some.inj
    (((member?_eq_some_iff hm).mpr hy').symm.trans ((member?_eq_some_iff hm).mpr hy))
  exact ⟨x, hx, h.symm (hlV _ hx) (hmV _ hy) hxy⟩

theorem Ordered.obj (h : Ordered V) : Ordered fun x => ∃ members, x = .obj members ∧
    (members.map Prod.fst).Nodup ∧ ∀ e ∈ members, V e.2 := by
  have hle (l m : List (String × Json)) :
      AtMost (.obj l) (.obj m) ↔ same (.obj l) (.obj m) = true := by
    simp [AtMost, before?, quantity?]
  constructor
  · rintro _ _ ⟨l, rfl, hl, hlV⟩ ⟨m, rfl, hm, hmV⟩ hs
    exact h.same_obj_symm hl hm hlV hmV hs
  · rintro _ _ _ ⟨k, rfl, hk, hkV⟩ ⟨l, rfl, hl, hlV⟩ ⟨m, rfl, hm, hmV⟩ hkl hlm
    rw [hle, same_obj_iff hl] at hkl
    rw [hle, same_obj_iff hm] at hlm
    rw [hle, same_obj_iff hm]
    refine ⟨hkl.1.trans hlm.1, fun name x hx => ?_⟩
    obtain ⟨y, hy, hxy⟩ := hkl.2 name x hx
    obtain ⟨z, hz, hyz⟩ := hlm.2 name y hy
    exact ⟨z, hz, h.same_trans (hkV _ hx) (hlV _ hy) (hmV _ hz) hxy hyz⟩
  · rintro _ _ ⟨l, rfl, _⟩ ⟨m, rfl, _⟩ hlm _
    exact (hle l m).mp hlm
  · rintro _ _ ⟨l, rfl, _⟩ ⟨m, rfl, _⟩ hb
    simp [before?, quantity?] at hb

end

/-! ### All values -/

theorem ordered_bounded (n : Nat) : Ordered fun x => x.Regular ∧ sizeOf x < n := by
  induction n with
  | zero => constructor <;> rintro _ _ ⟨_, h⟩ <;> omega
  | succ n ih =>
    refine .of_kind fun k => ?_
    cases k with
    | null => exact ordered_null.mono fun x h => ⟨h.1.1, h.2⟩
    | number => exact ordered_number.mono fun x h => ⟨h.1.1, h.2⟩
    | text => exact ordered_text.mono fun x h => ⟨h.1.1, h.2⟩
    | array =>
      refine ih.arr.mono fun x ⟨⟨hx, hn⟩, hk⟩ => ?_
      cases hx with
      | @arr items h =>
        refine ⟨items, rfl, fun y hy => ⟨h y hy, ?_⟩⟩
        have := List.sizeOf_lt_of_mem hy
        simp only [arr.sizeOf_spec] at hn
        omega
      | _ => cases hk
    | object =>
      refine ih.obj.mono fun x ⟨⟨hx, hn⟩, hk⟩ => ?_
      cases hx with
      | @obj members hnames h =>
        refine ⟨members, rfl, hnames, fun e he => ⟨h e he, ?_⟩⟩
        have := List.sizeOf_lt_of_mem he
        obtain ⟨name, y⟩ := e
        simp only [obj.sizeOf_spec, Prod.mk.sizeOf_spec] at hn this ⊢
        omega
      | _ => cases hk

/-- Regular values of all kinds are ordered. -/
theorem ordered_regular : Ordered Regular where
  symm {x y} hx hy := (ordered_bounded (sizeOf x + sizeOf y + 1)).symm
    ⟨hx, by omega⟩ ⟨hy, by omega⟩
  trans {x y z} hx hy hz := (ordered_bounded (sizeOf x + sizeOf y + sizeOf z + 1)).trans
    ⟨hx, by omega⟩ ⟨hy, by omega⟩ ⟨hz, by omega⟩
  antisymm {x y} hx hy := (ordered_bounded (sizeOf x + sizeOf y + 1)).antisymm
    ⟨hx, by omega⟩ ⟨hy, by omega⟩
  decides {x y} hx hy := (ordered_bounded (sizeOf x + sizeOf y + 1)).decides
    ⟨hx, by omega⟩ ⟨hy, by omega⟩

/-! ### Answers -/

theorem sameItems_self {items : List Json} (h : ∀ x ∈ items, x.same x = true) :
    sameItems items items = true := by
  induction items with
  | nil => simp [sameItems]
  | cons x items ih =>
    obtain ⟨hx, hitems⟩ := List.forall_mem_cons.mp h
    rw [sameItems, hx, ih hitems]
    rfl

/-- A regular value is the same as itself. -/
theorem Regular.same_self {x : Json} (h : x.Regular) : x.same x = true := by
  induction h with
  | null => rfl
  | bool b => simp [same, key?]
  | int n => simp [same, key?]
  | real h => simp [same, key?]
  | str s => simp [same, key?]
  | arr _ ih =>
    rw [same]
    exact sameItems_self ih
  | @obj members hn _ ih =>
    exact (same_obj_iff hn).mpr ⟨rfl, fun name y hy => ⟨y, hy, ih _ hy⟩⟩

/-- If there is an answer to whether a list goes before another one, there is one to whether that
one goes before it. -/
theorem exists_itemsBefore? {items others : List Json}
    (hsymm : ∀ x ∈ items, ∀ y ∈ others, y.same x = x.same y)
    (h : ∀ x ∈ items, ∀ y ∈ others, (x.before? y).isSome = true → (y.before? x).isSome = true)
    (hb : (itemsBefore? items others).isSome = true) :
    (itemsBefore? others items).isSome = true := by
  induction items generalizing others with
  | nil => cases others <;> rfl
  | cons x items ih =>
    cases others with
    | nil => rfl
    | cons y others =>
      rw [itemsBefore?] at hb ⊢
      rw [hsymm x (.head _) y (.head _)]
      split at hb
      · rename_i hxy
        rw [if_pos hxy]
        exact ih (fun x hx y hy => hsymm x (.tail _ hx) y (.tail _ hy))
          (fun x hx y hy => h x (.tail _ hx) y (.tail _ hy)) hb
      · rename_i hxy
        rw [if_neg hxy]
        exact h x (.head _) y (.head _) hb

/-- If there is an answer to whether a value goes before another one, there is one to whether that
one goes before it. -/
theorem Regular.before?_isSome {x y : Json} (hx : x.Regular) (hy : y.Regular)
    (h : (x.before? y).isSome = true) : (y.before? x).isSome = true := by
  induction hx generalizing y with
  | @arr items hitems ih =>
    cases hy with
    | @arr others hothers =>
      rw [before?] at h ⊢
      refine exists_itemsBefore? (fun x hx y hy => ?_) (fun x hx y hy => ih x hx (hothers y hy)) h
      exact Bool.eq_iff_iff.mpr ⟨ordered_regular.symm (hothers y hy) (hitems x hx),
        ordered_regular.symm (hitems x hx) (hothers y hy)⟩
    | _ => simp [before?, quantity?] at h
  | _ => cases hy <;> simp_all [before?, quantity?]

end Json

end ApiSurface
