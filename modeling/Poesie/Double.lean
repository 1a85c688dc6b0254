import Poesie.Json

set_option autoImplicit false

/-! # Whole numbers as doubles

A double is its bit pattern: a sign, eleven bits of exponent and fifty-two of fraction. An
integer is converted to the nearest double, and to the one with an even significand where two
are as near. Integers up to `2^53` are not changed by this.
-/

namespace Poesie

namespace Float64

/-- The fifty-three leading bits of a positive number, rounded. -/
def significand (n : Nat) : Nat :=
  if n.log2 ≤ 52 then n * 2 ^ (52 - n.log2)
  else
    let shift := n.log2 - 52
    let q := n / 2 ^ shift
    let r := n % 2 ^ shift
    if 2 ^ (shift - 1) < r ∨ (r = 2 ^ (shift - 1) ∧ q % 2 = 1) then q + 1 else q

/-- The bits without the sign. The leading bit of the significand adds one to the exponent, and
so does a significand that was rounded up to `2^53`. -/
def magnitudeBits (n : Nat) : Nat := if n = 0 then 0 else (n.log2 + 1022) * 2 ^ 52 + significand n

/-- The conversion of an integer to `double`. -/
def ofInt (n : Int) : Float64 :=
  ⟨UInt64.ofNat ((if n < 0 then 2 ^ 63 else 0) + magnitudeBits n.natAbs)⟩

/-- `std::isnan` -/
def isNaN (x : Float64) : Bool :=
  x.bits.toNat / 2 ^ 52 % 2 ^ 11 = 2047 ∧ x.bits.toNat % 2 ^ 52 ≠ 0

/-- The value of a double, if it is a whole number. -/
def toInt? (x : Float64) : Option Int :=
  let bits := x.bits.toNat
  let exponent := bits / 2 ^ 52 % 2 ^ 11
  let fraction := bits % 2 ^ 52
  let negative := bits / 2 ^ 63 = 1
  let magnitude : Option Nat :=
    if exponent = 2047 then none
    else if exponent = 0 then if fraction = 0 then some 0 else none
    else if 1075 ≤ exponent then some ((2 ^ 52 + fraction) * 2 ^ (exponent - 1075))
    else if (2 ^ 52 + fraction) % 2 ^ (1075 - exponent) = 0 then
      some ((2 ^ 52 + fraction) / 2 ^ (1075 - exponent))
    else none
  magnitude.map fun n : Nat => if negative then -(n : Int) else n

/-- The significand of a number up to `2^53` is exact. -/
theorem significand_of_le {n : Nat} (h0 : n ≠ 0) (h : n ≤ 2 ^ 53) :
    n.log2 ≤ 53 ∧ 2 ^ 52 ≤ significand n ∧ significand n < 2 ^ 53 ∧
      significand n * 2 ^ (n.log2 - 52) = n * 2 ^ (52 - n.log2) := by
  have hlow : 2 ^ n.log2 ≤ n := Nat.log2_self_le h0
  have hhigh : n < 2 ^ (n.log2 + 1) := Nat.lt_log2_self
  have hlog : n.log2 ≤ 53 := by
    have : 2 ^ n.log2 ≤ 2 ^ 53 := Nat.le_trans hlow h
    exact (Nat.pow_le_pow_iff_right (by decide)).mp this
  refine ⟨hlog, ?_⟩
  -- below the 53rd bit the significand is shifted up and no bit is lost
  by_cases h52 : n.log2 ≤ 52
  · have hsig : significand n = n * 2 ^ (52 - n.log2) := if_pos h52
    have hsplit : 2 ^ n.log2 * 2 ^ (52 - n.log2) = 2 ^ 52 := by
      rw [← Nat.pow_add]
      congr 1
      omega
    have hpos : 0 < 2 ^ (52 - n.log2) := Nat.pow_pos (by decide)
    rw [hsig, show n.log2 - 52 = 0 by omega, Nat.pow_zero, Nat.mul_one]
    refine ⟨?_, ?_, rfl⟩
    · rw [← hsplit]
      exact Nat.mul_le_mul_right _ hlow
    · calc n * 2 ^ (52 - n.log2) < 2 ^ (n.log2 + 1) * 2 ^ (52 - n.log2) :=
            Nat.mul_lt_mul_of_pos_right hhigh hpos
        _ = 2 * (2 ^ n.log2 * 2 ^ (52 - n.log2)) := by ring
        _ = 2 ^ 53 := by rw [hsplit, ← Nat.pow_succ']
  · -- the only such number
    have hn : n = 2 ^ 53 := by
      have h53 : n.log2 = 53 := by omega
      rw [h53] at hlow
      omega
    subst hn
    decide

/-- The fields of a double whose bits are put together from them. -/
theorem toInt?_of_fields {negative : Bool} {exponent sig : Nat} (hexp : exponent < 2046)
    (hlow : 2 ^ 52 ≤ sig) (hhigh : sig < 2 ^ 53) :
    toInt? ⟨UInt64.ofNat ((if negative then 2 ^ 63 else 0) + (exponent * 2 ^ 52 + sig))⟩ =
      Option.map (fun n : Nat => if negative then -(n : Int) else n)
        (if 1075 ≤ exponent + 1 then some (sig * 2 ^ (exponent + 1 - 1075))
         else if sig % 2 ^ (1075 - (exponent + 1)) = 0 then
           some (sig / 2 ^ (1075 - (exponent + 1)))
         else none) := by
  have hbits : (UInt64.ofNat ((if negative then 2 ^ 63 else 0) + (exponent * 2 ^ 52 + sig))).toNat
      = (if negative then 2 ^ 63 else 0) + (exponent * 2 ^ 52 + sig) := by
    apply UInt64.toNat_ofNat_of_lt'
    show _ < 2 ^ 64
    split <;> omega
  have hexponent : ((if negative then 2 ^ 63 else 0) + (exponent * 2 ^ 52 + sig)) / 2 ^ 52 % 2 ^ 11
      = exponent + 1 := by split <;> omega
  have hfraction : 2 ^ 52 + ((if negative then 2 ^ 63 else 0) + (exponent * 2 ^ 52 + sig)) % 2 ^ 52
      = sig := by split <;> omega
  have hsign : ((if negative then 2 ^ 63 else 0) + (exponent * 2 ^ 52 + sig)) / 2 ^ 63 = 1
      ↔ negative = true := by cases negative <;> simp <;> omega
  unfold toInt?
  simp only [hbits, hexponent, hfraction, hsign]
  rw [if_neg (by omega), if_neg (by omega)]

/-- An integer up to `2^53` is the value of the double it is converted to. -/
theorem toInt?_ofInt {n : Int} (h : n.natAbs ≤ 2 ^ 53) : (ofInt n).toInt? = some n := by
  by_cases h0 : n.natAbs = 0
  · rw [Int.natAbs_eq_zero.mp h0]
    decide
  · obtain ⟨hlog, hlow, hhigh, hvalue⟩ := significand_of_le h0 h
    have hofInt : ofInt n = ⟨UInt64.ofNat ((if decide (n < 0) then 2 ^ 63 else 0)
        + ((n.natAbs.log2 + 1022) * 2 ^ 52 + significand n.natAbs))⟩ := by
      rw [ofInt, magnitudeBits, if_neg h0]
      simp only [decide_eq_true_eq]
    have hsign : (if decide (n < 0) then -((n.natAbs : Nat) : Int) else (n.natAbs : Nat)) = n := by
      by_cases hn : n < 0
      · rw [if_pos (decide_eq_true hn)]
        omega
      · rw [if_neg (by simpa using hn)]
        omega
    rw [hofInt, toInt?_of_fields (by omega) hlow hhigh]
    by_cases h52 : 52 ≤ n.natAbs.log2
    · rw [if_pos (by omega), show n.natAbs.log2 + 1022 + 1 - 1075 = n.natAbs.log2 - 52 by omega,
        hvalue, show 52 - n.natAbs.log2 = 0 by omega, Nat.pow_zero, Nat.mul_one, Option.map_some,
        hsign]
    · have hpos : 0 < 2 ^ (52 - n.natAbs.log2) := Nat.pow_pos (by decide)
      rw [show n.natAbs.log2 - 52 = 0 by omega, Nat.pow_zero, Nat.mul_one] at hvalue
      rw [if_neg (by omega), show 1075 - (n.natAbs.log2 + 1022 + 1) = 52 - n.natAbs.log2 by omega,
        hvalue, if_pos (Nat.mul_mod_left _ _), Nat.mul_div_cancel _ hpos, Option.map_some, hsign]

end Float64

end Poesie
