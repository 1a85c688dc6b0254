import Poesie.Wire

set_option autoImplicit false

/-! # Integers of any number of bytes

An integer is kept in `w` bytes as its residue modulo `256 ^ w`. Read with a sign, the bytes give
the integer back if it is at least `-256 ^ w / 2` and smaller than `256 ^ w / 2`. More bytes than an
integer needs repeat its sign, and by these bytes it can be told whether it needs so many.
-/

namespace TwosComplement

open Wire

variable {v w : Nat} {z : Int}

/-! ## Numbers without a sign -/

theorem leBytes_append (v w n : Nat) :
    leBytes (v + w) n = leBytes v n ++ leBytes w (n / 256 ^ v) := by
  induction v generalizing n with
  | zero => simp [leBytes]
  | succ v ih =>
      have hdiv : n / 256 / 256 ^ v = n / 256 ^ (v + 1) := by
        rw [Nat.div_div_eq_div_mul, pow_succ, Nat.mul_comm (256 ^ v)]
      rw [show v + 1 + w = v + w + 1 by omega, leBytes, leBytes, ih, hdiv, List.cons_append]

theorem ofLE_append (bs bs' : Bytes) : ofLE (bs ++ bs') = ofLE bs + 256 ^ bs.length * ofLE bs' := by
  induction bs with
  | nil => simp [ofLE]
  | cons b bs ih =>
      rw [List.cons_append, ofLE, ofLE, ih, List.length_cons, pow_succ]
      ring

theorem leBytes_mod (w n : Nat) : leBytes w (n % 256 ^ w) = leBytes w n := by
  have h := leBytes_ofLE (leBytes w n)
  rwa [leBytes_length, ofLE_leBytes] at h

theorem leBytes_zero (w : Nat) : leBytes w 0 = List.replicate w 0 := by
  induction w with
  | zero => rfl
  | succ w ih => rw [leBytes, Nat.zero_div, ih, List.replicate_succ]; rfl

theorem leBytes_max (w : Nat) : leBytes w (256 ^ w - 1) = List.replicate w 255 := by
  induction w with
  | zero => rfl
  | succ w ih =>
      have hpos : 0 < 256 ^ w := Nat.pow_pos (by decide)
      have hlow : 256 ^ (w + 1) - 1 = 255 + 256 * (256 ^ w - 1) := by
        rw [pow_succ]
        omega
      have hbyte : UInt8.ofNat (255 + 256 * (256 ^ w - 1)) = 255 := by
        rw [← UInt8.toNat_inj, UInt8.toNat_ofNat']
        show (255 + 256 * (256 ^ w - 1)) % 256 = 255
        omega
      rw [hlow, leBytes, hbyte, show (255 + 256 * (256 ^ w - 1)) / 256 = 256 ^ w - 1 by omega, ih,
        List.replicate_succ]

theorem ofLE_eq_zero_iff (bs : Bytes) : ofLE bs = 0 ↔ bs = List.replicate bs.length 0 := by
  constructor
  · intro h
    have hbytes := leBytes_ofLE bs
    rw [h, leBytes_zero] at hbytes
    exact hbytes.symm
  · intro h
    rw [h, ← leBytes_zero, ofLE_leBytes, Nat.zero_mod]

theorem ofLE_take_add_drop {bs : Bytes} (h : w ≤ bs.length) :
    ofLE bs = ofLE (bs.take w) + 256 ^ w * ofLE (bs.drop w) := by
  have happend := ofLE_append (bs.take w) (bs.drop w)
  rwa [List.take_append_drop, List.length_take_of_le h] at happend

/-- A number is that of its first bytes exactly if the bytes behind them are zero. -/
theorem drop_eq_zero_iff {bs : Bytes} (h : w ≤ bs.length) :
    bs.drop w = List.replicate (bs.length - w) 0 ↔ ofLE bs < 256 ^ w := by
  have hlt : ofLE (bs.take w) < 256 ^ w := by
    have hlt := ofLE_lt (bs.take w)
    rwa [List.length_take_of_le h] at hlt
  rw [← List.length_drop, ← ofLE_eq_zero_iff, ofLE_take_add_drop h]
  constructor
  · intro hzero
    rw [hzero]
    omega
  · intro hsmall
    by_contra hne
    have hle : 256 ^ w ≤ 256 ^ w * ofLE (bs.drop w) := Nat.le_mul_of_pos_right _ (by omega)
    omega

theorem ofLE_take {bs : Bytes} (h : w ≤ bs.length) (hlt : ofLE bs < 256 ^ w) :
    ofLE (bs.take w) = ofLE bs := by
  have hdrop : ofLE (bs.drop w) = 0 := by
    rw [ofLE_eq_zero_iff, List.length_drop]
    exact (drop_eq_zero_iff h).mpr hlt
  rw [ofLE_take_add_drop h, hdrop, Nat.mul_zero, Nat.add_zero]

/-! ## Integers -/

/-- The bytes of an integer, least significant first. -/
def toBytes (w : Nat) (z : Int) : Bytes := leBytes w (z % ((256 ^ w : Nat) : Int)).toNat

/-- The integer with these bytes, least significant first. -/
def ofBytes (bs : Bytes) : Int := Int.bmod (ofLE bs) (256 ^ bs.length)

/-- The integers of `w` bytes. -/
def Fits (w : Nat) (z : Int) : Prop :=
  -((256 ^ w / 2 : Nat) : Int) ≤ z ∧ z < ((256 ^ w / 2 : Nat) : Int)

instance (w : Nat) (z : Int) : Decidable (Fits w z) := inferInstanceAs (Decidable (_ ∧ _))

@[simp] theorem length_toBytes (w : Nat) (z : Int) : (toBytes w z).length = w := leBytes_length _ _

/-- Half of the residues are negative. -/
theorem pow_even (h : 0 < w) : 256 ^ w = 2 * (256 ^ w / 2) := by
  obtain ⟨n, rfl⟩ : ∃ n, w = n + 1 := ⟨w - 1, by omega⟩
  rw [pow_succ]
  omega

theorem toBytes_natCast (w n : Nat) : toBytes w (n : Int) = leBytes w n := by
  rw [toBytes, ← Int.natCast_emod, Int.toNat_natCast, leBytes_mod]

theorem toBytes_bmod (w : Nat) (z : Int) : toBytes w (Int.bmod z (256 ^ w)) = toBytes w z := by
  rw [toBytes, toBytes, Int.bmod_emod]

/-- Of the residue modulo more bytes, the first bytes are the same. -/
theorem toBytes_emod (h : w ≤ v) (z : Int) :
    toBytes w (z % ((256 ^ v : Nat) : Int)) = toBytes w z := by
  have hdvd : ((256 ^ w : Nat) : Int) ∣ ((256 ^ v : Nat) : Int) :=
    Int.natCast_dvd_natCast.mpr (Nat.pow_dvd_pow 256 h)
  rw [toBytes, toBytes, Int.emod_emod_of_dvd z hdvd]

theorem ofBytes_toBytes (hw : 0 < w) (h : Fits w z) : ofBytes (toBytes w z) = z := by
  have hpos : 0 < 256 ^ w := Nat.pow_pos (by decide)
  have heven := pow_even hw
  have hres : ofLE (toBytes w z) = (z % ((256 ^ w : Nat) : Int)).toNat := by
    have hlt := Int.emod_lt_of_pos z (show (0 : Int) < (256 ^ w : Nat) by exact_mod_cast hpos)
    exact ofLE_leBytes_of_lt (by omega)
  have hnonneg := Int.emod_nonneg z (show ((256 ^ w : Nat) : Int) ≠ 0 by exact_mod_cast hpos.ne')
  unfold Fits at h
  rw [ofBytes, hres, length_toBytes, Int.toNat_of_nonneg hnonneg, Int.emod_bmod]
  apply Int.bmod_eq_of_le <;> omega

theorem toBytes_ofBytes (bs : Bytes) : toBytes bs.length (ofBytes bs) = bs := by
  rw [ofBytes, toBytes_bmod, toBytes_natCast, leBytes_ofLE]

theorem fits_ofBytes {bs : Bytes} (h : 0 < bs.length) : Fits bs.length (ofBytes bs) := by
  have hpos : 0 < 256 ^ bs.length := Nat.pow_pos (by decide)
  have heven := pow_even h
  have hle := Int.le_bmod (x := ofLE bs) hpos
  have hlt := Int.bmod_lt (x := ofLE bs) hpos
  rw [Fits, ofBytes]
  omega

/-! ## More bytes than needed -/

/-- The byte that repeats the sign. -/
def signByte (z : Int) : UInt8 := if z < 0 then 255 else 0

theorem leBytes_add {r : Nat} (h : r < 256 ^ v) (w q : Nat) :
    leBytes (v + w) (r + 256 ^ v * q) = leBytes v r ++ leBytes w q := by
  have hlow : leBytes v (r + 256 ^ v * q) = leBytes v r := by
    rw [← leBytes_mod, Nat.add_mul_mod_self_left, leBytes_mod]
  rw [leBytes_append, hlow, Nat.add_mul_div_left _ _ (by omega), Nat.div_eq_of_lt h, Nat.zero_add]

theorem Fits.mono (h : Fits v z) (w : Nat) : Fits (v + w) z := by
  have hle : 256 ^ v ≤ 256 ^ (v + w) := Nat.pow_le_pow_right (by decide) (by omega)
  unfold Fits at h ⊢
  omega

/-- The residue of a negative integer. -/
theorem toBytes_of_neg {k : Nat} (hpos : 0 < k) (hk : k ≤ 256 ^ w) :
    toBytes w (-(k : Int)) = leBytes w (256 ^ w - k) := by
  have hmod : -(k : Int) % ((256 ^ w : Nat) : Int) = ((256 ^ w - k : Nat) : Int) := by
    rw [← Int.add_emod_right, Int.emod_eq_of_lt] <;> omega
  rw [toBytes, hmod, Int.toNat_natCast]

/-- An integer of `v` bytes in more bytes. -/
theorem toBytes_add (h : Fits v z) (w : Nat) :
    toBytes (v + w) z = toBytes v z ++ List.replicate w (signByte z) := by
  have hposv : 0 < 256 ^ v := Nat.pow_pos (by decide)
  have hposw : 0 < 256 ^ w := Nat.pow_pos (by decide)
  unfold Fits at h
  by_cases hneg : z < 0
  · obtain ⟨k, rfl⟩ : ∃ k : Nat, z = -(k : Int) := ⟨z.natAbs, by omega⟩
    have hsplit : 256 ^ (v + w) - k = (256 ^ v - k) + 256 ^ v * (256 ^ w - 1) := by
      rw [pow_add, Nat.mul_sub_one]
      have hle : 256 ^ v ≤ 256 ^ v * 256 ^ w := Nat.le_mul_of_pos_right _ hposw
      omega
    have hle : 256 ^ v ≤ 256 ^ (v + w) := Nat.pow_le_pow_right (by decide) (by omega)
    rw [toBytes_of_neg (by omega) (by omega), toBytes_of_neg (by omega) (by omega), hsplit,
      leBytes_add (by omega), leBytes_max, signByte, if_pos hneg]
  · obtain ⟨n, rfl⟩ : ∃ n : Nat, z = (n : Int) := ⟨z.toNat, by omega⟩
    have hadd := leBytes_add (v := v) (r := n) (by omega) w 0
    rw [Nat.mul_zero, Nat.add_zero] at hadd
    rw [toBytes_natCast, toBytes_natCast, hadd, leBytes_zero, signByte, if_neg hneg]

/-- The further bytes repeat the sign exactly if the integer does not need them. -/
theorem replicate_sign_iff {bs more : Bytes} (h : 0 < bs.length) :
    more = List.replicate more.length (signByte (ofBytes bs)) ↔
      Fits bs.length (ofBytes (bs ++ more)) := by
  have hfits := fits_ofBytes h
  constructor
  · intro hmore
    have hall : toBytes (bs.length + more.length) (ofBytes bs) = bs ++ more := by
      rw [toBytes_add hfits, toBytes_ofBytes, ← hmore]
    rw [← hall, ofBytes_toBytes (by omega) (hfits.mono _)]
    exact hfits
  · intro hfit
    have hall := toBytes_ofBytes (bs ++ more)
    rw [List.length_append, toBytes_add hfit] at hall
    obtain ⟨hbs, hmore⟩ := List.append_inj hall (length_toBytes _ _)
    rw [← hbs, ofBytes_toBytes h hfit, hmore]

/-- The integer does not change with bytes that repeat its sign. -/
theorem ofBytes_append {bs more : Bytes} (h : 0 < bs.length)
    (hfit : Fits bs.length (ofBytes (bs ++ more))) : ofBytes (bs ++ more) = ofBytes bs := by
  have hall := toBytes_ofBytes (bs ++ more)
  rw [List.length_append, toBytes_add hfit] at hall
  have hbs := List.append_inj_left hall (length_toBytes _ _)
  have hback := ofBytes_toBytes h hfit
  rw [hbs] at hback
  exact hback.symm

end TwosComplement
