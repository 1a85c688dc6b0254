import Poesie.PackLayout

set_option autoImplicit false

/-! # What unpacking reads

An item is read from the bytes that lie at its position, with the least significant byte first. An
integer that is longer than a Lua integer is read if its value is one of a Lua integer. No format
makes `mem_unpack` read outside of the memory (`mem_unpack_inside`).
-/

namespace Poesie

open Wire Blocks TwosComplement

namespace LuaMem

/-! ## The bytes of an item -/

/-- The bytes of an item, least significant first. -/
def itemBytes (data : Bytes) (islittle : Bool) (p size : Nat) : Bytes :=
  ordered islittle (part data p size)

theorem length_itemBytes {data : Bytes} {p size : Nat} (hin : p + size ≤ data.length)
    (islittle : Bool) : (itemBytes data islittle p size).length = size := by
  rw [itemBytes, length_ordered, length_part hin]

theorem peek_itemBytes {data : Bytes} {p size k : Nat} (hin : p + size ≤ data.length)
    (hk : k < size) (islittle : Bool) :
    peek data (p + slot islittle size k) = (itemBytes data islittle p size)[k]? :=
  peek_slot islittle hin hk

theorem toNat_shift_or {res : UInt64} (h : res.toNat < 2 ^ 56) (c : UInt8) :
    ((res <<< 8) ||| c.toUInt64).toNat = res.toNat * 256 + c.toNat := by
  have hc : c.toNat < 2 ^ 8 := c.toNat_lt
  have hshift : (res <<< 8).toNat = res.toNat <<< 8 := by
    rw [UInt64.toNat_shiftLeft, Nat.mod_eq_of_lt]
    · rfl
    · rw [Nat.shiftLeft_eq]
      show res.toNat * 2 ^ 8 < 2 ^ 64
      omega
  rw [UInt64.toNat_or, hshift, UInt8.toNat_toUInt64, ← Nat.shiftLeft_add_eq_or_of_lt hc,
    Nat.shiftLeft_eq]

/-- Bytes that are gathered below those gathered already. -/
theorem gatherLoop_eq (islittle : Bool) {data : Bytes} {size p : Nat} (hin : p + size ≤ data.length)
    {k m : Nat} (hk : k ≤ size) (hm : m + k ≤ 8) {res : UInt64} (hres : res.toNat < 256 ^ m) :
    ∃ r, gatherLoop data islittle size p (List.range k).reverse res = .ok r ∧
      r.toNat = ofLE ((itemBytes data islittle p size).take k) + 256 ^ k * res.toNat := by
  induction k generalizing m res with
  | zero => exact ⟨res, rfl, by simp [ofLE]⟩
  | succ k ih =>
      have hlen := length_itemBytes hin islittle
      obtain ⟨c, hc⟩ : ∃ c, (itemBytes data islittle p size)[k]? = some c :=
        ⟨_, List.getElem?_eq_getElem (by omega)⟩
      have hpeek := (peek_itemBytes hin (show k < size by omega) islittle).trans hc
      -- seven bytes at most so far: the shift drops none
      have hsmall : res.toNat < 2 ^ 56 := by
        calc res.toNat < 256 ^ m := hres
          _ ≤ 256 ^ 7 := Nat.pow_le_pow_right (by decide) (by omega)
          _ = 2 ^ 56 := by decide
      have hnext := toNat_shift_or hsmall c
      have hbound : ((res <<< 8) ||| c.toUInt64).toNat < 256 ^ (m + 1) := by
        have hc' : c.toNat < 256 := c.toNat_lt
        rw [hnext, pow_succ]
        omega
      obtain ⟨r, hr, hvalue⟩ := ih (by omega) (show m + 1 + k ≤ 8 by omega) hbound
      refine ⟨r, ?_, ?_⟩
      · rw [List.range_succ, List.reverse_append, List.reverse_singleton, List.singleton_append,
          gatherLoop, hpeek]
        exact hr
      · -- the byte read now is the most significant of the `k + 1`
        have htake : (itemBytes data islittle p size).take (k + 1) =
            (itemBytes data islittle p size).take k ++ [c] := by
          rw [List.take_add_one, hc]
          rfl
        have hshort : ((itemBytes data islittle p size).take k).length = k := by
          rw [List.length_take]
          omega
        rw [hvalue, hnext, htake, ofLE_append, hshort, ofLE, ofLE, pow_succ]
        ring

/-- The loop over the bytes that do not fit in a Lua integer. -/
theorem unreadLoop_eq (islittle : Bool) {data : Bytes} {size p : Nat} (hin : p + size ≤ data.length)
    (mask : UInt8) {k n : Nat} (hk : k + n = size) :
    unreadLoop data islittle size p mask (List.range' k n) =
      if (itemBytes data islittle p size).drop k = List.replicate n mask then .ok ()
      else .error (.error (.error (text (toString size) ++
        text "-byte integer does not fit into Lua Integer"))) := by
  have hlen := length_itemBytes hin islittle
  induction n generalizing k with
  | zero =>
      rw [List.drop_eq_nil_of_le (by omega)]
      rfl
  | succ n ih =>
      obtain ⟨c, hc⟩ : ∃ c, (itemBytes data islittle p size)[k]? = some c :=
        ⟨_, List.getElem?_eq_getElem (by omega)⟩
      have hpeek := (peek_itemBytes hin (show k < size by omega) islittle).trans hc
      have hdrop : (itemBytes data islittle p size).drop k =
          c :: (itemBytes data islittle p size).drop (k + 1) := by
        obtain ⟨hlt, hget⟩ := List.getElem?_eq_some_iff.mp hc
        rw [List.drop_eq_getElem_cons hlt, hget]
      rw [List.range'_succ, unreadLoop, hpeek, hdrop, List.replicate_succ]
      show (if c ≠ mask then _ else _) = _
      by_cases hmask : c = mask
      · rw [if_neg (by simpa using hmask), ih (by omega), hmask]
        simp
      · rw [if_pos hmask, if_neg (by simp [hmask])]

/-! ## Integers -/

/-- The last bit of a number of `k + 1` bits is flipped. -/
theorem xor_two_pow {n k : Nat} (h : n < 2 ^ (k + 1)) :
    n ^^^ 2 ^ k = if n < 2 ^ k then n + 2 ^ k else n - 2 ^ k := by
  have hpos : 0 < 2 ^ k := Nat.pow_pos (by decide)
  have hdiv : (n ^^^ 2 ^ k) / 2 ^ k = (n / 2 ^ k) ^^^ 1 := by
    rw [Nat.xor_div_two_pow, Nat.div_self hpos]
  have hmod : (n ^^^ 2 ^ k) % 2 ^ k = n % 2 ^ k := by
    rw [Nat.xor_mod_two_pow, Nat.mod_self, Nat.xor_zero]
  have hsplit := Nat.div_add_mod (n ^^^ 2 ^ k) (2 ^ k)
  rw [hdiv, hmod] at hsplit
  rw [pow_succ] at h
  by_cases hlow : n < 2 ^ k
  · rw [Nat.div_eq_of_lt hlow, Nat.mod_eq_of_lt hlow] at hsplit
    rw [if_pos hlow, ← hsplit]
    simp
    omega
  · have hone : n / 2 ^ k = 1 := by
      apply Nat.div_eq_of_lt_le <;> omega
    have hrest := Nat.div_add_mod n (2 ^ k)
    rw [hone] at hsplit hrest
    rw [if_neg hlow, ← hsplit]
    simp
    omega

theorem toInt_toInt64 (n : UInt64) : n.toInt64.toInt = Int.bmod n.toNat (2 ^ 64) :=
  BitVec.toInt_eq_toNat_bmod n.toBitVec

/-- The sign extension of a number that is shorter than a Lua integer. -/
theorem toInt_extend {bs : Bytes} {res : UInt64} (hpos : 1 ≤ bs.length) (hshort : bs.length < SZINT)
    (hres : res.toNat = ofLE bs) :
    ((res ^^^ 1 <<< UInt64.ofNat (bs.length * 8 - 1)) -
      1 <<< UInt64.ofNat (bs.length * 8 - 1)).toInt64.toInt = ofBytes bs := by
  simp only [SZINT] at hshort
  obtain ⟨k, hk⟩ : ∃ k, bs.length * 8 = k + 1 := ⟨bs.length * 8 - 1, by omega⟩
  have hk' : bs.length * 8 - 1 = k := by omega
  have hpow : 256 ^ bs.length = 2 ^ (k + 1) := by rw [pow_bytes, hk]
  have hmask : ((1 : UInt64) <<< UInt64.ofNat k).toNat = 2 ^ k := by
    have hsmall : (UInt64.ofNat k).toNat = k := UInt64.toNat_ofNat_of_lt' (by show k < 2 ^ 64; omega)
    rw [UInt64.toNat_shiftLeft, hsmall, Nat.mod_eq_of_lt (show k < 64 by omega)]
    show 1 <<< k % 2 ^ 64 = 2 ^ k
    rw [Nat.shiftLeft_eq, Nat.one_mul, Nat.mod_eq_of_lt (Nat.pow_lt_pow_right (by decide) (by omega))]
  have hlt := ofLE_lt bs
  have hle : 2 ^ (k + 1) ≤ 2 ^ 56 := Nat.pow_le_pow_right (by decide) (by omega)
  rw [hpow] at hlt
  have hvalue : ((res ^^^ 1 <<< UInt64.ofNat k) - 1 <<< UInt64.ofNat k).toNat =
      (2 ^ 64 - 2 ^ k + (ofLE bs ^^^ 2 ^ k)) % 2 ^ 64 := by
    rw [UInt64.toNat_sub, UInt64.toNat_xor, hres, hmask]
  have hmod : (ofLE bs : Int) % ((2 ^ (k + 1) : Nat) : Int) = ofLE bs := by
    apply Int.emod_eq_of_lt <;> omega
  rw [hk', toInt_toInt64, hvalue, xor_two_pow hlt, ofBytes, hpow, Int.natCast_emod, Int.emod_bmod,
    Int.bmod_def, Int.bmod_def, hmod]
  rw [pow_succ] at hlt hle ⊢
  by_cases hlow : ofLE bs < 2 ^ k
  · rw [if_pos hlow, if_pos (show (ofLE bs : Int) < _ by omega)]
    split <;> omega
  · rw [if_neg hlow, if_neg (show ¬ (ofLE bs : Int) < _ by omega)]
    split <;> omega

/-- The first eight bytes are those of a Lua integer. -/
theorem toInt_of_eight {bs : Bytes} {res : UInt64} (hlen : bs.length = SZINT)
    (hres : res.toNat = ofLE bs) : res.toInt64.toInt = ofBytes bs := by
  rw [toInt_toInt64, hres, ofBytes, hlen]
  rfl

/-- The error of an integer that is too long. -/
def tooLong (size : Nat) : UnpackStop :=
  .error (.error (text (toString size) ++ text "-byte integer does not fit into Lua Integer"))

theorem fits_SZINT (n : Int64) : Fits SZINT n.toInt := by
  have hle := n.le_toInt
  have hlt := n.toInt_lt
  simp only [Fits, SZINT]
  omega

section

variable {data : Bytes} {p size : Nat} (hin : p + size ≤ data.length) (islittle : Bool)

include hin

/-- What `unpackint` comes to once the bytes are gathered that fit in a Lua integer. -/
theorem unpackint_eq (issigned : Bool) :
    ∃ res : UInt64,
      res.toNat = ofLE ((itemBytes data islittle p size).take (min size SZINT)) ∧
      unpackint data p islittle size issigned =
        if size < SZINT then
          if issigned then
            .ok ((res ^^^ 1 <<< UInt64.ofNat (size * 8 - 1)) -
              1 <<< UInt64.ofNat (size * 8 - 1)).toInt64
          else .ok res.toInt64
        else if SZINT < size then
          if (itemBytes data islittle p size).drop SZINT =
              List.replicate (size - SZINT) (if !issigned || 0 ≤ res.toInt64 then 0 else 255) then
            .ok res.toInt64
          else .error (tooLong size)
        else .ok res.toInt64 := by
  have hlimit : (if size ≤ SZINT then size else SZINT) = min size SZINT := Nat.min_def.symm
  obtain ⟨res, hgather, hres⟩ := gatherLoop_eq islittle hin (show min size SZINT ≤ size by omega)
    (show 0 + min size SZINT ≤ 8 by simp only [SZINT]; omega) (show (0 : UInt64).toNat < 256 ^ 0 by decide)
  refine ⟨res, by simpa using hres, ?_⟩
  rw [unpackint, hlimit, hgather]
  show (if size < SZINT then _ else _) = _
  by_cases hshort : size < SZINT
  · rw [if_pos hshort, if_pos hshort]
    rfl
  · rw [if_neg hshort, if_neg hshort]
    by_cases hlong : SZINT < size
    · have hloop := fun mask => unreadLoop_eq islittle hin mask
        (show SZINT + (size - SZINT) = size by omega)
      rw [if_pos hlong, if_pos hlong, show min size SZINT = SZINT by omega]
      dsimp only
      rw [hloop]
      generalize (if !issigned || decide (0 ≤ res.toInt64) then (0 : UInt8) else 255) = mask
      split <;> rfl
    · rw [if_neg hlong, if_neg hlong]
      rfl

/-- A signed integer is read if a Lua integer has its value. -/
theorem unpackint_signed (hpos : 1 ≤ size) :
    unpackint data p islittle size true =
      if Fits SZINT (ofBytes (itemBytes data islittle p size)) then
        .ok (Int64.ofInt (ofBytes (itemBytes data islittle p size)))
      else .error (tooLong size) := by
  obtain ⟨res, hres, hint⟩ := unpackint_eq hin islittle true
  have hlen := length_itemBytes hin islittle
  generalize itemBytes data islittle p size = bs at hres hint hlen ⊢
  have hread : ∀ n : Int64, n.toInt = ofBytes bs →
      (if Fits SZINT (ofBytes bs) then .ok (Int64.ofInt (ofBytes bs)) else .error (tooLong size)) =
        (.ok n : Unpack Int64) := by
    intro n hn
    rw [← hn, if_pos (fits_SZINT n), Int64.ofInt_toInt]
  rw [hint]
  by_cases hlong : SZINT < size
  · rw [show min size SZINT = SZINT by omega] at hres
    rw [if_neg (by omega), if_pos hlong]
    have hfirst : (bs.take SZINT).length = SZINT := by
      rw [List.length_take]
      omega
    have hvalue := toInt_of_eight hfirst hres
    have hrest : (bs.drop SZINT).length = size - SZINT := by rw [List.length_drop, hlen]
    -- the mask compared with is the sign of the first eight bytes
    have hbyte : (if !true || decide (0 ≤ res.toInt64) then (0 : UInt8) else 255) =
        signByte (ofBytes (bs.take SZINT)) := by
      rw [← hvalue, signByte]
      simp only [Bool.not_true, Bool.false_or, decide_eq_true_eq, Int64.le_iff_toInt_le]
      split <;> split <;> first | rfl | (simp at *; omega)
    -- the bytes behind repeat the sign just when the number fits
    have hsign : bs.drop SZINT = List.replicate (size - SZINT) (signByte (ofBytes (bs.take SZINT))) ↔
        Fits SZINT (ofBytes bs) := by
      have h : bs.drop SZINT = List.replicate (bs.drop SZINT).length _ ↔ _ :=
        replicate_sign_iff (show 0 < (bs.take SZINT).length by rw [hfirst]; decide)
      rwa [hrest, hfirst, List.take_append_drop] at h
    rw [hbyte]
    by_cases hfits : Fits SZINT (ofBytes bs)
    · have hsame : ofBytes bs = ofBytes (bs.take SZINT) := by
        have h : ofBytes (bs.take SZINT ++ bs.drop SZINT) = ofBytes (bs.take SZINT) :=
          ofBytes_append (by rw [hfirst]; decide) (by rwa [hfirst, List.take_append_drop])
        rwa [List.take_append_drop] at h
      rw [if_pos (hsign.mpr hfits), hread _ (hvalue.trans hsame.symm)]
    · rw [if_neg (mt hsign.mp hfits), if_neg hfits]
  · rw [List.take_of_length_le (by omega)] at hres
    by_cases hshort : size < SZINT
    · rw [if_pos hshort, if_pos rfl]
      subst hlen
      exact (hread _ (toInt_extend hpos hshort hres)).symm
    · rw [if_neg hshort, if_neg hlong]
      exact (hread _ (toInt_of_eight (by omega) hres)).symm

/-- A number without a sign is read if it fits in the bytes of a Lua integer. -/
theorem unpackint_unsigned :
    unpackint data p islittle size false =
      if ofLE (itemBytes data islittle p size) < 256 ^ SZINT then
        .ok (UInt64.ofNat (ofLE (itemBytes data islittle p size))).toInt64
      else .error (tooLong size) := by
  obtain ⟨res, hres, hint⟩ := unpackint_eq hin islittle false
  have hlen := length_itemBytes hin islittle
  generalize itemBytes data islittle p size = bs at hres hint hlen ⊢
  have hread : ∀ n : UInt64, n.toNat = ofLE bs →
      (if ofLE bs < 256 ^ SZINT then .ok (UInt64.ofNat (ofLE bs)).toInt64
        else .error (tooLong size)) = (.ok n.toInt64 : Unpack Int64) := by
    intro n hn
    have hlt : n.toNat < 256 ^ SZINT := n.toNat_lt
    rw [← hn, if_pos hlt, UInt64.ofNat_toNat]
  rw [hint]
  by_cases hlong : SZINT < size
  · rw [show min size SZINT = SZINT by omega] at hres
    rw [if_neg (by omega), if_pos hlong]
    have hzero := drop_eq_zero_iff (show SZINT ≤ bs.length by omega)
    have hmask : (if !false || decide (0 ≤ res.toInt64) then (0 : UInt8) else 255) = 0 := rfl
    rw [hlen] at hzero
    rw [hmask]
    by_cases hfits : ofLE bs < 256 ^ SZINT
    · rw [if_pos (hzero.mpr hfits), hread _ (hres.trans (ofLE_take (by omega) hfits))]
    · rw [if_neg (mt hzero.mp hfits), if_neg hfits]
  · rw [List.take_of_length_le (by omega)] at hres
    by_cases hshort : size < SZINT
    · rw [if_pos hshort, if_neg (by simp), hread _ hres]
    · rw [if_neg hshort, if_neg hlong, hread _ hres]

end

/-! ## Options -/

def tooShort : UnpackStop := .error (.argument 2 (text "data string too short"))

section

variable (M : Machine) (data : CArray)

/-- The float that bytes stand for. -/
def floatOf (size : Nat) (bs : Bytes) : Float64 :=
  if size = 4 then M.widen (UInt32.ofNat (ofLE bs)) else ⟨UInt64.ofNat (ofLE bs)⟩

/-- A number as a `lua_Integer`. -/
def integer64 (n : Nat) : LuaValue := .number (.integer (UInt64.ofNat n).toInt64)

/-- What an option reads at a position inside of the memory. -/
def readItem (islittle : Bool) (opt : KOption) (size pos : Nat) :
    Unpack (Option LuaValue × Nat) :=
  match opt with
  | .int =>
      if Fits SZINT (ofBytes (itemBytes data.bytes islittle pos size)) then
        .ok (some (.number (.integer (Int64.ofInt (ofBytes (itemBytes data.bytes islittle pos size))))),
          pos + size)
      else .error (tooLong size)
  | .uint =>
      if ofLE (itemBytes data.bytes islittle pos size) < 256 ^ SZINT then
        .ok (some (integer64 (ofLE (itemBytes data.bytes islittle pos size))), pos + size)
      else .error (tooLong size)
  | .float =>
      .ok (some (.number (.float (floatOf M size (itemBytes data.bytes islittle pos size)))), pos + size)
  | .char => .ok (some (.string (data.slice pos size)), pos + size)
  | .string =>
      if ofLE (itemBytes data.bytes islittle pos size) < 256 ^ SZINT then
        if pos + size + ofLE (itemBytes data.bytes islittle pos size) ≤ data.bytes.length then
          .ok (some (.string (data.slice (pos + size) (ofLE (itemBytes data.bytes islittle pos size)))),
            pos + size + ofLE (itemBytes data.bytes islittle pos size))
        else .error tooShort
      else .error (tooLong size)
  | .zstr =>
      if (data.bytes.drop pos).contains 0 then
        .ok (some (.string (data.slice pos ((data.bytes.drop pos).idxOf 0))),
          pos + (data.bytes.drop pos).idxOf 0 + 1)
      else .error (.error (.argument 2 (text "unfinished string for format 'z'")))
  | .padding | .paddalign | .nop => .ok (none, pos + size)

theorem sub64_of_le {a b : Nat} (h : b ≤ a) (ha : a < 2 ^ 63) : sub64 a b = a - b := by
  unfold sub64
  omega

variable {M data}

theorem ordered_native (M : Machine) (islittle : Bool) (src : Bytes) :
    ordered M.little (if islittle = M.little then src else src.reverse) = ordered islittle src := by
  cases hlittle : M.little <;> cases islittle <;> simp [ordered]

theorem toNat_integer64 {n : Nat} (h : n < 256 ^ SZINT) :
    (UInt64.ofNat n).toInt64.toUInt64.toNat = n := UInt64.toNat_ofNat_of_lt' h

/-- Inside of the memory, the pointers and loops of `mem_unpack` read the items. -/
theorem unpackOption_eq {islittle : Bool} {opt : KOption} {size pos : Nat} (hsize : opt.Size size)
    (hin : pos + size ≤ data.bytes.length) :
    unpackOption M data islittle opt size pos = readItem M data islittle opt size pos := by
  have hshort := data.short
  cases opt with
  | int =>
      simp only [unpackOption, readItem, unpackint_signed hin islittle hsize.1]
      by_cases hfits : Fits SZINT (ofBytes (itemBytes data.bytes islittle pos size))
      · rw [if_pos hfits, if_pos hfits]
        rfl
      · rw [if_neg hfits, if_neg hfits]
        rfl
  | uint =>
      simp only [unpackOption, readItem, unpackint_unsigned hin islittle]
      by_cases hfits : ofLE (itemBytes data.bytes islittle pos size) < 256 ^ SZINT
      · rw [if_pos hfits, if_pos hfits]
        rfl
      · rw [if_neg hfits, if_neg hfits]
        rfl
  | float =>
      simp only [unpackOption, readItem, unpackfloat, copyOut_of_le hin]
      show Except.ok _ = _
      rw [floatOf, itemBytes, ordered_native]
  | char =>
      simp only [unpackOption, readItem, pushlstring, if_pos hin]
      rfl
  | string =>
      simp only [unpackOption, readItem, unpackint_unsigned hin islittle]
      by_cases hfits : ofLE (itemBytes data.bytes islittle pos size) < 256 ^ SZINT
      · -- the prefix and the position lie in the data: nothing wraps
        have hleft : sub64 (sub64 data.bytes.length pos) size = data.bytes.length - pos - size := by
          rw [sub64_of_le (by omega) hshort, sub64_of_le (by omega) (by omega)]
        rw [if_pos hfits, if_pos hfits]
        show (if (UInt64.ofNat _).toInt64.toUInt64.toNat ≤ _ then _ else _) = _
        rw [toNat_integer64 hfits, hleft, Nat.add_right_comm pos]
        generalize ofLE (itemBytes data.bytes islittle pos size) = len
        by_cases hroom : pos + size + len ≤ data.bytes.length
        · rw [if_pos (by omega), if_pos hroom, pushlstring, if_pos hroom]
          rfl
        · rw [if_neg (by omega), if_neg hroom]
          rfl
      · rw [if_neg hfits, if_neg hfits]
        rfl
  | zstr =>
      have hpos : pos ≤ data.bytes.length := by omega
      have hrest : part data.bytes pos (data.bytes.length - pos) = data.bytes.drop pos :=
        List.take_of_length_le (by rw [List.length_drop])
      simp only [unpackOption, readItem, sub64_of_le hpos hshort,
        copyOut_of_le (show pos + (data.bytes.length - pos) ≤ data.bytes.length by omega), hrest]
      show (if _ then _ else _) = _
      by_cases hzero : (data.bytes.drop pos).contains 0
      · have hidx := List.idxOf_lt_length_iff.mpr (by simpa using hzero)
        rw [List.length_drop] at hidx
        rw [if_pos hzero, if_pos hzero, pushlstring, if_pos (by omega)]
        have hnone : size = 0 := hsize
        rw [hnone]
        rfl
      · rw [if_neg hzero, if_neg hzero]
  | padding => rfl
  | paddalign => rfl
  | nop => rfl

/-- An item ends inside of the memory. -/
theorem readItem_inside {islittle : Bool} {opt : KOption} {size pos : Nat} {r : Option LuaValue × Nat}
    (hin : pos + size ≤ data.bytes.length)
    (hr : readItem M data islittle opt size pos = .ok r) : r.2 ≤ data.bytes.length := by
  cases opt with
  | int | uint =>
      simp only [readItem] at hr
      split at hr
      · cases hr
        exact hin
      · cases hr
  | float | char | padding | paddalign | nop =>
      cases hr
      exact hin
  | string =>
      simp only [readItem] at hr
      split at hr
      · split at hr
        · cases hr
          assumption
        · cases hr
      · cases hr
  | zstr =>
      simp only [readItem] at hr
      split at hr
      · rename_i hzero
        cases hr
        have hidx := List.idxOf_lt_length_iff.mpr (by simpa using hzero)
        rw [List.length_drop] at hidx
        show pos + _ + 1 ≤ _
        omega
      · cases hr

/-- An option reads a value, if it takes one, or finds an error. -/
theorem readItem_ends (M : Machine) (data : CArray) (islittle : Bool) (opt : KOption)
    (size pos : Nat) :
    (∃ r, readItem M data islittle opt size pos = .ok r ∧
      r.1.toList.length = if opt.consumes then 1 else 0) ∨
      ∃ e, readItem M data islittle opt size pos = .error (.error e) := by
  cases opt with
  | int | uint | zstr =>
      simp only [readItem]
      split
      · exact Or.inl ⟨_, rfl, rfl⟩
      · exact Or.inr ⟨_, rfl⟩
  | float | char | padding | paddalign | nop => exact Or.inl ⟨_, rfl, rfl⟩
  | string =>
      simp only [readItem]
      split
      · split
        · exact Or.inl ⟨_, rfl, rfl⟩
        · exact Or.inr ⟨_, rfl⟩
      · exact Or.inr ⟨_, rfl⟩

/-! ## Formats -/

variable (M data)

/-- The values that a format reads from a position on, and the position behind them. -/
def readItems (ending : Ending) : List Directive → Nat → Unpack (List LuaValue × Nat)
  | [], pos =>
      match ending with
      | .done => .ok ([], pos)
      | .error e => .error (.error e)
      | .unread => .error .endless
  | d :: ds, pos =>
      if pos + gap d.align pos + d.size ≤ data.bytes.length then do
        let item ← readItem M data d.islittle d.opt d.size (pos + gap d.align pos)
        let rest ← readItems ending ds item.2
        pure (item.1.toList ++ rest.1, rest.2)
      else .error tooShort

variable {M data}

/-- The loop of `mem_unpack` reads the items of the format, one behind the other. -/
theorem unpackLoop_eq {turns : Nat} {h : Header} {fmt : Bytes} {pos : Nat}
    (hpos : pos ≤ data.bytes.length) (hh : 1 ≤ h.maxalign ∧ h.maxalign ≤ MAXINTSIZE) :
    unpackLoop M data turns h fmt pos =
      readItems M data (readFormat M.little turns h fmt).ending
        (readFormat M.little turns h fmt).directives pos := by
  induction turns generalizing h fmt pos with
  | zero => cases fmt <;> rfl
  | succ turns ih =>
      cases fmt with
      | nil => rfl
      | cons opt fmt =>
          rw [unpackLoop, getdetails_eq, readFormat]
          cases hd : directive M.little h opt fmt with
          | error e => rfl
          | ok r =>
              obtain ⟨hgood, horder, hmax, hshort⟩ := directive_good hh hd
              -- `pos` never passes the end, so the room left does not wrap
              have hleft := sub64_of_le hpos data.short
              show (if gap r.1.align pos + r.1.size ≤ sub64 data.bytes.length pos then _ else _) =
                readItems M data _ (r.1 :: _) pos
              rw [readItems]
              by_cases hroom : pos + gap r.1.align pos + r.1.size ≤ data.bytes.length
              · rw [if_pos (by omega), if_pos hroom]
                show (unpackOption M data r.2.1.islittle r.1.opt r.1.size (pos + gap r.1.align pos) >>= _) =
                  _
                rw [← horder, unpackOption_eq hgood.size hroom]
                cases hitem : readItem M data r.1.islittle r.1.opt r.1.size (pos + gap r.1.align pos) with
                | error e => rfl
                | ok item =>
                    have hnext : unpackLoop M data turns r.2.1 r.2.2 item.2 = _ :=
                      ih (readItem_inside hroom hitem) hmax
                    show (unpackLoop M data turns r.2.1 r.2.2 item.2 >>= _) = _
                    rw [hnext]
                    rfl
              · rw [if_neg (by omega), if_neg hroom]
                rfl

/-- Reading items ends with a value for each option that takes one, or with an error that the
library raises. -/
theorem readItems_ends {ending : Ending} (hending : ending ≠ .unread) (ds : List Directive)
    {pos : Nat} (hpos : pos ≤ data.bytes.length) :
    (∃ r, readItems M data ending ds pos = .ok r ∧ r.2 ≤ data.bytes.length ∧
      r.1.length = ds.countP fun d => d.opt.consumes) ∨
      ∃ e, readItems M data ending ds pos = .error (.error e) := by
  induction ds generalizing pos with
  | nil =>
      cases ending with
      | done => exact Or.inl ⟨_, rfl, hpos, rfl⟩
      | error e => exact Or.inr ⟨e, rfl⟩
      | unread => exact absurd rfl hending
  | cons d ds ih =>
      rw [readItems]
      by_cases hroom : pos + gap d.align pos + d.size ≤ data.bytes.length
      · rw [if_pos hroom]
        rcases readItem_ends M data d.islittle d.opt d.size (pos + gap d.align pos) with
          ⟨item, hitem, hcount⟩ | ⟨e, hitem⟩
        · rcases ih (readItem_inside hroom hitem) with ⟨rest, hrest, hinside, hlength⟩ | ⟨e, hrest⟩
          · refine Or.inl ⟨(item.1.toList ++ rest.1, rest.2), ?_, hinside, ?_⟩
            · rw [hitem]
              show (readItems M data ending ds item.2 >>= _) = _
              rw [hrest]
              rfl
            · rw [List.length_append, hcount, hlength, List.countP_cons, Nat.add_comm]
          · refine Or.inr ⟨e, ?_⟩
            rw [hitem]
            show (readItems M data ending ds item.2 >>= _) = _
            rw [hrest]
            rfl
        · exact Or.inr ⟨e, by rw [hitem]; rfl⟩
      · rw [if_neg hroom]
        exact Or.inr ⟨_, rfl⟩

end

end LuaMem

end Poesie
