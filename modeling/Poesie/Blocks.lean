import Poesie.Cursor

set_option autoImplicit false

/-! # Blocks of bytes

A block is read and written at offsets, a byte at a time or by `memcpy`. An access that is not
inside of the block has no result. What single bytes make of a part of a block is worked out on
that part alone (`poke_memcpyTo`), with the bytes in either order (`slot`).
-/

namespace Blocks

open Wire

variable {blk bs win : Bytes} {p n k : Nat} {b : UInt8}

/-- Write a byte. -/
def poke (blk : Bytes) (p : Nat) (b : UInt8) : Option Bytes :=
  if p < blk.length then some (blk.set p b) else none

/-- Read a byte. -/
def peek (blk : Bytes) (p : Nat) : Option UInt8 := blk[p]?

/-- `memcpy` into a block. -/
def copyIn (blk : Bytes) (p : Nat) (bs : Bytes) : Option Bytes :=
  if p + bs.length ≤ blk.length then some (memcpyTo blk p bs) else none

/-- `n` bytes of a block. -/
def part (blk : Bytes) (p n : Nat) : Bytes := (blk.drop p).take n

/-- `memcpy` from a block. -/
def copyOut (blk : Bytes) (p n : Nat) : Option Bytes :=
  if p + n ≤ blk.length then some (part blk p n) else none

theorem copyIn_of_le (h : p + bs.length ≤ blk.length) : copyIn blk p bs = some (memcpyTo blk p bs) :=
  if_pos h

theorem copyOut_of_le (h : p + n ≤ blk.length) : copyOut blk p n = some (part blk p n) := if_pos h

/-! ## Parts of a block -/

theorem length_memcpyTo (h : p + bs.length ≤ blk.length) :
    (memcpyTo blk p bs).length = blk.length := by
  simp only [memcpyTo, List.length_append, List.length_take, List.length_drop]
  omega

theorem length_part (h : p + n ≤ blk.length) : (part blk p n).length = n := by
  simp only [part, List.length_take, List.length_drop]
  omega

theorem length_part_le (blk : Bytes) (p n : Nat) : (part blk p n).length ≤ blk.length := by
  simp only [part, List.length_take, List.length_drop]
  omega

theorem drop_eq_part_append (blk : Bytes) (p n : Nat) :
    blk.drop p = part blk p n ++ blk.drop (p + n) := by
  rw [part, ← List.drop_drop, List.take_append_drop]

theorem getElem?_memcpyTo_before {i : Nat} (h : p ≤ blk.length) (hi : i < p) :
    (memcpyTo blk p bs)[i]? = blk[i]? := by
  rw [memcpyTo, List.append_assoc, List.getElem?_append_left (by simp; omega),
    List.getElem?_take_of_lt hi]

theorem getElem?_memcpyTo_inside (h : p ≤ blk.length) (hk : k < bs.length) :
    (memcpyTo blk p bs)[p + k]? = bs[k]? := by
  rw [memcpyTo, List.append_assoc, List.getElem?_append_right (by simp),
    List.getElem?_append_left (by simp; omega)]
  congr 1
  simp [h]

theorem getElem?_memcpyTo_after {i : Nat} (h : p ≤ blk.length) (hi : p + bs.length ≤ i) :
    (memcpyTo blk p bs)[i]? = blk[i]? := by
  have hleft : (blk.take p).length = p := by simp [h]
  rw [memcpyTo, List.getElem?_append_right (by simp; omega), List.getElem?_drop, List.length_append,
    hleft]
  congr 1
  omega

/-- What is read back where it was written. -/
theorem part_memcpyTo_self (h : p ≤ blk.length) : part (memcpyTo blk p bs) p bs.length = bs := by
  apply List.ext_getElem?
  intro k
  by_cases hk : k < bs.length
  · rw [part, List.getElem?_take_of_lt hk, List.getElem?_drop, getElem?_memcpyTo_inside h hk]
  · rw [List.getElem?_eq_none (by simp only [part, List.length_take]; omega),
      List.getElem?_eq_none (by omega)]

/-- Two blocks that agree on a part. -/
theorem part_congr {blk' : Bytes} (h : ∀ k < n, blk'[p + k]? = blk[p + k]?) :
    part blk' p n = part blk p n := by
  apply List.ext_getElem?
  intro k
  by_cases hk : k < n
  · simpa only [part, List.getElem?_take_of_lt hk, List.getElem?_drop] using h k hk
  · rw [List.getElem?_eq_none (by simp only [part, List.length_take]; omega),
      List.getElem?_eq_none (by simp only [part, List.length_take]; omega)]

/-- Writing what is already there. -/
theorem memcpyTo_part (h : p + n ≤ blk.length) : memcpyTo blk p (part blk p n) = blk := by
  rw [memcpyTo, length_part h, part, List.append_assoc, ← List.drop_drop, List.take_append_drop,
    List.take_append_drop]

theorem memcpyTo_nil (blk : Bytes) (p : Nat) : memcpyTo blk p [] = blk := by simp [memcpyTo]

/-! ## Single bytes -/

/-- A byte that is written in a part of the block. -/
theorem poke_memcpyTo (h : p + win.length ≤ blk.length) (hk : k < win.length) :
    poke (memcpyTo blk p win) (p + k) b = some (memcpyTo blk p (win.set k b)) := by
  have hlen := length_memcpyTo h
  have hleft : (blk.take p).length = p := by simp; omega
  rw [poke, if_pos (by omega), memcpyTo, memcpyTo, List.length_set, List.append_assoc,
    List.append_assoc, List.set_append_right _ _ (by omega), hleft, Nat.add_sub_cancel_left,
    List.set_append_left _ _ hk]

theorem peek_part (hk : k < n) : peek blk (p + k) = (part blk p n)[k]? := by
  rw [peek, part, List.getElem?_take_of_lt hk, List.getElem?_drop]

/-! ## The order of the bytes -/

/-- Where the byte of significance `k` is kept, among `size` bytes. -/
def slot (islittle : Bool) (size k : Nat) : Nat := if islittle then k else size - 1 - k

/-- Bytes that come least significant first, put in order. -/
def ordered (islittle : Bool) (bs : Bytes) : Bytes := if islittle then bs else bs.reverse

@[simp] theorem length_ordered (islittle : Bool) (bs : Bytes) :
    (ordered islittle bs).length = bs.length := by cases islittle <;> simp [ordered]

@[simp] theorem ordered_ordered (islittle : Bool) (bs : Bytes) :
    ordered islittle (ordered islittle bs) = bs := by cases islittle <;> simp [ordered]

theorem slot_lt (islittle : Bool) {size k : Nat} (hk : k < size) : slot islittle size k < size := by
  cases islittle <;> simp [slot] <;> omega

theorem getElem?_slot (islittle : Bool) (hk : k < bs.length) :
    bs[slot islittle bs.length k]? = (ordered islittle bs)[k]? := by
  cases islittle with
  | true => rfl
  | false => exact (List.getElem?_reverse hk).symm

theorem set_slot (islittle : Bool) (hk : k < bs.length) :
    (ordered islittle bs).set (slot islittle bs.length k) b = ordered islittle (bs.set k b) := by
  cases islittle with
  | true => rfl
  | false =>
      apply List.ext_getElem?
      intro i
      by_cases hi : i < bs.length
      · simp only [ordered, slot, Bool.false_eq_true, if_false]
        rw [List.getElem?_set, List.length_reverse, List.getElem?_reverse hi,
          List.getElem?_reverse (by simpa using hi), List.length_set, List.getElem?_set]
        by_cases heq : bs.length - 1 - k = i
        · rw [if_pos heq, if_pos (by omega), if_pos (by omega), if_pos (by omega)]
        · rw [if_neg heq, if_neg (by omega)]
      · rw [List.getElem?_eq_none (by simp; omega), List.getElem?_eq_none (by simp; omega)]

/-- A byte of a part that is kept in either order. -/
theorem poke_slot (islittle : Bool) (h : p + win.length ≤ blk.length) (hk : k < win.length) :
    poke (memcpyTo blk p (ordered islittle win)) (p + slot islittle win.length k) b =
      some (memcpyTo blk p (ordered islittle (win.set k b))) := by
  rw [poke_memcpyTo (by simpa using h) (by simpa using slot_lt islittle hk), set_slot islittle hk]

theorem peek_slot (islittle : Bool) (h : p + n ≤ blk.length) (hk : k < n) :
    peek blk (p + slot islittle n k) = (ordered islittle (part blk p n))[k]? := by
  have hlen := length_part h
  have hat : (part blk p n)[slot islittle (part blk p n).length k]? =
      (ordered islittle (part blk p n))[k]? := getElem?_slot islittle (by omega)
  rw [hlen] at hat
  rw [peek_part (slot_lt islittle hk), hat]

end Blocks
