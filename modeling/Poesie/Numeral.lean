import Poesie.Result

set_option autoImplicit false

/-! # Decimal numerals

The bytes of a number that is printed, digit by digit, and what it takes to read them again.
-/

namespace Poesie

open Wire

@[simp] theorem text_append (s t : String) : text (s ++ t) = text s ++ text t := by
  simp [text, String.toByteArray_append]

theorem text_repr_of_lt {n : Nat} (h : n < 10) : text n.repr = [UInt8.ofNat (48 + n)] := by
  rw [Nat.repr_of_lt h]
  decide +revert

/-- The last digit stands behind the others. -/
theorem text_repr_of_ge {n : Nat} (h : 10 ≤ n) :
    text n.repr = text (n / 10).repr ++ [UInt8.ofNat (48 + n % 10)] := by
  have hlast : n % 10 < 10 := Nat.mod_lt n (by decide)
  rw [Nat.repr_eq_repr_append_repr h, text_append, text_repr_of_lt hlast]

/-- Induction along the digits. -/
theorem numeral_ind {P : Nat → Prop} (small : ∀ n < 10, P n)
    (large : ∀ n, 10 ≤ n → P (n / 10) → P n) (n : Nat) : P n := by
  induction n using Nat.strong_induction_on with
  | _ n ih =>
      by_cases h : n < 10
      · exact small n h
      · exact large n (by omega) (ih (n / 10) (by omega))

theorem toNat_digit {d : Nat} (h : d < 10) : (UInt8.ofNat (48 + d)).toNat = 48 + d :=
  UInt8.toNat_ofNat_of_lt' (by show 48 + d < 2 ^ 8; omega)

/-- A printed number is made of digits. -/
theorem digit_of_mem_text_repr {n : Nat} : ∀ c ∈ text n.repr, 48 ≤ c.toNat ∧ c.toNat ≤ 57 := by
  induction n using numeral_ind with
  | small n h =>
      rw [text_repr_of_lt h, List.forall_mem_singleton, toNat_digit h]
      omega
  | large n h ih =>
      have hlast : n % 10 < 10 := Nat.mod_lt n (by decide)
      intro c hc
      rw [text_repr_of_ge h, List.mem_append, List.mem_singleton] at hc
      rcases hc with hc | rfl
      · exact ih c hc
      · rw [toNat_digit hlast]
        omega

/-- Reading a printed number gives the number. -/
theorem foldl_text_repr (n : Nat) :
    (text n.repr).foldl (fun n c => 10 * n + (c.toNat - 48)) 0 = n := by
  induction n using numeral_ind with
  | small n h =>
      rw [text_repr_of_lt h, List.foldl_cons, List.foldl_nil, toNat_digit h]
      omega
  | large n h ih =>
      have hlast : n % 10 < 10 := Nat.mod_lt n (by decide)
      rw [text_repr_of_ge h, List.foldl_append, ih, List.foldl_cons, List.foldl_nil,
        toNat_digit hlast]
      omega

/-- The first digit is zero for the number zero only. -/
theorem exists_text_repr {n : Nat} (h : 0 < n) :
    ∃ c rest, text n.repr = c :: rest ∧ 49 ≤ c.toNat ∧ c.toNat ≤ 57 := by
  induction n using numeral_ind with
  | small n hn =>
      refine ⟨_, [], text_repr_of_lt hn, ?_⟩
      rw [toNat_digit hn]
      omega
  | large n hn ih =>
      obtain ⟨c, rest, heq, hc⟩ := ih (by omega)
      exact ⟨c, rest ++ [UInt8.ofNat (48 + n % 10)], by rw [text_repr_of_ge hn, heq]; rfl, hc⟩

theorem text_repr_ne_nil (n : Nat) : text n.repr ≠ [] := by
  induction n using numeral_ind with
  | small n h =>
      rw [text_repr_of_lt h]
      exact List.cons_ne_nil _ _
  | large n h _ =>
      rw [text_repr_of_ge h]
      exact List.append_ne_nil_of_right_ne_nil _ (List.cons_ne_nil _ _)

theorem length_text_repr_le {n k : Nat} (hk : 0 < k) (h : n < 10 ^ k) :
    (text n.repr).length ≤ k := by
  induction n using numeral_ind generalizing k with
  | small n hn =>
      rw [text_repr_of_lt hn]
      exact hk
  | large n hn ih =>
      obtain ⟨k, rfl⟩ : ∃ m, k = m + 1 := ⟨k - 1, by omega⟩
      have hk' : 0 < k := by
        rcases Nat.eq_zero_or_pos k with rfl | hk'
        · omega
        · exact hk'
      have hshorter := ih hk' (by omega)
      rw [text_repr_of_ge hn, List.length_append, List.length_singleton]
      omega

/-- A printed integer: its digits, behind a minus sign where it is negative. -/
theorem text_int (n : Int) :
    text (toString n) = if 0 ≤ n then text n.natAbs.repr else 45 :: text n.natAbs.repr := by
  rw [Int.toString_eq_repr, Int.repr_eq_if]
  split
  · rw [show n.toNat = n.natAbs by omega]
  · rw [text_append, show (-n).toNat = n.natAbs by omega]
    rfl

end Poesie
