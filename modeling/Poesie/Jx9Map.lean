import Poesie.JsonNodes
import Poesie.Jx9Value
import Poesie.Numeral

set_option autoImplicit false

/-! # Keys and entries of Jx9 hash maps

Under which key an entry is stored, and what an array or an object is filled with. A key that
looks like an integer is stored as the integer it is read as, and printed again when the map is
walked through; it is kept when it is the numeral of a 64-bit integer.
-/

namespace Poesie

open Wire Json

/-! ## Numerals -/

/-- A number below the limit is read from its digits. -/
theorem decimal_digits (limit m : Nat) (hlimit : limit < 10 ^ 19) (hm : m ≤ limit) :
    let digits := (text m.repr).dropWhile (· == 48)
    decimal (digits.take (if digits.length ≥ 19 && decimal (digits.take 19) > limit then 18
      else 19)) = m := by
  intro digits
  have hvalue : decimal digits = m := by
    rcases Nat.eq_zero_or_pos m with rfl | hpos
    · decide
    · obtain ⟨c, rest, heq, hc⟩ := exists_text_repr hpos
      have hne : (c == 48) = false := by
        rw [beq_eq_false_iff_ne]
        rintro rfl
        exact absurd hc.1 (by decide)
      have hdrop : digits = text m.repr := by
        show (text m.repr).dropWhile (· == 48) = _
        rw [heq, List.dropWhile_cons, hne]
        rfl
      rw [hdrop]
      exact foldl_text_repr m
  have hlength : digits.length ≤ 19 :=
    (List.dropWhile_suffix _).length_le.trans (length_text_repr_le (by decide) (by omega))
  have hall : digits.take 19 = digits := List.take_of_length_le hlength
  rw [hall, hvalue, if_neg, hall, hvalue]
  simp only [Bool.and_eq_true, decide_eq_true_eq, not_and]
  omega

/-- The numeral of an integer is read as it. -/
theorem syStrToInt64_text (n : Int64) : syStrToInt64 (text (toString n.toInt)) = n := by
  have hlow : -2 ^ 63 ≤ n.toInt := n.le_toInt
  have hhigh : n.toInt < 2 ^ 63 := n.toInt_lt
  obtain ⟨c, rest, heq, hc⟩ : ∃ c rest, text n.toInt.natAbs.repr = c :: rest ∧
      48 ≤ c.toNat ∧ c.toNat ≤ 57 := by
    match h : text n.toInt.natAbs.repr with
    | [] => exact absurd h (text_repr_ne_nil _)
    | c :: rest => exact ⟨c, rest, rfl, digit_of_mem_text_repr c (by rw [h]; simp)⟩
  rw [text_int]
  by_cases hsign : 0 ≤ n.toInt
  · have hminus : ((text n.toInt.natAbs.repr).head? == some 45) = false := by
      rw [heq, List.head?_cons, beq_eq_false_iff_ne]
      rintro h
      rw [Option.some.inj h] at hc
      exact absurd hc.1 (by decide)
    have hplus : ((text n.toInt.natAbs.repr).head? == some 43) = false := by
      rw [heq, List.head?_cons, beq_eq_false_iff_ne]
      rintro h
      rw [Option.some.inj h] at hc
      exact absurd hc.1 (by decide)
    have hread := decimal_digits 9223372036854775807 n.toInt.natAbs (by decide) (by omega)
    rw [if_pos hsign, syStrToInt64]
    simp only [hminus, hplus, Bool.or_self, Bool.false_eq_true, if_false]
    rw [hread, Int.natAbs_of_nonneg hsign, Int64.ofInt_toInt]
  · have hread := decimal_digits 9223372036854775808 n.toInt.natAbs (by decide) (by omega)
    rw [if_neg hsign, syStrToInt64]
    simp only [List.head?_cons, BEq.rfl, Bool.true_or, if_true, List.drop_succ_cons,
      List.drop_zero]
    rw [hread, show (-(n.toInt.natAbs : Int)) = n.toInt by omega, Int64.ofInt_toInt]

/-! ## Keys -/

/-- The key under which `jx9_array_add_strkey_elem` stores an entry, unless it is empty. -/
def jx9Key (k : Bytes) : Jx9Key :=
  if hashmapIsIntKey k then .int (syStrToInt64 k) else .blob k

/-- A key of which an object keeps every byte: it is not empty, and if it looks like an integer
it is what Jx9 prints one as. -/
def PlainKey (k : Bytes) : Prop := k ≠ [] ∧ (hashmapIsIntKey k = true → ∃ n, k = jx9Numeral n)

/-- What is printed is the numeral of an integer, which is not the smallest one. -/
theorem exists_jx9Numeral (n : Int64) : ∃ n' : Int64, jx9Numeral n = text (toString n'.toInt) ∧
    jx9Numeral n' = text (toString n'.toInt) := by
  have hlow := n.le_toInt
  have hhigh := n.toInt_lt
  have hread : (Int64.ofInt (max n.toInt (-9223372036854775807))).toInt =
      max n.toInt (-9223372036854775807) := Int64.toInt_ofInt_of_le (by omega) (by omega)
  refine ⟨Int64.ofInt (max n.toInt (-9223372036854775807)), ?_, ?_⟩
  · rw [hread, jx9Numeral]
  · rw [jx9Numeral, hread, max_eq_left (le_max_right _ _)]

theorem cString_jx9Key {k : Bytes} (hnul : 0 ∉ k) (hk : PlainKey k) : (jx9Key k).cString = k := by
  unfold jx9Key
  split
  · next hint =>
    obtain ⟨n, hn⟩ := hk.2 hint
    obtain ⟨n', hprinted, hself⟩ := exists_jx9Numeral n
    rw [hn, hprinted, syStrToInt64_text]
    exact hself
  · exact cString_of_notMem hnul

namespace Jx9Map

theorem insertString_of_ne_nil {k : Bytes} (hk : k ≠ []) (v : Jx9Value) (entries : Entries) :
    insertString k v entries = store (jx9Key k) v entries := by
  rw [insertString, if_neg hk, jx9Key]
  split <;> rfl

theorem store_of_notMem {key : Jx9Key} {entries : Entries} (h : key ∉ entries.map Prod.fst)
    (v : Jx9Value) : store key v entries = entries ++ [(key, v)] := by
  induction entries with
  | nil => rfl
  | cons entry rest ih =>
      rw [List.map_cons, List.mem_cons, not_or] at h
      rw [store, if_neg (Ne.symm h.1), ih h.2, List.cons_append]

/-- No other keys come in. -/
theorem key_of_mem_store {key : Jx9Key} {v : Jx9Value} {entries : Entries} :
    ∀ entry ∈ store key v entries, entry.1 = key ∨ ∃ e ∈ entries, entry.1 = e.1 := by
  induction entries with
  | nil => simp [store]
  | cons e rest ih =>
      intro entry hentry
      rw [store] at hentry
      split at hentry
      · rcases List.mem_cons.mp hentry with rfl | hrest
        · exact Or.inl rfl
        · exact Or.inr ⟨entry, by simp [hrest], rfl⟩
      · rcases List.mem_cons.mp hentry with rfl | hrest
        · exact Or.inr ⟨entry, by simp, rfl⟩
        · rcases ih entry hrest with h | ⟨e', he', h⟩
          · exact Or.inl h
          · exact Or.inr ⟨e', by simp [he'], h⟩

theorem store_ne_nil (key : Jx9Key) (v : Jx9Value) (entries : Entries) :
    store key v entries ≠ [] := by
  cases entries with
  | nil => exact List.cons_ne_nil _ _
  | cons e rest =>
      rw [store]
      split <;> exact List.cons_ne_nil _ _

/-- The index after the largest one. -/
theorem nextIdx_concat (entries : Entries) (v : Jx9Value) :
    nextIdx (entries ++ [(.int (nextIdx entries), v)]) = nextIdx entries + 1 := by
  unfold nextIdx
  rw [List.foldl_append, List.foldl_cons, List.foldl_nil]
  exact if_pos (Int64.le_refl _)

/-- The elements of a list, each under its index. -/
def indexed (vs : List Jx9Value) : Entries :=
  vs.zipIdx.map fun e => (.int (Int64.ofNat e.2), e.1)

theorem indexed_concat (vs : List Jx9Value) (v : Jx9Value) :
    indexed (vs ++ [v]) = indexed vs ++ [(.int (Int64.ofNat vs.length), v)] := by
  simp [indexed, List.zipIdx_append]

theorem nextIdx_indexed (vs : List Jx9Value) :
    nextIdx (indexed vs) = Int64.ofNat vs.length := by
  induction vs using List.reverseRecOn with
  | nil => rfl
  | append_singleton vs v ih =>
      have hnext := nextIdx_concat (indexed vs) v
      rw [ih, ← indexed_concat] at hnext
      rw [hnext, List.length_append, List.length_singleton, Int64.ofNat_add]
      rfl

theorem int64_ofNat_inj {i k : Nat} (hi : i < 2 ^ 64) (hk : k < 2 ^ 64)
    (h : Int64.ofNat i = Int64.ofNat k) : i = k := by
  have hbits : (Int64.ofNat i).toBitVec.toNat = (Int64.ofNat k).toBitVec.toNat := by rw [h]
  rw [Int64.toBitVec_ofNat', Int64.toBitVec_ofNat', BitVec.toNat_ofNat, BitVec.toNat_ofNat,
    Nat.mod_eq_of_lt hi, Nat.mod_eq_of_lt hk] at hbits
  exact hbits

end Jx9Map

/-! ## Filling a map -/

/-- An array keeps its elements in order. -/
theorem jx9Api_list {vs : List Jx9Value} (fits : vs.length < 2 ^ 64) :
    jx9Api.list vs = .hashmap false (Jx9Map.indexed vs) := by
  induction vs using List.reverseRecOn with
  | nil => rfl
  | append_singleton vs v ih =>
      rw [List.length_append, List.length_singleton] at fits
      have hfresh : Jx9Key.int (Int64.ofNat vs.length) ∉ (Jx9Map.indexed vs).map Prod.fst := by
        intro hmem
        obtain ⟨entry, hentry, hkey⟩ := List.mem_map.mp hmem
        obtain ⟨⟨w, i⟩, hi, rfl⟩ := List.mem_map.mp hentry
        have hlt : i < vs.length := List.snd_lt_of_mem_zipIdx hi
        have hsame := Jx9Map.int64_ofNat_inj (by omega) (by omega) (Jx9Key.int.inj hkey)
        omega
      show (vs ++ [v]).foldl Jx9Value.addElem .newArray = _
      rw [List.foldl_append, List.foldl_cons, List.foldl_nil]
      show (jx9Api.list vs).addElem v = _
      rw [ih (by omega), Jx9Value.addElem, Jx9Map.nextIdx_indexed, Jx9Map.store_of_notMem hfresh,
        Jx9Map.indexed_concat]

/-- An object with plain keys keeps its entries in order. -/
theorem jx9Api_table {es : List (Bytes × Jx9Value)} (hnul : ∀ e ∈ es, 0 ∉ e.1)
    (hplain : ∀ e ∈ es, PlainKey e.1) (distinct : StdMap.Distinct es) :
    jx9Api.table es = .hashmap (!es.isEmpty) (es.map fun e => (jx9Key e.1, e.2)) := by
  induction es using List.reverseRecOn with
  | nil => rfl
  | append_singleton es e ih =>
      have hbefore := ih (fun e' he' => hnul e' (by simp [he'])) (fun e' he' => hplain e'
        (by simp [he'])) (List.pairwise_append.mp distinct).1
      have hfresh : jx9Key e.1 ∉ (es.map fun e => (jx9Key e.1, e.2)).map Prod.fst := by
        intro hmem
        rw [List.map_map] at hmem
        obtain ⟨e', he', hkey⟩ := List.mem_map.mp hmem
        have hsame : e'.1 = e.1 := by
          rw [← cString_jx9Key (hnul e' (by simp [he'])) (hplain e' (by simp [he'])),
            ← cString_jx9Key (hnul e (by simp)) (hplain e (by simp))]
          exact congrArg Jx9Key.cString hkey
        exact (List.pairwise_append.mp distinct).2.2 e' he' e (by simp) hsame
      have hne : e.1 ≠ [] := (hplain e (by simp)).1
      show (es ++ [e]).foldl Jx9Value.addStrkeyElem .newArray = _
      rw [List.foldl_append, List.foldl_cons, List.foldl_nil]
      show (jx9Api.table es).addStrkeyElem e = _
      obtain ⟨k, v⟩ := e
      rw [hbefore, Jx9Value.addStrkeyElem, Jx9Map.insertString_of_ne_nil hne,
        Jx9Map.store_of_notMem hfresh, List.map_append]
      congr 1
      cases es with
      | nil => simpa using hne
      | cons e es => rfl

/-- Whether a map is an object depends on the first key; where no key is empty, each entry is
stored under one that was given. -/
theorem foldl_addStrkeyElem (es : List (Bytes × Jx9Value)) (isObject : Bool)
    (entries : Jx9Map.Entries) :
    ∃ entries', es.foldl Jx9Value.addStrkeyElem (.hashmap isObject entries)
        = .hashmap (isObject || (entries.isEmpty && es.head?.any fun e => !e.1.isEmpty)) entries' ∧
      ((∀ e ∈ es, e.1 ≠ []) → ∀ entry ∈ entries',
        (∃ e ∈ es, entry.1 = jx9Key e.1) ∨ ∃ e ∈ entries, entry.1 = e.1) := by
  induction es generalizing isObject entries with
  | nil => exact ⟨entries, by simp, fun _ entry hentry => Or.inr ⟨entry, hentry, rfl⟩⟩
  | cons e es ih =>
      obtain ⟨k, v⟩ := e
      obtain ⟨entries', heq, hkeys⟩ := ih (isObject || (entries.isEmpty && !k.isEmpty))
        (Jx9Map.insertString k v entries)
      refine ⟨entries', ?_, fun hne entry hentry => ?_⟩
      · have hfilled : (Jx9Map.insertString k v entries).isEmpty = false := by
          rw [List.isEmpty_eq_false_iff, Jx9Map.insertString]
          split
          · exact Jx9Map.store_ne_nil _ _ _
          · split <;> exact Jx9Map.store_ne_nil _ _ _
        rw [List.foldl_cons, Jx9Value.addStrkeyElem, heq, hfilled]
        simp
      · rcases hkeys (fun e he => hne e (by simp [he])) entry hentry with ⟨e, he, h⟩ | ⟨e, he, h⟩
        · exact Or.inl ⟨e, by simp [he], h⟩
        · rw [Jx9Map.insertString_of_ne_nil (hne (k, v) (by simp))] at he
          rcases Jx9Map.key_of_mem_store e he with hk | ⟨e', he', hk⟩
          · exact Or.inl ⟨(k, v), by simp, h.trans hk⟩
          · exact Or.inr ⟨e', he', h.trans hk⟩

/-- Each entry is stored under an integer, or under a key that was given and is not empty. -/
theorem key_of_mem_foldl {es : List (Bytes × Jx9Value)} {isObject : Bool}
    {entries : Jx9Map.Entries} {isObject' : Bool} {entries' : Jx9Map.Entries}
    (heq : es.foldl Jx9Value.addStrkeyElem (.hashmap isObject entries)
      = .hashmap isObject' entries') : ∀ entry ∈ entries',
      (∃ n, entry.1 = .int n) ∨ (∃ e ∈ es, entry.1 = .blob e.1 ∧ e.1 ≠ [] ∧
        hashmapIsIntKey e.1 = false) ∨ ∃ e ∈ entries, entry.1 = e.1 := by
  induction es generalizing isObject entries with
  | nil =>
      cases heq
      exact fun entry hentry => .inr (.inr ⟨entry, hentry, rfl⟩)
  | cons e es ih =>
      obtain ⟨k, v⟩ := e
      rw [List.foldl_cons, Jx9Value.addStrkeyElem] at heq
      intro entry hentry
      rcases ih heq entry hentry with hint | ⟨e, he, hblob⟩ | ⟨e, he, hkey⟩
      · exact .inl hint
      · exact .inr (.inl ⟨e, by simp [he], hblob⟩)
      · rw [hkey]
        rw [Jx9Map.insertString] at he
        split at he
        · exact (Jx9Map.key_of_mem_store e he).imp (fun h => ⟨_, h⟩) .inr
        · next hne =>
          split at he
          · exact (Jx9Map.key_of_mem_store e he).imp (fun h => ⟨_, h⟩) .inr
          · next hint =>
            refine .inr ((Jx9Map.key_of_mem_store e he).imp_left fun h => ?_)
            exact ⟨(k, v), by simp, h, hne, by simpa using hint⟩

end Poesie
