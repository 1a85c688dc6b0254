import Poesie.Jx9Dict
import Mathlib.Tactic

set_option autoImplicit false

/-! # What holds of every dictionary

The keys of a dictionary are told apart, its automatic index is past every integer key, and its
cursor stands at an entry. The operations keep this. So an insertion under the automatic index makes
a new entry, and the loop that looks for a free index does not turn.
-/

namespace Poesie

open Wire Outcomes

namespace Jx9Hash

namespace Dict

variable {V : Type} {d d' : Dict V}

/-- The keys are told apart, the automatic index is free, and the cursor is at an entry. -/
structure Sound (d : Dict V) : Prop where
  distinct : d.keys.Nodup
  below : ∀ n, .int n ∈ d.keys → n < d.next
  cursor : ∀ i, d.cursor = some i → i < d.entries.length

theorem sound_empty : (empty : Dict V).Sound where
  distinct := List.nodup_nil
  below n hn := by cases hn
  cursor i hi := by cases hi

theorem Sound.rewind (hdistinct : d.keys.Nodup) (hbelow : ∀ n, .int n ∈ d.keys → n < d.next) :
    d.rewind.Sound where
  distinct := hdistinct
  below := hbelow
  cursor i hi := by
    have hstart : d.start = some i := hi
    unfold start at hstart
    by_cases hempty : d.entries = []
    · rw [if_pos hempty] at hstart
      cases hstart
    · rw [if_neg hempty] at hstart
      cases hstart
      exact List.length_pos_iff.mpr hempty

@[simp] theorem keys_replace (d : Dict V) (key : Jx9Key) (value : V) :
    (d.replace key value).keys = d.keys := by
  simp only [keys, replace, List.map_map]
  refine List.map_congr_left fun e _ => ?_
  by_cases he : e.1 = key <;> simp [he]

theorem Sound.replace (h : d.Sound) (key : Jx9Key) (value : V) : (d.replace key value).Sound where
  distinct := by
    rw [keys_replace]
    exact h.distinct
  below n hn := by
    rw [keys_replace] at hn
    exact h.below n hn
  cursor i hi := by
    have hlength : (d.replace key value).entries.length = d.entries.length := List.length_map _
    rw [hlength]
    exact h.cursor i hi

@[simp] theorem keys_append (d : Dict V) (key : Jx9Key) (value : V) :
    (d.append key value).keys = d.keys ++ [key] := List.map_append

/-- A new entry, and an automatic index that is past its key. -/
theorem Sound.append (h : d.Sound) {key : Jx9Key} (hkey : key ∉ d.keys) (value : V) {next : Int64}
    (hnext : d.next ≤ next) (hbelow : ∀ n, key = .int n → n < next) :
    ({ d.append key value with next := next } : Dict V).Sound where
  distinct := by
    show (d.append key value).keys.Nodup
    rw [keys_append, ← List.concat_eq_append]
    exact h.distinct.concat hkey
  below n hn := by
    have hn : .int n ∈ (d.append key value).keys := hn
    rw [keys_append, List.mem_append, List.mem_singleton] at hn
    rcases hn with hn | hn
    · exact Int64.lt_of_lt_of_le (h.below n hn) hnext
    · exact hbelow n hn.symm
  cursor i hi := by
    have hi : (if d.entries = [] then some 0 else d.cursor) = some i := hi
    show i < (d.entries ++ [(key, value)]).length
    rw [List.length_append, List.length_singleton]
    by_cases hempty : d.entries = []
    · rw [if_pos hempty] at hi
      cases hi
      omega
    · rw [if_neg hempty] at hi
      exact Nat.lt_succ_of_lt (h.cursor i hi)

/-- The automatic index is not a key. -/
theorem Sound.next_fresh (h : d.Sound) : .int d.next ∉ d.keys :=
  fun hin => Int64.lt_irrefl (h.below _ hin)

theorem Sound.setNext (h : d.Sound) {key : Jx9Key} (hkey : key ∉ d.keys) (value : V) {n : Int64}
    (hnext : d.next ≤ n) (hbelow : ∀ k, key = .int k → k ≤ n)
    (hok : (d.append key value).setNext n = .ok d') : d'.Sound := by
  unfold Dict.setNext at hok
  split at hok
  · cases hok
  · rename_i hmax
    cases hok
    have hlt : n < n + 1 := by
      have hbound := n.toInt_lt
      have hlow := n.le_toInt
      rw [Int64.lt_iff_toInt_lt, Int64.toInt_add]
      show n.toInt < (n.toInt + 1).bmod (2 ^ 64)
      rw [Int.bmod_eq_of_le (by omega) (by omega)]
      omega
    exact h.append hkey value (Int64.le_trans hnext (Int64.le_of_lt hlt)) fun k hk =>
      Int64.lt_of_le_of_lt (hbelow k hk) hlt

theorem add_cases (d : Dict V) (key : Jx9Key) (value : V) (alloc : Bool) :
    d.add key value alloc = none ∨ d.add key value alloc = some (d.append key value) := by
  unfold Dict.add
  split
  · exact Or.inl rfl
  · exact Or.inr rfl

/-- What an operation that returns leaves is sound, and has at most one entry more. -/
structure Keeps (d d' : Dict V) : Prop where
  sound : d'.Sound
  length : d'.entries.length ≤ d.entries.length + 1

theorem Keeps.same (h : d.Sound) : Keeps d d := ⟨h, Nat.le_succ _⟩

theorem Keeps.replace (h : d.Sound) (key : Jx9Key) (value : V) : Keeps d (d.replace key value) :=
  ⟨h.replace key value, by simp [Dict.replace]⟩

theorem Keeps.append (h : d.Sound) {key : Jx9Key} (hkey : key ∉ d.keys) (value : V)
    (hbelow : ∀ n, key = .int n → n < d.next) : Keeps d (d.append key value) :=
  ⟨h.append hkey value (Int64.le_refl _) hbelow, by simp [Dict.append]⟩

theorem Keeps.setNext (h : d.Sound) {key : Jx9Key} (hkey : key ∉ d.keys) (value : V) {n : Int64}
    (hnext : d.next ≤ n) (hbelow : ∀ k, key = .int k → k ≤ n)
    (hok : (d.append key value).setNext n = .ok d') : Keeps d d' := by
  refine ⟨h.setNext hkey value hnext hbelow hok, ?_⟩
  unfold Dict.setNext at hok
  split at hok
  · cases hok
  · cases hok
    simp [Dict.append]

theorem Sound.insertInt (h : d.Sound) {n : Int64} {value : V} {alloc : Bool} {r : Bool × Dict V}
    (hok : d.insertInt n value alloc = .ok r) : Keeps d r.2 := by
  unfold Dict.insertInt at hok
  by_cases hin : .int n ∈ d.keys
  · rw [if_pos hin] at hok
    cases hok
    exact Keeps.replace h _ value
  · rw [if_neg hin] at hok
    rcases d.add_cases (.int n) value alloc with hadd | hadd <;> rw [hadd] at hok
    · cases hok
      exact Keeps.same h
    · by_cases hnext : d.next ≤ n
      · simp only [if_pos hnext] at hok
        obtain ⟨d', hset, rfl⟩ := ok_of_map_ok hok
        exact Keeps.setNext h hin value hnext (fun k hk => by cases hk; exact Int64.le_refl _) hset
      · simp only [if_neg hnext] at hok
        cases hok
        exact Keeps.append h hin value fun k hk => by cases hk; exact Int64.not_le.mp hnext

theorem Sound.insertAuto (h : d.Sound) {value : V} {alloc : Bool} {r : Bool × Dict V}
    (hok : d.insertAuto value alloc = .ok r) : Keeps d r.2 := by
  unfold Dict.insertAuto at hok
  rcases d.add_cases (.int d.next) value alloc with hadd | hadd <;> rw [hadd] at hok
  · cases hok
    exact Keeps.same h
  · obtain ⟨d', hset, rfl⟩ := ok_of_map_ok hok
    exact Keeps.setNext h h.next_fresh value (Int64.le_refl _)
      (fun k hk => by cases hk; exact Int64.le_refl _) hset

theorem Sound.insertBlob (h : d.Sound) (b : Bytes) (value : V) (alloc : Bool) :
    Keeps d (d.insertBlob b value alloc).2 := by
  unfold Dict.insertBlob
  by_cases hin : .blob b ∈ d.keys
  · rw [if_pos hin]
    exact Keeps.replace h _ value
  · rw [if_neg hin]
    rcases d.add_cases (.blob b) value alloc with hadd | hadd <;> rw [hadd]
    · exact Keeps.same h
    · exact Keeps.append h hin value fun n hn => by cases hn

theorem Sound.insertString (h : d.Sound) {b : Bytes} {value : V} {alloc : Bool} {r : Bool × Dict V}
    (hok : d.insertString b value alloc = .ok r) : Keeps d r.2 := by
  unfold Dict.insertString at hok
  split at hok
  · exact h.insertAuto hok
  · split at hok
    · exact h.insertInt hok
    · cases hok
      exact h.insertBlob b value alloc

theorem Sound.insert (h : d.Sound) {key : KeyArg} {value : V} {alloc : Bool} {r : Bool × Dict V}
    (hok : d.insert key value alloc = .ok r) : Keeps d r.2 := by
  cases key with
  | auto => exact h.insertAuto hok
  | string b =>
      obtain ⟨hsound, hlength⟩ := Sound.insertString
        (d := { d with isObject := d.isObject || d.entries = [] }) ⟨h.1, h.2, h.3⟩ hok
      exact ⟨hsound, hlength⟩
  | cast b => exact h.insertString hok
  | int n => exact h.insertInt hok

/-! ## Renumbering -/

theorem length_renumber (k : Nat) (es : List (Jx9Key × V)) :
    (renumber k es).length = es.length := by
  induction es generalizing k with
  | nil => rfl
  | cons e es ih =>
      obtain ⟨key, v⟩ := e
      cases key <;> simp [renumber, ih]

@[simp] theorem countInts_int (n : Int64) (v : V) (es : List (Jx9Key × V)) :
    countInts ((.int n, v) :: es) = countInts es + 1 := by
  simp [countInts]

@[simp] theorem countInts_blob (b : Bytes) (v : V) (es : List (Jx9Key × V)) :
    countInts ((.blob b, v) :: es) = countInts es := by
  simp [countInts]

theorem countInts_le (es : List (Jx9Key × V)) : countInts es ≤ es.length := List.countP_le_length

/-- The new integer keys. -/
theorem int_mem_renumber {k : Nat} {es : List (Jx9Key × V)} {n : Int64}
    (hn : .int n ∈ (renumber k es).map Prod.fst) :
    ∃ j, n = Int64.ofNat j ∧ k ≤ j ∧ j < k + countInts es := by
  induction es generalizing k with
  | nil => cases hn
  | cons e es ih =>
      obtain ⟨key, v⟩ := e
      cases key with
      | int n' =>
          simp only [renumber, List.map_cons, List.mem_cons, Jx9Key.int.injEq] at hn
          rw [countInts_int]
          rcases hn with hn | hn
          · exact ⟨k, hn, Nat.le_refl k, by omega⟩
          · obtain ⟨j, hj, hle, hlt⟩ := ih hn
            exact ⟨j, hj, by omega, by omega⟩
      | blob b =>
          simp only [renumber, List.map_cons, List.mem_cons, reduceCtorEq, false_or] at hn
          rw [countInts_blob]
          exact ih hn

/-- The other keys stay. -/
theorem blob_mem_renumber {k : Nat} {es : List (Jx9Key × V)} {b : Bytes} :
    .blob b ∈ (renumber k es).map Prod.fst ↔ .blob b ∈ es.map Prod.fst := by
  induction es generalizing k with
  | nil => rfl
  | cons e es ih =>
      obtain ⟨key, v⟩ := e
      cases key <;> simp only [renumber, List.map_cons, List.mem_cons, ih, reduceCtorEq, false_or]

theorem renumber_distinct {k : Nat} {es : List (Jx9Key × V)} (h : (es.map Prod.fst).Nodup)
    (hsmall : k + countInts es ≤ 2 ^ 63) : ((renumber k es).map Prod.fst).Nodup := by
  induction es generalizing k with
  | nil => exact List.nodup_nil
  | cons e es ih =>
      obtain ⟨key, v⟩ := e
      rw [List.map_cons, List.nodup_cons] at h
      cases key with
      | int n =>
          rw [countInts_int] at hsmall
          refine List.nodup_cons.mpr ⟨fun hin => ?_, ih h.2 (by omega)⟩
          obtain ⟨j, hj, hle, hlt⟩ := int_mem_renumber hin
          have heq := congrArg Int64.toInt hj
          rw [Int64.toInt_ofNat_of_lt (by omega), Int64.toInt_ofNat_of_lt (by omega)] at heq
          omega
      | blob b =>
          rw [countInts_blob] at hsmall
          exact List.nodup_cons.mpr ⟨fun hin => h.1 (blob_mem_renumber.mp hin), ih h.2 hsmall⟩

theorem Sound.shift (h : d.Sound) (hsmall : d.entries.length ≤ 2 ^ 63) : Keeps d d.shift.2 := by
  unfold Dict.shift
  cases hentries : d.entries with
  | nil => exact Keeps.same h
  | cons e rest =>
      have hdistinct := h.distinct
      rw [keys, hentries, List.map_cons, List.nodup_cons] at hdistinct
      have hcount := countInts_le rest
      rw [hentries, List.length_cons] at hsmall
      refine ⟨Sound.rewind (renumber_distinct hdistinct.2 (by omega)) fun n hn => ?_, ?_⟩
      · obtain ⟨j, rfl, -, hlt⟩ := int_mem_renumber hn
        show Int64.ofNat j < Int64.ofNat (countInts rest)
        rw [Int64.lt_iff_toInt_lt, Int64.toInt_ofNat_of_lt (by omega),
          Int64.toInt_ofNat_of_lt (by omega)]
        omega
      · show (renumber 0 rest).length ≤ d.entries.length + 1
        rw [length_renumber, hentries, List.length_cons]
        omega

theorem Sound.pop (h : d.Sound) : Keeps d d.pop.2 := by
  unfold Dict.pop
  cases hlast : d.entries.getLast? with
  | none => exact Keeps.same h
  | some e =>
      have hsub : (d.entries.dropLast.map Prod.fst).Sublist d.keys :=
        (List.dropLast_sublist _).map _
      refine ⟨Sound.rewind (h.distinct.sublist hsub) fun n hn => h.below n (hsub.subset hn), ?_⟩
      show d.entries.dropLast.length ≤ d.entries.length + 1
      rw [List.length_dropLast]
      omega

theorem Sound.advance (h : d.Sound) : Keeps d d.advance.2 := by
  unfold Dict.advance
  cases hcursor : d.cursor with
  | none => exact Keeps.same h
  | some i =>
      refine ⟨⟨h.distinct, h.below, fun j hj => ?_⟩, Nat.le_succ _⟩
      by_cases hi : i + 1 < d.entries.length
      · simp only [if_pos hi] at hj
        cases hj
        exact hi
      · simp only [if_neg hi] at hj
        cases hj

/-- An operation that returns leaves a sound dictionary, with at most one entry more. -/
theorem Sound.step [Inhabited V] (h : d.Sound) (hsmall : d.entries.length ≤ 2 ^ 63) {call : Call V}
    {r : Result V × Dict V} (hok : d.step call = .ok r) : Keeps d r.2 := by
  cases call with
  | insert key value alloc =>
      obtain ⟨x, hinsert, rfl⟩ := ok_of_map_ok hok
      exact h.insert hinsert
  | fetch key =>
      cases hok
      exact Keeps.same h
  | pop =>
      cases hok
      exact h.pop
  | shift =>
      cases hok
      exact h.shift hsmall
  | reset =>
      cases hok
      exact ⟨Sound.rewind h.distinct h.below, Nat.le_succ _⟩
  | next =>
      cases hok
      exact h.advance
  | walk =>
      cases hok
      exact Keeps.same h

end Dict

end Jx9Hash

end Poesie
