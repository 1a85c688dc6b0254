import Mathlib.Tactic

set_option autoImplicit false

/-! # Memory and logs of writes

Memory is a function from addresses to values. A log of writes, oldest first, determines what
is read afterwards: the value of the last write to an address, or what was there before
(`writes_apply`). `fill` stores a list of values at a list of addresses, as a transfer does,
and `overwrite` is the same for a buffer that is a list.
-/

namespace Memory

variable {A V : Type} [DecidableEq A]

/-! ## Logs -/

/-- Memory after the writes of a log. -/
def writes (mem : A → V) (log : List (A × V)) : A → V :=
  log.foldl (fun mem w => Function.update mem w.1 w.2) mem

/-- The value of the last write to `a`. -/
def lastAt (log : List (A × V)) (a : A) : Option V :=
  log.foldl (fun last w => if w.1 = a then some w.2 else last) none

@[simp] theorem lastAt_nil (a : A) : lastAt ([] : List (A × V)) a = none := rfl

theorem lastAt_concat (log : List (A × V)) (w : A × V) (a : A) :
    lastAt (log ++ [w]) a = if w.1 = a then some w.2 else lastAt log a := by
  rw [lastAt, List.foldl_append]
  rfl

theorem lastAt_append (log log' : List (A × V)) (a : A) :
    lastAt (log ++ log') a = (lastAt log' a).or (lastAt log a) := by
  induction log' using List.reverseRecOn with
  | nil => rw [List.append_nil, lastAt_nil, Option.none_or]
  | append_singleton log' w ih =>
      rw [← List.append_assoc, lastAt_concat, lastAt_concat, ih]
      by_cases h : w.1 = a
      · rw [if_pos h, if_pos h, Option.some_or]
      · rw [if_neg h, if_neg h]

theorem lastAt_cons (w : A × V) (log : List (A × V)) (a : A) :
    lastAt (w :: log) a = (lastAt log a).or (if w.1 = a then some w.2 else none) :=
  lastAt_append [w] log a

theorem writes_concat (mem : A → V) (log : List (A × V)) (w : A × V) :
    writes mem (log ++ [w]) = Function.update (writes mem log) w.1 w.2 := by
  rw [writes, List.foldl_append]
  rfl

/-- What is read after a log of writes. -/
theorem writes_apply (mem : A → V) (log : List (A × V)) (a : A) :
    writes mem log a = (lastAt log a).getD (mem a) := by
  induction log using List.reverseRecOn with
  | nil => rfl
  | append_singleton log w ih =>
      rw [writes_concat, lastAt_concat]
      by_cases h : w.1 = a
      · rw [if_pos h, ← h, Function.update_self]
        rfl
      · rw [if_neg h, Function.update_of_ne (Ne.symm h), ih]

theorem lastAt_eq_none_iff {log : List (A × V)} {a : A} :
    lastAt log a = none ↔ ∀ w ∈ log, w.1 ≠ a := by
  induction log using List.reverseRecOn with
  | nil => simp
  | append_singleton log w ih =>
      rw [lastAt_concat]
      by_cases h : w.1 = a
      · rw [if_pos h]
        constructor
        · intro hn
          cases hn
        · intro hw
          exact absurd h (hw w (by simp))
      · rw [if_neg h, ih]
        constructor
        · intro hlog x hx
          rcases List.mem_append.mp hx with hx | hx
          · exact hlog x hx
          · rw [List.mem_singleton.mp hx]
            exact h
        · intro hall x hx
          exact hall x (by simp [hx])

/-- The last write is one of the writes. -/
theorem mem_of_lastAt {log : List (A × V)} {a : A} {v : V} (h : lastAt log a = some v) :
    (a, v) ∈ log := by
  induction log using List.reverseRecOn with
  | nil => cases h
  | append_singleton log w ih =>
      rw [lastAt_concat] at h
      by_cases hw : w.1 = a
      · rw [if_pos hw] at h
        cases h
        rw [← hw]
        simp
      · rw [if_neg hw] at h
        exact List.mem_append_left _ (ih h)

/-- An address that is written has a last write. -/
theorem lastAt_isSome {log : List (A × V)} {a : A} {v : V} (h : (a, v) ∈ log) :
    ∃ v', lastAt log a = some v' := by
  cases hl : lastAt log a with
  | none => exact absurd rfl (lastAt_eq_none_iff.mp hl (a, v) h)
  | some v' => exact ⟨v', rfl⟩

/-- Renaming the addresses of a log. -/
theorem lastAt_map {B : Type} [DecidableEq B] {f : A → B} (hf : Function.Injective f)
    (log : List (A × V)) (a : A) :
    lastAt (log.map fun w => (f w.1, w.2)) (f a) = lastAt log a := by
  induction log using List.reverseRecOn with
  | nil => rfl
  | append_singleton log w ih =>
      rw [List.map_append, List.map_singleton, lastAt_concat, lastAt_concat, ih]
      by_cases h : w.1 = a
      · rw [if_pos h, if_pos (congrArg f h)]
      · rw [if_neg h, if_neg fun he => h (hf he)]

/-! ## Transfers -/

/-- Store values at addresses, as far as both lists go. -/
def fill (mem : A → V) (dst : List A) (values : List V) : A → V := writes mem (dst.zip values)

theorem fill_of_notMem {mem : A → V} {dst : List A} {values : List V} {a : A} (h : a ∉ dst) :
    fill mem dst values a = mem a := by
  have hnone : lastAt (dst.zip values) a = none := by
    rw [lastAt_eq_none_iff]
    intro w hw he
    have hmem := (List.of_mem_zip (show (w.1, w.2) ∈ dst.zip values from hw)).1
    rw [he] at hmem
    exact h hmem
  rw [fill, writes_apply, hnone]
  rfl

/-- The last value for an address is the one at its own position. -/
theorem lastAt_zip {dst : List A} (hdst : dst.Nodup) (values : List V) {i : Nat} {a : A}
    (ha : dst[i]? = some a) : lastAt (dst.zip values) a = values[i]? := by
  induction dst generalizing values i with
  | nil => simp at ha
  | cons d dst ih =>
      obtain ⟨hd, hdst⟩ := List.nodup_cons.mp hdst
      cases values with
      | nil => rfl
      | cons v values =>
          rw [List.zip_cons_cons, lastAt_cons]
          cases i with
          | zero =>
              -- the head: `d` does not occur again behind it
              have had : d = a := by simpa using ha
              subst had
              have hnone : lastAt (dst.zip values) d = none := by
                rw [lastAt_eq_none_iff]
                intro w hw he
                exact hd (he ▸ (List.of_mem_zip (show (w.1, w.2) ∈ dst.zip values from hw)).1)
              rw [hnone, if_pos rfl]
              rfl
          | succ i =>
              have hi : dst[i]? = some a := by simpa using ha
              have hne : d ≠ a := fun he => hd (he ▸ List.mem_of_getElem? hi)
              rw [ih hdst values hi, if_neg hne, Option.or_none]
              rfl

/-- Each destination receives the value at its own position. -/
theorem fill_at {dst : List A} (hdst : dst.Nodup) (mem : A → V) (values : List V) {i : Nat}
    {a : A} (ha : dst[i]? = some a) :
    fill mem dst values a = (values[i]?).getD (mem a) := by
  rw [fill, writes_apply, lastAt_zip hdst values ha]

/-! ## Buffers -/

/-- A buffer after the writes of a log of positions; writes past its end are dropped. -/
def overwrite (buf : List V) (log : List (Nat × V)) : List V :=
  log.foldl (fun buf w => buf.set w.1 w.2) buf

theorem overwrite_concat (buf : List V) (log : List (Nat × V)) (w : Nat × V) :
    overwrite buf (log ++ [w]) = (overwrite buf log).set w.1 w.2 := by
  rw [overwrite, List.foldl_append]
  rfl

theorem overwrite_append (buf : List V) (log log' : List (Nat × V)) :
    overwrite buf (log ++ log') = overwrite (overwrite buf log) log' := by
  rw [overwrite, List.foldl_append]
  rfl

theorem overwrite_length (buf : List V) (log : List (Nat × V)) :
    (overwrite buf log).length = buf.length := by
  induction log using List.reverseRecOn with
  | nil => rfl
  | append_singleton log w ih => rw [overwrite_concat, List.length_set, ih]

/-- What a position of a buffer holds after a log of writes. -/
theorem overwrite_getElem? (buf : List V) (log : List (Nat × V)) {i : Nat} (h : i < buf.length) :
    (overwrite buf log)[i]? = some ((lastAt log i).getD buf[i]) := by
  induction log using List.reverseRecOn with
  | nil => simp [overwrite, h]
  | append_singleton log w ih =>
      rw [overwrite_concat, lastAt_concat, List.getElem?_set]
      by_cases hw : w.1 = i
      · have hlen := overwrite_length buf log
        rw [if_pos hw, if_pos hw, if_pos (by omega)]
        rfl
      · rw [if_neg hw, if_neg hw, ih]

end Memory
