import Mathlib.Data.List.Forall2

set_option autoImplicit false

/-! # Computations on a limited stack

In `ExceptT ε Option` a computation returns a value, throws, or has no result because the stack
did not suffice, or because a step of it never returns. What a sequence of steps returns is said by
what each of the steps returns.
-/

namespace Limited

variable {ε α β γ : Type}

theorem pure_inj {a b : α} : (pure a : ExceptT ε Option α) = pure b ↔ a = b := by
  constructor
  · intro h
    exact Except.ok.inj (Option.some.inj h)
  · rintro rfl
    rfl

theorem bind_eq_pure_iff {x : ExceptT ε Option α} {f : α → ExceptT ε Option β} {b : β} :
    x >>= f = pure b ↔ ∃ a, x = pure a ∧ f a = pure b := by
  constructor
  · intro h
    match x, h with
    | some (.ok a), h => exact ⟨a, rfl, h⟩
    | some (.error e), h =>
        have h : (some (.error e) : Option (Except ε β)) = some (.ok b) := h
        simp at h
    | none, h =>
        have h : (none : Option (Except ε β)) = some (.ok b) := h
        simp at h
  · rintro ⟨a, rfl, h⟩
    rw [pure_bind, h]

/-- The results of a loop over a list are those of its elements. -/
theorem mapM_eq_pure_iff {f : α → ExceptT ε Option β} {xs : List α} {ys : List β} :
    xs.mapM f = pure ys ↔ List.Forall₂ (fun x y => f x = pure y) xs ys := by
  induction xs generalizing ys with
  | nil =>
      rw [List.mapM_nil, pure_inj, List.forall₂_nil_left_iff]
      exact eq_comm
  | cons x xs ih =>
      simp only [List.mapM_cons, bind_eq_pure_iff, ih, pure_inj, List.forall₂_cons_left_iff]
      constructor
      · rintro ⟨y, hy, ys', hys, rfl⟩
        exact ⟨y, ys', hy, hys, rfl⟩
      · rintro ⟨y, ys', hy, hys, rfl⟩
        exact ⟨y, hy, ys', hys, rfl⟩

/-- A loop that puts what it finds at each element into an accumulator. -/
theorem foldlM_eq_pure_iff {step : γ → α → ExceptT ε Option γ} {put : γ → β → γ}
    {R : α → β → Prop} {xs : List α} {acc out : γ}
    (h : ∀ acc x out, step acc x = pure out ↔ ∃ y, R x y ∧ out = put acc y) :
    xs.foldlM step acc = pure out ↔ ∃ ys, List.Forall₂ R xs ys ∧ out = ys.foldl put acc := by
  induction xs generalizing acc with
  | nil =>
      rw [List.foldlM_nil, pure_inj]
      simp only [List.forall₂_nil_left_iff, exists_eq_left, List.foldl_nil]
      exact eq_comm
  | cons x xs ih =>
      simp only [List.foldlM_cons, bind_eq_pure_iff, h, ih, List.forall₂_cons_left_iff]
      constructor
      · rintro ⟨_, ⟨y, hy, rfl⟩, ys, hys, rfl⟩
        exact ⟨y :: ys, ⟨y, ys, hy, hys, rfl⟩, rfl⟩
      · rintro ⟨_, ⟨y, ys, hy, hys, rfl⟩, rfl⟩
        exact ⟨_, ⟨y, hy, rfl⟩, ys, hys, rfl⟩

/-! ## Loops over an iterator -/

section

variable (next : Nat → ExceptT ε Option (Option α)) (body : β → α → ExceptT ε Option β)

/-- A loop over what an iterator gives, from its turn `i` on. There is no result after `rounds`
turns. -/
def loop : Nat → Nat → β → ExceptT ε Option β
  | 0, _, _ => ExceptT.mk none
  | rounds + 1, i, out => do
      match ← next i with
      | none => pure out
      | some a =>
          let out ← body out a
          loop rounds (i + 1) out

/-- What the iterator gives from its turn `i` on, up to its end. -/
def Lists : Nat → List α → Prop
  | i, [] => next i = pure none
  | i, a :: rest => next i = pure (some a) ∧ Lists (i + 1) rest

end

variable {next : Nat → ExceptT ε Option (Option α)} {body : β → α → ExceptT ε Option β}

/-- A loop that comes to its end has gone through a list. -/
theorem loop_eq_pure_iff {rounds i : Nat} {acc out : β} :
    loop next body rounds i acc = pure out ↔
      ∃ as, Lists next i as ∧ as.length < rounds ∧ as.foldlM body acc = pure out := by
  induction rounds generalizing i acc with
  | zero =>
      refine iff_of_false (fun h => ?_) fun ⟨as, _, hlt, _⟩ => Nat.not_lt_zero _ hlt
      have h : (none : Option (Except ε β)) = some (.ok out) := h
      simp at h
  | succ rounds ih =>
      rw [loop, bind_eq_pure_iff]
      constructor
      · rintro ⟨found, hnext, h⟩
        cases found with
        | none => exact ⟨[], hnext, Nat.succ_pos _, h⟩
        | some a =>
            obtain ⟨acc', hbody, hrest⟩ := bind_eq_pure_iff.mp h
            obtain ⟨as, hlists, hlt, hfold⟩ := ih.mp hrest
            refine ⟨a :: as, ⟨hnext, hlists⟩, Nat.succ_lt_succ hlt, ?_⟩
            rw [List.foldlM_cons, hbody, pure_bind, hfold]
      · rintro ⟨as, hlists, hlt, hfold⟩
        cases as with
        | nil => exact ⟨none, hlists, hfold⟩
        | cons a as =>
            refine ⟨some a, hlists.1, bind_eq_pure_iff.mpr ?_⟩
            rw [List.foldlM_cons, bind_eq_pure_iff] at hfold
            obtain ⟨acc', hbody, hrest⟩ := hfold
            exact ⟨acc', hbody, ih.mpr ⟨as, hlists.2, Nat.lt_of_succ_lt_succ hlt, hrest⟩⟩

/-- An iterator that counts through a list. -/
theorem lists_of_getElem? {i : Nat} {as : List α} (h : ∀ k, next (i + k) = pure as[k]?) :
    Lists next i as := by
  induction as generalizing i with
  | nil => exact h 0
  | cons a as ih =>
      refine ⟨h 0, ih fun k => ?_⟩
      rw [Nat.add_assoc, Nat.add_comm 1 k, h (k + 1), List.getElem?_cons_succ]

/-- An iterator gives one list. -/
theorem Lists.unique {i : Nat} {as bs : List α} (has : Lists next i as) (hbs : Lists next i bs) :
    as = bs := by
  induction as generalizing i bs with
  | nil =>
      cases bs with
      | nil => rfl
      | cons b bs => exact absurd (pure_inj.mp (has.symm.trans hbs.1)) (by simp)
  | cons a as ih =>
      cases bs with
      | nil => exact absurd (pure_inj.mp (hbs.symm.trans has.1)) (by simp)
      | cons b bs =>
          have hsame : a = b := Option.some.inj (pure_inj.mp (has.1.symm.trans hbs.1))
          rw [hsame, ih has.2 hbs.2]

end Limited
