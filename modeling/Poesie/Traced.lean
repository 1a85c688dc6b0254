import Poesie.Wire

set_option autoImplicit false

/-! # Readers that record their steps

A `Traced` reader keeps, next to its outcome, the turns of its loops and its calls of itself,
whether it returns or gives up. `erase` forgets them. `Pays` is an amortised bound: each step of
a kind is paid for with a byte of the input, up to a debt that may be left when the reader gives
up in the middle of one.
-/

namespace Wire

/-- A turn of a loop, or a recursive call. -/
inductive Step where
  | iteration
  | call
  deriving DecidableEq, Repr

/-- A reader with the steps it took. -/
def Traced (ε α : Type) : Type := Bytes → Except (Failure ε) (α × Bytes) × List Step

variable {ε α β σ : Type}

namespace Traced

instance : Monad (Traced ε) where
  pure a := fun bs => (.ok (a, bs), [])
  bind r f := fun bs =>
    match r bs with
    | (.ok (a, rest), steps) => ((f a rest).1, steps ++ (f a rest).2)
    | (.error e, steps) => (.error e, steps)

/-- A reader without loops and calls of its own. -/
def plain (r : Reader ε α) : Traced ε α := fun bs => (r bs, [])

/-- Record a step, then go on. -/
def step (s : Step) (r : Traced ε α) : Traced ε α := fun bs => ((r bs).1, s :: (r bs).2)

/-- Run `body` `n` times over an accumulator. -/
def loop (body : σ → Traced ε σ) : Nat → σ → Traced ε σ
  | 0, s => pure s
  | n + 1, s => do
      let s' ← step .iteration (body s)
      loop body n s'

/-- The reader without its steps. -/
def erase (r : Traced ε α) : Reader ε α := fun bs => (r bs).1

@[simp] theorem erase_pure (a : α) : erase (pure a : Traced ε α) = pure a := rfl

@[simp] theorem erase_plain (r : Reader ε α) : erase (plain r) = r := rfl

@[simp] theorem erase_bind (r : Traced ε α) (f : α → Traced ε β) :
    erase (r >>= f) = erase r >>= fun a => erase (f a) := by
  funext bs
  simp only [erase, bind]
  rcases r bs with ⟨e | ⟨a, rest⟩, steps⟩ <;> rfl

@[simp] theorem erase_step (s : Step) (r : Traced ε α) : erase (step s r) = erase r := rfl

theorem erase_loop (body : σ → Traced ε σ) (n : Nat) (s : σ) :
    erase (loop body n s) = Reader.loop (fun s => erase (body s)) n s := by
  induction n generalizing s with
  | zero => rfl
  | succ n ih =>
      rw [loop, erase_bind, erase_step, Reader.loop]
      simp only [ih]

end Traced

/-! ## What the steps cost -/

/-- A reader that returns leaves at least `gain` bytes fewer. -/
def Consumes (r : Reader ε α) (gain : Nat) : Prop :=
  ∀ bs a rest, r bs = .ok (a, rest) → rest.length + gain ≤ bs.length

theorem Consumes.take (n : Nat) : Consumes (Reader.take n : Reader ε Bytes) n := by
  intro bs a rest h
  by_cases hn : n ≤ bs.length
  · rw [Reader.take_of_le hn] at h
    cases h
    rw [List.length_drop]
    omega
  · rw [Reader.take_of_lt (by omega)] at h
    cases h

theorem Consumes.pure (a : α) : Consumes (Pure.pure a : Reader ε α) 0 := by
  intro bs b rest h
  cases h
  exact Nat.le_refl _

theorem Consumes.bind {r : Reader ε α} {f : α → Reader ε β} {g g₁ g₂ : Nat} (hr : Consumes r g₁)
    (hf : ∀ a, Consumes (f a) g₂) (hg : g ≤ g₁ + g₂) : Consumes (r >>= f) g := by
  intro bs b rest' h
  cases hb : r bs with
  | error e =>
      rw [Reader.bind_of_error hb] at h
      cases h
  | ok p =>
      obtain ⟨a, rest⟩ := p
      rw [Reader.bind_of_ok hb] at h
      have h₁ := hr bs a rest hb
      have h₂ := hf a rest b rest' h
      omega

/-- A last step that only builds the result. -/
theorem Consumes.map {r : Reader ε α} {g : Nat} (h : Consumes r g) (f : α → β) :
    Consumes (r >>= fun a => Pure.pure (f a)) g :=
  Consumes.bind h (fun a => Consumes.pure (f a)) (Nat.le_refl g)

theorem Consumes.mono {r : Reader ε α} {g g' : Nat} (h : Consumes r g) (hg : g' ≤ g) :
    Consumes r g' := by
  intro bs a rest hr
  have := h bs a rest hr
  omega

theorem Consumes.prim (p : Prim α) : Consumes (Reader.prim p : Reader ε α) 1 :=
  ((Consumes.take p.width).map p.get).mono p.width_pos

theorem Consumes.size (size : Prim UInt64) : Consumes (readSize size : Reader ε Nat) 1 :=
  (Consumes.prim size).map UInt64.toNat

theorem Consumes.string (size : Prim UInt64) : Consumes (readString size : Reader ε Bytes) 1 :=
  Consumes.bind (Consumes.size size) (fun n => (Consumes.take n).mono (Nat.zero_le n))
    (Nat.le_refl 1)

/-- What an outcome on `n` bytes has paid: each step of kind `k` with a byte. A reader that
returns has consumed `gain` bytes more; one that gives up may owe `debt` of them. -/
def Paid (k : Step) (gain debt n : Nat) : Except (Failure ε) (α × Bytes) × List Step → Prop
  | (.ok (_, rest), steps) => steps.count k + gain + rest.length ≤ n
  | (.error _, steps) => steps.count k ≤ n + debt

section

variable {k : Step} {gain debt n : Nat} {a : α} {rest : Bytes} {e : Failure ε} {steps : List Step}

@[simp] theorem paid_ok : Paid k gain debt n ((.ok (a, rest), steps) :
    Except (Failure ε) (α × Bytes) × List Step) ↔ steps.count k + gain + rest.length ≤ n := Iff.rfl

@[simp] theorem paid_error : Paid k gain debt n ((.error e, steps) :
    Except (Failure ε) (α × Bytes) × List Step) ↔ steps.count k ≤ n + debt := Iff.rfl

end

/-- Every outcome of the reader is paid for. -/
def Pays (k : Step) (r : Traced ε α) (gain debt : Nat) : Prop :=
  ∀ bs, Paid k gain debt bs.length (r bs)

namespace Pays

variable {k : Step} {r : Traced ε α} {f : α → Traced ε β} {g g' g₁ g₂ d d' d₁ d₂ : Nat}

theorem pure (a : α) : Pays k (Pure.pure a : Traced ε α) 0 0 := fun bs => by
  show List.count k [] + 0 + bs.length ≤ bs.length
  simp

theorem mono (h : Pays k r g d) (hg : g' ≤ g) (hd : d ≤ d') : Pays k r g' d' := by
  intro bs
  have hbs := h bs
  generalize r bs = out at hbs ⊢
  rcases out with ⟨e | ⟨a, rest⟩, steps⟩
  · rw [paid_error] at hbs ⊢
    omega
  · rw [paid_ok] at hbs ⊢
    omega

theorem plain {r : Reader ε α} (h : Consumes r g') (hg : g ≤ g') :
    Pays k (Traced.plain r) g 0 := by
  intro bs
  show Paid k g 0 bs.length (r bs, [])
  cases hr : r bs with
  | error e => exact Nat.zero_le _
  | ok p =>
      have := h bs p.1 p.2 hr
      rw [paid_ok, List.count_nil]
      omega

/-- What the first part gained pays for a debt of the second. -/
theorem bind (hr : Pays k r g₁ d₁) (hf : ∀ a, Pays k (f a) g₂ d₂) (hg : g ≤ g₁ + g₂)
    (h₁ : d₁ ≤ d) (h₂ : d₂ ≤ g₁ + d) : Pays k (r >>= f) g d := by
  intro bs
  have hbs := hr bs
  show Paid k g d bs.length (match r bs with
    | (.ok (a, rest), steps) => ((f a rest).1, steps ++ (f a rest).2)
    | (.error e, steps) => (.error e, steps))
  generalize r bs = out at hbs ⊢
  rcases out with ⟨e | ⟨a, rest⟩, steps⟩
  · rw [paid_error] at hbs ⊢
    omega
  · have hrest := hf a rest
    show Paid k g d bs.length ((f a rest).1, steps ++ (f a rest).2)
    generalize f a rest = out at hrest ⊢
    rcases out with ⟨e | ⟨b, rest'⟩, steps'⟩
    · rw [paid_ok] at hbs
      simp only [paid_error, List.count_append] at hrest ⊢
      omega
    · simp only [paid_ok, List.count_append] at hbs hrest ⊢
      omega

/-- A step of the kind is one byte owed, or one byte less gained. -/
theorem step (s : Step) (h : Pays k r (g + 1) d) : Pays k (Traced.step s r) g (d + 1) := by
  intro bs
  have hbs := h bs
  have hone : ∀ steps : List Step, (s :: steps).count k ≤ steps.count k + 1 := fun steps => by
    rw [List.count_cons]
    split <;> omega
  show Paid k g (d + 1) bs.length ((r bs).1, s :: (r bs).2)
  generalize r bs = out at hbs ⊢
  rcases out with ⟨e | ⟨a, rest⟩, steps⟩
  · simp only [paid_error] at hbs ⊢
    have := hone steps
    omega
  · simp only [paid_ok] at hbs ⊢
    have := hone steps
    omega

/-- A step of another kind costs nothing. -/
theorem other {s : Step} (hs : s ≠ k) (h : Pays k r g d) : Pays k (Traced.step s r) g d := by
  intro bs
  have hbs := h bs
  show Paid k g d bs.length ((r bs).1, s :: (r bs).2)
  generalize r bs = out at hbs ⊢
  rcases out with ⟨e | ⟨a, rest⟩, steps⟩
  · simpa only [paid_error, List.count_cons_of_ne hs] using hbs
  · simpa only [paid_ok, List.count_cons_of_ne hs] using hbs

/-- A loop whose turns pay for themselves owes at most what one turn may owe. -/
theorem loop {body : σ → Traced ε σ}
    (h : ∀ s, Pays k (Traced.step .iteration (body s)) 0 d) (n : Nat) (s : σ) :
    Pays k (Traced.loop body n s) 0 d := by
  induction n generalizing s with
  | zero => exact (pure s).mono (Nat.le_refl 0) (Nat.zero_le d)
  | succ n ih => exact bind (h s) ih (Nat.zero_le _) (Nat.le_refl d) (Nat.le_add_left d 0)

end Pays

end Wire
