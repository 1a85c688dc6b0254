import Poesie.Outcomes
import Mathlib.Order.Defs.Unbundled

set_option autoImplicit false

/-! # Programs over concrete and abstract states

A program works on concrete states, and an abstract state says what such a state stands for: `R`.
A program refines a result on an abstract state if it returns what the result says, from each
concrete state that stands for it, and leaves a state that stands for what the result leaves. What
it changes besides is bounded by a relation `K` between the states before and after. A result that
is an error is thrown.
-/

namespace Outcomes

variable {ε σ α β γ A ι : Type} {R : σ → A → Prop} {K : σ → σ → Prop}

theorem ok_of_map_ok {r : Except ε α} {f : α → β} {y : β} (h : r.map f = .ok y) :
    ∃ x, r = .ok x ∧ f x = y := by
  cases r with
  | error e => cases h
  | ok x => exact ⟨x, rfl, Except.ok.inj h⟩

/-- From a concrete state, a program does what a result says. -/
def Does (R : σ → A → Prop) (K : σ → σ → Prop) (f : Prog ε σ α) (s : σ) : Except ε (α × A) → Prop
  | .ok r => ∃ s', f s = (.returned r.1, s') ∧ R s' r.2 ∧ K s s'
  | .error e => ∃ s', f s = (.thrown e, s')

/-- A program does what a result says from each state that stands for an abstract one. -/
def Refines (R : σ → A → Prop) (K : σ → σ → Prop) (f : Prog ε σ α) (a : A)
    (r : Except ε (α × A)) : Prop :=
  ∀ s, R s a → Does R K f s r

/-- Programs that do the same from a state. -/
theorem Does.of_eq {f g : Prog ε σ α} {s : σ} {r : Except ε (α × A)} (h : f s = g s)
    (hg : Does R K g s r) : Does R K f s r := by
  unfold Does at hg ⊢
  rwa [h]

theorem Refines.pure [Std.Refl K] (x : α) (a : A) :
    Refines R K (Pure.pure x : Prog ε σ α) a (.ok (x, a)) :=
  fun s hs => ⟨s, rfl, hs, Std.Refl.refl s⟩

/-- A program that goes on after a part does what follows the part. -/
theorem Does.bind [IsTrans σ K] {f : Prog ε σ α} {g : α → Prog ε σ β} {s : σ}
    {r : Except ε (α × A)} {k : α × A → Except ε (β × A)} (hf : Does R K f s r)
    (hg : ∀ x, r = .ok x → Refines R K (g x.1) x.2 (k x)) :
    Does R K (f >>= g) s (r >>= k) := by
  cases r with
  | error e =>
      obtain ⟨s', hs'⟩ := hf
      exact ⟨s', Prog.bind_of_thrown hs' g⟩
  | ok x =>
      obtain ⟨s', hrun, hR, hK⟩ := hf
      have hrest := hg x rfl s' hR
      show Does R K (f >>= g) s (k x)
      have heq : (f >>= g) s = g x.1 s' := Prog.bind_of_gives hrun g
      cases hnext : k x with
      | error e =>
          rw [hnext] at hrest
          obtain ⟨s'', hs''⟩ := hrest
          exact ⟨s'', heq.trans hs''⟩
      | ok y =>
          rw [hnext] at hrest
          obtain ⟨s'', hrun', hR', hK'⟩ := hrest
          exact ⟨s'', heq.trans hrun', hR', IsTrans.trans s s' s'' hK hK'⟩

theorem Refines.bind [IsTrans σ K] {f : Prog ε σ α} {g : α → Prog ε σ β} {a : A}
    {r : Except ε (α × A)} {k : α × A → Except ε (β × A)} (hf : Refines R K f a r)
    (hg : ∀ x, r = .ok x → Refines R K (g x.1) x.2 (k x)) :
    Refines R K (f >>= g) a (r >>= k) :=
  fun s hs => (hf s hs).bind hg

/-- A program that goes on after a part that returns. -/
theorem Does.bind_ok [IsTrans σ K] {f : Prog ε σ α} {g : α → Prog ε σ β} {s : σ} {x : α} {a : A}
    {r : Except ε (β × A)} (hf : Does R K f s (.ok (x, a))) (hg : Refines R K (g x) a r) :
    Does R K (f >>= g) s r :=
  hf.bind (k := fun _ => r) fun y hy => by
    cases hy
    exact hg

theorem Refines.bind_ok [IsTrans σ K] {f : Prog ε σ α} {g : α → Prog ε σ β} {a a' : A} {x : α}
    {r : Except ε (β × A)} (hf : Refines R K f a (.ok (x, a'))) (hg : Refines R K (g x) a' r) :
    Refines R K (f >>= g) a r :=
  fun s hs => (hf s hs).bind_ok hg

theorem Refines.bind_error {f : Prog ε σ α} {g : α → Prog ε σ β} {a : A} {e : ε}
    (hf : Refines R K f a (.error e)) : Refines R K (f >>= g) a (.error e) := by
  intro s hs
  obtain ⟨s', hs'⟩ := hf s hs
  exact ⟨s', Prog.bind_of_thrown hs' g⟩

/-- A part that does not change the state. -/
theorem Does.bind_read {f : Prog ε σ α} {g : α → Prog ε σ β} {s : σ} {r : Except ε (β × A)} {x : α}
    (hf : f s = (.returned x, s)) (hg : Does R K (g x) s r) : Does R K (f >>= g) s r :=
  hg.of_eq (Prog.bind_of_gives hf g)

/-! ## Runs -/

/-- The values that operations return, in their order. -/
def Prog.runAll (op : ι → Prog ε σ β) : List ι → Prog ε σ (List β)
  | [] => Pure.pure []
  | i :: is => do
      let x ← op i
      let xs ← runAll op is
      Pure.pure (x :: xs)

/-- The same for abstract operations. -/
def runSpec (step : A → ι → Except ε (β × A)) : List ι → A → Except ε (List β × A)
  | [], a => .ok ([], a)
  | i :: is, a => do
      let x ← step a i
      let xs ← runSpec step is x.2
      Pure.pure (x.1 :: xs.1, xs.2)

/-- If each operation refines an abstract one as long as there is room for it, then so does a run
for which there is room. -/
theorem refines_runAll [IsPreorder σ K] {op : ι → Prog ε σ β}
    {step : A → ι → Except ε (β × A)} {Room : Nat → A → Prop}
    (hop : ∀ n a i, Room (n + 1) a → Refines R K (op i) a (step a i) ∧
      ∀ x, step a i = .ok x → Room n x.2)
    (is : List ι) (a : A) (ha : Room is.length a) :
    Refines R K (Prog.runAll op is) a (runSpec step is a) := by
  induction is generalizing a with
  | nil => exact Refines.pure [] a
  | cons i is ih =>
      obtain ⟨hfirst, hroom⟩ := hop is.length a i ha
      refine hfirst.bind fun x hx => ?_
      refine (ih x.2 (hroom x hx)).bind fun xs _ => ?_
      exact Refines.pure (x.1 :: xs.1) xs.2

end Outcomes
