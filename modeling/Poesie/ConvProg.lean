import Poesie.Conversion
import Poesie.Outcomes

set_option autoImplicit false

/-! # Conversions inside of larger programs

Between the steps of a conversion a backend calls the library of its VM. Such a program has a state
of its own beside the list of views and the heap. `Follows` says that a program does to these two
what a conversion does, and ends as it ends.
-/

namespace Poesie

open Outcomes

/-- The list of views and the heap, beside what else a program works on. -/
structure Beside (ρ : Type) where
  created : List ViewId
  heap : Heap
  own : ρ

/-- Such a program is left by an exception, or at a constructor that reads outside of its bytes:
it goes on with what lies there, and may throw as well. -/
abbrev ConvProg (ρ α : Type) : Type := Prog Fault (Beside ρ) α

variable {ρ α β : Type}

/-- How a program ends that does nothing but a step of a conversion. -/
def outcomeOf : Except Fault α → Outcome Fault α
  | .ok a => .returned a
  | .error fault => .thrown fault

/-- A step of a conversion. -/
def inHeap (f : Conv α) : ConvProg ρ α := fun t =>
  match f t.created t.heap with
  | (r, created, heap) => (outcomeOf r, { t with created, heap })

/-- A step on the state beside it. -/
def onOwn (f : ρ → ρ) : ConvProg ρ Unit := fun t => (.returned (), { t with own := f t.own })

@[simp] theorem onOwn_apply (f : ρ → ρ) (t : Beside ρ) :
    onOwn f t = (.returned (), { t with own := f t.own }) := rfl

/-- The program does to the views and the heap what the conversion does, and ends as it ends. -/
def Follows (x : ConvProg ρ α) (f : Conv α) : Prop :=
  ∀ t, ∃ own, x t =
    (outcomeOf (f t.created t.heap).1, ⟨(f t.created t.heap).2.1, (f t.created t.heap).2.2, own⟩)

namespace Follows

theorem pure (a : α) : Follows (Pure.pure a : ConvProg ρ α) (Pure.pure a) := fun t => ⟨t.own, rfl⟩

theorem inHeap (f : Conv α) : Follows (Poesie.inHeap f : ConvProg ρ α) f := fun t => ⟨t.own, rfl⟩

theorem bind {x : ConvProg ρ α} {y : α → ConvProg ρ β} {f : Conv α} {g : α → Conv β}
    (hx : Follows x f) (hy : ∀ a, Follows (y a) (g a)) : Follows (x >>= y) (f >>= g) := by
  intro t
  obtain ⟨own, hfirst⟩ := hx t
  rcases hf : f t.created t.heap with ⟨r, created, heap⟩
  rw [hf] at hfirst
  cases r with
  | ok a =>
      -- the rest starts with the views and the heap that both have come to
      obtain ⟨own', hrest⟩ := hy a ⟨created, heap, own⟩
      refine ⟨own', ?_⟩
      rw [Conv.bind_of_ok hf, ← hrest]
      simp only [Bind.bind, hfirst, outcomeOf]
  | error e =>
      refine ⟨own, ?_⟩
      rw [Conv.bind_of_error hf]
      simp only [Bind.bind, hfirst, outcomeOf]

/-- First something that concerns neither the views nor the heap. -/
theorem skip {x : ConvProg ρ α} {y : α → ConvProg ρ β} {f : Conv β} {a : α}
    (hx : ∀ t, ∃ own, x t = (.returned a, { t with own })) (hy : Follows (y a) f) :
    Follows (x >>= y) f := by
  intro t
  obtain ⟨own, hfirst⟩ := hx t
  obtain ⟨own', hrest⟩ := hy { t with own }
  exact ⟨own', by simpa only [Bind.bind, hfirst] using hrest⟩

/-- It returns where the conversion does. -/
theorem gives {x : ConvProg ρ α} {f : Conv α} (h : Follows x f) {t : Beside ρ} {a : α}
    (hf : (f t.created t.heap).1 = .ok a) : ∃ t', x.Gives t a t' := by
  obtain ⟨own, hconv⟩ := h t
  rw [hf] at hconv
  exact ⟨_, hconv⟩

end Follows

theorem ensures_inHeap (f : Conv α) (t : Beside ρ) :
    (inHeap f : ConvProg ρ α).Ensures t fun _ t' => t'.own = t.own := by
  intro a t' hgives
  rcases hf : f t.created t.heap with ⟨r, created, heap⟩
  simp only [Prog.Gives, inHeap, hf, Prod.mk.injEq] at hgives
  rw [← hgives.2]

end Poesie
