import Poesie.ForeignFunction
import Poesie.Outcomes

set_option autoImplicit false

/-! # Operations on a VM

What the operations of the backends have in common: they work on a VM and on the memory of the
process, convert their arguments before they go on, and load a file by executing what it
contains.
-/

namespace Poesie

open Wire Json SharedPtr Outcomes

/-- A program of a backend, over the state of its VM and the memory with the views in it. -/
abbrev VmProg (S α : Type) : Type := Prog CppException (S × Heap) α

variable {S V α : Type}

/-- Convert the arguments and go on. The vector `createdViews` lives until the operation is
left, normally or by an exception. -/
def withArgs (m : Margo) (env : ViewId → Env) (c : Converter V) (args : List Json)
    (body : List V → VmProg S α) : VmProg S α := fun s =>
  match convertItems m env c args [] s.2 with
  | (converted, created, heap) =>
      let (r, s) := match converted with
        | .ok values => body values (s.1, heap)
        | .error (.thrown e) => (.thrown e, (s.1, heap))
        | .error (.outOfRange _ _) => (.stuck, (s.1, heap))
      (r, (s.1, s.2.releaseAll MemoryViewImpl.destroy created))

/-- `load`: execute what the file contains, if it can be opened. -/
def loadWith (files : Bytes → Option Bytes) (execute : Bytes → VmProg S (Result Json))
    (filename : Bytes) : VmProg S (Result Json) :=
  match files filename with
  | none => pure { success := false, value := null,
                   error := text "Error opening file: " ++ filename }
  | some code => execute code

/-- A block with converted arguments returns if they can be converted and its body returns. -/
theorem returns_withArgs_iff {m : Margo} {env : ViewId → Env} {c : Converter V}
    {args : List Json} {body : List V → VmProg S α} {s : S × Heap} :
    (withArgs m env c args body).Returns s ↔
      ∃ values created heap, convertItems m env c args [] s.2 = (.ok values, created, heap) ∧
        (body values).Returns (s.1, heap) := by
  rcases hargs : convertItems m env c args [] s.2 with ⟨converted, created, heap⟩
  cases converted with
  | ok values =>
      have hwith : withArgs m env c args body s = ((body values (s.1, heap)).1,
          ((body values (s.1, heap)).2.1,
            (body values (s.1, heap)).2.2.releaseAll MemoryViewImpl.destroy created)) := by
        simp only [withArgs, hargs]
      constructor
      · rintro ⟨a, s', h⟩
        have h : withArgs m env c args body s = (.returned a, s') := h
        rw [hwith] at h
        exact ⟨values, created, heap, rfl, a, _, Prod.ext (Prod.mk.inj h).1 rfl⟩
      · rintro ⟨values', created', heap', h, a, s', hbody⟩
        cases h
        have hbody : body values (s.1, heap) = (.returned a, s') := hbody
        rw [hbody] at hwith
        exact ⟨a, _, hwith⟩
  | error fault =>
      -- no fault of a conversion is a return
      apply iff_of_false
      · rintro ⟨a, s', h⟩
        have h : withArgs m env c args body s = (.returned a, s') := h
        simp only [withArgs, hargs] at h
        cases fault with
        | thrown e => cases h
        | outOfRange off n => cases h
      · rintro ⟨values, created', heap', h, -⟩
        cases h

/-- A file that cannot be opened is reported. -/
theorem returns_loadWith_iff {files : Bytes → Option Bytes}
    {execute : Bytes → VmProg S (Result Json)} {filename : Bytes} {s : S × Heap} :
    (loadWith files execute filename).Returns s ↔
      ∀ code, files filename = some code → (execute code).Returns s := by
  unfold loadWith
  cases files filename with
  | none => exact iff_of_true (Prog.returns_pure _ s) fun code h => (by cases h)
  | some code =>
      constructor
      · rintro h code' hcode
        cases hcode
        exact h
      · intro h
        exact h code rfl

end Poesie
