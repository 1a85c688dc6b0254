import Poesie.JavascriptVm
import Poesie.RubyVm

set_option autoImplicit false

/-! # Errors outside of protected calls

A script is run under protection, but what the JavaScript and the Ruby backend do before and
after it is not. A run of scripts goes on to its end exactly if each of them finds, and leaves,
a VM in which the calls of the backend raise no error.
-/

namespace Poesie

open Wire Json SharedPtr Outcomes Runs

/-- **Unprotected errors.** In a run of a JavaScript or a Ruby VM every script ends with a JSON
value or an error in its result if and only if, in the state before it, every call that the
backend makes outside of protected calls meets objects that it accepts. -/
theorem noVmError_iff {S O : Type} (m : Margo) (env : ViewId → Env) (h : DukHost) (z : DukSizes)
    (p : Mruby S O) (depth : Nat) (files : Bytes → Option Bytes) :
    (∀ (t : DukThread) (ops : List DukOp),
      Always (JavascriptVm.step h z m env depth files) (· ≠ none) (some t) ops ↔
        Along (JavascriptVm.step h z m env depth files)
          (Before (JavascriptVm.Orderly h z m env depth files)) (some t) ops) ∧
    ∀ (s : S × Heap) (ops : List (MrbOp S)),
      Always (RubyVm.step p m env depth files) (· ≠ none) (some s) ops ↔
        Along (RubyVm.step p m env depth files)
          (Before (RubyVm.Orderly p m env depth files)) (some s) ops := by
  constructor
  · intro t ops
    exact always_ne_none_iff JavascriptVm.step_ne_none_iff t ops
  · intro s ops
    exact always_ne_none_iff RubyVm.step_ne_none_iff s ops

/-! ## Scripts that end the process -/

/-- No views, no memory. -/
def noViews : Heap := Store.empty fun _ => 0

/-- A VM with an empty global object, on an empty stack. -/
def freshDuk : DukThread where
  world :=
    ({ builtins with
        objects := Function.update builtins.objects 2 ⟨false, none, [], [0], true, none⟩
        globalObject := 2
        next := 3 }, noViews)
  stack := []

/-- The number 1. -/
def dukOne : DukValue := .number ⟨0x3FF0000000000000⟩

/-- One script makes `process` the number 1, all others do nothing. -/
def assignsProcess : DukHost where
  toDukCode := { inert with
    eval code w :=
      if code = text "process = 1" then
        (.ok dukOne, (w.1.store w.1.globalObject (text "process") dukOne, w.2))
      else (.ok .undefined, w) }
  getPrimitive _ _ w := (.gave (false, .undefined), w)
  primitiveSource _ _ _ := .absent
  pcall _ w := (.ok .undefined, w)
  pcallMethod _ w := (.ok .undefined, w)

/-- Every script returns a string with a NUL byte in the middle. -/
def returnsNul : Mruby Unit Unit where
  api := .blank
  node _ _ := .string [97, 0, 98]
  poesie := ()
  objectFrozen _ := false
  constSet _ s := s
  loadString _ s := (.ok (), s)
  inspect _ s := ((), s)

/-- A script that sets `process` to 1 returns, and the next one cannot set `argv`. -/
theorem process_assigned : ∃ t,
    JavascriptVm.step assignsProcess dukSizes (Margo.loopback noName) (fun _ => .quiet) 10
      (fun _ => none) (some freshDuk) (.execute (text "process = 1") []) = some t ∧
    (JavascriptVm.execute assignsProcess dukSizes (Margo.loopback noName) (fun _ => .quiet) 10
      (text "0") [] t).1 = .raised := by
  have hraised : (JavascriptVm.step assignsProcess dukSizes (Margo.loopback noName)
      (fun _ => .quiet) 10 (fun _ => none) (some freshDuk)
      (.execute (text "process = 1") [])).map (fun t =>
        (JavascriptVm.execute assignsProcess dukSizes (Margo.loopback noName) (fun _ => .quiet) 10
          (text "0") [] t).1.isRaised) = some true := by
    decide +kernel
  obtain ⟨t, hstep, hresult⟩ := Option.map_eq_some_iff.mp hraised
  exact ⟨t, hstep, Outcome.isRaised_iff.mp hresult⟩

/-- A script sets `process` to 1 and the next one ends the process; a Ruby script returns a
string with a NUL byte. -/
theorem noVmError_fails :
    ((¬ ∀ ops, Always (JavascriptVm.step assignsProcess dukSizes (Margo.loopback noName)
        (fun _ => .quiet) 10 fun _ => none) (· ≠ none) (some freshDuk) ops) ∧
      (JavascriptVm.step assignsProcess dukSizes (Margo.loopback noName) (fun _ => .quiet) 10
          (fun _ => none) (some freshDuk) (.execute (text "process = 1") [])).map
        (fun t => (JavascriptVm.execute assignsProcess dukSizes (Margo.loopback noName)
          (fun _ => .quiet) 10 (text "0") [] t).1) = some .raised) ∧
    (¬ ∀ ops, Always (RubyVm.step returnsNul (Margo.loopback noName) (fun _ => .quiet) 10
        fun _ => none) (· ≠ none) (some ((), noViews)) ops) ∧
      (RubyVm.execute returnsNul (Margo.loopback noName) (fun _ => .quiet) 10 (text "s") []
        ((), noViews)).1 = .raised := by
  obtain ⟨t, hstep, hraised⟩ := process_assigned
  refine ⟨⟨fun h => ?_, ?_⟩, fun h => ?_, rfl⟩
  · have hsecond := h [.execute (text "process = 1") [], .execute (text "0") []]
      [.execute (text "process = 1") [], .execute (text "0") []] [] (List.append_nil _).symm
    rw [Runs.run, List.foldl_cons, hstep] at hsecond
    exact Prog.not_returns_of_raised hraised (Prog.after_ne_none_iff.mp hsecond)
  · rw [hstep, Option.map_some, hraised]
  · have hfirst := h [.execute (text "s") []] [.execute (text "s") []] []
      (List.append_nil _).symm
    exact hfirst rfl

end Poesie
