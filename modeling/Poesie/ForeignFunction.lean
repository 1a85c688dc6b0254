import Poesie.Lifetime

set_option autoImplicit false

/-! # Calls to foreign functions

`install` makes a C++ function callable from the scripts of a VM, for a number of arguments.
Each backend binds it in its own way: Lua and Python compare the numbers and throw, which sol2
and pybind11 turn into an error of the script; the JavaScript binding compares a stack that
Duktape has already padded or cut; the Jx9 binding returns a code that the interpreter ignores;
the Ruby binding does not compare at all.

The converters between VM values and JSON are parameters (`Converters`): which arguments a
function receives does not depend on what they do.
-/

namespace Poesie

open Wire Json

/-- `ForeignFn` -/
abbrev ForeignFn : Type := List Json → Except CppException Json

/-- `std::exception::what` -/
def CppException.what : CppException → Bytes
  | poesie what | thallium what | json what | sol what | errorAlreadySet what | std what => what

/-- The values of a VM. -/
structure Converters (V : Type) where
  toJson : V → Except CppException Json
  ofJson : Json → Except CppException V
  /-- `undefined`, `nil` or `null` -/
  nil : V

/-- The arguments of a call. VMs count them with an `int`. -/
structure Arguments (V : Type) where
  values : List V
  fits : values.length < 2 ^ 31

/-- How a call ends for the script. A C++ exception that no binding translates passes through
the VM. -/
inductive Seen (V : Type) where
  | value (v : V)
  | error (what : Bytes)
  | unwound (e : CppException)
  deriving DecidableEq, Repr

/-- A call: what the C++ function received, if it ran, and what the script saw. -/
structure Called (V : Type) where
  received : Option (List Json)
  seen : Seen V

section

variable {V : Type} (c : Converters V)

/-- What all bindings do once they are content with the number of arguments. -/
def callForeign (f : ForeignFn) (args : List V) : Called V :=
  match args.mapM c.toJson with
  | .error e => ⟨none, .unwound e⟩
  | .ok jargs =>
      match f jargs with
      | .error e => ⟨some jargs, .unwound e⟩
      | .ok result =>
          match c.ofJson result with
          | .error e => ⟨some jargs, .unwound e⟩
          | .ok v => ⟨some jargs, .value v⟩

/-- sol2 and pybind11 make an error of the script out of an exception. -/
def Called.translated (called : Called V) : Called V :=
  match called.seen with
  | .unwound e => { called with seen := .error e.what }
  | _ => called

/-- `FunctionHolder`, of the JavaScript and the Jx9 backend. -/
structure FunctionHolder where
  func : ForeignFn
  expectedArgs : UInt64

/-! ## The bindings -/

namespace LuaVm

/-- The function that `LuaVm::install` stores under the name. -/
def binding (f : ForeignFn) (nargs : UInt64) (args : List V) : Called V :=
  Called.translated <|
    if args.length ≠ nargs.toNat then
      ⟨none, .unwound (.std (text "Invalid number of arguments passed to function."))⟩
    else callForeign c f (args.take nargs.toNat)

end LuaVm

namespace PythonVm

/-- The `py::cpp_function` that `PythonVm::install` stores under the name. -/
def binding (f : ForeignFn) (nargs : UInt64) (args : List V) : Called V :=
  Called.translated <|
    if nargs.toNat ≠ args.length then
      ⟨none, .unwound (.std (text "Invalid number of arguments"))⟩
    else callForeign c f args

end PythonVm

namespace RubyVm

/-- The resolver. It reads its arguments with the format `*`, and the number given to `install`
only reaches `MRB_ARGS_REQ`, which mruby does not enforce. -/
def resolver (f : ForeignFn) (args : List V) : Called V := callForeign c f args

end RubyVm

namespace Jx9Vm

def JX9_OK : Int := 0

def JX9_CTX_ERR : Int := 1

def JX9_ABORT : Int := -10

/-- What the instruction `OP_CALL` makes of the code and the value of a host function. -/
def opCall (rc : Int) (result : V) : Seen V :=
  if rc = JX9_ABORT then .error [] else .value result

/-- `Jx9Vm::FunctionHolder::binding`. The backend does not turn error reports on, so that
`jx9_context_throw_error` drops its message. -/
def binding (holder : FunctionHolder) (args : List V) : Called V :=
  if args.length ≠ holder.expectedArgs.toNat then ⟨none, opCall JX9_CTX_ERR c.nil⟩
  else
    let called := callForeign c holder.func args
    match called.seen with
    | .value v => { called with seen := opCall JX9_OK v }
    | _ => called

end Jx9Vm

namespace JavascriptVm

/-- `(duk_idx_t) n`: the low 32 bits, with a sign. -/
def dukIdx (n : UInt64) : Int :=
  let low : Nat := n.toNat % 2 ^ 32
  if low < 2 ^ 31 then (low : Int) else (low : Int) - (2 ^ 32 : Nat)

/-- The number of arguments of a function object. -/
inductive Nargs where
  | fixed (n : Nat)
  | varargs
  deriving DecidableEq, Repr

/-- `duk_push_c_function`; it raises an error for any other number. -/
def pushCFunction (nargs : Int) : Option Nargs :=
  if 0 ≤ nargs ∧ nargs < 0x7fff then some (.fixed nargs.toNat)
  else if nargs = -1 then some .varargs
  else none

/-- The value stack that a C function finds when a script calls it. -/
def Nargs.stack (undefined : V) : Nargs → List V → List V
  | fixed n, args => (args ++ List.replicate (n - args.length) undefined).take n
  | varargs, args => args

/-- `JavascriptVm::FunctionHolder::binding`. For `DUK_RET_ERROR`, Duktape throws an error. -/
def binding (holder : FunctionHolder) (stack : List V) : Called V :=
  if (stack.length : Int) ≠ dukIdx holder.expectedArgs then ⟨none, .error (text "error (rc -1)")⟩
  else callForeign c holder.func stack

end JavascriptVm

/-- `install`: what a script reaches under the name, unless the VM refuses the function. -/
def Vm.install (vm : Vm) (f : ForeignFn) (nargs : UInt64) : Option (List V → Called V) :=
  match vm with
  | javascript =>
      (JavascriptVm.pushCFunction (JavascriptVm.dukIdx nargs)).map fun n args =>
        JavascriptVm.binding c ⟨f, nargs⟩ (n.stack c.nil args)
  | lua => some (LuaVm.binding c f nargs)
  | python => some (PythonVm.binding c f nargs)
  | ruby => some (RubyVm.resolver c f)
  | jx9 => some (Jx9Vm.binding c ⟨f, nargs⟩)

/-! ## The arity -/

/-- The function runs only on as many arguments as were declared, all of them converted in
order; on any other number it does not run, and the script sees an error. -/
def ArityKept (nargs : UInt64) (args : List V) (called : Called V) : Prop :=
  (∀ jargs, called.received = some jargs →
    args.length = nargs.toNat ∧ args.mapM c.toJson = .ok jargs) ∧
  (args.length ≠ nargs.toNat → called.received = none ∧ ∃ what, called.seen = .error what)

end

section

variable {V : Type} {c : Converters V} {f : ForeignFn} {nargs : UInt64} {args : List V}

theorem callForeign_received {jargs : List Json}
    (h : (callForeign c f args).received = some jargs) : args.mapM c.toJson = .ok jargs := by
  unfold callForeign at h
  cases hconv : args.mapM c.toJson with
  | error e => simp [hconv] at h
  | ok converted =>
      have hsame : converted = jargs := by
        cases hf : f converted with
        | error e => simpa [hconv, hf] using h
        | ok result => cases hr : c.ofJson result <;> simpa [hconv, hf, hr] using h
      rw [hsame]

/-- A call that is carried out never ends with an error of the script. -/
theorem callForeign_seen (what : Bytes) : (callForeign c f args).seen ≠ .error what := by
  unfold callForeign
  cases args.mapM c.toJson with
  | error e => simp
  | ok jargs =>
      cases hf : f jargs with
      | error e => simp [hf]
      | ok result => cases hr : c.ofJson result <;> simp [hf, hr]

@[simp] theorem Called.received_translated (called : Called V) :
    called.translated.received = called.received := by
  unfold Called.translated
  cases called.seen <;> rfl

/-- A call that is carried out on the declared number of arguments. -/
theorem ArityKept.of_call (h : args.length = nargs.toNat) {called : Called V}
    (hcall : called.received = (callForeign c f args).received) :
    ArityKept c nargs args called :=
  ⟨fun _ hjargs => ⟨h, callForeign_received (hcall ▸ hjargs)⟩, fun hne => absurd h hne⟩

/-- A call that is refused. -/
theorem ArityKept.of_error {called : Called V} {what : Bytes} (h : called.received = none)
    (hseen : called.seen = .error what) : ArityKept c nargs args called :=
  ⟨fun jargs hjargs => absurd (h.symm.trans hjargs) (by simp), fun _ => ⟨h, what, hseen⟩⟩

/-- Without an error of the script, the arity is kept only by calls that keep to it. -/
theorem ArityKept.length {called : Called V} (h : ArityKept c nargs args called)
    (hseen : ∀ what, called.seen ≠ .error what) : args.length = nargs.toNat := by
  by_contra hne
  obtain ⟨-, what, hwhat⟩ := h.2 hne
  exact hseen what hwhat

/-- sol2 hands a refusal to the script. -/
theorem arityKept_lua (c : Converters V) (f : ForeignFn) (nargs : UInt64) (args : List V) :
    ArityKept c nargs args (LuaVm.binding c f nargs args) := by
  unfold LuaVm.binding
  by_cases h : args.length = nargs.toNat
  · rw [if_neg (not_not.mpr h), List.take_of_length_le h.le]
    exact .of_call h (Called.received_translated _)
  · rw [if_pos h]
    exact .of_error rfl rfl

/-- pybind11 hands a refusal to the script. -/
theorem arityKept_python (c : Converters V) (f : ForeignFn) (nargs : UInt64) (args : List V) :
    ArityKept c nargs args (PythonVm.binding c f nargs args) := by
  unfold PythonVm.binding
  by_cases h : args.length = nargs.toNat
  · rw [if_neg (not_not.mpr h.symm)]
    exact .of_call h (Called.received_translated _)
  · rw [if_pos (Ne.symm h)]
    exact .of_error rfl rfl

/-- The Ruby resolver runs the function on any number of arguments. -/
theorem arityKept_ruby :
    ArityKept c nargs args (RubyVm.resolver c f args) ↔ args.length = nargs.toNat :=
  ⟨fun h => h.length callForeign_seen, fun h => .of_call h rfl⟩

/-- The Jx9 binding does not run the function, but the script sees the value null. -/
theorem arityKept_jx9 :
    ArityKept c nargs args (Jx9Vm.binding c ⟨f, nargs⟩ args) ↔ args.length = nargs.toNat := by
  unfold Jx9Vm.binding
  by_cases h : args.length = nargs.toNat
  · -- `JX9_OK` changes nothing of what the call returned
    rw [if_neg (not_not.mpr h)]
    refine iff_of_true (.of_call (f := f) h ?_) h
    cases hseen : (callForeign c f args).seen <;> simp [hseen]
  · rw [if_pos h]
    refine iff_of_false (fun hkept => h (hkept.length fun what => ?_)) h
    simp [Jx9Vm.opCall, Jx9Vm.JX9_CTX_ERR, Jx9Vm.JX9_ABORT]

/-! ## The JavaScript stack -/

namespace JavascriptVm

/-- Duktape cuts or pads the arguments to the number of the function object. -/
theorem stack_fixed_length (undefined : V) (n : Nat) (args : List V) :
    ((Nargs.fixed n).stack undefined args).length = n := by
  simp [Nargs.stack]
  omega

theorem stack_fixed_self (undefined : V) (args : List V) :
    (Nargs.fixed args.length).stack undefined args = args := by
  simp [Nargs.stack]

/-- A number below the limit is fixed; any other is refused, or stands for any number. -/
theorem pushCFunction_dukIdx (n : UInt64) :
    (n.toNat % 2 ^ 32 < 0x7fff ∧ dukIdx n = (n.toNat % 2 ^ 32 : Nat) ∧
      pushCFunction (dukIdx n) = some (.fixed (n.toNat % 2 ^ 32))) ∨
    (0x7fff ≤ n.toNat % 2 ^ 32 ∧ (pushCFunction (dukIdx n) = none ∨
      dukIdx n = -1 ∧ pushCFunction (dukIdx n) = some .varargs)) := by
  have hlow : n.toNat % 2 ^ 32 < 2 ^ 32 := Nat.mod_lt _ (by decide)
  unfold dukIdx
  generalize n.toNat % 2 ^ 32 = low at hlow ⊢
  generalize hidx : (if low < 2 ^ 31 then (low : Int) else (low : Int) - (2 ^ 32 : Nat)) = idx
  by_cases hn : low < 0x7fff
  · have hsmall : idx = low := by
      rw [← hidx, if_pos (by omega)]
    refine .inl ⟨hn, hsmall, ?_⟩
    rw [hsmall, pushCFunction, if_pos (by omega), Int.toNat_natCast]
  · have hlarge : ¬ (0 ≤ idx ∧ idx < 0x7fff) := by
      rw [← hidx]
      split <;> omega
    refine .inr ⟨by omega, ?_⟩
    rw [pushCFunction, if_neg hlarge]
    by_cases hvar : idx = -1
    · exact .inr ⟨hvar, if_pos hvar⟩
    · exact .inl (if_neg hvar)

/-- The binding finds the number it expects, whatever the script passes. -/
theorem binding_fixed (c : Converters V) (f : ForeignFn) {n : UInt64} {k : Nat}
    (hk : dukIdx n = k) (args : List V) :
    binding c ⟨f, n⟩ ((Nargs.fixed k).stack c.nil args)
      = callForeign c f ((Nargs.fixed k).stack c.nil args) := by
  rw [binding, stack_fixed_length, hk]
  exact if_neg (fun h => h rfl)

end JavascriptVm

open JavascriptVm in
theorem arityKept_javascript (hfits : args.length < 2 ^ 31) :
    (∀ g, Vm.javascript.install c f nargs = some g → ArityKept c nargs args (g args)) ↔
      args.length = nargs.toNat ∨ 0x7fff ≤ nargs.toNat % 2 ^ 32 := by
  unfold Vm.install
  rcases pushCFunction_dukIdx nargs with ⟨hsmall, hidx, hpush⟩ | ⟨hlarge, hpush | ⟨hidx, hpush⟩⟩
  · simp only [hpush, Option.map_some, Option.some.injEq, forall_eq', binding_fixed c f hidx]
    constructor
    · intro h
      exact .inl (h.length callForeign_seen)
    · rintro (h | h)
      · -- as many as declared: the stack is what the script passes
        have hn : nargs.toNat % 2 ^ 32 = args.length := by omega
        rw [hn, stack_fixed_self]
        exact .of_call h rfl
      · omega
  · rw [hpush]
    exact iff_of_true (fun g hg => by cases hg) (.inr hlarge)
  · -- the check compares with -1 and refuses every call
    refine iff_of_true (fun g hg => ?_) (.inr hlarge)
    rw [hpush, Option.map_some, Option.some.injEq] at hg
    subst hg
    have hrefused : binding c ⟨f, nargs⟩ (Nargs.varargs.stack c.nil args)
        = ⟨none, .error (text "error (rc -1)")⟩ := by
      rw [binding, hidx]
      exact if_pos (by omega)
    show ArityKept c nargs args (binding c ⟨f, nargs⟩ (Nargs.varargs.stack c.nil args))
    rw [hrefused]
    exact .of_error rfl rfl

end

/-- **Arity.** A call keeps to the declared number of arguments if and only if the backend is
Lua or Python, or the script passes that number, or Duktape has not fixed the number of the
function object. -/
theorem arityKept_iff {V : Type} (vm : Vm) (c : Converters V) (f : ForeignFn) (nargs : UInt64)
    (args : Arguments V) :
    (∀ g, vm.install c f nargs = some g → ArityKept c nargs args.values (g args.values)) ↔
      vm = .lua ∨ vm = .python ∨ args.values.length = nargs.toNat ∨
        (vm = .javascript ∧ 0x7fff ≤ nargs.toNat % 2 ^ 32) := by
  cases vm with
  | javascript => simpa using arityKept_javascript args.fits
  | lua => simp [Vm.install, arityKept_lua]
  | python => simp [Vm.install, arityKept_python]
  | ruby => simp [Vm.install, arityKept_ruby]
  | jx9 => simp [Vm.install, arityKept_jx9]

/-- A VM whose values are JSON. -/
def Converters.identity : Converters Json where
  toJson j := .ok j
  ofJson j := .ok j
  nil := null

/-- A Ruby script that passes one argument to a function of two has it run on the one. -/
theorem arityKept_fails :
    ¬ ∀ (vm : Vm) (c : Converters Json) (f : ForeignFn) (nargs : UInt64) (args : Arguments Json),
      ∀ g, vm.install c f nargs = some g → ArityKept c nargs args.values (g args.values) := by
  intro h
  have hkept := h .ruby .identity (fun args => .ok (array args)) 2 ⟨[boolean true], by decide⟩
    _ rfl
  obtain ⟨hlength, -⟩ := hkept.1 [boolean true] rfl
  exact absurd hlength (by decide)

end Poesie
