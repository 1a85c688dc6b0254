import Poesie.ForeignFunction
import Poesie.JsonNodes
import Poesie.Registry

set_option autoImplicit false

/-! # Functions that are installed in a VM

The Lua and the Python backend keep the functions that are installed as globals of the VM, the Ruby
backend in the method table of a module and in its class variables. Where a VM is asked for a C
string, a name ends at its first NUL byte.

Scripts may do what they want with the VM: what they leave behind can keep an installation from
being seen, and the next script from being started.
-/

namespace Poesie

open Wire Json Registries Runs

/-- A registry of foreign functions. -/
abbrev Functions (S P : Type) := Registry S P Bytes FunctionHolder

/-! ## Lua -/

/-- What a global is bound to. -/
inductive LuaGlobal where
  | foreign (holder : FunctionHolder)
  | other

/-- The table of the globals, with its metamethod `__newindex`. Metamethods are told apart by
numbers. -/
structure LuaGlobals where
  entries : Bytes → Option LuaGlobal
  newindex : Option Nat

/-- What a metamethod does with a key and a value; `none` if it raises an error. -/
abbrev LuaMetamethods := Nat → Bytes → LuaGlobal → LuaGlobals → Option LuaGlobals

namespace LuaGlobals

variable (metamethods : LuaMetamethods)

/-- An assignment to a global. The metamethod is asked for a key that is not there. -/
def set (key : Bytes) (v : LuaGlobal) (g : LuaGlobals) : Option LuaGlobals :=
  match g.entries key, g.newindex with
  | none, some f => metamethods f key v g
  | _, _ => some { g with entries := Function.update g.entries key (some v) }

/-- The metamethod is not asked. -/
def Plain (g : LuaGlobals) (key : Bytes) : Prop := g.newindex = none ∨ (g.entries key).isSome

variable {metamethods}

theorem set_of_plain {g : LuaGlobals} {key : Bytes} (h : g.Plain key) (v : LuaGlobal) :
    g.set metamethods key v =
      some { g with entries := Function.update g.entries key (some v) } := by
  unfold set
  rcases h with hnone | hsome
  · rw [hnone]
    cases g.entries key <;> rfl
  · obtain ⟨old, hold⟩ := Option.isSome_iff_exists.mp hsome
    rw [hold]

/-- A global that was set can be set again. -/
theorem Plain.update {g : LuaGlobals} {key : Bytes} (h : g.Plain key) (other : Bytes)
    (v : LuaGlobal) :
    Plain { g with entries := Function.update g.entries other (some v) } key := by
  rcases h with hnone | hsome
  · exact .inl hnone
  · right
    show (Function.update g.entries other (some v) key).isSome
    by_cases hkey : key = other
    · rw [hkey, Function.update_self]
      rfl
    · rw [Function.update_of_ne hkey]
      exact hsome

end LuaGlobals

namespace LuaVm

variable (metamethods : LuaMetamethods)

/-- `m_lua_state["arg"] = ..` -/
def setArg (g : LuaGlobals) : Option LuaGlobals := g.set metamethods (text "arg") .other

/-- `LuaVm::install` -/
def install (name : Bytes) (holder : FunctionHolder) (g : LuaGlobals) : Option LuaGlobals :=
  g.set metamethods name (.foreign holder)

/-- What a script finds under the name. -/
def sees (g : LuaGlobals) (name : Bytes) : Option FunctionHolder :=
  (setArg metamethods g).bind fun g => match g.entries name with
    | some (.foreign holder) => some holder
    | _ => none

/-- `LuaVm::execute` and `LuaVm::load`, with what the script does. -/
def functions : Functions LuaGlobals (LuaGlobals → LuaGlobals) where
  install := install metamethods
  execute script g := (setArg metamethods g).map script
  starts g := (setArg metamethods g).isSome
  sees := sees metamethods

/-- The global is a foreign function. -/
def Holds (g : LuaGlobals) (name : Bytes) (holder : FunctionHolder) : Prop :=
  name ≠ text "arg" ∧ g.entries name = some (.foreign holder)

/-- Nothing keeps `arg` from being set. -/
def Ready (g : LuaGlobals) : Prop := g.Plain (text "arg")

/-- Nothing keeps the global from being set, and no script will set it to its arguments. -/
def Installable (g : LuaGlobals) (name : Bytes) (_ : FunctionHolder) : Prop :=
  name ≠ text "arg" ∧ g.Plain name

/-- The script leaves `arg` to be set again. -/
def Leaving (g : LuaGlobals) (script : LuaGlobals → LuaGlobals) : Prop :=
  ∀ g', setArg metamethods g = some g' → Ready (script g')

theorem rules : Rules (functions metamethods) Ready (fun _ => True) Holds Installable
    (Leaving metamethods) where
  starts {g} hg := by
    show (g.set metamethods (text "arg") .other).isSome
    rw [LuaGlobals.set_of_plain hg]
    rfl
  sees {g name v} hg hname := by
    show sees metamethods g name = some v
    rw [sees, setArg, LuaGlobals.set_of_plain hg, Option.bind_some]
    dsimp only
    rw [Function.update_of_ne hname.1, hname.2]
  named _ := trivial
  install {g name v} hg hname := by
    refine ⟨_, LuaGlobals.set_of_plain hname.2 (.foreign v), hg.update name _, ?_, ?_⟩
    · exact ⟨hname.1, Function.update_self name _ _⟩
    · intro other w _ hother hw
      exact ⟨hw.1, (Function.update_of_ne hother _ _).trans hw.2⟩
  execute {g script} hg hscript := by
    have harg : setArg metamethods g = some _ := LuaGlobals.set_of_plain hg .other
    refine ⟨_, ?_, hscript _ harg⟩
    show (setArg metamethods g).map script = _
    rw [harg]
    rfl

end LuaVm

/-! ## Python -/

/-- The namespace of `__main__`, and the state of the interpreter. -/
structure PythonNamespace where
  /-- The foreign function that a name is bound to, if it is bound to one. -/
  globals : Bytes → Option FunctionHolder
  /-- Scripts find the built-in functions. -/
  builtins : Bool
  /-- `sys` can be imported, and its `argv` can be set. -/
  argvSettable : Bool

namespace PythonVm

/-- `m_main_namespace[name.data()] = ..`, for a name that can be decoded. The built-in functions
are looked up in `__builtins__`. -/
def installGlobal (name : Bytes) (holder : FunctionHolder) (s : PythonNamespace) :
    Option PythonNamespace :=
  if Utf8 (cString name) then
    some { s with
      globals := Function.update s.globals (cString name) (some holder)
      builtins := s.builtins && cString name != text "__builtins__" }
  else none

/-- `PythonVm::execute` and `PythonVm::load`, with what the script does. -/
def functions : Functions PythonNamespace (PythonNamespace → PythonNamespace) where
  install := installGlobal
  execute script s := if s.argvSettable then some (script s) else none
  starts s := s.argvSettable = true ∧ s.builtins = true
  sees s name := s.globals name

/-- A script can be run. -/
def Ready (s : PythonNamespace) : Prop := s.argvSettable = true ∧ s.builtins = true

/-- The name is text without a NUL byte, and not where the built-in functions are. -/
def Nameable (_ : PythonNamespace) (name : Bytes) (_ : FunctionHolder) : Prop :=
  0 ∉ name ∧ Utf8 name ∧ name ≠ text "__builtins__"

theorem rules : Rules functions Ready (fun _ => True) (fun s name v => s.globals name = some v)
    Nameable fun s script => Ready (script s) where
  starts hs := hs
  sees _ hname := hname
  named _ := trivial
  install {s name v} hs hname := by
    obtain ⟨hnul, hutf8, hbuiltins⟩ := hname
    refine ⟨{ s with globals := Function.update s.globals name (some v) }, ?_, hs,
      Function.update_self name _ _, fun other w _ hother hw => ?_⟩
    · have hkept : (s.builtins && name != text "__builtins__") = s.builtins := by
        rw [bne_iff_ne.mpr hbuiltins, Bool.and_true]
      show installGlobal name v s = _
      rw [installGlobal, cString_of_notMem hnul, if_pos hutf8, hkept]
    · exact (Function.update_of_ne hother _ _).trans hw
  execute {s script} hs hscript := by
    refine ⟨script s, ?_, hscript⟩
    show (if s.argvSettable then some (script s) else none) = _
    rw [if_pos hs.1]

end PythonVm

/-! ## Ruby -/

/-- The module `Kernel`: its class variables that hold foreign functions, and its methods that
are the resolver, each with the number of its arguments. -/
structure RubyKernel where
  classVariables : Bytes → Option ForeignFn
  methods : Bytes → Option UInt64
  /-- Methods that `main` has before those of `Kernel`: of `Object`, or of its own. -/
  shadowed : Bytes → Bool
  kernelFrozen : Bool
  objectFrozen : Bool

namespace RubyVm

/-- `make_iv_name` -/
def make_iv_name (name : Bytes) : Bytes := text "__" ++ name ++ text "__"

/-- `RubyVm::install`. On a frozen module it raises an error, which nothing catches. -/
def install (name : Bytes) (holder : FunctionHolder) (k : RubyKernel) : Option RubyKernel :=
  if k.kernelFrozen then none
  else some { k with
    classVariables :=
      Function.update k.classVariables (make_iv_name (cString name)) (some holder.func)
    methods := Function.update k.methods (cString name) (some holder.expectedArgs) }

/-- What the resolver finds for the name it was called under. -/
def resolve (k : RubyKernel) (name : Bytes) : Option FunctionHolder :=
  match k.methods name, k.classVariables (make_iv_name (cString name)) with
  | some nargs, some func => some ⟨func, nargs⟩
  | _, _ => none

/-- `RubyVm::execute` and `RubyVm::load`, with what the script does. The constant `ARGV` of `Object`
is set before. -/
def functions : Functions RubyKernel (RubyKernel → RubyKernel) where
  install := install
  execute script k := if k.objectFrozen then none else some (script k)
  starts k := k.objectFrozen = false
  sees k name := if k.shadowed name then none else resolve k name

/-- The method is the resolver, and finds the function. -/
structure Holds (k : RubyKernel) (name : Bytes) (holder : FunctionHolder) : Prop where
  found : resolve k name = some holder
  notShadowed : k.shadowed name = false

/-- The name has no NUL byte, and what is defined under it is seen. -/
structure Definable (k : RubyKernel) (name : Bytes) (_ : FunctionHolder) : Prop where
  noNul : 0 ∉ name
  notShadowed : k.shadowed name = false
  notFrozen : k.kernelFrozen = false

/-- Two names never share a class variable. -/
theorem make_iv_name_injective {a b : Bytes} (h : make_iv_name a = make_iv_name b) : a = b := by
  unfold make_iv_name at h
  rw [List.append_left_inj, List.append_right_inj] at h
  exact h

theorem rules : Rules functions (fun k => k.objectFrozen = false) (fun name => 0 ∉ name) Holds
    Definable fun k script => (script k).objectFrozen = false where
  starts hk := hk
  sees {k name v} _ hname := by
    show (if k.shadowed name then none else resolve k name) = some v
    rw [hname.notShadowed, if_neg (by decide)]
    exact hname.found
  named h := h.noNul
  install {k name v} hk hname := by
    refine ⟨{ k with
      classVariables := Function.update k.classVariables (make_iv_name name) (some v.func)
      methods := Function.update k.methods name (some v.expectedArgs) }, ?_, hk, ?_, ?_⟩
    · show install name v k = _
      rw [install, hname.notFrozen, if_neg (by decide), cString_of_notMem hname.noNul]
    · refine ⟨?_, hname.notShadowed⟩
      rw [resolve, cString_of_notMem hname.noNul]
      dsimp only
      rw [Function.update_self, Function.update_self]
    · -- other names have other class variables
      intro other w hnul hother hw
      have hvariable : make_iv_name other ≠ make_iv_name name :=
        fun h => hother (make_iv_name_injective h)
      refine ⟨?_, hw.notShadowed⟩
      rw [resolve, cString_of_notMem hnul]
      dsimp only
      rw [Function.update_of_ne hother, Function.update_of_ne hvariable]
      have hfound := hw.found
      rw [resolve, cString_of_notMem hnul] at hfound
      exact hfound
  execute {k script} hk hscript := by
    refine ⟨script k, ?_, hscript⟩
    show (if k.objectFrozen then none else some (script k)) = _
    rw [hk]
    rfl

end RubyVm

end Poesie
