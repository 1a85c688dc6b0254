import Poesie.JavascriptFunctions
import Poesie.Jx9Install
import Poesie.Unprotected

set_option autoImplicit false

/-! # The last installation wins

In a run of installations and scripts each script is to be started, and to see under each name the
function that was installed last. The backends meet that under conditions of their own.
-/

namespace Poesie

open Wire Json SharedPtr Outcomes Registries Runs

/-- A function that takes `nargs` arguments and returns null. -/
def returnsNull (nargs : UInt64) : FunctionHolder := ⟨fun _ => .ok null, nargs⟩

/-- Globals without entries, and without metamethod. -/
def emptyLua : LuaGlobals := ⟨fun _ => none, none⟩

def emptyPython : PythonNamespace := ⟨fun _ => none, true, true⟩

def emptyRuby : RubyKernel := ⟨fun _ => none, fun _ => none, fun _ => false, false, false⟩

/-- A Jx9 backend without functions. -/
def emptyJx9 : Jx9State := ⟨[], object [], [], noViews⟩

/-- Engines without metamethods. -/
def noMetamethods : LuaMetamethods := fun _ _ _ _ => none

namespace JavascriptVm

open DukStack

/-- A backend on a VM without scripts. -/
def emptyJavascript : JavascriptState := withoutFunctions freshDuk

/-- What a script without a result leaves. -/
theorem gives_evalCode_undefined {h : DukHost} {z : DukSizes} {code : Bytes} {t : DukThread}
    (hcode : ∀ w, h.eval code w = (.ok .undefined, w)) (hroom : t.Room (z.room .eval))
    (depth : Nat) :
    (evalCode h z (depth + 1) code).Gives t { value := null } t := by
  have heval : (pevalLstring h z code).Gives t false
      { t with stack := t.stack ++ [DukItem.value .undefined] } := by
    have hneed : (needFor z fun _ => .eval).Gives t () t := if_pos hroom
    refine Prog.gives_bind_iff.mpr ⟨(), t, hneed, ?_⟩
    unfold Prog.Gives safeCall
    simp only [Nat.zero_le, if_true, Nat.sub_zero, List.take_length, hcode]
  have hread : (DukStack.dukValueToJSON h.toDukCode z (depth + 1) (-1)).Gives
      { t with stack := t.stack ++ [DukItem.value .undefined] } null
      { t with stack := t.stack ++ [DukItem.value .undefined] } := by
    unfold DukStack.dukValueToJSON
    exact Prog.gives_bind_iff.mpr ⟨_, _, gives_itemAt_top rfl, rfl⟩
  refine Prog.gives_bind_iff.mpr ⟨false, _, heval, ?_⟩
  refine Prog.gives_bind_iff.mpr ⟨_, _, Prog.gives_bind_iff.mpr ⟨_, _, hread, rfl⟩, ?_⟩
  exact Prog.gives_bind_iff.mpr ⟨(), _, gives_pop t.stack [_] rfl rfl, rfl⟩

/-- A script that does nothing leaves in place what is installed, and a VM for the next one. -/
theorem leaving_of_undefined {h : DukHost} {z : DukSizes} {m : Margo} {env : ViewId → Env}
    {code : Bytes} {s : JavascriptState} (hs : Ready z s)
    (hcode : ∀ w, h.eval code w = (.ok .undefined, w)) (depth : Nat)
    (latest : Bytes → Option FunctionHolder) :
    Leaving h z m env (depth + 1) s (code, []) ∧
      Leaves (functions h z m env (depth + 1)) Holds latest s (code, []) := by
  obtain ⟨heap, hargv, hsettable, hkeeps⟩ := gives_setArgv (h := h) m env hs.settable hs.room
  have hroom : DukThread.Room ⟨(heap, s.thread.world.2), s.thread.stack⟩ (argvNeed z) := by
    have hroom := hs.room
    unfold DukThread.Room at hroom ⊢
    show _ ≤ heap.limit
    rw [hkeeps.limit]
    exact hroom
  have heval := gives_evalCode_undefined hcode
    (t := ⟨(heap, s.thread.world.2), s.thread.stack⟩) (z := z) (by
      unfold DukThread.Room argvNeed at hroom
      unfold DukThread.Room
      omega) depth
  have hgives : (execute h z m env (depth + 1) code []).Gives s.thread { value := null }
      ⟨(heap, s.thread.world.2), s.thread.stack⟩ :=
    Prog.gives_bind_iff.mpr ⟨(), _, hargv, heval⟩
  have hafter := Prog.after_of_gives hgives
  refine ⟨⟨(returns_execute_iff code []).mp ⟨_, _, hgives⟩, fun t ht => ?_⟩, ?_⟩
  · obtain rfl := Option.some.inj (hafter.symm.trans ht)
    exact ⟨hsettable, hroom⟩
  · rintro name holder - ⟨f, p, hf, hholder⟩ s' hs'
    obtain ⟨t, ht, rfl⟩ := Option.map_eq_some_iff.mp hs'
    obtain rfl := Option.some.inj (hafter.symm.trans ht)
    exact ⟨f, p, hf.keeps hkeeps, hholder⟩

theorem sound_freshDuk : freshDuk.world.1.Sound where
  globalObject := by decide
  chains p hp := by
    show p < 3
    have hmem : p = 0 ∨ p = 1 := by
      simp [freshDuk, builtins] at hp
      omega
    omega
  objects o := by
    show (Function.update builtins.objects 2 _ o).Fits 3
    by_cases hglobal : o = 2
    · rw [hglobal, Function.update_self]
      exact ⟨fun e he => absurd he List.not_mem_nil, by simp⟩
    · rw [Function.update_of_ne hglobal]
      simp only [builtins]
      split
      · refine ⟨fun e he v writable hslot => ?_, by simp⟩
        rw [List.mem_singleton.mp he] at hslot
        cases hslot
      · refine ⟨fun e he v writable hslot => ?_, by simp⟩
        rw [List.mem_singleton.mp he] at hslot
        cases hslot
        trivial

theorem ready_emptyJavascript : Ready dukSizes emptyJavascript where
  settable :=
    { sound := sound_freshDuk
      proxy := rfl
      process := .inr ⟨by decide +kernel, ⟨rfl, by decide +kernel⟩, .inl (by decide +kernel)⟩
      elements := .inl (by decide +kernel) }
  room := by
    show 0 + _ ≤ 112
    decide
  unused p hp := absurd rfl hp

/-- The backend of the sample, on functions that do nothing. -/
def sampleFunctions : Functions JavascriptState (Bytes × List Json) :=
  functions inertHost dukSizes (Margo.loopback noName) (fun _ => .quiet) 10

/-- What is said of the state that there is. -/
theorem of_map_decide {σ : Type} {o : Option σ} {P : σ → Prop} [DecidablePred P]
    (hmap : o.map (fun s => decide (P s)) = some true) {s : σ} (hs : o = some s) : P s := by
  rw [hs] at hmap
  exact of_decide_eq_true (Option.some.inj hmap)

theorem along_sample : Along (next sampleFunctions) (Fine sampleFunctions Holds Installable
    (Leaving inertHost dukSizes (Margo.loopback noName) (fun _ => .quiet) 10))
    (fresh emptyJavascript) [.install (text "f") (returnsNull 0), .execute (text "0", []),
      .install (text "g") (returnsNull 2), .install (text "process") (returnsNull 1)] := by
  have hf : Installable emptyJavascript (text "f") (returnsNull 0) := by decide +kernel
  refine ⟨?_, fun s hs => ?_, fun s hs => ?_, fun s hs => ?_, trivial⟩
  · rintro s ⟨⟩
    exact hf
  · have hrules : Rules sampleFunctions (Ready dukSizes) (fun _ => True) Holds Installable
        (Leaving inertHost dukSizes (Margo.loopback noName) (fun _ => .quiet) 10) := rules
    obtain ⟨s₁, hs₁, hready, -⟩ := hrules.install ready_emptyJavascript hf
    obtain rfl := Option.some.inj (hs₁.symm.trans hs)
    exact leaving_of_undefined hready (fun _ => rfl) 9 _
  · exact of_map_decide (P := fun s => Installable s (text "g") (returnsNull 2))
      (by decide +kernel) hs
  · exact of_map_decide (P := fun s => Installable s (text "process") (returnsNull 1))
      (by decide +kernel) hs

end JavascriptVm

/-- A script that does nothing leaves the globals as they are, but for `arg`. -/
theorem LuaVm.leaves_id {metamethods : LuaMetamethods} {g : LuaGlobals} (hg : Ready g)
    (latest : Bytes → Option FunctionHolder) :
    Leaving metamethods g id ∧ Leaves (functions metamethods) Holds latest g id := by
  have harg : setArg metamethods g = some _ := LuaGlobals.set_of_plain hg .other
  constructor
  · intro g' hg'
    obtain rfl := Option.some.inj (harg.symm.trans hg')
    exact LuaGlobals.Plain.update hg _ _
  · rintro name v - ⟨hname, hv⟩ g' hg'
    obtain ⟨g₁, hg₁, rfl⟩ := Option.map_eq_some_iff.mp hg'
    obtain rfl := Option.some.inj (harg.symm.trans hg₁)
    exact ⟨hname, (Function.update_of_ne hname _ _).trans hv⟩

theorem LuaVm.along_sample : Along (next (functions noMetamethods))
    (Fine (functions noMetamethods) Holds Installable (Leaving noMetamethods)) (fresh emptyLua)
    [.install (text "f") (returnsNull 0), .execute id, .install (text "g") (returnsNull 2),
      .install (text "f") (returnsNull 1)] := by
  have harg : text "f" ≠ text "arg" ∧ text "g" ≠ text "arg" := by decide
  refine ⟨?_, ?_, ?_, ?_, trivial⟩
  · rintro g ⟨⟩
    exact ⟨harg.1, .inl rfl⟩
  · rintro g ⟨⟩
    exact LuaVm.leaves_id (.inl rfl) _
  · rintro g ⟨⟩
    exact ⟨harg.2, .inl rfl⟩
  · rintro g ⟨⟩
    exact ⟨harg.1, .inl rfl⟩

theorem PythonVm.along_sample : Along (next functions)
    (Fine functions (fun s name v => s.globals name = some v) Nameable fun s script =>
      Ready (script s)) (fresh emptyPython)
    [.install (text "f") (returnsNull 0), .execute id, .install (text "g") (returnsNull 2),
      .install (text "f") (returnsNull 1)] := by
  have hf : Nameable emptyPython (text "f") (returnsNull 0) := ⟨by decide, by decide, by decide⟩
  have hg : 0 ∉ text "g" ∧ Utf8 (text "g") ∧ text "g" ≠ text "__builtins__" :=
    ⟨by decide, by decide, by decide⟩
  obtain ⟨s, hinstall, hready, -⟩ := rules.install ⟨rfl, rfl⟩ hf
  refine ⟨fun _ _ => hf, fun s' hs' => ?_, fun _ _ => hg, fun _ _ => hf, trivial⟩
  obtain rfl := Option.some.inj (hinstall.symm.trans hs')
  refine ⟨hready, fun name v _ hv s' hs' => ?_⟩
  have hkept : s = s' := by
    have hrun : (if s.argvSettable then some s else none) = some s' := hs'
    rw [if_pos hready.1] at hrun
    exact Option.some.inj hrun
  exact hkept ▸ hv

theorem RubyVm.along_sample : Along (next functions)
    (Fine functions Holds Definable fun k script => (script k).objectFrozen = false)
    (fresh emptyRuby) [.install (text "f") (returnsNull 0), .execute id,
      .install (text "g") (returnsNull 2), .install (text "f") (returnsNull 1)] := by
  have hnul : 0 ∉ text "f" ∧ 0 ∉ text "g" := by decide
  refine ⟨?_, ?_, ?_, ?_, trivial⟩
  · rintro k ⟨⟩
    exact ⟨hnul.1, rfl, rfl⟩
  · rintro k ⟨⟩
    exact ⟨rfl, fun name v _ hv k' hk' => Option.some.inj hk' ▸ hv⟩
  · rintro k ⟨⟩
    exact ⟨hnul.2, rfl, rfl⟩
  · rintro k ⟨⟩
    exact ⟨hnul.1, rfl, rfl⟩

/-- The name `f` is installed again with the function and the arity that it has. -/
theorem along_jx9_sample :
    Along (next (Jx9Vm.functions (Margo.loopback noName) fun _ => .quiet))
      (Fine (Jx9Vm.functions (Margo.loopback noName) fun _ => .quiet)
        (fun s name v => s.ffuncs.lookup name = some v) Jx9Vm.Installable fun _ _ => True)
      (fresh emptyJx9) [.install (text "f") (returnsNull 0), .execute ⟨Jx9Vm.returnsNull, [], []⟩,
      .install (text "g") (returnsNull 2), .install (text "f") (returnsNull 0)] := by
  have hplain : Jx9Vm.Plain (text "f") ∧ Jx9Vm.Plain (text "g") := by
    unfold Jx9Vm.Plain
    decide
  refine ⟨?_, ?_, ?_, ?_, trivial⟩
  · rintro s ⟨⟩
    exact ⟨hplain.1, fun f hf => absurd hf List.not_mem_nil⟩
  · rintro s -
    exact ⟨trivial, Jx9Vm.leaves _ _ _ s _⟩
  · rintro s ⟨⟩
    refine ⟨hplain.2, fun f hf hname => ?_⟩
    have hmem : f ∈ [(text "f", returnsNull 0)] := hf
    rw [List.mem_singleton.mp hmem] at hname
    exact absurd hname (by decide)
  · rintro s ⟨⟩
    refine ⟨hplain.1, fun f hf hname => ?_⟩
    have hmem : f ∈ [(text "f", returnsNull 0), (text "g", returnsNull 2)] := hf
    rcases List.mem_cons.mp hmem with rfl | hlast
    · rfl
    · rw [List.mem_singleton.mp hlast] at hname
      exact absurd hname (by decide)

end Poesie
