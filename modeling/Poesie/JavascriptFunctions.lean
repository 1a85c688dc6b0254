import Poesie.Install
import Poesie.JavascriptVm
import Poesie.PlainGlobals

set_option autoImplicit false

/-! # Installed functions in JavaScript

A function that is installed is a global with a pointer to a holder, and the map `m_ffuncs` keeps
the holder. A script sees the function as long as the global is the function object and the holder
is there.
-/

namespace Poesie

open Wire Json SharedPtr Outcomes Registries

namespace JavascriptVm

open DukStack

variable (h : DukHost) (z : DukSizes) (m : Margo) (env : ViewId → Env) (depth : Nat)

/-- The holder of a global, if it is a function with one. -/
def holderOf (heap : DukHeap) (name : Bytes) : Option Nat :=
  match heap.read heap.globalObject name with
  | .value (.object f) =>
      match heap.read f holderKey with
      | .value (.pointer p) => some p
      | _ => none
  | _ => none

/-- The VM when a script without arguments is about to run. -/
def started (s : JavascriptState) : Option DukThread := (setArgv h z m env []).after s.thread

/-- `JavascriptVm::execute` of a code with arguments; a script sees what the map of holders has. -/
def functions : Functions JavascriptState (Bytes × List Json) where
  install := install h z
  execute program s :=
    ((execute h z m env depth program.1 program.2).after s.thread).map fun t =>
      { s with thread := t }
  starts s := ∃ t, started h z m env s = some t ∧ t.Room (z.room .eval)
  sees s name := (started h z m env s).bind fun t =>
    (holderOf t.world.1 name).bind s.holders

/-- A script can be started without running any code before, and holders are made at pointers that
have not been used. -/
structure Ready (s : JavascriptState) : Prop where
  settable : s.thread.world.1.Settable
  room : s.thread.Room (argvNeed z)
  unused : ∀ p, s.holders p ≠ none → p < s.next

/-- The global is a function with this holder. -/
def Holds (s : JavascriptState) (name : Bytes) (holder : FunctionHolder) : Prop :=
  ∃ f p, s.thread.world.1.IsFunction name f p ∧ s.holders p = some holder

/-- The name is new and has no NUL byte, Duktape takes the number of arguments, and no code is run
when the global is set. -/
structure Installable (s : JavascriptState) (name : Bytes) (holder : FunctionHolder) : Prop where
  noNul : 0 ∉ name
  unnamed : ∀ f ∈ s.ffuncs, f.1 ≠ name
  nargs : (pushCFunction (dukIdx holder.expectedArgs)).isSome
  bindable : s.thread.world.1.Bindable name

instance (s : JavascriptState) (name : Bytes) (holder : FunctionHolder) :
    Decidable (Installable s name holder) :=
  decidable_of_iff (0 ∉ name ∧ (∀ f ∈ s.ffuncs, f.1 ≠ name) ∧
      (pushCFunction (dukIdx holder.expectedArgs)).isSome ∧ s.thread.world.1.Bindable name)
    ⟨fun hi => ⟨hi.1, hi.2.1, hi.2.2.1, hi.2.2.2⟩,
      fun hi => ⟨hi.noNul, hi.unnamed, hi.nargs, hi.bindable⟩⟩

/-- The execution ends with a result, and leaves a VM in which the next script can be started. -/
def Leaving (s : JavascriptState) (program : Bytes × List Json) : Prop :=
  Executable h z m env depth program.1 program.2 s.thread ∧
    ∀ t, (execute h z m env depth program.1 program.2).after s.thread = some t →
      t.world.1.Settable ∧ t.Room (argvNeed z)

variable {h z m env depth} {s : JavascriptState} {name : Bytes}

theorem holderOf_isFunction {heap : DukHeap} {f p : Nat} (hf : heap.IsFunction name f p) :
    holderOf heap name = some p := by
  obtain ⟨⟨w, e, hbound⟩, ⟨w', e', hholder⟩, -, -⟩ := hf
  rw [holderOf, DukHeap.read_of_lookup hbound]
  dsimp only
  rw [DukHeap.read_of_lookup hholder]

/-- What is there when the script is about to run. -/
theorem Ready.started (m : Margo) (env : ViewId → Env) (hs : Ready z s) : ∃ heap,
    started h z m env s = some ⟨(heap, s.thread.world.2), s.thread.stack⟩ ∧
      s.thread.world.1.KeepsBindings heap := by
  obtain ⟨heap, hgives, -, hkeeps⟩ := gives_setArgv (h := h) m env hs.settable hs.room
  exact ⟨heap, Prog.after_of_gives hgives, hkeeps⟩

theorem Ready.starts (hs : Ready z s) : (functions h z m env depth).starts s := by
  obtain ⟨heap, hstarted, hkeeps⟩ := hs.started (h := h) m env
  refine ⟨_, hstarted, ?_⟩
  have hroom := hs.room
  unfold DukThread.Room argvNeed at hroom
  unfold DukThread.Room
  show _ ≤ heap.limit
  rw [hkeeps.limit]
  show s.thread.stack.length + _ ≤ _
  omega

theorem Holds.sees (hs : Ready z s) {holder : FunctionHolder} (hname : Holds s name holder) :
    (functions h z m env depth).sees s name = some holder := by
  obtain ⟨heap, hstarted, hkeeps⟩ := hs.started (h := h) m env
  obtain ⟨f, p, hf, hholder⟩ := hname
  show (JavascriptVm.started h z m env s).bind _ = some holder
  rw [hstarted, Option.bind_some]
  dsimp only
  rw [holderOf_isFunction (hf.keeps hkeeps), Option.bind_some, hholder]

/-- The state after a function was installed. -/
theorem install_of_installable (hs : Ready z s) {holder : FunctionHolder}
    (hname : Installable s name holder) :
    install h z name holder s = some ⟨⟨(s.thread.world.1.withFunction name s.next,
        s.thread.world.2), s.thread.stack⟩, s.ffuncs ++ [(name, s.next)],
      Function.update s.holders s.next (some holder), s.next + 1⟩ := by
  obtain ⟨hstores, hglobal, -⟩ := hname.bindable.allocFunction hs.settable.sound
  have hcstring : cString name = name := cString_of_notMem hname.noNul
  have hgives := gives_installFunction (h := h) (z := z) (t := s.thread) name s.next hname.nargs (by
      have hroom := hs.room
      unfold DukThread.Room argvNeed at hroom
      unfold DukThread.Room
      omega) hstores (by
      rw [hcstring]
      exact hglobal.store _ _ _)
  rw [hcstring] at hgives
  have hinserted := insertHolder_of_new (s := { s with
    thread := ⟨(s.thread.world.1.withFunction name s.next, s.thread.world.2), s.thread.stack⟩ })
    hname.unnamed holder
  rw [install, Prog.after_of_gives hgives, Option.map_some]
  exact congrArg some hinserted

theorem rules : Rules (functions h z m env depth) (Ready z) (fun _ => True) Holds Installable
    (Leaving h z m env depth) where
  starts hs := hs.starts
  sees hs hname := hname.sees hs
  named _ := trivial
  install {s name v} hs hname := by
    refine ⟨_, install_of_installable hs hname, ?_, ?_, ?_⟩
    · have hunused := unused_insertHolder hname.unnamed v hs.unused
      rw [insertHolder_of_new hname.unnamed] at hunused
      exact ⟨hs.settable.withFunction hname.bindable s.next, hs.room, hunused⟩
    · refine ⟨s.thread.world.1.next, s.next, ?_, Function.update_self ..⟩
      exact DukHeap.isFunction_new hs.settable.sound name s.next
    · rintro other w - hother ⟨f, p, hf, hholder⟩
      refine ⟨f, p, DukHeap.isFunction_old hs.settable.sound hother hf s.next, ?_⟩
      have hlt : p < s.next := by
        apply hs.unused p
        rw [hholder]
        exact Option.some_ne_none w
      exact (Function.update_of_ne (Nat.ne_of_lt hlt) _ _).trans hholder
  execute {s program} hs hprogram := by
    obtain ⟨hexecutable, hleft⟩ := hprogram
    obtain ⟨result, t, hgives⟩ := (returns_execute_iff program.1 program.2).mpr hexecutable
    have hafter := Prog.after_of_gives hgives
    refine ⟨{ s with thread := t }, ?_, (hleft t hafter).1, (hleft t hafter).2, hs.unused⟩
    show ((execute h z m env depth program.1 program.2).after s.thread).map _ = _
    rw [hafter]
    rfl

end JavascriptVm

end Poesie
