import Poesie.ConvProg
import Poesie.Jx9Vm

set_option autoImplicit false

/-! # The VM of an execution

`Jx9Vm::execute` compiles its script into a VM and has to release it. Each early return does so by
hand, with `jx9_vm_release` in front of it, but where an exception passes through nothing does. Here
the calls that are handed the VM are recorded. Nothing else is different from `Jx9Vm.execute`.
-/

namespace Poesie

open Wire Json SharedPtr Outcomes

namespace Jx9Vm

/-- The calls that are handed the VM. Those by which one JSON value is converted count as one. -/
inductive VmCall where
  | newValue
  | config
  | releaseValue
  | createFunction (name : Bytes)
  | exec
  | extractVariable
  | release
deriving DecidableEq

/-- Steps on a VM, with early returns. -/
abbrev OnVm (α : Type) : Type := ExceptT Bytes (ConvProg (List VmCall)) α

def vmCall (c : VmCall) : OnVm Unit := ExceptT.lift (onOwn fun calls => calls ++ [c])

/-- An early return with an error string. -/
def giveUp {α : Type} (message : Bytes) : OnVm α := do
  vmCall .release
  throw message

def requireOnVm (succeeded : Bool) (message : String) : OnVm Unit :=
  if succeeded then pure () else giveUp (text message)

/-- The loop over `m_ffuncs`. -/
def createFunctionsOnVm (created : Bytes → Bool) : List (Bytes × FunctionHolder) → Jx9Functions →
    OnVm Jx9Functions
  | [], functions => pure functions
  | (name, holder) :: rest, functions => do
      vmCall (.createFunction name)
      let trimmed := syStringFullTrim (cString name)
      if trimmed = [] || !created name then
        giveUp (text "Failed to install foreign function: " ++ name)
      else createFunctionsOnVm created rest (installForeignFunction trimmed holder functions)

section

variable (m : Margo) (env : ViewId → Env)

/-- `JSONtoJx9Value` -/
def convertOnVm (json : Json) : OnVm Jx9Value := do
  vmCall .newValue
  ExceptT.lift (inHeap (convert m env (JSONtoJx9Value jx9Api) json))

/-- The part of `execute` between `jx9_compile` and `jx9_vm_exec`. -/
def prepareOnVm (answers : Jx9Answers) (args : List Json) (s : Jx9State) (script : Jx9Script) :
    OnVm Ready := do
  let global ← convertOnVm m env s.global
  requireOnVm answers.globalCreated "Failed to create __global__ variable"
  vmCall .config
  vmCall .releaseValue
  requireOnVm answers.globalInstalled "Failed to install __global__ variable in JX9 VM"
  let argv ← convertOnVm m env (array (string (text "poesie") :: args))
  requireOnVm answers.argvCreated "Failed to create __argv__ variable"
  vmCall .config
  vmCall .releaseValue
  requireOnVm answers.argvInstalled "Failed to install __argv__ variable in JX9 VM"
  let functions ← createFunctionsOnVm answers.functionCreated s.ffuncs []
  pure ⟨script, functions, global, argv⟩

/-- `jx9_vm_exec` -/
def execOnVm (vm : Ready) : OnVm Jx9Exec := do
  vmCall .exec
  ExceptT.lift (inHeap fun created heap =>
    match vm.script vm.functions vm.global vm.argv heap with
    | (exec, heap) => (.ok exec, created, heap))

/-- What follows it: the value that is returned, and `m_global`. -/
def afterExec : Jx9Exec → OnVm (Json × Json)
  | .failed errorLog => giveUp (text "Failed to execute Jx9 code: " ++ errorLog)
  | .noValue => do
      vmCall .config
      giveUp (text "Could not extract return value from Jx9 VM")
  -- a C++ exception on its way up
  | .thrown e => ExceptT.lift (inHeap (Conv.lift (.error e)))
  | .finished ret global => do
      vmCall .config
      vmCall .extractVariable
      if global.isSome then vmCall .releaseValue
      vmCall .release
      pure (Jx9ValueToJSON ret, (global.map Jx9ValueToJSON).getD (object []))

def executeOnVm (answers : Jx9Answers) (args : List Json) (s : Jx9State) (script : Jx9Script) :
    OnVm (Json × Json) := do
  let vm ← prepareOnVm m env answers args s script
  let exec ← execOnVm vm
  afterExec exec

/-- What `execute` returns, and `m_global` behind it. -/
def resultOf (s : Jx9State) : Except Bytes (Json × Json) → Result Json × Json
  | .ok (value, global) => ({ value }, global)
  | .error message => (failed message, s.global)

/-- `Jx9Vm::execute` -/
def executeCalls (answers : Jx9Answers) (code : Bytes) (args : List Json) (s : Jx9State) :
    ConvProg (List VmCall) (Result Json × Json) := fun t =>
  match answers.compile (s.fullCode code) with
  | .error errorLog =>
      (.returned (resultOf s (.error (text "Failed to compile Jx9 code: " ++ errorLog))), t)
  | .ok script =>
      match ((executeOnVm m env answers args s script).run >>= fun r => pure (resultOf s r)) t with
      -- `createdViews` goes out of scope
      | (r, t) => (r, { t with heap := t.heap.releaseAll MemoryViewImpl.destroy t.created })

/-- Nothing has been created or called yet. -/
def unstarted (s : Jx9State) : Beside (List VmCall) := ⟨[], s.heap, []⟩

end

/-! ## The calls that are made -/

/-- The VM is there. -/
def InUse (calls : List VmCall) : Prop := .release ∉ calls

/-- The VM was released, and not used behind that. -/
def ReleasedOnce (calls : List VmCall) : Prop := ∃ uses, calls = uses ++ [.release] ∧ InUse uses

theorem ReleasedOnce.not_inUse {calls : List VmCall} (h : ReleasedOnce calls) : ¬ InUse calls := by
  obtain ⟨uses, rfl, -⟩ := h
  exact fun hin => hin (by simp)

/-- An early return has released the VM, and neither an exception nor getting stuck has. -/
def Fits {α : Type} (Q : List VmCall → Prop) :
    Outcome Fault (Except Bytes α) → List VmCall → Prop
  | .returned (.ok _), calls => Q calls
  | .returned (.error _), calls => ReleasedOnce calls
  | _, calls => InUse calls

/-- Steps that start with a VM in use. -/
def Careful {α : Type} (Q : List VmCall → Prop) (x : OnVm α) : Prop :=
  ∀ t, InUse t.own → Fits Q (x.run t).1 (x.run t).2.own

namespace Careful

variable {α β : Type} {Q : List VmCall → Prop}

theorem pure (a : α) : Careful InUse (Pure.pure a : OnVm α) := fun _ h => h

theorem bind {x : OnVm α} {y : α → OnVm β} (hx : Careful InUse x) (hy : ∀ a, Careful Q (y a)) :
    Careful Q (x >>= y) := by
  intro t ht
  have hfirst := hx t ht
  have hrun : (x >>= y).run t = (x.run >>= ExceptT.bindCont y) t := rfl
  rw [hrun]
  simp only [Bind.bind]
  rcases hx : x.run t with ⟨r, t₁⟩
  rw [hx] at hfirst
  cases r with
  | returned r =>
      cases r with
      | ok a => exact hy a t₁ hfirst
      | error message => exact hfirst
  | raised | thrown e | stuck => exact hfirst

theorem vmCall {c : VmCall} (hc : c ≠ .release) : Careful InUse (vmCall c) := by
  intro t ht hmem
  rcases List.mem_append.mp hmem with hold | hnew
  · exact ht hold
  · exact hc (List.mem_singleton.mp hnew).symm

theorem release : Careful ReleasedOnce (Jx9Vm.vmCall .release) := fun t ht => ⟨t.own, rfl, ht⟩

theorem giveUp (message : Bytes) : Careful Q (giveUp message : OnVm α) := fun t ht =>
  ⟨t.own, rfl, ht⟩

theorem lift (f : Conv α) : Careful InUse (ExceptT.lift (inHeap f) : OnVm α) := by
  intro t ht
  have hrun : (ExceptT.lift (inHeap f) : OnVm α).run t =
      ((inHeap f : ConvProg (List VmCall) α) >>= fun a => Pure.pure (.ok a)) t := rfl
  rw [hrun]
  rcases hf : f t.created t.heap with ⟨fault | a, created, heap⟩
  all_goals
    simp only [Bind.bind, inHeap, hf, outcomeOf]
    exact ht

theorem requireOnVm (succeeded : Bool) (message : String) :
    Careful InUse (requireOnVm succeeded message) := by
  unfold Jx9Vm.requireOnVm
  split
  · exact .pure ()
  · exact .giveUp _

theorem createFunctionsOnVm (created : Bytes → Bool) (ffuncs : List (Bytes × FunctionHolder))
    (functions : Jx9Functions) : Careful InUse (createFunctionsOnVm created ffuncs functions) := by
  induction ffuncs generalizing functions with
  | nil => exact .pure functions
  | cons f rest ih =>
      refine (Careful.vmCall (by simp)).bind fun _ => ?_
      dsimp only
      split
      · exact .giveUp _
      · exact ih _

variable {m : Margo} {env : ViewId → Env}

theorem convertOnVm (json : Json) : Careful InUse (convertOnVm m env json) :=
  (Careful.vmCall (by simp)).bind fun _ => .lift _

/-- On every way to the script the VM is there, and on every early return it is released. -/
theorem prepareOnVm (answers : Jx9Answers) (args : List Json) (s : Jx9State)
    (script : Jx9Script) : Careful InUse (prepareOnVm m env answers args s script) := by
  refine (Careful.convertOnVm _).bind fun _ => (Careful.requireOnVm _ _).bind fun _ => ?_
  refine (Careful.vmCall (by simp)).bind fun _ => (Careful.vmCall (by simp)).bind fun _ => ?_
  refine (Careful.requireOnVm _ _).bind fun _ => (Careful.convertOnVm _).bind fun _ => ?_
  refine (Careful.requireOnVm _ _).bind fun _ => (Careful.vmCall (by simp)).bind fun _ => ?_
  refine (Careful.vmCall (by simp)).bind fun _ => (Careful.requireOnVm _ _).bind fun _ => ?_
  exact (Careful.createFunctionsOnVm _ _ _).bind fun _ => .pure _

/-- Behind the script only an exception misses the release. -/
theorem afterExec (exec : Jx9Exec) : Careful ReleasedOnce (afterExec exec) := by
  cases exec with
  | failed errorLog => exact .giveUp _
  | noValue => exact (Careful.vmCall (by simp)).bind fun _ => .giveUp _
  | thrown e => exact fun t ht => ht
  | finished ret global =>
      refine (Careful.vmCall (by simp)).bind fun _ => (Careful.vmCall (by simp)).bind fun _ => ?_
      have hlast : Careful ReleasedOnce (do
          Jx9Vm.vmCall .release
          Pure.pure (Jx9ValueToJSON ret, (global.map Jx9ValueToJSON).getD (object []))) :=
        fun t ht => ⟨t.own, rfl, ht⟩
      cases global with
      | none => exact hlast
      | some v => exact (Careful.vmCall (by simp)).bind fun _ => hlast

theorem executeOnVm (answers : Jx9Answers) (args : List Json) (s : Jx9State)
    (script : Jx9Script) : Careful ReleasedOnce (executeOnVm m env answers args s script) :=
  (Careful.prepareOnVm answers args s script).bind fun _ =>
    ((Careful.vmCall (by simp)).bind fun _ => .lift _).bind fun exec => .afterExec exec

end Careful

/-! ## The way through -/

section

variable {m : Margo} {env : ViewId → Env} {α β : Type}

/-- The same with early returns. -/
theorem follows_bind {x : OnVm α} {y : α → OnVm β} {f : ExceptT Bytes Conv α}
    {g : α → ExceptT Bytes Conv β} (hx : Follows x.run f.run)
    (hy : ∀ a, Follows (y a).run (g a).run) : Follows (x >>= y).run (f >>= g).run := by
  refine Follows.bind hx fun r => ?_
  cases r with
  | ok a => exact hy a
  | error message => exact .pure _

theorem follows_vmCall {c : VmCall} {y : OnVm α} {f : ExceptT Bytes Conv α}
    (hy : Follows y.run f.run) : Follows (vmCall c >>= fun _ => y).run f.run :=
  Follows.skip (x := (vmCall c).run) (y := ExceptT.bindCont fun _ => y) (a := Except.ok ())
    (fun t => ⟨t.own ++ [c], rfl⟩) hy

theorem follows_giveUp (message : Bytes) :
    Follows (giveUp message : OnVm α).run (throw message : ExceptT Bytes Conv α).run :=
  follows_vmCall (.pure _)

theorem follows_requireOnVm (succeeded : Bool) (message : String) :
    Follows (requireOnVm succeeded message).run (require succeeded message).run := by
  cases succeeded with
  | true => exact .pure _
  | false => exact follows_giveUp _

theorem follows_lift (f : Conv α) :
    Follows (ExceptT.lift (inHeap f) : OnVm α).run (ExceptT.lift f : ExceptT Bytes Conv α).run := by
  have h : Follows (inHeap f >>= fun a => pure (.ok a) : ConvProg (List VmCall) (Except Bytes α))
      (f >>= fun a => pure (Except.ok a)) := (Follows.inHeap f).bind fun a => .pure (Except.ok a)
  exact h

theorem follows_convertOnVm (json : Json) : Follows (convertOnVm m env json).run
    (ExceptT.lift (convert m env (JSONtoJx9Value jx9Api) json) : ExceptT Bytes Conv Jx9Value).run :=
  follows_vmCall (follows_lift _)

theorem follows_createFunctionsOnVm (created : Bytes → Bool)
    (ffuncs : List (Bytes × FunctionHolder)) (functions : Jx9Functions) :
    Follows (createFunctionsOnVm created ffuncs functions).run
      (orFail "Failed to install foreign function: "
        (createFunctions created ffuncs functions)).run := by
  induction ffuncs generalizing functions with
  | nil => exact .pure _
  | cons f rest ih =>
      refine follows_vmCall ?_
      rw [createFunctions]
      dsimp only
      split
      · exact follows_giveUp _
      · exact ih _

/-- `finish`, with early returns. -/
def finishing (exec : Jx9Exec) : ExceptT Bytes Conv (Json × Json) :=
  match exec with
  | .failed errorLog => throw (text "Failed to execute Jx9 code: " ++ errorLog)
  | .noValue => throw (text "Could not extract return value from Jx9 VM")
  | .thrown e => ExceptT.lift (Conv.lift (.error e))
  | .finished ret global =>
      pure (Jx9ValueToJSON ret, (global.map Jx9ValueToJSON).getD (object []))

/-- The script of a VM that is ready. -/
def running (vm : Ready) : Conv Jx9Exec := fun created heap =>
  (.ok (vm.script vm.functions vm.global vm.argv heap).1, created,
    (vm.script vm.functions vm.global vm.argv heap).2)

def runScript (vm : Ready) : ExceptT Bytes Conv (Json × Json) :=
  ExceptT.lift (running vm) >>= finishing

theorem follows_afterExec (exec : Jx9Exec) :
    Follows (afterExec exec).run (finishing exec).run := by
  cases exec with
  | failed errorLog => exact follows_giveUp _
  | noValue => exact follows_vmCall (follows_giveUp _)
  | thrown e => exact follows_lift _
  | finished ret global =>
      refine follows_vmCall (follows_vmCall ?_)
      cases global with
      | none => exact follows_vmCall (.pure _)
      | some v => exact follows_vmCall (follows_vmCall (.pure _))

theorem follows_prepareOnVm {answers : Jx9Answers} {code : Bytes} {args : List Json}
    {s : Jx9State} {script : Jx9Script}
    (hcompile : answers.compile (s.fullCode code) = .ok script) :
    Follows (prepareOnVm m env answers args s script).run
      (prepare m env answers code args s).run := by
  unfold prepare
  rw [hcompile]
  refine follows_bind (follows_convertOnVm _) fun _ => ?_
  refine follows_bind (follows_requireOnVm _ _) fun _ => follows_vmCall (follows_vmCall ?_)
  refine follows_bind (follows_requireOnVm _ _) fun _ => ?_
  refine follows_bind (follows_convertOnVm _) fun _ => ?_
  refine follows_bind (follows_requireOnVm _ _) fun _ => follows_vmCall (follows_vmCall ?_)
  refine follows_bind (follows_requireOnVm _ _) fun _ => ?_
  exact follows_bind (follows_createFunctionsOnVm _ _ _) fun _ => .pure _

/-- Apart from the calls, an execution on its VM is what it was. -/
theorem follows_executeOnVm {answers : Jx9Answers} {code : Bytes} {args : List Json}
    {s : Jx9State} {script : Jx9Script}
    (hcompile : answers.compile (s.fullCode code) = .ok script) :
    Follows (executeOnVm m env answers args s script).run
      (prepare m env answers code args s >>= runScript).run :=
  follows_bind (follows_prepareOnVm hcompile) fun _ =>
    follows_bind (follows_vmCall (follows_lift _)) follows_afterExec

/-! ## Exceptions -/

/-- These steps are left by an exception, or where a constructor reads outside of its bytes. -/
def Raises (f : ExceptT Bytes Conv α) (created : List ViewId) (heap : Heap) : Prop :=
  ∃ fault, (f.run created heap).1 = .error fault

section

variable {created : List ViewId} {heap : Heap}

theorem raises_bind_iff {f : ExceptT Bytes Conv α} {g : α → ExceptT Bytes Conv β} :
    Raises (f >>= g) created heap ↔ Raises f created heap ∨
      ∃ a created' heap', f.run created heap = (.ok (.ok a), created', heap') ∧
        Raises (g a) created' heap' := by
  have hbind : (f >>= g).run created heap = (f.run >>= ExceptT.bindCont g) created heap := rfl
  unfold Raises
  rw [hbind]
  rcases hf : f.run created heap with ⟨e | (message | a), created', heap'⟩
  · rw [Conv.bind_of_error hf]
    simp
  · rw [Conv.bind_of_ok hf]
    simp [ExceptT.bindCont, Pure.pure]
  · rw [Conv.bind_of_ok hf]
    simp [ExceptT.bindCont, ExceptT.run]

theorem raises_bind_assoc {γ : Type} {f : ExceptT Bytes Conv α} {g : α → ExceptT Bytes Conv β}
    {k : β → ExceptT Bytes Conv γ} :
    Raises ((f >>= g) >>= k) created heap ↔ Raises (f >>= fun a => g a >>= k) created heap := by
  simp only [raises_bind_iff, bind_eq_ok_iff]
  constructor
  · rintro ((hf | ⟨a, _, _, ha, hg⟩) | ⟨b, _, _, ⟨a, _, _, ha, hb⟩, hk⟩)
    · exact .inl hf
    · exact .inr ⟨a, _, _, ha, .inl hg⟩
    · exact .inr ⟨a, _, _, ha, .inr ⟨b, _, _, hb, hk⟩⟩
  · rintro (hf | ⟨a, _, _, ha, hg | ⟨b, _, _, hb, hk⟩⟩)
    · exact .inl (.inl hf)
    · exact .inl (.inr ⟨a, _, _, ha, hg⟩)
    · exact .inr ⟨b, _, _, ⟨a, _, _, ha, hb⟩, hk⟩

theorem raises_pure_bind (a : α) {g : α → ExceptT Bytes Conv β} :
    Raises (pure a >>= g) created heap ↔ Raises (g a) created heap := Iff.rfl

theorem raises_lift_bind {f : Conv α} {g : α → ExceptT Bytes Conv β} :
    Raises (ExceptT.lift f >>= g) created heap ↔
      (∃ fault, (f created heap).1 = .error fault) ∨
        ∃ a created' heap', f created heap = (.ok a, created', heap') ∧
          Raises (g a) created' heap' := by
  have hlift : (ExceptT.lift f : ExceptT Bytes Conv α).run created heap =
      (f >>= fun a => pure (.ok a)) created heap := rfl
  simp only [raises_bind_iff, lift_eq_ok_iff]
  refine or_congr_left ?_
  unfold Raises
  rw [hlift]
  rcases hf : f created heap with ⟨e | a, created', heap'⟩
  · rw [Conv.bind_of_error hf]
    simp
  · rw [Conv.bind_of_ok hf]
    simp [Pure.pure]

theorem raises_require_bind {succeeded : Bool} {message : String}
    {g : Unit → ExceptT Bytes Conv β} :
    Raises (require succeeded message >>= g) created heap ↔
      succeeded = true ∧ Raises (g ()) created heap := by
  cases succeeded with
  | true => exact (and_iff_right rfl).symm
  | false =>
      refine iff_of_false ?_ fun h => Bool.false_ne_true h.1
      rintro ⟨e, he⟩
      cases he

theorem raises_orFail_bind {message : String} {r : Except Bytes α}
    {g : α → ExceptT Bytes Conv β} :
    Raises (orFail message r >>= g) created heap ↔ ∃ a, r = .ok a ∧ Raises (g a) created heap := by
  cases r with
  | ok a =>
      constructor
      · exact fun h => ⟨a, rfl, h⟩
      · rintro ⟨b, hb, h⟩
        cases hb
        exact h
  | error what =>
      apply iff_of_false
      · rintro ⟨e, he⟩
        cases he
      · rintro ⟨a, ha, -⟩
        cases ha

theorem raises_finishing_iff (exec : Jx9Exec) :
    Raises (finishing exec) created heap ↔ ∃ e, exec = .thrown e := by
  cases exec with
  | thrown e => exact iff_of_true ⟨.thrown e, rfl⟩ ⟨e, rfl⟩
  | failed errorLog | noValue | finished ret global =>
      apply iff_of_false
      · rintro ⟨e, he⟩
        cases he
      · rintro ⟨e, he⟩
        cases he

theorem raises_runScript_iff {vm : Ready} :
    Raises (runScript vm) created heap ↔
      ∃ e, (vm.script vm.functions vm.global vm.argv heap).1 = .thrown e := by
  simp only [runScript, raises_lift_bind, raises_finishing_iff]
  constructor
  · rintro (⟨e, he⟩ | ⟨exec, created', heap', hrun, he⟩)
    · cases he
    · exact (Except.ok.inj (Prod.mk.inj hrun).1) ▸ he
  · exact fun he => .inr ⟨_, _, _, rfl, he⟩

end

end

/-- The text compiles, and a conversion ends with an error or a C++ exception leaves the script
that it leads to. The error of a conversion is an exception, or a constructor reads outside of its
bytes, where it finds what makes it throw. -/
def Throws (m : Margo) (env : ViewId → Env) (answers : Jx9Answers) (code : Bytes)
    (args : List Json) (s : Jx9State) : Prop :=
  ∃ script, answers.compile (s.fullCode code) = .ok script ∧
    ((∃ fault, (convert m env (JSONtoJx9Value jx9Api) s.global [] s.heap).1 = .error fault) ∨
    ∃ global created heap,
      convert m env (JSONtoJx9Value jx9Api) s.global [] s.heap = (.ok global, created, heap) ∧
      answers.globalCreated = true ∧ answers.globalInstalled = true ∧
      ((∃ fault, (convert m env (JSONtoJx9Value jx9Api) (array (string (text "poesie") :: args))
          created heap).1 = .error fault) ∨
      ∃ argv created' heap',
        convert m env (JSONtoJx9Value jx9Api) (array (string (text "poesie") :: args)) created heap
          = (.ok argv, created', heap') ∧
        answers.argvCreated = true ∧ answers.argvInstalled = true ∧
        ∃ functions, createFunctions answers.functionCreated s.ffuncs [] = .ok functions ∧
          ∃ e, (script functions global argv heap').1 = .thrown e))

section

variable {m : Margo} {env : ViewId → Env} {answers : Jx9Answers} {code : Bytes}
  {args : List Json} {s : Jx9State} {script : Jx9Script}

theorem throws_iff : Throws m env answers code args s ↔
    Raises (prepare m env answers code args s >>= runScript) [] s.heap := by
  simp only [Throws, prepare, raises_bind_assoc, raises_pure_bind, raises_lift_bind,
    raises_require_bind, raises_orFail_bind, raises_runScript_iff]

/-- An execution, without the end of `createdViews`. -/
def executing (m : Margo) (env : ViewId → Env) (answers : Jx9Answers) (code : Bytes)
    (args : List Json) (s : Jx9State) : Conv (Result Json × Json) :=
  (prepare m env answers code args s >>= runScript).run >>= fun r => pure (resultOf s r)

/-- A script that is run ends as its outcome says. -/
theorem runScript_apply {vm : Ready} {created : List ViewId} {heap heap' : Heap} {exec : Jx9Exec}
    (hscript : vm.script vm.functions vm.global vm.argv heap = (exec, heap')) :
    (runScript vm).run created heap = (finishing exec).run created heap' := by
  have hrun : (runScript vm).run created heap =
      (finishing (vm.script vm.functions vm.global vm.argv heap).1).run created
        (vm.script vm.functions vm.global vm.argv heap).2 := rfl
  rw [hrun, hscript]

theorem execute_eq : execute m env answers code args s =
    ((executing m env answers code args s [] s.heap).1.map Prod.fst,
      { s with
        global := ((executing m env answers code args s [] s.heap).1.toOption.map Prod.snd).getD
          s.global
        heap := (executing m env answers code args s [] s.heap).2.2.releaseAll
          MemoryViewImpl.destroy (executing m env answers code args s [] s.heap).2.1 }) := by
  have hrun : (prepare m env answers code args s >>= runScript).run =
      (prepare m env answers code args s).run >>= ExceptT.bindCont runScript := rfl
  unfold execute executing
  rw [hrun]
  -- the ways the preparation ends: an exception, an early return, and a VM to run
  rcases hprepare : (prepare m env answers code args s).run [] s.heap
    with ⟨fault | (message | vm), created, heap⟩
  · rw [Conv.bind_of_error (Conv.bind_of_error hprepare _)]
    rfl
  · rw [Conv.bind_of_ok (Conv.bind_of_ok hprepare _)]
    rfl
  · rcases hscript : vm.script vm.functions vm.global vm.argv heap with ⟨exec, heap'⟩
    have hexec : ((prepare m env answers code args s).run >>= ExceptT.bindCont runScript) []
        s.heap = (finishing exec).run created heap' :=
      (Conv.bind_of_ok hprepare _).trans (runScript_apply hscript)
    dsimp only [finish]
    rw [hscript]
    cases exec with
    | failed errorLog | noValue =>
        rw [Conv.bind_of_ok (hexec.trans rfl)]
        rfl
    | thrown e =>
        rw [Conv.bind_of_error (hexec.trans rfl)]
        rfl
    | finished ret global =>
        rw [Conv.bind_of_ok (hexec.trans rfl)]
        cases global <;> rfl

/-- The outcome on the VM is that of the execution. -/
theorem executeCalls_eq (hcompile : answers.compile (s.fullCode code) = .ok script) :
    ∃ calls, executeCalls m env answers code args s (unstarted s) =
      (outcomeOf (executing m env answers code args s [] s.heap).1,
        ⟨(executing m env answers code args s [] s.heap).2.1,
          (executing m env answers code args s [] s.heap).2.2.releaseAll MemoryViewImpl.destroy
            (executing m env answers code args s [] s.heap).2.1, calls⟩) := by
  have hfollows : Follows ((executeOnVm m env answers args s script).run >>= fun r =>
      pure (resultOf s r)) (executing m env answers code args s) :=
    (follows_executeOnVm hcompile).bind fun r => .pure (resultOf s r)
  obtain ⟨calls, hrun⟩ := hfollows (unstarted s)
  refine ⟨calls, ?_⟩
  unfold executeCalls
  simp only [hcompile, hrun]
  rfl

/-- Apart from the calls that are recorded, this is `execute`. -/
theorem executeCalls_execute (hcompile : answers.compile (s.fullCode code) = .ok script) :
    ∃ r t, executeCalls m env answers code args s (unstarted s) = (outcomeOf r, t) ∧
      (execute m env answers code args s).1 = r.map Prod.fst ∧
      (execute m env answers code args s).2.heap = t.heap := by
  obtain ⟨calls, hrun⟩ := executeCalls_eq (m := m) hcompile
  refine ⟨_, _, hrun, ?_, ?_⟩ <;> rw [execute_eq]

theorem executeCalls_thrown_iff (hcompile : answers.compile (s.fullCode code) = .ok script) :
    (∃ fault, (executeCalls m env answers code args s (unstarted s)).1 = .thrown fault) ↔
      Throws m env answers code args s := by
  obtain ⟨calls, hrun⟩ : ∃ calls, executeCalls m env answers code args s (unstarted s) =
      (outcomeOf (executing m env answers code args s [] s.heap).1, _) := executeCalls_eq hcompile
  rw [throws_iff, hrun, Raises, executing]
  rcases hR : (prepare m env answers code args s >>= runScript).run [] s.heap
    with ⟨fault | r, created, heap⟩
  · rw [Conv.bind_of_error hR]
    simp [outcomeOf]
  · rw [Conv.bind_of_ok hR]
    simp [outcomeOf, Pure.pure]

end

/-! ## The release -/

/-- If there is a VM, it has been released when `execute` returns or throws, and where a constructor
reads outside of its bytes and may throw. -/
def VmReleased (m : Margo) (env : ViewId → Env) (answers : Jx9Answers) (code : Bytes)
    (args : List Json) (s : Jx9State) : Prop :=
  ∀ script, answers.compile (s.fullCode code) = .ok script → ∀ outcome t,
    executeCalls m env answers code args s (unstarted s) = (outcome, t) →
      ((∃ r, outcome = .returned r) ∨ ∃ fault, outcome = .thrown fault) → ReleasedOnce t.own

section

variable {m : Margo} {env : ViewId → Env} {answers : Jx9Answers} {code : Bytes}
  {args : List Json} {s : Jx9State} {script : Jx9Script}

/-- A VM that is there is released, unless an exception passes through. -/
theorem executeCalls_release (hcompile : answers.compile (s.fullCode code) = .ok script)
    {outcome : Outcome Fault (Result Json × Json)} {t : Beside (List VmCall)}
    (hrun : executeCalls m env answers code args s (unstarted s) = (outcome, t)) :
    ((∃ r, outcome = .returned r) → ReleasedOnce t.own) ∧
      ((∃ e, outcome = .thrown e) → InUse t.own) := by
  have hcareful : Careful ReleasedOnce (executeOnVm m env answers args s script) :=
    .executeOnVm answers args s script
  have hfits := hcareful (unstarted s) (by simp [InUse, unstarted])
  simp only [executeCalls, hcompile, Bind.bind] at hrun
  rcases hvm : (executeOnVm m env answers args s script).run (unstarted s) with ⟨r, t₁⟩
  rw [hvm] at hrun hfits
  cases r with
  | returned r =>
      cases hrun
      have hreleased : ReleasedOnce t₁.own := by cases r <;> exact hfits
      refine ⟨fun _ => hreleased, ?_⟩
      rintro ⟨e, he⟩
      cases he
  | raised | stuck =>
      cases hrun
      exact ⟨by simp, by simp⟩
  | thrown e =>
      cases hrun
      exact ⟨by simp, fun _ => hfits⟩

end

/-- **The VMs of the Jx9 backend.** The VM that an execution compiles is released exactly once,
behind all its uses, if and only if the conversions end without an error and no C++ exception
leaves the script. The execution that is looked at is `execute`, with a record of its calls. -/
theorem vm_released_iff (m : Margo) (env : ViewId → Env) (answers : Jx9Answers) (code : Bytes)
    (args : List Json) (s : Jx9State) :
    (VmReleased m env answers code args s ↔ ¬ Throws m env answers code args s) ∧
      ∀ script, answers.compile (s.fullCode code) = .ok script →
        ∃ r t, executeCalls m env answers code args s (unstarted s) = (outcomeOf r, t) ∧
          (execute m env answers code args s).1 = r.map Prod.fst ∧
          (execute m env answers code args s).2.heap = t.heap := by
  refine ⟨?_, fun script hcompile => executeCalls_execute hcompile⟩
  constructor
  · -- with an exception the VM is still in use at the end
    intro hreleased hthrows
    obtain ⟨script, hcompile, -⟩ := id hthrows
    obtain ⟨e, he⟩ := (executeCalls_thrown_iff hcompile).mpr hthrows
    rcases hrun : executeCalls m env answers code args s (unstarted s) with ⟨outcome, t⟩
    rw [hrun] at he
    have hended := hreleased script hcompile outcome t hrun (.inr ⟨e, he⟩)
    exact hended.not_inUse ((executeCalls_release hcompile hrun).2 ⟨e, he⟩)
  · intro hthrows script hcompile outcome t hrun hended
    refine (executeCalls_release hcompile hrun).1 (hended.resolve_right ?_)
    rintro ⟨e, he⟩
    exact hthrows ((executeCalls_thrown_iff hcompile).mp ⟨e, by rw [hrun, he]⟩)

/-- The engine compiles any text to the call of a foreign function that throws. -/
def callsThrowing : Jx9Answers where
  compile _ := .ok fun _ _ _ heap => (.thrown (.std (text "failed")), heap)

/-- Its VM is not released. -/
theorem vm_leaks :
    ¬ ∀ (m : Margo) (env : ViewId → Env) (answers : Jx9Answers) (code : Bytes)
      (args : List Json) (s : Jx9State), VmReleased m env answers code args s := by
  intro hall
  obtain ⟨uses, huses, -⟩ := hall (Margo.loopback noName) (fun _ => .quiet) callsThrowing
    (text "f();") [] ⟨[], object [], [], Store.empty fun _ => 0⟩ _ rfl _ _ rfl (.inr ⟨_, rfl⟩)
  have hlast : VmCall.release ∈ ([.newValue, .config, .releaseValue, .newValue, .config,
      .releaseValue, .exec] : List VmCall) := by
    rw [show ([.newValue, .config, .releaseValue, .newValue, .config, .releaseValue, .exec] :
      List VmCall) = uses ++ [.release] from huses]
    simp
  exact absurd hlast (by decide)

end Jx9Vm

end Poesie
