import Poesie.ForeignFunction
import Poesie.Jx9Value
import Poesie.Runs

set_option autoImplicit false

/-! # The Jx9 backend

Each execution compiles its script into a fresh VM, installs the variables `__global__` and
`__argv__` and all foreign functions in it, and runs it. What a script leaves in `__global__` is
kept between executions as JSON, in `m_global`.

What the Jx9 engine answers is a parameter of each execution (`Jx9Answers`): whether the text
compiles, whether the VM has memory for what is installed in it, and what the script does.
-/

namespace Poesie

open Wire Json SharedPtr

/-! ## Executions -/

/-- The host functions of a VM. -/
abbrev Jx9Functions := List (Bytes × FunctionHolder)

/-- How a script ends. A C++ exception of a foreign function passes through the VM. -/
inductive Jx9Exec where
  | failed (errorLog : Bytes)
  | noValue
  | finished (ret : Jx9Value) (global : Option Jx9Value)
  | thrown (e : CppException)

/-- A compiled script, run on host functions and on its two variables. -/
abbrev Jx9Script := Jx9Functions → Jx9Value → Jx9Value → Heap → Jx9Exec × Heap

/-- What the engine answers in one execution. -/
structure Jx9Answers where
  /-- `jx9_compile`: a script, or the error log. -/
  compile : Bytes → Except Bytes Jx9Script
  globalCreated : Bool := true
  globalInstalled : Bool := true
  argvCreated : Bool := true
  argvInstalled : Bool := true
  functionCreated : Bytes → Bool := fun _ => true

/-- The backend. Its foreign functions come in the order in which the map lists them. -/
structure Jx9State where
  preamble : Bytes
  /-- `m_global` -/
  global : Json
  /-- `m_ffuncs` -/
  ffuncs : List (Bytes × FunctionHolder)
  heap : Heap

/-- `isspace` -/
def isSpace (b : UInt8) : Bool := b == 32 || (9 ≤ b && b ≤ 13)

/-- `SyStringFullTrim` -/
def syStringFullTrim (s : Bytes) : Bytes :=
  ((s.dropWhile isSpace).reverse.dropWhile isSpace).reverse

/-- The text that is compiled. To a preamble the code is appended as a C string. -/
def Jx9State.fullCode (s : Jx9State) (code : Bytes) : Bytes :=
  if s.preamble = [] then code else s.preamble ++ cString code

namespace Jx9Vm

/-- `jx9VmInstallForeignFunction`: a function of the same name is overwritten. -/
def installForeignFunction (name : Bytes) (holder : FunctionHolder) : Jx9Functions → Jx9Functions
  | [] => [(name, holder)]
  | f :: rest => if f.1 = name then (name, holder) :: rest
      else f :: installForeignFunction name holder rest

/-- The loop over `m_ffuncs`, with `jx9_create_function`. It ends at the first name that is
refused. -/
def createFunctions (created : Bytes → Bool) : List (Bytes × FunctionHolder) → Jx9Functions →
    Except Bytes Jx9Functions
  | [], functions => .ok functions
  | (name, holder) :: rest, functions =>
      let trimmed := syStringFullTrim (cString name)
      if trimmed = [] || !created name then .error name
      else createFunctions created rest (installForeignFunction trimmed holder functions)

/-- A VM that is ready to run. -/
structure Ready where
  script : Jx9Script
  functions : Jx9Functions
  global : Jx9Value
  argv : Jx9Value

section

variable (m : Margo) (env : ViewId → Env)

/-- An early return with an error string, unless the call succeeded. -/
def require (succeeded : Bool) (message : String) : ExceptT Bytes Conv Unit :=
  if succeeded then pure () else throw (text message)

/-- An early return with the error string of a step that failed. -/
def orFail {α : Type} (message : String) : Except Bytes α → ExceptT Bytes Conv α
  | .ok a => pure a
  | .error what => throw (text message ++ what)

/-- The part of `execute` in front of `jx9_vm_exec`. It ends with a VM, with the error string of a
failed result, or with an exception. -/
def prepare (answers : Jx9Answers) (code : Bytes) (args : List Json) (s : Jx9State) :
    ExceptT Bytes Conv Ready := do
  let script ← orFail "Failed to compile Jx9 code: " (answers.compile (s.fullCode code))
  let global ← ExceptT.lift (convert m env (JSONtoJx9Value jx9Api) s.global)
  require answers.globalCreated "Failed to create __global__ variable"
  require answers.globalInstalled "Failed to install __global__ variable in JX9 VM"
  let argv ← ExceptT.lift
    (convert m env (JSONtoJx9Value jx9Api) (array (string (text "poesie") :: args)))
  require answers.argvCreated "Failed to create __argv__ variable"
  require answers.argvInstalled "Failed to install __argv__ variable in JX9 VM"
  let functions ← orFail "Failed to install foreign function: "
    (createFunctions answers.functionCreated s.ffuncs [])
  pure ⟨script, functions, global, argv⟩

def failed (message : Bytes) : Result Json := { success := false, error := message, value := null }

/-- The rest of `execute`: run the script and keep what it leaves in `__global__`. -/
def finish (s : Jx9State) (vm : Ready) (heap : Heap) :
    Except Fault (Result Json) × Jx9State :=
  match vm.script vm.functions vm.global vm.argv heap with
  | (.failed errorLog, heap) =>
      (.ok (failed (text "Failed to execute Jx9 code: " ++ errorLog)), { s with heap := heap })
  | (.noValue, heap) =>
      (.ok (failed (text "Could not extract return value from Jx9 VM")), { s with heap := heap })
  | (.thrown e, heap) => (.error (.thrown e), { s with heap := heap })
  | (.finished ret (some global), heap) =>
      (.ok { value := Jx9ValueToJSON ret },
        { s with global := Jx9ValueToJSON global, heap := heap })
  | (.finished ret none, heap) =>
      (.ok { value := Jx9ValueToJSON ret }, { s with global := object [], heap := heap })

/-- `Jx9Vm::execute` -/
def execute (answers : Jx9Answers) (code : Bytes) (args : List Json) (s : Jx9State) :
    Except Fault (Result Json) × Jx9State :=
  match (prepare m env answers code args s).run [] s.heap with
  | (prepared, created, heap) =>
      let (result, s) := match prepared with
        | .ok (.ok vm) => finish s vm heap
        | .ok (.error message) => (.ok (failed message), { s with heap := heap })
        | .error fault => (.error fault, { s with heap := heap })
      -- `createdViews` goes out of scope
      (result, { s with heap := s.heap.releaseAll MemoryViewImpl.destroy created })

/-- `Jx9Vm::load`, with the files that can be read. -/
def load (files : Bytes → Option Bytes) (answers : Jx9Answers) (filename : Bytes)
    (args : List Json) (s : Jx9State) : Except Fault (Result Json) × Jx9State :=
  match files filename with
  | none => (.ok (failed (text "Error opening file: " ++ filename)), s)
  | some code => execute m env answers code args s

end

/-- `std::unordered_map::insert`: an entry already there stays as it is. -/
def insert (name : Bytes) (holder : FunctionHolder) (ffuncs : List (Bytes × FunctionHolder)) :
    List (Bytes × FunctionHolder) :=
  if ffuncs.any fun f => f.1 == name then ffuncs else ffuncs ++ [(name, holder)]

/-- `Jx9Vm::install` -/
def install (name : Bytes) (f : ForeignFn) (nargs : UInt64) (s : Jx9State) : Jx9State :=
  { s with ffuncs := insert name ⟨f, nargs⟩ s.ffuncs }

/-! ## What is kept between executions -/

/-- The operations. -/
inductive Op where
  | execute (answers : Jx9Answers) (code : Bytes) (args : List Json)
  | load (answers : Jx9Answers) (filename : Bytes) (args : List Json)
  | install (name : Bytes) (f : ForeignFn) (nargs : UInt64)

/-- An execution. -/
structure Execution where
  answers : Jx9Answers
  code : Bytes
  args : List Json

/-- The execution an operation leads to. -/
def Op.execution (files : Bytes → Option Bytes) : Op → Option Execution
  | execute answers code args => some ⟨answers, code, args⟩
  | load answers filename args => (files filename).map fun code => ⟨answers, code, args⟩
  | install _ _ _ => none

/-- The empty object. -/
def emptyObject : Jx9Value := .hashmap true []

section

variable (m : Margo) (env : ViewId → Env) (files : Bytes → Option Bytes)

/-- An operation on the backend. -/
def perform (s : Jx9State) : Op → Jx9State
  | .execute answers code args => (execute m env answers code args s).2
  | .load answers filename args => (load m env files answers filename args s).2
  | .install name f nargs => install name f nargs s

/-- The script of an execution is started, in this VM and on this memory. -/
def StartsWith (x : Execution) (s : Jx9State) (vm : Ready) (heap : Heap) : Prop :=
  ∃ created, (prepare m env x.answers x.code x.args s).run [] s.heap = (.ok (.ok vm), created, heap)

/-- What a successful execution leaves in `__global__`: the empty object where it unsets it. -/
def leftBy (x : Execution) (s : Jx9State) : Option Jx9Value :=
  match (prepare m env x.answers x.code x.args s).run [] s.heap with
  | (.ok (.ok vm), _, heap) =>
      match (vm.script vm.functions vm.global vm.argv heap).1 with
      | .finished _ global => some (global.getD emptyObject)
      | _ => none
  | _ => none

/-- The backend, with what the last successful script left in `__global__`. -/
structure Trace where
  vm : Jx9State
  left : Jx9Value

def step (t : Trace) (op : Op) : Trace where
  vm := perform m env files t.vm op
  left := ((op.execution files).bind fun x => leftBy m env x t.vm).getD t.left

/-- The script leaves `__global__` as it finds it, as one does that does not mention it. -/
def Ignores (script : Jx9Script) : Prop :=
  ∀ functions global argv heap ret global' heap',
    script functions global argv heap = (.finished ret global', heap') → global' = some global

/-- The execution returned a successful result. -/
def Succeeded : Except Fault (Result Json) → Prop
  | .ok result => result.success = true
  | .error _ => False

/-- An execution keeps `m_global` as it should. -/
structure Persists (t : Trace) (x : Execution) : Prop where
  /-- Only a successful execution changes `m_global`. -/
  failing : ¬ Succeeded (execute m env x.answers x.code x.args t.vm).1 →
    (execute m env x.answers x.code x.args t.vm).2.global = t.vm.global
  /-- A script that does not mention `__global__` does not either. -/
  ignoring : ∀ vm heap, StartsWith m env x t.vm vm heap → Ignores vm.script →
    (execute m env x.answers x.code x.args t.vm).2.global = t.vm.global
  /-- A script starts with what the last successful one left. -/
  starting : ∀ vm heap, StartsWith m env x t.vm vm heap → vm.global = t.left

/-- The law for an operation: an execution persists, and no other operation touches `m_global`. -/
def Lawful (t : Trace) (op : Op) : Prop :=
  (∀ x, op.execution files = some x → Persists m env t x) ∧
    (op.execution files = none → (perform m env files t.vm op).global = t.vm.global)

/-- What an execution needs to get as far as its script: the text compiles, both variables and all
functions can be installed, and `m_global` and the arguments can be converted. -/
structure Runnable (x : Execution) (s : Jx9State) : Prop where
  compiles : ∃ script, x.answers.compile (s.fullCode x.code) = .ok script
  globalInstalled : x.answers.globalCreated = true ∧ x.answers.globalInstalled = true
  argvInstalled : x.answers.argvCreated = true ∧ x.answers.argvInstalled = true
  functionsCreated : ∃ functions,
    createFunctions x.answers.functionCreated s.ffuncs [] = .ok functions
  converts : ∃ global created heap argv created' heap',
    convert m env (JSONtoJx9Value jx9Api) s.global [] s.heap = (.ok global, created, heap) ∧
    convert m env (JSONtoJx9Value jx9Api) (array (string (text "poesie") :: x.args)) created heap
      = (.ok argv, created', heap')

/-- The operation gets as far as running a script. -/
def Starts (t : Trace) (op : Op) : Prop :=
  ∃ x, op.execution files = some x ∧ Runnable m env x t.vm

end

variable {m : Margo} {env : ViewId → Env} {files : Bytes → Option Bytes}

/-! ### The steps in front of the script -/

section

variable {α β : Type} {created created' : List ViewId} {s s' : Heap} {a : α} {b : β}

/-- A step goes on with what the one before it gave. -/
theorem bind_eq_ok_iff {f : ExceptT Bytes Conv α} {g : α → ExceptT Bytes Conv β} :
    (f >>= g).run created s = (.ok (.ok b), created', s') ↔
      ∃ a created₁ s₁, f.run created s = (.ok (.ok a), created₁, s₁) ∧
        (g a).run created₁ s₁ = (.ok (.ok b), created', s') := by
  have hbind : (f >>= g).run created s = (match f.run created s with
      | (.ok (.ok a), created₁, s₁) => (g a).run created₁ s₁
      | (.ok (.error e), created₁, s₁) => (.ok (.error e), created₁, s₁)
      | (.error e, created₁, s₁) => (.error e, created₁, s₁)) := by
    show (ExceptT.run f >>= ExceptT.bindCont g) created s = _
    simp only [Bind.bind]
    rcases ExceptT.run f created s with ⟨r, created₁, s₁⟩
    cases r with
    | error e => rfl
    | ok r => cases r <;> rfl
  rw [hbind]
  constructor
  · intro h
    split at h
    case h_1 a created₁ s₁ hf => exact ⟨a, created₁, s₁, hf, h⟩
    case h_2 => cases h
    case h_3 => cases h
  · rintro ⟨a, created₁, s₁, hf, hg⟩
    rw [hf]
    exact hg

theorem lift_eq_ok_iff {f : Conv α} :
    (ExceptT.lift f : ExceptT Bytes Conv α).run created s = (.ok (.ok a), created', s') ↔
      f created s = (.ok a, created', s') := by
  have hmap : (ExceptT.lift f : ExceptT Bytes Conv α).run created s
      = ((f created s).1.map .ok, (f created s).2) := by
    show (Except.ok <$> f) created s = _
    simp only [Functor.map]
    rcases f created s with ⟨r, created₁, s₁⟩
    cases r <;> rfl
  rw [hmap]
  rcases f created s with ⟨r, created₁, s₁⟩
  cases r with
  | error e => simp [Except.map]
  | ok b => simp [Except.map]

theorem lift_bind_eq_ok_iff {f : Conv α} {g : α → ExceptT Bytes Conv β} :
    (ExceptT.lift f >>= g).run created s = (.ok (.ok b), created', s') ↔
      ∃ a created₁ s₁, f created s = (.ok a, created₁, s₁) ∧
        (g a).run created₁ s₁ = (.ok (.ok b), created', s') := by
  simp only [bind_eq_ok_iff, lift_eq_ok_iff]

theorem orFail_bind_eq_ok_iff {message : String} {r : Except Bytes α}
    {g : α → ExceptT Bytes Conv β} :
    (orFail message r >>= g).run created s = (.ok (.ok b), created', s') ↔
      ∃ a, r = .ok a ∧ (g a).run created s = (.ok (.ok b), created', s') := by
  cases r with
  | error what =>
      apply iff_of_false
      · intro h
        cases h
      · rintro ⟨a, ha, -⟩
        cases ha
  | ok a =>
      constructor
      · exact fun h => ⟨a, rfl, h⟩
      · rintro ⟨a', ha, h⟩
        cases ha
        exact h

theorem require_bind_eq_ok_iff {succeeded : Bool} {message : String}
    {g : Unit → ExceptT Bytes Conv β} :
    (require succeeded message >>= g).run created s = (.ok (.ok b), created', s') ↔
      succeeded = true ∧ (g ()).run created s = (.ok (.ok b), created', s') := by
  cases succeeded with
  | false =>
      apply iff_of_false
      · intro h
        cases h
      · exact fun h => Bool.false_ne_true h.1
  | true => exact (and_iff_right rfl).symm

theorem pure_eq_ok_iff {b : α} :
    (pure b : ExceptT Bytes Conv α).run created s = (.ok (.ok a), created', s') ↔
      b = a ∧ created = created' ∧ s = s' := by
  constructor
  · intro h
    cases h
    exact ⟨rfl, rfl, rfl⟩
  · rintro ⟨rfl, rfl, rfl⟩
    rfl

end

/-- What an execution that gets as far as its script starts it with. -/
theorem startsWith_iff {x : Execution} {s : Jx9State} {vm : Ready} {heap : Heap} :
    StartsWith m env x s vm heap ↔
      ∃ created heap₁ created',
        x.answers.compile (s.fullCode x.code) = .ok vm.script ∧
        convert m env (JSONtoJx9Value jx9Api) s.global [] s.heap
          = (.ok vm.global, created, heap₁) ∧
        (x.answers.globalCreated = true ∧ x.answers.globalInstalled = true) ∧
        convert m env (JSONtoJx9Value jx9Api) (array (string (text "poesie") :: x.args)) created
          heap₁ = (.ok vm.argv, created', heap) ∧
        (x.answers.argvCreated = true ∧ x.answers.argvInstalled = true) ∧
        createFunctions x.answers.functionCreated s.ffuncs [] = .ok vm.functions := by
  simp only [StartsWith, prepare, orFail_bind_eq_ok_iff, lift_bind_eq_ok_iff,
    require_bind_eq_ok_iff, pure_eq_ok_iff]
  constructor
  · rintro ⟨_, script, hcompile, global, created, heap₁, hglobal, hgc, hgi, argv, created', _,
      hargv, hac, hai, functions, hfunctions, rfl, rfl, rfl⟩
    exact ⟨_, _, _, hcompile, hglobal, ⟨hgc, hgi⟩, hargv, ⟨hac, hai⟩, hfunctions⟩
  · rintro ⟨created, heap₁, created', hcompile, hglobal, ⟨hgc, hgi⟩, hargv, ⟨hac, hai⟩,
      hfunctions⟩
    exact ⟨created', vm.script, hcompile, vm.global, created, heap₁, hglobal, hgc, hgi, vm.argv,
      created', heap, hargv, hac, hai, vm.functions, hfunctions, rfl, rfl, rfl⟩

/-- An execution that can be run is one whose script is started. -/
theorem runnable_iff {x : Execution} {s : Jx9State} :
    Runnable m env x s ↔ ∃ vm heap, StartsWith m env x s vm heap := by
  simp only [startsWith_iff]
  constructor
  · rintro ⟨⟨script, hcompile⟩, hglobalInstalled, hargvInstalled, ⟨functions, hfunctions⟩,
      global, created, heap, argv, created', heap', hglobal, hargv⟩
    exact ⟨⟨script, functions, global, argv⟩, heap', created, heap, created', hcompile, hglobal,
      hglobalInstalled, hargv, hargvInstalled, hfunctions⟩
  · rintro ⟨vm, heap', created, heap, created', hcompile, hglobal, hglobalInstalled, hargv,
      hargvInstalled, hfunctions⟩
    exact ⟨⟨_, hcompile⟩, hglobalInstalled, hargvInstalled, ⟨_, hfunctions⟩, _, _, _, _, _, _,
      hglobal, hargv⟩

/-- The empty object becomes an empty array on its way into the VM. -/
theorem convert_empty (created : List ViewId) (s : Heap) :
    convert m env (JSONtoJx9Value jx9Api) (object []) created s
      = (.ok .newArray, created, s) := rfl

/-- A VM that is started after the empty object was kept has an empty array in `__global__`. -/
theorem startsWith_empty {x : Execution} {s : Jx9State} {vm : Ready} {heap : Heap}
    (hs : s.global = object []) (h : StartsWith m env x s vm heap) : vm.global = .newArray := by
  obtain ⟨created, heap₁, created', -, hglobal, -⟩ := startsWith_iff.mp h
  rw [hs, convert_empty] at hglobal
  exact (Except.ok.inj (Prod.mk.inj hglobal).1).symm

/-- An execution that does not get to its script leaves the backend as it was, but for the
views. -/
theorem execute_of_not_started {x : Execution} {s : Jx9State}
    (h : ∀ vm heap, ¬ StartsWith m env x s vm heap) :
    (execute m env x.answers x.code x.args s).2.global = s.global ∧ leftBy m env x s = none := by
  unfold execute leftBy
  rcases hprepare : (prepare m env x.answers x.code x.args s).run [] s.heap
    with ⟨prepared, created, heap⟩
  cases prepared with
  | error fault => exact ⟨rfl, rfl⟩
  | ok prepared =>
      cases prepared with
      | error message => exact ⟨rfl, rfl⟩
      | ok vm => exact absurd ⟨created, hprepare⟩ (h vm heap)

/-- Only a successful execution changes `m_global`. -/
theorem execute_global_of_failed {x : Execution} {s : Jx9State}
    (h : ¬ Succeeded (execute m env x.answers x.code x.args s).1) :
    (execute m env x.answers x.code x.args s).2.global = s.global := by
  unfold execute at h ⊢
  rcases hprepare : (prepare m env x.answers x.code x.args s).run [] s.heap
    with ⟨prepared, created, heap⟩
  rw [hprepare] at h
  cases prepared with
  | error fault => rfl
  | ok prepared =>
      cases prepared with
      | error message => rfl
      | ok vm =>
          -- the script ran: by every way out but the last two, `m_global` is as before
          simp only [finish] at h ⊢
          rcases hscript : vm.script vm.functions vm.global vm.argv heap with ⟨ended, heap'⟩
          rw [hscript] at h
          cases ended with
          | failed errorLog | noValue | thrown e => rfl
          | finished ret global => cases global <;> exact absurd rfl h

/-- A backend that has kept the empty object since it was made. -/
def Untouched (t : Trace) : Prop := t.vm.global = object [] ∧ t.left = emptyObject

/-- The first script that starts finds an array where the object should be. -/
theorem Untouched.lawful_iff_not_starts {t : Trace} (h : Untouched t) (op : Op) :
    Lawful m env files t op ↔ ¬ Starts m env files t op := by
  constructor
  · rintro ⟨hlaw, -⟩ ⟨x, hx, hrunnable⟩
    obtain ⟨vm, heap, hstart⟩ := runnable_iff.mp hrunnable
    have hsame := (hlaw x hx).starting vm heap hstart
    rw [startsWith_empty h.1 hstart, h.2] at hsame
    cases hsame
  · intro hstarts
    constructor
    · intro x hx
      have hnot : ∀ vm heap, ¬ StartsWith m env x t.vm vm heap :=
        fun vm heap hstart => hstarts ⟨x, hx, runnable_iff.mpr ⟨vm, heap, hstart⟩⟩
      exact {
        failing := execute_global_of_failed
        ignoring := fun vm heap hstart => absurd hstart (hnot vm heap)
        starting := fun vm heap hstart => absurd hstart (hnot vm heap) }
    · intro hnone
      cases op with
      | execute answers code args => cases hnone
      | load answers filename args =>
          have hfile : files filename = none := Option.map_eq_none_iff.mp hnone
          simp only [perform, load, hfile]
      | install name f nargs => rfl

theorem Untouched.step {t : Trace} (h : Untouched t) {op : Op}
    (hstarts : ¬ Starts m env files t op) : Untouched (step m env files t op) := by
  have hnot : ∀ x, op.execution files = some x → ∀ vm heap, ¬ StartsWith m env x t.vm vm heap :=
    fun x hx vm heap hstart => hstarts ⟨x, hx, runnable_iff.mpr ⟨vm, heap, hstart⟩⟩
  have hleft : (op.execution files).bind (fun x => leftBy m env x t.vm) = none := by
    cases hx : op.execution files with
    | none => rfl
    | some x => exact (execute_of_not_started (hnot x hx)).2
  constructor
  · rw [← h.1]
    cases op with
    | execute answers code args => exact (execute_of_not_started (hnot _ rfl)).1
    | load answers filename args =>
        show (load m env files answers filename args t.vm).2.global = t.vm.global
        unfold load
        cases hfile : files filename with
        | none => rfl
        | some code =>
            have hx : (Op.load answers filename args).execution files
                = some ⟨answers, code, args⟩ := by
              rw [Op.execution, hfile]
              rfl
            exact (execute_of_not_started (hnot _ hx)).1
    | install name f nargs => rfl
  · show ((op.execution files).bind fun x => leftBy m env x t.vm).getD t.left = emptyObject
    rw [hleft]
    exact h.2

/-- **Persistence of `__global__`.** In a run of operations on a new backend, `m_global` is kept
as it should if and only if no script of the run is ever started. -/
theorem lawful_iff (m : Margo) (env : ViewId → Env) (files : Bytes → Option Bytes)
    (preamble : Bytes) (ffuncs : List (Bytes × FunctionHolder)) (heap : Heap) (ops : List Op) :
    Runs.Along (step m env files) (Lawful m env files)
        ⟨⟨preamble, object [], ffuncs, heap⟩, emptyObject⟩ ops ↔
      Runs.Along (step m env files) (fun t op => ¬ Starts m env files t op)
        ⟨⟨preamble, object [], ffuncs, heap⟩, emptyObject⟩ ops :=
  Runs.along_iff (I := Untouched) (fun _ op h => h.lawful_iff_not_starts op)
    (fun _ _ h hstarts => h.step hstarts) ⟨rfl, rfl⟩

/-- The engine compiles any text to a script that returns null. -/
def returnsNull : Jx9Answers where
  compile _ := .ok fun _ global _ heap => (.finished .null (some global), heap)

/-- One successful script that does not mention `__global__` turns the empty object into an empty
array. -/
theorem lawful_fails :
    (¬ ∀ (m : Margo) (env : ViewId → Env) (files : Bytes → Option Bytes) (preamble : Bytes)
        (ffuncs : List (Bytes × FunctionHolder)) (heap : Heap) (ops : List Op),
      Runs.Along (step m env files) (Lawful m env files)
        ⟨⟨preamble, object [], ffuncs, heap⟩, emptyObject⟩ ops) ∧
    (perform (Margo.loopback noName) (fun _ => .quiet) (fun _ => none)
        ⟨[], object [], [], Store.empty fun _ => 0⟩ (.execute returnsNull [] [])).global
      = array [] := by
  constructor
  · intro h
    obtain ⟨⟨hlaw, -⟩, -⟩ := h (Margo.loopback noName) (fun _ => .quiet) (fun _ => none) [] []
      (Store.empty fun _ => 0) [.execute returnsNull [] []]
    have hsame := (hlaw _ rfl).starting _ _ ⟨_, rfl⟩
    cases hsame
  · rfl

end Jx9Vm

end Poesie
