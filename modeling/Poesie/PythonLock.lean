import Poesie.PythonVm
import Poesie.Runs

set_option autoImplicit false

/-! # The mutex of the Python backend

All Python VMs of a process share one mutex. Every operation locks it, and unlocks it unless an
exception leaves the operation first. A step that keeps the mutex and throws Python errors only
is safe inside of the `try` block; what else an operation does is taken apart into such steps.
-/

namespace Poesie

open Wire Json SharedPtr

/-! ## What steps do to the mutex -/

variable {S O α β : Type}

/-- The same state with the mutex held. -/
def PythonState.held (s : PythonState S) : PythonState S := { s with locked := true }

namespace Py

theorem bind_of_returned {f : Py S α} {s s' : PythonState S} {a : α}
    (h : f s = (.returned a, s')) (g : α → Py S β) : (f >>= g) s = g a s' := by
  simp only [Bind.bind, h]

theorem bind_of_thrown {f : Py S α} {s s' : PythonState S} {e : Fault}
    (h : f s = (.thrown e, s')) (g : α → Py S β) : (f >>= g) s = (.thrown e, s') := by
  simp only [Bind.bind, h]

theorem bind_of_stuck {f : Py S α} {s s' : PythonState S}
    (h : f s = (.stuck, s')) (g : α → Py S β) : (f >>= g) s = (.stuck, s') := by
  simp only [Bind.bind, h]

theorem lock_of_unlocked {s : PythonState S} (h : s.locked = false) :
    lock s = (.returned (), s.held) := by
  rw [lock, h]
  rfl

/-- A step that leaves the mutex as it finds it. -/
def Keeps (f : Py S α) : Prop := ∀ s, (f s).2.locked = s.locked

theorem keeps_pure (a : α) : Keeps (pure a : Py S α) := fun _ => rfl

theorem Keeps.bind {f : Py S α} {g : α → Py S β} (hf : Keeps f) (hg : ∀ a, Keeps (g a)) :
    Keeps (f >>= g) := by
  intro s
  have hfirst := hf s
  rcases h : f s with ⟨r, s'⟩
  rw [h] at hfirst
  cases r with
  | returned a =>
      rw [bind_of_returned h]
      exact (hg a s').trans hfirst
  | thrown e =>
      rw [bind_of_thrown h]
      exact hfirst
  | stuck =>
      rw [bind_of_stuck h]
      exact hfirst

theorem keeps_interp (call : PyCall S α) : Keeps (interp call) := by
  intro s
  unfold interp
  split <;> rfl

theorem interp_thrown {call : PyCall S α} {s s' : PythonState S} {fault : Fault}
    (h : interp call s = (.thrown fault, s')) :
    ∃ e, fault = .thrown e ∧ call s.world = (.error e, s'.world) := by
  unfold interp at h
  split at h
  case h_1 => cases h
  case h_2 e w hcall =>
    cases h
    exact ⟨e, rfl, hcall⟩

theorem interp_returned {call : PyCall S α} {s s' : PythonState S} {a : α}
    (h : interp call s = (.returned a, s')) : call s.world = (.ok a, s'.world) := by
  unfold interp at h
  split at h
  case h_1 a' w hcall =>
    cases h
    exact hcall
  case h_2 => cases h

section

variable {m : Margo} {env : ViewId → Env} {p : Interpreter S O} {args : List Json}
  {f : List O → Py S α} {s : PythonState S}

theorem withArgs_of_ok {values : List O} {created : List ViewId} {heap : Heap}
    (h : convertItems m env (from_json p.api) args [] s.world.2 = (.ok values, created, heap)) :
    withArgs m env p args f s =
      ((f values { s with world := (s.world.1, heap) }).1,
        { (f values { s with world := (s.world.1, heap) }).2 with world :=
          ((f values { s with world := (s.world.1, heap) }).2.world.1,
            (f values { s with world := (s.world.1, heap) }).2.world.2.releaseAll
              MemoryViewImpl.destroy created) }) := by
  simp only [withArgs, h]

theorem withArgs_of_error {fault : Fault} {created : List ViewId} {heap : Heap}
    (h : convertItems m env (from_json p.api) args [] s.world.2 = (.error fault, created, heap)) :
    ∃ w, withArgs m env p args f s = (.thrown fault, { s with world := w }) := by
  simp only [withArgs, h]
  exact ⟨_, rfl⟩

theorem Keeps.withArgs (hf : ∀ values, Keeps (f values)) :
    Keeps (withArgs m env p args f) := by
  intro s
  rcases h : convertItems m env (from_json p.api) args [] s.world.2 with ⟨converted, created, heap⟩
  cases converted with
  | ok values =>
      rw [withArgs_of_ok h]
      exact hf values _
  | error fault =>
      obtain ⟨w, hw⟩ := withArgs_of_error (f := f) h
      rw [hw]

end

/-- A step that throws Python errors only. -/
def PythonOnly (f : Py S α) : Prop :=
  ∀ s e s', f s = (.thrown e, s') → e.isErrorAlreadySet = true

theorem pythonOnly_pure (a : α) : PythonOnly (pure a : Py S α) := by
  intro s e s' h
  cases h

theorem PythonOnly.bind {f : Py S α} {g : α → Py S β} (hf : PythonOnly f)
    (hg : ∀ a, PythonOnly (g a)) : PythonOnly (f >>= g) := by
  intro s e s' hthrown
  rcases h : f s with ⟨r, s₁⟩
  cases r with
  | returned a =>
      rw [bind_of_returned h] at hthrown
      exact hg a s₁ e s' hthrown
  | thrown e' =>
      rw [bind_of_thrown h] at hthrown
      cases hthrown
      exact hf s _ _ h
  | stuck =>
      rw [bind_of_stuck h] at hthrown
      cases hthrown

theorem pythonOnly_interp {call : PyCall S α}
    (h : ∀ {w w' e}, call w = (.error e, w') → e.isErrorAlreadySet) :
    PythonOnly (interp call) := by
  intro s fault s' hthrown
  obtain ⟨e, rfl, hcall⟩ := interp_thrown hthrown
  exact h hcall

/-- What a block with converted arguments throws, if its body throws Python errors only. -/
theorem withArgs_pythonOnly_iff {m : Margo} {env : ViewId → Env} {p : Interpreter S O}
    {args : List Json} {body : List O → Py S α} (hbody : ∀ values, PythonOnly (body values))
    {s : PythonState S} :
    (∀ fault s', withArgs m env p args body s = (.thrown fault, s') →
      fault.isErrorAlreadySet = true) ↔
      ∀ fault created heap,
        convertItems m env (from_json p.api) args [] s.world.2 = (.error fault, created, heap) →
        fault.isErrorAlreadySet = true := by
  constructor
  · intro hall fault created heap hconvert
    obtain ⟨w, hw⟩ := withArgs_of_error (f := body) hconvert
    exact hall fault _ hw
  · intro hconverts fault s' hthrown
    rcases h : convertItems m env (from_json p.api) args [] s.world.2
      with ⟨converted, created, heap⟩
    cases converted with
    | ok values =>
        rw [withArgs_of_ok h] at hthrown
        obtain ⟨he, -⟩ := Prod.mk.inj hthrown
        exact hbody values _ fault _ (Prod.ext he rfl)
    | error fault' =>
        obtain ⟨w, hw⟩ := withArgs_of_error (f := body) h
        rw [hw] at hthrown
        cases hthrown
        exact hconverts _ created heap h

/-- The state an operation leaves, if it ends. -/
def after : Ended α × PythonState S → Option (PythonState S)
  | (.stuck, _) => none
  | (_, s) => some s

/-- If the operation returns or throws, the mutex is unlocked. -/
def Released (o : Option (PythonState S)) : Prop := ∀ s, o = some s → s.locked = false

/-- An operation that returns releases the mutex if it left it unlocked. -/
theorem released_returned_iff {a : α} {s : PythonState S} :
    Released (after ((.returned a, s) : Ended α × PythonState S)) ↔ s.locked = false := by
  constructor
  · intro h
    exact h s rfl
  · rintro h s' hs'
    cases hs'
    exact h

/-- An exception leaves the mutex as it is. -/
theorem released_thrown_iff {e : Fault} {s : PythonState S} :
    Released (after ((.thrown e, s) : Ended α × PythonState S)) ↔ s.locked = false := by
  constructor
  · intro h
    exact h s rfl
  · rintro h s' hs'
    cases hs'
    exact h

theorem released_stuck (s : PythonState S) :
    Released (after ((.stuck, s) : Ended α × PythonState S)) := by
  rintro s' hs'
  cases hs'

theorem Fault.isErrorAlreadySet_iff {fault : Fault} :
    fault.isErrorAlreadySet = true ↔ ∃ what, fault = .thrown (.errorAlreadySet what) := by
  constructor
  · intro h
    cases fault with
    | outOfRange off n => cases h
    | thrown e =>
        cases e with
        | errorAlreadySet what => exact ⟨what, rfl⟩
        | _ => cases h
  · rintro ⟨what, rfl⟩
    rfl

/-- A `try` block catches Python errors only. -/
theorem tryPython_of_other {body : Py S α} {handler : Bytes → α} {s s' : PythonState S}
    {fault : Fault} (h : body s = (.thrown fault, s'))
    (hother : ∀ what, fault ≠ .thrown (.errorAlreadySet what)) :
    tryPython body handler s = (.thrown fault, s') := by
  rw [tryPython, h]
  cases fault with
  | outOfRange off n => rfl
  | thrown e =>
      cases e with
      | errorAlreadySet what => exact absurd rfl (hother what)
      | _ => rfl

/-- With the mutex held: run the body in a `try` block, then unlock. -/
theorem released_try_iff {body : Py S α} (hkeeps : Keeps body) (handler : Bytes → α)
    {s : PythonState S} (hs : s.locked = true) :
    Released (after ((do
        let result ← tryPython body handler
        unlock
        pure result : Py S α) s)) ↔
      ∀ e s', body s = (.thrown e, s') → e.isErrorAlreadySet = true := by
  have hheld : (body s).2.locked = true := (hkeeps s).trans hs
  rcases h : body s with ⟨r, s'⟩
  rw [h] at hheld
  cases r with
  | returned a =>
      have htry : tryPython body handler s = (.returned a, s') := by rw [tryPython, h]
      rw [bind_of_returned htry]
      exact iff_of_true (released_returned_iff.mpr rfl) fun e s'' he => (by cases he)
  | stuck =>
      have htry : tryPython body handler s = (.stuck, s') := by rw [tryPython, h]
      rw [bind_of_stuck htry]
      exact iff_of_true (released_stuck s') fun e s'' he => (by cases he)
  | thrown fault =>
      by_cases hpython : ∃ what, fault = .thrown (.errorAlreadySet what)
      · obtain ⟨what, rfl⟩ := hpython
        have htry : tryPython body handler s = (.returned (handler what), s') := by
          rw [tryPython, h]
        rw [bind_of_returned htry]
        exact iff_of_true (released_returned_iff.mpr rfl) fun e s'' he => (by cases he; rfl)
      · have htry : tryPython body handler s = (.thrown fault, s') :=
          tryPython_of_other h fun what hwhat => hpython ⟨what, hwhat⟩
        rw [bind_of_thrown htry, released_thrown_iff, hheld]
        -- what is not caught leaves with the mutex locked
        apply iff_of_false
        · decide
        · intro hall
          exact hpython (Fault.isErrorAlreadySet_iff.mp (hall fault s' rfl))

/-- Lock, run the body in a `try` block, unlock. -/
theorem released_locked_iff {body : Py S α} (hkeeps : Keeps body) (handler : Bytes → α)
    {s : PythonState S} (hs : s.locked = false) :
    Released (after ((do
        lock
        let result ← tryPython body handler
        unlock
        pure result : Py S α) s)) ↔
      ∀ e s', body s.held = (.thrown e, s') → e.isErrorAlreadySet = true := by
  rw [bind_of_returned (lock_of_unlocked hs)]
  exact released_try_iff hkeeps handler rfl

/-- Leaving the block with the converted arguments does not touch the mutex. -/
theorem released_withArgs_of_ok {m : Margo} {env : ViewId → Env} {p : Interpreter S O}
    {args : List Json} {body : List O → Py S α} {s : PythonState S} {values : List O}
    {created : List ViewId} {heap : Heap}
    (h : convertItems m env (from_json p.api) args [] s.world.2 = (.ok values, created, heap)) :
    Released (after (withArgs m env p args body s)) ↔
      Released (after (body values { s with world := (s.world.1, heap) })) := by
  rw [withArgs_of_ok h]
  rcases body values { s with world := (s.world.1, heap) } with ⟨r, s'⟩
  cases r with
  | stuck => exact iff_of_true (released_stuck _) (released_stuck _)
  | thrown e => rw [released_thrown_iff, released_thrown_iff]
  | returned a => rw [released_returned_iff, released_returned_iff]

end Py

/-! ## When an operation releases the mutex -/

/-- The operations. -/
inductive PyOp where
  | execute (code : Bytes) (args : List Json)
  | load (filename : Bytes) (args : List Json)
  | call (function target : Bytes) (args : List Json)
  | install (name : Bytes) (f : ForeignFn) (nargs : UInt64)

namespace PythonVm

variable (m : Margo) (env : ViewId → Env) (p : Interpreter S O) (rounds stack : Nat)
  (files : Bytes → Option Bytes)

/-- One operation; `none` once one is stuck. -/
def step : Option (PythonState S) → PyOp → Option (PythonState S)
  | none, _ => none
  | some s, .execute code args => Py.after (execute m env p code args s)
  | some s, .load filename args => Py.after (load m env p files filename args s)
  | some s, .call function target args => Py.after (call m env p rounds stack function target args s)
  | some s, .install name f nargs => Py.after (install p name f nargs s)

/-- Once `sys` is imported, converting the arguments ends with at most a Python error: nothing else
is thrown, and no constructor reads outside of its bytes. -/
def ArgvConverts (args : List Json) (s : PythonState S) : Prop :=
  ∀ sys w fault created heap, p.importSys s.world = (.ok sys, w) →
    convertItems m env (from_json p.api) args [] w.2 = (.error fault, created, heap) →
    fault.isErrorAlreadySet = true

/-- Nothing outside the `try` block of `call` throws, nor reads outside of its bytes, and the value
that Python returns is one that `to_json` converts, or meets a Python error in. -/
structure CallConverts (function target : Bytes) (args : List Json) (s : PythonState S) :
    Prop where
  lookup : ∀ e s', findFunction p function target s ≠ (.thrown e, s')
  arguments : ∀ o s' fault created heap,
    findFunction p function target s = (.returned (.inr o), s') →
    convertItems m env (from_json p.api) args [] s'.world.2 ≠ (.error fault, created, heap)
  result : ∀ o s' values created heap ret w e,
    findFunction p function target s = (.returned (.inr o), s') →
    convertItems m env (from_json p.api) args [] s'.world.2 = (.ok values, created, heap) →
    p.callAttr o (cString function) values (s'.world.1, heap) = (.ok ret, w) →
    to_json (p.objects w.1) rounds stack ret = some (.error e) → e.isErrorAlreadySet = true

/-- The condition on an operation, in the state before it, with the mutex held. -/
def Converts : Option (PythonState S) → PyOp → Prop
  | none, _ => True
  | some s, .execute _ args => ArgvConverts m env p args s.held
  | some s, .load filename args => files filename = none ∨ ArgvConverts m env p args s.held
  | some s, .call function target args => CallConverts m env p rounds stack function target args s.held
  | some _, .install _ _ _ => True

variable {m env p rounds stack files}

/-- What leaves the `try` block of `execute` other than a Python error comes from converting
the arguments. -/
theorem released_execute_iff (code : Bytes) (args : List Json) {s : PythonState S}
    (hs : s.locked = false) :
    Py.Released (Py.after (execute m env p code args s)) ↔ ArgvConverts m env p args s.held := by
  have hrun : ∀ sys argv, Py.Keeps (runCode p code sys argv) := fun sys argv =>
    (Py.keeps_interp _).bind fun _ => (Py.keeps_interp _).bind fun _ => Py.keeps_pure _
  have honly : ∀ sys argv, Py.PythonOnly (runCode p code sys argv) := fun sys argv =>
    (Py.pythonOnly_interp p.setArgv_raises).bind fun _ =>
      (Py.pythonOnly_interp p.exec_raises).bind fun _ => Py.pythonOnly_pure _
  have hkeeps : Py.Keeps (do
      let sys ← Py.interp p.importSys
      Py.withArgs m env p args (runCode p code sys)) :=
    (Py.keeps_interp _).bind fun sys => .withArgs (hrun sys)
  rw [execute, Py.released_locked_iff hkeeps errorRunning hs]
  -- only what comes from the conversion of the arguments can be anything but a Python error
  constructor
  · intro hall sys w fault created heap himport
    have hsys : Py.interp p.importSys s.held = (.returned sys, { s.held with world := w }) := by
      rw [Py.interp, himport]
    have hargs : ∀ fault s',
        Py.withArgs m env p args (runCode p code sys) { s.held with world := w }
          = (.thrown fault, s') → fault.isErrorAlreadySet = true := by
      intro fault s' hthrown
      apply hall fault s'
      rw [Py.bind_of_returned hsys]
      exact hthrown
    exact (Py.withArgs_pythonOnly_iff (honly sys)).mp hargs fault created heap
  · intro hconverts fault s' hbody
    rcases hsys : Py.interp p.importSys s.held with ⟨r, s₁⟩
    cases r with
    | thrown e' =>
        rw [Py.bind_of_thrown hsys] at hbody
        cases hbody
        obtain ⟨e, rfl, himport⟩ := Py.interp_thrown hsys
        exact p.importSys_raises himport
    | stuck =>
        rw [Py.bind_of_stuck hsys] at hbody
        cases hbody
    | returned sys =>
        rw [Py.bind_of_returned hsys] at hbody
        have himport := Py.interp_returned hsys
        exact (Py.withArgs_pythonOnly_iff (honly sys)).mpr
          (fun fault created heap => hconverts sys _ fault created heap himport) fault s' hbody

/-- A file that cannot be opened leaves the mutex alone. -/
theorem released_load_iff (filename : Bytes) (args : List Json) {s : PythonState S}
    (hs : s.locked = false) :
    Py.Released (Py.after (load m env p files filename args s)) ↔
      files filename = none ∨ ArgvConverts m env p args s.held := by
  unfold load
  cases hfile : files filename with
  | none =>
      exact iff_of_true (Py.released_returned_iff.mpr hs) (.inl rfl)
  | some code =>
      rw [released_execute_iff code args hs]
      constructor
      · exact .inr
      · rintro (hnone | hconverts)
        · cases hnone
        · exact hconverts

theorem released_install (name : Bytes) (f : ForeignFn) (nargs : UInt64) {s : PythonState S}
    (hs : s.locked = false) : Py.Released (Py.after (install p name f nargs s)) := by
  have hkeeps : Py.Keeps (do
      Py.interp (p.setItem (cString name) f nargs)
      pure ({ value := true } : Result Bool)) :=
    (Py.keeps_interp _).bind fun _ => Py.keeps_pure _
  have honly : Py.PythonOnly (do
      Py.interp (p.setItem (cString name) f nargs)
      pure ({ value := true } : Result Bool)) :=
    (Py.pythonOnly_interp p.setItem_raises).bind fun _ => Py.pythonOnly_pure _
  rw [install, Py.released_locked_iff hkeeps (notInstalled name) hs]
  exact fun e s' h => honly s.held e s' h

theorem keeps_findFunction (function target : Bytes) :
    Py.Keeps (findFunction p function target) := by
  have htarget : Py.Keeps (findTarget p target) := by
    unfold findTarget
    by_cases h : target = []
    · rw [if_pos h]
      exact Py.keeps_pure _
    · rw [if_neg h]
      apply (Py.keeps_interp _).bind
      intro found
      cases found with
      | true => exact (Py.keeps_interp _).bind fun _ => Py.keeps_pure _
      | false => exact Py.keeps_pure _
  apply htarget.bind
  intro o
  cases o with
  | none => exact Py.keeps_pure _
  | some o =>
      apply Py.Keeps.bind
      · intro s
        rfl
      · intro has
        cases has with
        | true => exact Py.keeps_pure _
        | false => exact Py.keeps_pure _

theorem keeps_toJson (ret : O) : Py.Keeps (Py.toJson p rounds stack ret) := by
  intro s
  unfold Py.toJson
  split <;> rfl

/-- What the `try` block of `call` throws other than a Python error comes from `to_json`. -/
theorem released_callFunction_iff (function : Bytes) (o : O) (pyargs : List O)
    {s : PythonState S} (hs : s.locked = true) :
    Py.Released (Py.after (callFunction p rounds stack function o pyargs s)) ↔
      ∀ ret w e, p.callAttr o (cString function) pyargs s.world = (.ok ret, w) →
        to_json (p.objects w.1) rounds stack ret = some (.error e) → e.isErrorAlreadySet = true := by
  have hkeeps : Py.Keeps (do
      let ret ← Py.interp (p.callAttr o (cString function) pyargs)
      Py.toJson p rounds stack ret) := (Py.keeps_interp _).bind keeps_toJson
  rw [callFunction, Py.released_try_iff hkeeps errorRunning hs]
  -- only what comes from `to_json` can be anything but a Python error
  constructor
  · intro hall ret w e hcall hjson
    have hinterp : Py.interp (p.callAttr o (cString function) pyargs) s
        = (.returned ret, { s with world := w }) := by
      rw [Py.interp, hcall]
    apply hall (.thrown e) { s with world := w }
    rw [Py.bind_of_returned hinterp, Py.toJson, hjson]
    rfl
  · intro hall fault s' hthrown
    rcases hinterp : Py.interp (p.callAttr o (cString function) pyargs) s with ⟨r, s₁⟩
    cases r with
    | thrown e' =>
        rw [Py.bind_of_thrown hinterp] at hthrown
        cases hthrown
        obtain ⟨e, rfl, hcall⟩ := Py.interp_thrown hinterp
        exact p.callAttr_raises hcall
    | stuck =>
        rw [Py.bind_of_stuck hinterp] at hthrown
        cases hthrown
    | returned ret =>
        rw [Py.bind_of_returned hinterp, Py.toJson] at hthrown
        cases hjson : to_json (p.objects s₁.world.1) rounds stack ret with
        | none =>
            rw [hjson] at hthrown
            cases hthrown
        | some converted =>
            rw [hjson] at hthrown
            cases converted with
            | ok j => cases hthrown
            | error e' =>
                cases hthrown
                exact hall ret _ e' (Py.interp_returned hinterp) hjson

/-- Where there is no function to call, nothing more is converted. -/
theorem callConverts_of_not_found {function target : Bytes} {args : List Json}
    {s s₁ : PythonState S} {r : Ended (Result Json ⊕ O)}
    (hfind : findFunction p function target s = (r, s₁)) (hthrown : ∀ e, r ≠ .thrown e)
    (hfound : ∀ o, r ≠ .returned (.inr o)) : CallConverts m env p rounds stack function target args s := by
  constructor
  · intro e s' h
    rw [hfind] at h
    cases h
    exact hthrown e rfl
  · intro o s' e created heap h
    rw [hfind] at h
    cases h
    exact absurd rfl (hfound o)
  · intro o s' values created heap ret w e h
    rw [hfind] at h
    cases h
    exact absurd rfl (hfound o)

/-- Where there is one, what is left are its arguments and its result. -/
theorem callConverts_of_found {function target : Bytes} {args : List Json}
    {s s₁ : PythonState S} {o : O} {converted : Except Fault (List O)} {created : List ViewId}
    {heap : Heap} (hfind : findFunction p function target s = (.returned (.inr o), s₁))
    (hargs : convertItems m env (from_json p.api) args [] s₁.world.2 = (converted, created, heap)) :
    CallConverts m env p rounds stack function target args s ↔
      (∀ fault, converted ≠ .error fault) ∧
      ∀ values ret w e, converted = .ok values →
        p.callAttr o (cString function) values (s₁.world.1, heap) = (.ok ret, w) →
        to_json (p.objects w.1) rounds stack ret = some (.error e) → e.isErrorAlreadySet = true := by
  constructor
  · intro h
    constructor
    · rintro fault rfl
      exact h.arguments o s₁ fault created heap hfind hargs
    · rintro values ret w e rfl hcall hjson
      exact h.result o s₁ values created heap ret w e hfind hargs hcall hjson
  · rintro ⟨harguments, hresult⟩
    constructor
    · intro e s' h
      rw [hfind] at h
      cases h
    · intro o' s' fault created' heap' h hconvert
      rw [hfind] at h
      cases h
      rw [hargs] at hconvert
      cases hconvert
      exact harguments fault rfl
    · intro o' s' values created' heap' ret w e h hconvert
      rw [hfind] at h
      cases h
      rw [hargs] at hconvert
      cases hconvert
      exact hresult values ret w e rfl

/-- Once the function is found, the arguments and the result decide. -/
theorem released_foundCall_iff {function : Bytes} (o : O) {args : List Json} {s₁ : PythonState S}
    (hlocked : s₁.locked = true) {converted : Except Fault (List O)} {created : List ViewId}
    {heap : Heap}
    (hargs : convertItems m env (from_json p.api) args [] s₁.world.2 = (converted, created, heap)) :
    Py.Released (Py.after (Py.withArgs m env p args (callFunction p rounds stack function o) s₁)) ↔
      (∀ fault, converted ≠ .error fault) ∧
      ∀ values ret w e, converted = .ok values →
        p.callAttr o (cString function) values (s₁.world.1, heap) = (.ok ret, w) →
        to_json (p.objects w.1) rounds stack ret = some (.error e) → e.isErrorAlreadySet = true := by
  cases converted with
  | error fault =>
      obtain ⟨w, hw⟩ := Py.withArgs_of_error (f := callFunction p rounds stack function o) hargs
      rw [hw, Py.released_thrown_iff]
      apply iff_of_false
      · show s₁.locked ≠ false
        rw [hlocked]
        decide
      · rintro ⟨harguments, -⟩
        exact harguments fault rfl
  | ok values =>
      rw [Py.released_withArgs_of_ok hargs, released_callFunction_iff function o values
        (s := { s₁ with world := (s₁.world.1, heap) }) hlocked]
      constructor
      · intro hall
        refine ⟨fun e he => (by cases he), ?_⟩
        rintro values' ret w e he
        cases he
        exact hall ret w e
      · rintro ⟨-, hresult⟩ ret w e
        exact hresult values ret w e rfl

/-- Outside of the `try` block every exception keeps the mutex locked. -/
theorem released_call_iff (function target : Bytes) (args : List Json) {s : PythonState S}
    (hs : s.locked = false) :
    Py.Released (Py.after (call m env p rounds stack function target args s)) ↔
      CallConverts m env p rounds stack function target args s.held := by
  have hheld := keeps_findFunction (p := p) function target s.held
  unfold call
  rw [Py.bind_of_returned (Py.lock_of_unlocked hs)]
  rcases hfind : findFunction p function target s.held with ⟨r, s₁⟩
  rw [hfind] at hheld
  have hlocked : s₁.locked = true := hheld
  cases r with
  | thrown e =>
      rw [Py.bind_of_thrown hfind, Py.released_thrown_iff, hlocked]
      apply iff_of_false (by decide)
      intro hconverts
      exact hconverts.lookup e s₁ hfind
  | stuck =>
      rw [Py.bind_of_stuck hfind]
      exact iff_of_true (Py.released_stuck s₁)
        (callConverts_of_not_found hfind (fun e h => by cases h) fun o h => by cases h)
  | returned found =>
      rw [Py.bind_of_returned hfind]
      cases found with
      | inl result =>
          -- a result that says what was not found
          apply iff_of_true
          · exact Py.released_returned_iff.mpr rfl
          · exact callConverts_of_not_found hfind (fun e h => by cases h) fun o h => by cases h
      | inr o =>
          rcases hargs : convertItems m env (from_json p.api) args [] s₁.world.2
            with ⟨converted, created, heap⟩
          rw [callConverts_of_found hfind hargs]
          exact released_foundCall_iff o hlocked hargs

/-- **The Python mutex.** In a run of operations the mutex is unlocked after each operation
that ends if and only if the arguments of each can be converted, or fail with a Python error
inside a `try` block, and `to_json` converts what each call returns, or meets a Python
error. -/
theorem released_iff (ops : List PyOp) {s : PythonState S} (hs : s.locked = false) :
    Runs.Always (step m env p rounds stack files) Py.Released (some s) ops ↔
      Runs.Along (step m env p rounds stack files) (Converts m env p rounds stack files) (some s) ops := by
  have hstep : ∀ o op, Py.Released o →
      (Py.Released (step m env p rounds stack files o op) ↔ Converts m env p rounds stack files o op) := by
    intro o op ho
    cases o with
    | none => exact iff_of_true ho trivial
    | some s =>
        have hopen := ho s rfl
        cases op with
        | execute code args => exact released_execute_iff code args hopen
        | load filename args => exact released_load_iff filename args hopen
        | call function target args => exact released_call_iff function target args hopen
        | install name f nargs => exact iff_of_true (released_install name f nargs hopen) trivial
  have hinit : Py.Released (some s) := by
    rintro s' hs'
    cases hs'
    exact hs
  have hany : Runs.Along (step m env p rounds stack files) (fun _ _ => True) (some s) ops :=
    Runs.along_of_events.mpr fun _ _ => trivial
  exact Runs.always_iff_along (fun _ h => h) (fun o op ho _ hc => (hstep o op ho).mpr hc)
    (fun o op ho _ hc => mt (hstep o op ho).mp hc) hinit hany

/-- An interpreter with one object, which every call returns. -/
def oneObject (objects : PyObjects Unit) : Interpreter Unit Unit where
  api := .blank
  objects _ := objects
  mainModule := ()
  poesie := ()
  importSys w := (.ok (), w)
  setArgv _ _ w := (.ok (), w)
  exec _ w := (.ok (), w)
  contains _ w := (.ok true, w)
  getItem _ w := (.ok (), w)
  hasattr _ _ w := (true, w)
  callAttr _ _ _ w := (.ok (), w)
  setItem _ _ _ w := (.ok (), w)
  importSys_raises h := by cases h
  setArgv_raises h := by cases h
  exec_raises h := by cases h
  callAttr_raises h := by cases h
  setItem_raises h := by cases h

/-- Nobody holds the mutex, and there are no views. -/
def quietState : PythonState Unit := ⟨false, (), Store.empty fun _ => 0⟩

/-- A function that returns the integer 5 is called, and its file cannot be loaded. -/
theorem released_sample :
    Runs.Always (step (Margo.loopback noName) (fun _ => .quiet) (oneObject
        { PyObjects.plain with isinstance := fun type _ => type = .int_, castInt := fun _ => 5 }) 10 10
        fun _ => none) Py.Released (some quietState)
      [.call (text "f") [] [], .load (text "f.py") []] := by
  refine (released_iff _ rfl).mpr ⟨?_, .inl rfl, trivial⟩
  constructor
  · intro e s' h
    cases h
  · intro o s' e created heap h hargs
    cases hargs
  · intro o s' values created heap ret w e h hargs hcall hjson
    cases hjson

/-- A function returns a set: `to_json` throws, nothing catches, and no operation can lock the
mutex again. -/
theorem released_fails :
    (¬ ∀ (ops : List PyOp), Runs.Always
      (step (Margo.loopback noName) (fun _ => .quiet) (oneObject .plain) 10 10 fun _ => none)
      Py.Released (some quietState) ops) ∧
    ((step (Margo.loopback noName) (fun _ => .quiet) (oneObject .plain) 10 10 (fun _ => none)
        (some quietState) (.call (text "f") [] [])).map fun s =>
      (s.locked, (Py.lock s).1 matches .stuck)) = some (true, true) := by
  constructor
  · intro h
    have hopen := h [.call (text "f") [] []] [.call (text "f") [] []] [] rfl _ rfl
    cases hopen
  · rfl

end PythonVm

end Poesie
