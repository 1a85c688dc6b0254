import Poesie.VmCalls

set_option autoImplicit false

/-! # The Ruby backend

`RubyVm` runs scripts with `mrb_load_string`, which reports an exception in `mrb->exc`. All
that it does before and after is outside of any protected call: an exception that is raised
there aborts the process. Strings become C strings through `mrb_str_to_cstr`, which raises one
for anything but a string without a NUL byte.

The interpreter is a parameter (`Mruby`), as is what a value holds in a state of it.
-/

namespace Poesie

open Wire Json SharedPtr Outcomes

/-- A value, as `mrb_value_to_json` tells it apart. -/
inductive MrbNode (O : Type) where
  | nil
  | fixnum (n : Int64)
  | float (x : Float64)
  | true
  | false
  | string (s : Bytes)
  | array (items : List O)
  | hash (entries : List (O × O))
  | other

/-- What the backend uses of mruby. -/
structure Mruby (S O : Type) where
  api : VmApi O
  node : S → O → MrbNode O
  /-- `mrb_str_new_lit(m_mrb, "poesie")` -/
  poesie : O
  /-- Whether a script froze `Object`, whose constants cannot be set then. -/
  objectFrozen : S → Bool
  /-- `mrb_const_set` of `ARGV`. -/
  constSet : List O → S → S
  /-- `mrb_load_string`: what the script returns, or the exception. -/
  loadString : Bytes → S × Heap → Except O O × (S × Heap)
  /-- `mrb_funcall(mrb, exc, "inspect", 0)`. With no caller to raise to, it returns the
  exception that `inspect` raises. -/
  inspect : O → S × Heap → O × (S × Heap)

namespace RubyVm

variable {S O : Type}

section

variable (p : Mruby S O)

/-- What a value holds now. -/
def look (v : O) : VmProg S (MrbNode O) := Prog.total fun s => (p.node s.1 v, s)

/-- `mrb_str_to_cstr` -/
def mrb_str_to_cstr (v : O) : VmProg S Bytes := do
  match ← look p v with
  | .string bytes => if 0 ∈ bytes then Prog.raise else pure bytes
  | _ => Prog.raise

/-- `mrb_value_to_json`, with room for `depth` nested calls on the stack. -/
def mrb_value_to_json : Nat → O → VmProg S Json
  | 0, _ => Prog.stuck
  | depth + 1, v => do
      match ← look p v with
      | .nil => pure null
      | .fixnum n => pure (numberInteger n)
      | .float x => pure (numberFloat x)
      | .true => pure (boolean true)
      | .false => pure (boolean false)
      | .string _ => do
          let bytes ← mrb_str_to_cstr p v
          pure (string bytes)
      | .array items => do
          let out ← items.mapM (mrb_value_to_json depth)
          pure (array out)
      | .hash entries => do
          -- the value is converted before the key
          let out ← entries.mapM fun entry => do
            let value ← mrb_value_to_json depth entry.2
            let key ← mrb_str_to_cstr p entry.1
            pure (key, value)
          pure (object (out.foldl (fun out e => StdMap.assign e.1 e.2 out) []))
      | .other => pure null

variable (m : Margo) (env : ViewId → Env) (depth : Nat)

/-- `mrb_const_set` of `ARGV`, which raises if `Object` is frozen. -/
def setArgv (argv : List O) : VmProg S Unit := fun s =>
  if p.objectFrozen s.1 then (.raised, s) else (.returned (), (p.constSet argv s.1, s.2))

/-- The end of `RubyVm::execute`: an exception becomes an error, a value a JSON value. -/
def finish (outcome : Except O O) : VmProg S (Result Json) :=
  match outcome with
  | .error exc => do
      let message ← Prog.total (p.inspect exc)
      let bytes ← mrb_str_to_cstr p message
      pure { success := false, value := null,
             error := text "Error executing Ruby code: " ++ bytes }
  | .ok ret => do
      let j ← mrb_value_to_json p depth ret
      pure { value := j }

/-- `RubyVm::execute` -/
def execute (code : Bytes) (args : List Json) : VmProg S (Result Json) :=
  withArgs m env (json_to_mrb_value p.api) args fun values => do
    setArgv p (p.poesie :: values)
    let outcome ← Prog.total (p.loadString (cString code))
    finish p depth outcome

/-- `RubyVm::load` -/
def load (files : Bytes → Option Bytes) (filename : Bytes) (args : List Json) :
    VmProg S (Result Json) :=
  loadWith files (fun code => execute p m env depth code args) filename

end

/-! ## When nothing is raised -/

/-- A string without a NUL byte. -/
def IsCString (node : O → MrbNode O) (v : O) : Prop := ∃ bytes, node v = .string bytes ∧ 0 ∉ bytes

/-- The strings and the keys in the value have no NUL byte, all keys are strings, and it is not
nested deeper than the stack allows. -/
def Convertible (node : O → MrbNode O) : Nat → O → Prop
  | 0, _ => False
  | depth + 1, v =>
      match node v with
      | .string _ => IsCString node v
      | .array items => ∀ x ∈ items, Convertible node depth x
      | .hash entries => ∀ e ∈ entries, Convertible node depth e.2 ∧ IsCString node e.1
      | _ => True

section

variable {p : Mruby S O}

theorem gives_look (v : O) (s : S × Heap) : (look p v).Gives s (p.node s.1 v) s := rfl

theorem readOnly_look (v : O) : (look p v).ReadOnly := by
  intro s node s' h
  cases h
  rfl

theorem readOnly_raise {α : Type} : (Prog.raise : VmProg S α).ReadOnly := by
  intro s a s' h
  cases h

theorem returns_mrb_str_to_cstr_iff (v : O) (s : S × Heap) :
    (mrb_str_to_cstr p v).Returns s ↔ IsCString (p.node s.1) v := by
  rw [mrb_str_to_cstr, Prog.returns_bind_of_gives (gives_look v s), IsCString]
  cases p.node s.1 v with
  | string bytes =>
      by_cases hnul : 0 ∈ bytes
      · simp [hnul, Prog.not_returns_raise]
      · simp [hnul, Prog.returns_pure]
  | nil | fixnum n | float x | true | false | array items | hash entries | other =>
      simp [Prog.not_returns_raise]

theorem readOnly_mrb_str_to_cstr (v : O) : (mrb_str_to_cstr p v).ReadOnly := by
  apply (readOnly_look v).bind
  intro node
  cases node with
  | string bytes =>
      by_cases hnul : 0 ∈ bytes
      · simp only [hnul, if_true]
        exact readOnly_raise
      · simp only [hnul, if_false]
        exact Prog.readOnly_pure bytes
  | nil | fixnum n | float x | true | false | array items | hash entries | other =>
      exact readOnly_raise

/-- The conversion of one entry of a hash. -/
theorem readOnly_entry {convert : O → VmProg S Json} (hconvert : ∀ v, (convert v).ReadOnly)
    (e : O × O) : Prog.ReadOnly (do
      let value ← convert e.2
      let key ← mrb_str_to_cstr p e.1
      pure (key, value)) :=
  (hconvert e.2).bind fun _ => (readOnly_mrb_str_to_cstr e.1).bind fun _ => Prog.readOnly_pure _

theorem readOnly_mrb_value_to_json (depth : Nat) (v : O) :
    (mrb_value_to_json p depth v).ReadOnly := by
  induction depth generalizing v with
  | zero =>
      intro s j s' h
      cases h
  | succ depth ih =>
      apply (readOnly_look v).bind
      intro node
      cases node with
      | string bytes =>
          exact (readOnly_mrb_str_to_cstr v).bind fun bytes => Prog.readOnly_pure _
      | array items =>
          exact (Prog.readOnly_mapM ih items).bind fun out => Prog.readOnly_pure _
      | hash entries =>
          exact (Prog.readOnly_mapM (readOnly_entry ih) entries).bind fun out =>
            Prog.readOnly_pure _
      | nil | fixnum n | float x | true | false | other => exact Prog.readOnly_pure _

/-- A value is converted exactly if no string in it is refused. -/
theorem returns_mrb_value_to_json_iff (depth : Nat) (v : O) (s : S × Heap) :
    (mrb_value_to_json p depth v).Returns s ↔ Convertible (p.node s.1) depth v := by
  induction depth generalizing v with
  | zero => exact iff_of_false (Prog.not_returns_stuck s) fun h => h
  | succ depth ih =>
      have hreadOnly := readOnly_mrb_value_to_json (p := p) depth
      rw [mrb_value_to_json, Prog.returns_bind_of_gives (gives_look v s), Convertible]
      cases p.node s.1 v with
      | string bytes =>
          dsimp only
          rw [Prog.returns_bind_iff_left fun bytes s' => Prog.returns_pure _ s']
          exact returns_mrb_str_to_cstr_iff v s
      | array items =>
          dsimp only
          rw [Prog.returns_bind_iff_left fun out s' => Prog.returns_pure _ s',
            Prog.returns_mapM_iff hreadOnly]
          simp only [ih]
      | hash entries =>
          have hentry : ∀ e : O × O, Prog.Returns (do
                let value ← mrb_value_to_json p depth e.2
                let key ← mrb_str_to_cstr p e.1
                pure (key, value)) s ↔
              Convertible (p.node s.1) depth e.2 ∧ IsCString (p.node s.1) e.1 := by
            intro e
            -- the value is converted before its key is read
            apply Prog.returns_bind_of_readOnly (hreadOnly e.2) (ih e.2)
            intro j
            rw [Prog.returns_bind_iff_left fun key s' => Prog.returns_pure _ s']
            exact returns_mrb_str_to_cstr_iff e.1 s
          dsimp only
          rw [Prog.returns_bind_iff_left fun out s' => Prog.returns_pure _ s',
            Prog.returns_mapM_iff (readOnly_entry hreadOnly)]
          simp only [hentry]
      -- nothing else is read of the heap
      | nil | fixnum n | float x | true | false | other =>
          exact iff_of_true (Prog.returns_pure _ s) trivial

end

/-! ## Runs -/

section

variable (p : Mruby S O) (m : Margo) (env : ViewId → Env) (depth : Nat)

/-- The script ends with an exception that can be shown, or with a value that can be
converted. -/
def OutcomeReadable (code : Bytes) (s : S × Heap) : Prop :=
  (∀ exc s', p.loadString code s = (.error exc, s') →
    IsCString (p.node (p.inspect exc s').2.1) (p.inspect exc s').1) ∧
  ∀ ret s', p.loadString code s = (.ok ret, s') → Convertible (p.node s'.1) depth ret

/-- The condition on the state before `execute`. -/
def Executable (code : Bytes) (args : List Json) (s : S × Heap) : Prop :=
  ∃ values created heap,
    convertItems m env (json_to_mrb_value p.api) args [] s.2 = (.ok values, created, heap) ∧
    p.objectFrozen s.1 = false ∧
    OutcomeReadable p depth (cString code) (p.constSet (p.poesie :: values) s.1, heap)

end

section

variable {p : Mruby S O} {m : Margo} {env : ViewId → Env} {depth : Nat}

theorem returns_finish_iff (code : Bytes) (s : S × Heap) :
    (finish p depth (p.loadString code s).1).Returns (p.loadString code s).2 ↔
      OutcomeReadable p depth code s := by
  unfold OutcomeReadable
  rcases p.loadString code s with ⟨outcome, s'⟩
  cases outcome with
  | error exc =>
      rw [finish, Prog.returns_bind_of_gives (Prog.gives_total _ _),
        Prog.returns_bind_iff_left fun bytes s'' => Prog.returns_pure _ s'',
        returns_mrb_str_to_cstr_iff]
      constructor
      · intro h
        refine ⟨?_, fun ret s'' heq => (by cases heq)⟩
        rintro exc' s'' heq
        cases heq
        exact h
      · rintro ⟨h, -⟩
        exact h exc s' rfl
  | ok ret =>
      rw [finish, Prog.returns_bind_iff_left fun j s'' => Prog.returns_pure _ s'',
        returns_mrb_value_to_json_iff]
      constructor
      · intro h
        refine ⟨fun exc s'' heq => (by cases heq), ?_⟩
        rintro ret' s'' heq
        cases heq
        exact h
      · rintro ⟨-, h⟩
        exact h ret s' rfl

/-- `execute` returns exactly if each unprotected call does. -/
theorem returns_execute_iff (code : Bytes) (args : List Json) (s : S × Heap) :
    (execute p m env depth code args).Returns s ↔ Executable p m env depth code args s := by
  rw [execute, returns_withArgs_iff]
  apply exists₃_congr
  intro values created heap
  apply and_congr_right
  intro _
  cases hfrozen : p.objectFrozen s.1 with
  | true =>
      apply iff_of_false
      · rintro ⟨r, s', h⟩
        obtain ⟨u, s₁, hset, -⟩ := Prog.gives_bind_iff.mp h
        simp only [Prog.Gives, setArgv, hfrozen, if_true] at hset
        cases hset
      · rintro ⟨hfalse, -⟩
        cases hfalse
  | false =>
      have hset : (setArgv p (p.poesie :: values)).Gives (s.1, heap) ()
          (p.constSet (p.poesie :: values) s.1, heap) := by
        simp only [Prog.Gives, setArgv, hfrozen, Bool.false_eq_true, if_false]
      rw [Prog.returns_bind_of_gives hset, Prog.returns_bind_of_gives (Prog.gives_total _ _),
        returns_finish_iff, and_iff_right rfl]

end

end RubyVm

/-- What happens to a VM: a script is run, or something else changes it, such as `call` and
`install`. -/
inductive MrbOp (S : Type) where
  | execute (code : Bytes) (args : List Json)
  | load (filename : Bytes) (args : List Json)
  | other (change : S × Heap → S × Heap)

namespace RubyVm

variable {S O : Type}

section

variable (p : Mruby S O) (m : Margo) (env : ViewId → Env) (depth : Nat)
  (files : Bytes → Option Bytes)

/-- One operation; `none` once one has not ended with a result. -/
def step : Option (S × Heap) → MrbOp S → Option (S × Heap)
  | none, _ => none
  | some s, .execute code args => (execute p m env depth code args).after s
  | some s, .load filename args => (load p m env depth files filename args).after s
  | some s, .other change => some (change s)

/-- The condition on an operation, in the state before it. -/
def Orderly (s : S × Heap) : MrbOp S → Prop
  | .execute code args => Executable p m env depth code args s
  | .load filename args =>
      ∀ code, files filename = some code → Executable p m env depth code args s
  | .other _ => True

end

theorem step_ne_none_iff {p : Mruby S O} {m : Margo} {env : ViewId → Env} {depth : Nat}
    {files : Bytes → Option Bytes} (s : S × Heap) (op : MrbOp S) :
    step p m env depth files (some s) op ≠ none ↔ Orderly p m env depth files s op := by
  cases op with
  | execute code args => exact Prog.after_ne_none_iff.trans (returns_execute_iff code args s)
  | load filename args =>
      refine Prog.after_ne_none_iff.trans (returns_loadWith_iff.trans ?_)
      simp only [returns_execute_iff]
      rfl
  | other change => exact iff_of_true (by simp [step]) trivial

end RubyVm

end Poesie
