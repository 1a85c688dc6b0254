import Poesie.StackCalls

set_option autoImplicit false

/-! # When a script of the JavaScript backend returns

`JavascriptVm::execute` makes `process.argv` out of its arguments, runs the script under
protection and reads its result. A run of operations is taken apart into the calls that are not
protected: each of them has its condition on the state that it finds.
-/

namespace Poesie

open Wire Json SharedPtr Outcomes

namespace JavascriptVm

open DukStack

variable (h : DukHost) (z : DukSizes) (m : Margo) (env : ViewId → Env) (depth : Nat)

/-! ## Conditions -/

/-- The object `process` of the global object on top can be read, and made if there is none. -/
def ProcessReadable (t : DukThread) : Prop :=
  GetsAt h z (-1) (text "process") t ∧
    (getPropString h z (-1) (text "process")).Ensures t fun found t₁ => found = false →
      (pop 1).Ensures t₁ fun _ t₂ => t₂.Room 1 ∧
        (pushObject false).Ensures t₂ fun _ t₃ =>
          PutsAt h.toDukCode z (-2) (.name (text "process")) t₃ ∧
            (putProp h.toDukCode z (-2) (.name (text "process"))).Ensures t₃ fun _ t₄ =>
              GetsAt h z (-1) (text "process") t₄

/-- The arguments can be converted and put into the array on top, one after the other. -/
def ArgsPuttable (i : Nat) : List Json → DukThread → Prop
  | [], _ => True
  | arg :: rest, t =>
      Pushable h.toDukCode z m env arg [] t ∧
        (DukStack.JSONtoDukValue h.toDukCode z m env arg []).Ensures t fun _ t₁ =>
          PutsAt h.toDukCode z (-2) (.index i) t₁ ∧
            (putProp h.toDukCode z (-2) (.index i)).Ensures t₁ fun _ t₂ =>
              ArgsPuttable (i + 1) rest t₂

/-- There is an object `process`, and the array that is made of the arguments can be assigned to
its property `argv`. -/
def ArgvSettable (args : List Json) (t : DukThread) : Prop :=
  t.Room 1 ∧ pushGlobalObject.Ensures t fun _ t₁ =>
    ProcessReadable h z t₁ ∧ (pushProcess h z).Ensures t₁ fun _ t₂ =>
      t₂.Room 1 ∧ (pushObject true).Ensures t₂ fun _ t₃ =>
        ArgsPuttable h z m env 0 (string (text "poesie") :: args) t₃ ∧
          (putArgs h z m env 0 (string (text "poesie") :: args)).Ensures t₃ fun _ t₄ =>
            PutsAt h.toDukCode z (-2) (.name (text "argv")) t₄

/-- What the script returns can be read. An error becomes a string. -/
def ResultReadable (failed : Bool) (t : DukThread) : Prop :=
  if failed then t.Room 1 else Reads h.toDukCode z depth (-1) t

/-- The condition on the state before `execute`. -/
def Executable (code : Bytes) (args : List Json) (t : DukThread) : Prop :=
  ArgvSettable h z m env args t ∧ (setArgv h z m env args).Ensures t fun _ t₁ =>
    t₁.Room (z.room .eval) ∧ (pevalLstring h z code).Ensures t₁ fun failed t₂ =>
      ResultReadable h z depth failed t₂

variable {h z m env depth} {t : DukThread}

/-! ## Steps of an execution -/

/-- What lies on top can be popped. -/
theorem returns_pop {below above : List DukItem} {n : Nat} (hstack : t.stack = below ++ above)
    (hn : above.length = n) : (pop n).Returns t :=
  ⟨(), _, gives_pop below above hstack hn⟩

theorem returns_pushProcess_iff : (pushProcess h z).Returns t ↔ ProcessReadable h z t := by
  refine Prog.returns_bind_iff (returns_getPropString_iff (-1) _) fun found t₁ hgives => ?_
  obtain ⟨item, h₁⟩ := ensures_getPropString (-1) _ found t₁ hgives
  cases found with
  | true => exact iff_of_true (Prog.returns_pure () t₁) fun hfalse => nomatch hfalse
  | false =>
      -- the undefined value is popped, and an object is made
      refine Iff.trans ?_ (forall_prop_of_true rfl).symm
      have hpop : (pop 1).Returns t₁ ↔ True := iff_of_true (returns_pop h₁ rfl) trivial
      refine (Prog.returns_bind_iff hpop fun _ t₂ _ => ?_).trans (Iff.of_eq (true_and _))
      refine Prog.returns_bind_iff (returns_pushObject_iff false) fun _ t₃ _ => ?_
      refine Prog.returns_bind_iff (returns_putProp_iff (-2) _) fun _ t₄ _ => ?_
      exact (Prog.returns_bind_iff_left fun _ t₅ => Prog.returns_pure () t₅).trans
        (returns_getPropString_iff (-1) _)

theorem returns_putArgs_iff (i : Nat) (args : List Json) (t : DukThread) :
    (putArgs h z m env i args).Returns t ↔ ArgsPuttable h z m env i args t := by
  induction args generalizing i t with
  | nil => exact iff_of_true (Prog.returns_pure () t) trivial
  | cons arg rest ih =>
      rw [putArgs, ArgsPuttable]
      refine Prog.returns_bind_iff (returns_JSONtoDukValue_iff arg [] t) fun _ t₁ _ => ?_
      exact Prog.returns_bind_iff (returns_putProp_iff (-2) _) fun _ t₂ _ => ih (i + 1) t₂

theorem returns_setArgv_iff (args : List Json) :
    (setArgv h z m env args).Returns t ↔ ArgvSettable h z m env args t := by
  refine Prog.returns_bind_iff returns_pushGlobalObject_iff fun _ t₁ h₁ => ?_
  obtain ⟨global, h₁⟩ := ensures_pushGlobalObject () t₁ h₁
  refine Prog.returns_bind_iff returns_pushProcess_iff fun _ t₂ h₂ => ?_
  obtain ⟨process, h₂⟩ := ensures_pushProcess () t₂ h₂
  refine Prog.returns_bind_iff (returns_pushObject_iff true) fun _ t₃ h₃ => ?_
  obtain ⟨argv, h₃⟩ := ensures_pushObject true _ t₃ h₃
  refine Prog.returns_bind_iff (returns_putArgs_iff 0 _ t₃) fun _ t₄ h₄ => ?_
  have h₄ := ensures_putArgs 0 _ t₃ () t₄ h₄
  -- the global object and `process` are left to be popped
  refine (Prog.returns_bind_iff (returns_putProp_iff (-2) _) (P := fun _ _ => True)
    fun _ t₅ h₅ => ?_).trans (and_iff_left fun _ _ _ => trivial)
  have h₅ : t₅.stack = t₂.stack := ensures_putProp (h₄.trans h₃) () t₅ h₅
  have h₅ : t₅.stack = t.stack ++ [global, process] := by
    rw [h₅, h₂, h₁, List.append_assoc]
    rfl
  exact iff_of_true (returns_pop h₅ rfl) trivial

/-- The error that a script has left becomes a string. -/
theorem returns_errorOnTop_iff {message : String} {below : List DukItem} {v : DukValue}
    (hstack : t.stack = below ++ [.value v]) :
    (errorOnTop h message).Returns t ↔ t.Room 1 := by
  have hstring : (safeToString h).Returns t ↔ t.Room 1 := by
    refine (Prog.returns_bind_of_gives (gives_itemAt_top hstack)).trans ?_
    refine returns_need_bind_iff.trans (and_iff_left ?_)
    have hsafe : (inWorld (Prog.total (h.safeToString v))).Gives t (h.safeToString v t.world).1
        ⟨(h.safeToString v t.world).2, t.stack⟩ := rfl
    refine (Prog.returns_bind_of_gives hsafe).mpr ?_
    rw [hstack]
    exact (Prog.returns_bind_of_gives (gives_replace_top _ _)).mpr (Prog.returns_pure _ _)
  exact (Prog.returns_bind_iff_left fun what t₁ => Prog.returns_pure _ t₁).trans hstring

/-- The result is read, and popped. -/
theorem returns_finish_iff {message : String} {below : List DukItem} {v : DukValue}
    (hstack : t.stack = below ++ [.value v]) (failed : Bool) :
    (finish h z depth failed message).Returns t ↔ ResultReadable h z depth failed t := by
  have hpop : ∀ result t₁, (resultOnTop h z depth failed message).Gives t result t₁ →
      ((pop 1 >>= fun _ => (pure result : DukStack (Result Json))).Returns t₁ ↔ True) := by
    intro result t₁ hgives
    obtain ⟨item, h₁⟩ : ∃ item, t₁.stack = below ++ [item] := by
      cases failed with
      | true => exact ensures_errorOnTop hstack result t₁ hgives
      | false => exact ⟨_, (ensures_valueOnTop result t₁ hgives).trans hstack⟩
    exact iff_of_true ((Prog.returns_bind_of_gives (gives_pop below [item] h₁ rfl)).mpr
      (Prog.returns_pure result _)) trivial
  refine (Prog.returns_bind_iff Iff.rfl hpop).trans
    ((and_iff_left fun _ _ _ => trivial).trans ?_)
  cases failed with
  | true => exact returns_errorOnTop_iff hstack
  | false =>
      exact (Prog.returns_bind_iff_left fun j t₁ => Prog.returns_pure _ t₁).trans
        (returns_dukValueToJSON_iff depth (-1) t)

/-- A protected call that takes nothing off the stack leaves a result or an error on top. -/
theorem exists_gives_safeCall
    (run : List DukItem → DukWorld → Except DukValue DukValue × DukWorld) (t : DukThread) :
    ∃ failed v w, (safeCall 0 run).Gives t failed ⟨w, t.stack ++ [DukItem.value v]⟩ := by
  unfold Prog.Gives safeCall
  simp only [Nat.zero_le, if_true, Nat.sub_zero, List.take_length]
  rcases run (t.stack.drop t.stack.length) t.world with ⟨r, w⟩
  cases r with
  | ok v => exact ⟨false, v, w, rfl⟩
  | error e => exact ⟨true, e, w, rfl⟩

/-- A script that is run under protection returns. -/
theorem returns_pevalLstring_iff (code : Bytes) :
    (pevalLstring h z code).Returns t ↔ t.Room (z.room .eval) := by
  obtain ⟨failed, v, w, hgives⟩ := exists_gives_safeCall (fun _ => h.eval code) t
  exact (returns_needFor_bind_iff _).trans (and_iff_left ⟨failed, _, hgives⟩)

/-- What a script leaves on top is a value. -/
theorem value_of_pevalLstring {code : Bytes} {failed : Bool} {t' : DukThread}
    (hgives : (pevalLstring h z code).Gives t failed t') :
    ∃ v, t'.stack = t.stack ++ [DukItem.value v] := by
  obtain ⟨u, t₁, hneed, hcall⟩ := Prog.gives_bind_iff.mp hgives
  obtain ⟨failed', v, w, hexists⟩ := exists_gives_safeCall (fun _ => h.eval code) t₁
  obtain ⟨-, rfl⟩ := hexists.unique hcall
  exact ⟨v, by rw [ensures_needFor _ u t₁ hneed]⟩

/-- `execute` returns exactly if each unprotected call does. -/
theorem returns_execute_iff (code : Bytes) (args : List Json) :
    (execute h z m env depth code args).Returns t ↔ Executable h z m env depth code args t := by
  refine Prog.returns_bind_iff (returns_setArgv_iff args) fun _ t₁ _ => ?_
  refine Prog.returns_bind_iff (returns_pevalLstring_iff code) fun failed t₂ hgives => ?_
  obtain ⟨v, h₂⟩ := value_of_pevalLstring hgives
  exact returns_finish_iff h₂ failed

end JavascriptVm

/-! ## Runs -/

/-- What happens to a VM: a script is run, or something else changes it, such as `call` and
`install`. -/
inductive DukOp where
  | execute (code : Bytes) (args : List Json)
  | load (filename : Bytes) (args : List Json)
  | other (change : DukThread → DukThread)

namespace JavascriptVm

variable (h : DukHost) (z : DukSizes) (m : Margo) (env : ViewId → Env) (depth : Nat)
  (files : Bytes → Option Bytes)

/-- One operation; `none` once one has not ended with a result. -/
def step : Option DukThread → DukOp → Option DukThread
  | none, _ => none
  | some t, .execute code args => (execute h z m env depth code args).after t
  | some t, .load filename args => (load h z m env depth files filename args).after t
  | some t, .other change => some (change t)

/-- The condition on an operation, in the state before it. -/
def Orderly (t : DukThread) : DukOp → Prop
  | .execute code args => Executable h z m env depth code args t
  | .load filename args =>
      ∀ code, files filename = some code → Executable h z m env depth code args t
  | .other _ => True

variable {h z m env depth files}

theorem step_ne_none_iff (t : DukThread) (op : DukOp) :
    step h z m env depth files (some t) op ≠ none ↔ Orderly h z m env depth files t op := by
  cases op with
  | execute code args => exact Prog.after_ne_none_iff.trans (returns_execute_iff code args)
  | load filename args =>
      refine Prog.after_ne_none_iff.trans ?_
      unfold load Orderly
      -- a file that cannot be opened is an error in the result
      cases hfile : files filename with
      | none => exact iff_of_true (Prog.returns_pure _ t) (by simp [hfile])
      | some code => exact (returns_execute_iff code args).trans (by simp [hfile])
  | other change => exact iff_of_true (by simp [step]) trivial

end JavascriptVm

end Poesie
