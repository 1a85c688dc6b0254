import Poesie.StackBalance

set_option autoImplicit false

/-! # The JavaScript backend on its stack

The operations of `JavascriptVm`, call by call, on the one value stack that all of them share. An
operation that returns leaves the stack as it was, with one exception: where `call` does not find
the function, the target or the method it is asked for, a value stays on the stack for ever.

What the functions and scripts do is a parameter, as is what is read from a value that is no
object.
-/

namespace Poesie

open Wire Json SharedPtr Outcomes

/-- What the operations need besides `DukCode`. -/
structure DukHost extends DukCode where
  /-- A property of a value that is no object, and whether there is one. -/
  getPrimitive : DukValue → Bytes → DukWorld → CodeEnd (Bool × DukValue) × DukWorld
  /-- How a property of such a value is read. -/
  primitiveSource : DukValue → Bytes → DukHeap → DukSource
  /-- A call of the function that comes first, with the arguments behind it. -/
  pcall : List DukItem → DukWorld → Except DukValue DukValue × DukWorld
  /-- The same with the value of `this` between them. -/
  pcallMethod : List DukItem → DukWorld → Except DukValue DukValue × DukWorld

namespace DukHost

variable (h : DukHost)

/-- How a property of a value is read. -/
def source (v : DukValue) (key : Bytes) (heap : DukHeap) : DukSource :=
  match v with
  | .object o => heap.source o key
  | v => h.primitiveSource v key heap

/-- A property of a value. -/
def get (v : DukValue) (key : Bytes) : Duk (Bool × DukValue) :=
  match v with
  | .object o => Duk.getProp h.toDukCode o key
  | v => Duk.run (h.getPrimitive v key)

end DukHost

namespace DukStack

variable (h : DukHost) (z : DukSizes) (m : Margo) (env : ViewId → Env)

/-! ## Calls of Duktape -/

/-- `duk_push_global_object` -/
def pushGlobalObject : DukStack Unit := do
  let global ← inWorld (Duk.inspect fun h => h.globalObject)
  push (.object global)

/-- `duk_get_prop_string`: the value is pushed, `undefined` where there is no such property. -/
def getPropString (index : Int) (key : Bytes) : DukStack Bool := do
  match ← itemAt index with
  | some (.value v) => do
      needFor z fun heap => .get (h.source v key heap)
      let (found, v) ← inWorld (h.get v key)
      append (.value v)
      pure found
  | _ => Prog.raise

/-- `duk_remove` -/
def remove (index : Int) : DukStack Unit := fun t =>
  match normalize index t.stack.length with
  | some i => (.returned (), { t with stack := t.stack.eraseIdx i })
  | none => (.raised, t)

/-- `duk_insert`: the value on top is moved to the index. -/
def insert (index : Int) : DukStack Unit := fun t =>
  match normalize index t.stack.length, t.stack.getLast? with
  | some i, some item => (.returned (), { t with stack := t.stack.dropLast.insertIdx i item })
  | _, _ => (.raised, t)

/-- `duk_dup` -/
def dup (index : Int) : DukStack Unit := do
  need 1
  match ← itemAt index with
  | some item => append item
  | none => Prog.raise

/-- `duk_get_global_string` -/
def getGlobalString (key : Bytes) : DukStack Bool := do
  pushGlobalObject
  let found ← getPropString h z (-1) key
  remove (-2)
  pure found

/-- `duk_put_global_string` -/
def putGlobalString (key : Bytes) : DukStack Unit := do
  pushGlobalObject
  insert (-2)
  putProp h.toDukCode z (-2) (.name key)
  pop 1

/-- `duk_safe_call`: the values on top give way to the result or to the error. It says whether
there was an error. -/
def safeCall (n : Nat) (run : List DukItem → DukWorld → Except DukValue DukValue × DukWorld) :
    DukStack Bool := fun t =>
  if n ≤ t.stack.length then
    let below := t.stack.take (t.stack.length - n)
    match run (t.stack.drop (t.stack.length - n)) t.world with
    | (.ok v, w) => (.returned false, ⟨w, below ++ [DukItem.value v]⟩)
    | (.error e, w) => (.returned true, ⟨w, below ++ [DukItem.value e]⟩)
  else (.raised, t)

/-- `duk_pcall` -/
def pcall (nargs : Nat) : DukStack Bool := safeCall (nargs + 1) h.pcall

/-- `duk_pcall_method` -/
def pcallMethod (nargs : Nat) : DukStack Bool := safeCall (nargs + 2) h.pcallMethod

/-- `duk_peval_lstring` -/
def pevalLstring (code : Bytes) : DukStack Bool := do
  needFor z fun _ => .eval
  safeCall 0 fun _ => h.eval code

/-- `duk_safe_to_string` of what is on top, which becomes that string. -/
def safeToString : DukStack Bytes := do
  match ← itemAt (-1) with
  | some (.value v) => do
      need 1
      let s ← inWorld (Prog.total (h.safeToString v))
      replace (-1) (.value (.string s))
      pure (cString s)
  | _ => Prog.raise

/-- `duk_push_c_function` -/
def pushCFunction (nargs : UInt64) : DukStack Unit :=
  match JavascriptVm.pushCFunction (JavascriptVm.dukIdx nargs) with
  | some _ => do
      need 1
      let f ← inWorld Duk.pushFunction
      append (.value (.object f))
  | none => Prog.raise

end DukStack

/-! ## The operations -/

namespace JavascriptVm

open DukStack

variable (h : DukHost) (z : DukSizes) (m : Margo) (env : ViewId → Env) (depth : Nat)

/-- A result that says what went wrong. -/
def failure (message : Bytes) : Result Json := { success := false, error := message, value := null }

/-- The error on top becomes that of a failed result. -/
def errorOnTop (message : String) : DukStack (Result Json) := do
  let what ← safeToString h
  pure (failure (text message ++ what))

/-- What is on top becomes the value of a result. -/
def valueOnTop : DukStack (Result Json) := do
  let j ← DukStack.dukValueToJSON h.toDukCode z depth (-1)
  pure { value := j }

/-- The result or the error that a protected call has left on top. -/
def resultOnTop (failed : Bool) (message : String) : DukStack (Result Json) :=
  if failed then errorOnTop h message else valueOnTop h z depth

/-- The end of an operation: the result or the error is popped. -/
def finish (failed : Bool) (message : String) : DukStack (Result Json) := do
  let result ← resultOnTop h z depth failed message
  pop 1
  pure result

/-- The object `process` on top of the global object, made if there is none. -/
def pushProcess : DukStack Unit := do
  let found ← getPropString h z (-1) (text "process")
  if found then pure ()
  else do
    -- the undefined value
    pop 1
    let _ ← pushObject false
    putProp h.toDukCode z (-2) (.name (text "process"))
    let _ ← getPropString h z (-1) (text "process")
    pure ()

/-- The arguments, from index `i` of the array on top. -/
def putArgs (i : Nat) : List Json → DukStack Unit
  | [] => pure ()
  | arg :: rest => do
      DukStack.JSONtoDukValue h.toDukCode z m env arg []
      putProp h.toDukCode z (-2) (.index i)
      putArgs (i + 1) rest

/-- `process.argv` is made of the arguments. -/
def setArgv (args : List Json) : DukStack Unit := do
  pushGlobalObject
  pushProcess h z
  let _ ← pushObject true
  putArgs h z m env 0 (string (text "poesie") :: args)
  putProp h.toDukCode z (-2) (.name (text "argv"))
  pop 2

/-- The script is run, under protection, and its result is converted. -/
def evalCode (code : Bytes) : DukStack (Result Json) := do
  let failed ← pevalLstring h z code
  finish h z depth failed "Error executing JavaScript code: "

/-- `JavascriptVm::execute`, with so many nested calls at most when the result is converted. -/
def execute (code : Bytes) (args : List Json) : DukStack (Result Json) := do
  setArgv h z m env args
  evalCode h z depth code

/-- `JavascriptVm::load` -/
def load (files : Bytes → Option Bytes) (filename : Bytes) (args : List Json) :
    DukStack (Result Json) :=
  match files filename with
  | none => pure (failure (text "Error opening file: " ++ filename))
  | some code => execute h z m env depth code args

/-- The arguments of a call, one above the other. -/
def pushArgs : List Json → DukStack Unit
  | [] => pure ()
  | arg :: rest => do
      DukStack.JSONtoDukValue h.toDukCode z m env arg []
      pushArgs rest

/-- `JavascriptVm::call` of a global function. -/
def callGlobal (function : Bytes) (args : List Json) : DukStack (Result Json) := do
  if ← getGlobalString h z (cString function) then
    pushArgs h z m env args
    let failed ← pcall h args.length
    finish h z depth failed "Error calling function: "
  else
    -- the undefined value stays
    pure (failure (text "Function not found: " ++ function))

/-- `JavascriptVm::call` of a method. -/
def callMethod (function target : Bytes) (args : List Json) : DukStack (Result Json) := do
  if ← getGlobalString h z (cString target) then
    if ← getPropString h z (-1) (cString function) then
      dup (-2)
      remove (-3)
      pushArgs h z m env args
      let failed ← pcallMethod h args.length
      finish h z depth failed "Error calling function: "
    else
      -- this pops the undefined value, and the target stays
      pop 1
      pure (failure (text "Method not found: " ++ function))
  else pure (failure (text "Target not found: " ++ target))

/-- `JavascriptVm::call` -/
def call (function target : Bytes) (args : List Json) : DukStack (Result Json) :=
  if target = [] then callGlobal h z m env depth function args
  else callMethod h z m env depth function target args

/-- `JavascriptVm::install`, as far as it works on the stack. The function gets the pointer to its
holder. -/
def installFunction (name : Bytes) (nargs : UInt64) (pointer : Nat) : DukStack Unit := do
  DukStack.pushCFunction nargs
  push (.pointer pointer)
  putProp h.toDukCode z (-2) (.name (0xff :: text "holder"))
  putGlobalString h z (cString name)

/-- An operation. -/
inductive StackOp where
  | execute (code : Bytes) (args : List Json)
  | load (filename : Bytes) (args : List Json)
  | call (function target : Bytes) (args : List Json)
  | install (name : Bytes) (nargs : UInt64) (pointer : Nat)

variable (files : Bytes → Option Bytes)

def performOnStack : StackOp → DukStack Unit
  | .execute code args => execute h z m env depth code args >>= fun _ => pure ()
  | .load filename args => load h z m env depth files filename args >>= fun _ => pure ()
  | .call function target args => call h z m env depth function target args >>= fun _ => pure ()
  | .install name nargs pointer => installFunction h z name nargs pointer

/-- The VM after an operation, unless the process has ended with it. An exception of the
operation leaves the VM to the next one. -/
def nextThread (t : Option DukThread) (op : StackOp) : Option DukThread :=
  t.bind fun t => match performOnStack h z m env depth files op t with
    | (.returned _, t') | (.thrown _, t') => some t'
    | (.raised, _) | (.stuck, _) => none

/-- If it returns, the stack is as high as it was. -/
def Keeps {α : Type} (f : DukStack α) (t : DukThread) : Prop := ∀ a t',
  f.Gives t a t' → t'.stack.length = t.stack.length

/-- If the operation returns, the stack is as high as it was. -/
def KeepsHeight (t : DukThread) (op : StackOp) : Prop :=
  Keeps (performOnStack h z m env depth files op) t

/-- The look-up finds something, if it comes to an end. -/
def Finds (lookup : DukStack Bool) (t : DukThread) : Prop := ∀ found t',
  lookup.Gives t found t' → found = true

/-- What a call names is there. -/
def Callable (t : DukThread) : StackOp → Prop
  | .call function target _ =>
      if target = [] then Finds (getGlobalString h z (cString function)) t
      else Finds (getGlobalString h z (cString target)) t ∧ ∀ t',
        (getGlobalString h z (cString target)).Gives t true t' →
          Finds (getPropString h z (-1) (cString function)) t'
  | _ => True

end JavascriptVm

/-! ## What each call leaves -/

namespace DukStack

variable {h : DukHost} {z : DukSizes} {m : Margo} {env : ViewId → Env} {t : DukThread}

theorem ensures_pushGlobalObject :
    (pushGlobalObject).Ensures t fun _ t' => ∃ item, t'.stack = t.stack ++ [item] :=
  (ensures_inWorld _).bind fun global _ h₁ => (ensures_push (.object global)).mono
    fun _ _ h₂ => ⟨_, by rw [h₂, h₁]⟩

/-- Found or not, a value is pushed. -/
theorem ensures_getPropString (index : Int) (key : Bytes) :
    (getPropString h z index key).Ensures t fun _ t' => ∃ item, t'.stack = t.stack ++ [item] := by
  unfold getPropString
  refine (ensures_itemAt index).bind fun item t₁ h₁ => ?_
  split
  · refine (ensures_needFor _).bind fun _ t₂ h₂ => (ensures_inWorld _).bind fun r t₃ h₃ => ?_
    exact .of_gives rfl ⟨_, by rw [h₃, h₂, h₁]⟩
  · exact .raise

theorem ensures_remove {below above : List DukItem} {item : DukItem} {i : Nat}
    (hstack : t.stack = below ++ item :: above) (hi : i = above.length + 1) :
    (remove (-i)).Ensures t fun _ t' => t'.stack = below ++ above := by
  have hlength : t.stack.length = below.length + i := by simp [hstack, hi]
  have hindex : normalize (-i) t.stack.length = some below.length := by
    rw [normalize_of_neg (by omega) (by omega), hlength, Nat.add_sub_cancel]
  have hgives : (remove (-i)).Gives t () { t with stack := below ++ above } := by
    unfold Prog.Gives remove
    rw [hindex, hstack]
    dsimp only
    rw [List.eraseIdx_append_of_length_le (Nat.le_refl _), Nat.sub_self, List.eraseIdx_cons_zero]
  exact .of_gives hgives rfl

theorem insertIdx_length {α : Type} (xs ys : List α) (a : α) :
    (xs ++ ys).insertIdx xs.length a = xs ++ a :: ys := by
  induction xs with
  | nil => simp
  | cons x xs ih => simpa using ih

/-- The two values on top change places. -/
theorem gives_insert {below : List DukItem} {first second : DukItem}
    (hstack : t.stack = below ++ [first, second]) :
    (insert (-2)).Gives t () { t with stack := below ++ [second, first] } := by
  have hlength : t.stack.length = below.length + 2 := by simp [hstack]
  have hindex : normalize (-2) t.stack.length = some below.length := by
    rw [hlength]
    exact (normalize_of_neg (i := 2) (by omega) (by omega)).trans (by simp)
  unfold Prog.Gives insert
  rw [hindex, hstack]
  simp [insertIdx_length]

theorem ensures_dup (index : Int) :
    (dup index).Ensures t fun _ t' => ∃ item, t'.stack = t.stack ++ [item] := by
  refine (ensures_need 1).bind fun _ t₁ h₁ => (ensures_itemAt index).bind fun item t₂ h₂ => ?_
  split
  · exact .of_gives rfl ⟨_, by rw [h₂, h₁]⟩
  · exact .raise

theorem ensures_getGlobalString (key : Bytes) :
    (getGlobalString h z key).Ensures t fun _ t' => ∃ item, t'.stack = t.stack ++ [item] := by
  refine ensures_pushGlobalObject.bind fun _ t₁ ⟨global, h₁⟩ => ?_
  refine (ensures_getPropString (-1) key).bind fun found t₂ ⟨item, h₂⟩ => ?_
  have h₂ : t₂.stack = t.stack ++ global :: [item] := by rw [h₂, h₁, List.append_assoc]; rfl
  exact (ensures_remove h₂ rfl).bind fun _ t₃ h₃ => .pure ⟨item, h₃⟩

theorem ensures_putGlobalString {key : Bytes} {below : List DukItem} {item : DukItem}
    (hstack : t.stack = below ++ [item]) :
    (putGlobalString h z key).Ensures t fun _ t' => t'.stack = below := by
  refine ensures_pushGlobalObject.bind fun _ t₁ ⟨global, h₁⟩ => ?_
  rw [hstack, List.append_assoc] at h₁
  refine (Prog.Ensures.of_gives (gives_insert h₁) rfl).bind fun _ t₂
    (h₂ : t₂.stack = below ++ [global, item]) => ?_
  have h₂ : t₂.stack = (below ++ [global]) ++ [item] := by rw [h₂, List.append_assoc]; rfl
  exact (ensures_putProp h₂).bind fun _ t₃ h₃ => ensures_pop below [global] h₃ rfl

/-- The values that a call takes give way to one. -/
theorem ensures_safeCall {n : Nat}
    {run : List DukItem → DukWorld → Except DukValue DukValue × DukWorld}
    {below above : List DukItem} (hstack : t.stack = below ++ above) (hn : above.length = n) :
    (safeCall n run).Ensures t fun _ t' => ∃ item, t'.stack = below ++ [item] := by
  have hlength : t.stack.length = below.length + n := by rw [hstack, List.length_append, hn]
  intro failed t' hgives
  unfold Prog.Gives safeCall at hgives
  rw [if_pos (by omega), hlength, Nat.add_sub_cancel, hstack, List.take_left] at hgives
  dsimp only at hgives
  split at hgives <;> obtain ⟨-, rfl⟩ := Prod.mk.inj hgives <;> exact ⟨_, rfl⟩

theorem ensures_pevalLstring (code : Bytes) :
    (pevalLstring h z code).Ensures t fun _ t' => ∃ item, t'.stack = t.stack ++ [item] := by
  refine (ensures_needFor _).bind fun _ t₁ h₁ => ?_
  rw [← h₁]
  exact ensures_safeCall (List.append_nil _).symm rfl

theorem ensures_safeToString {below : List DukItem} {item : DukItem}
    (hstack : t.stack = below ++ [item]) :
    (safeToString h).Ensures t fun _ t' => ∃ item', t'.stack = below ++ [item'] := by
  refine (ensures_itemAt (-1)).bind fun found t₁ h₁ => ?_
  split
  · refine (ensures_need 1).bind fun _ t₂ h₂ => (ensures_inWorld _).bind fun s t₃ h₃ => ?_
    have h₃ : t₃.stack = below ++ [item] := by rw [h₃, h₂, h₁, hstack]
    exact (ensures_replace _ h₃).bind fun _ t₄ h₄ => .pure ⟨_, h₄⟩
  · exact .raise

theorem ensures_pushCFunction (nargs : UInt64) :
    (pushCFunction nargs).Ensures t fun _ t' => ∃ item, t'.stack = t.stack ++ [item] := by
  unfold pushCFunction
  split
  · refine (ensures_need 1).bind fun _ t₁ h₁ => (ensures_inWorld _).bind fun f t₂ h₂ => ?_
    exact .of_gives rfl ⟨_, by rw [h₂, h₁]⟩
  · exact .raise

end DukStack

/-! ## What each operation leaves -/

namespace JavascriptVm

open DukStack

variable {h : DukHost} {z : DukSizes} {m : Margo} {env : ViewId → Env} {depth : Nat}
  {t : DukThread} {files : Bytes → Option Bytes}

theorem ensures_errorOnTop {message : String} {below : List DukItem} {item : DukItem}
    (hstack : t.stack = below ++ [item]) :
    (errorOnTop h message).Ensures t fun _ t' => ∃ item', t'.stack = below ++ [item'] :=
  (ensures_safeToString hstack).bind fun _ _ h₁ => .pure h₁

theorem ensures_valueOnTop : (valueOnTop h z depth).Ensures t fun _ t' => t'.stack = t.stack :=
  Prog.Ensures.bind (fun j t' hgives => ensures_dukValueToJSON depth (-1) t j t' hgives)
    fun _ _ h₁ => .pure h₁

/-- The result or the error on top is popped. -/
theorem ensures_finish {message : String} {below : List DukItem} {item : DukItem}
    (hstack : t.stack = below ++ [item]) (failed : Bool) :
    (finish h z depth failed message).Ensures t fun _ t' => t'.stack = below := by
  have hresult : (resultOnTop h z depth failed message).Ensures t
      fun _ t' => ∃ item', t'.stack = below ++ [item'] := by
    unfold resultOnTop
    split
    · exact ensures_errorOnTop hstack
    · exact ensures_valueOnTop.mono fun _ _ h₁ => ⟨item, h₁.trans hstack⟩
  refine hresult.bind fun result t₁ ⟨item', h₁⟩ => ?_
  exact (ensures_pop below [item'] h₁ rfl).bind fun _ _ h₂ => .pure h₂

theorem ensures_pushProcess :
    (pushProcess h z).Ensures t fun _ t' => ∃ item, t'.stack = t.stack ++ [item] := by
  refine (ensures_getPropString (-1) _).bind fun found t₁ ⟨item, h₁⟩ => ?_
  split
  · exact .pure ⟨item, h₁⟩
  · refine (ensures_pop t.stack [item] h₁ rfl).bind fun _ t₂ h₂ => ?_
    refine (ensures_pushObject false).bind fun _ t₃ ⟨v, h₃⟩ => ?_
    refine (ensures_putProp h₃).bind fun _ t₄ h₄ => ?_
    refine (ensures_getPropString (-1) _).bind fun found t₅ ⟨item', h₅⟩ => .pure ⟨item', ?_⟩
    rw [h₅, h₄, h₂]

theorem ensures_putArgs (i : Nat) (args : List Json) (t : DukThread) :
    (putArgs h z m env i args).Ensures t fun _ t' => t'.stack = t.stack := by
  induction args generalizing i t with
  | nil => exact .pure rfl
  | cons arg rest ih =>
      refine (adds_JSONtoDukValue arg [] t).bind fun _ t₁ ⟨v, h₁⟩ => ?_
      refine (ensures_putProp h₁).bind fun _ t₂ h₂ => ?_
      rw [← h₂]
      exact ih (i + 1) t₂

/-- What is pushed to make `process.argv` is popped. -/
theorem ensures_setArgv (args : List Json) :
    (setArgv h z m env args).Ensures t fun _ t' => t'.stack = t.stack := by
  -- the global object, `process` above it, and above that the array, until it is put
  refine ensures_pushGlobalObject.bind fun _ t₁ ⟨global, h₁⟩ => ?_
  refine ensures_pushProcess.bind fun _ t₂ ⟨process, h₂⟩ => ?_
  refine (ensures_pushObject true).bind fun _ t₃ ⟨argv, h₃⟩ => ?_
  refine (ensures_putArgs 0 _ t₃).bind fun _ t₄ h₄ => ?_
  refine (ensures_putProp (h₄.trans h₃)).bind fun _ t₅ h₅ => ?_
  have h₅ : t₅.stack = t.stack ++ [global, process] := by rw [h₅, h₂, h₁, List.append_assoc]; rfl
  exact ensures_pop t.stack [global, process] h₅ rfl

/-- An execution pops what it has pushed, on every path. -/
theorem ensures_execute (code : Bytes) (args : List Json) :
    (execute h z m env depth code args).Ensures t fun _ t' => t'.stack = t.stack := by
  refine (ensures_setArgv args).bind fun _ t₁ h₁ => ?_
  -- the script leaves its result or its error
  refine (ensures_pevalLstring code).bind fun failed t₂ ⟨item, h₂⟩ => ?_
  exact ensures_finish (h₂.trans (by rw [h₁])) failed

/-- The arguments of a call lie above the function. -/
theorem ensures_pushArgs (args : List Json) (t : DukThread) :
    (pushArgs h z m env args).Ensures t fun _ t' => ∃ above, t'.stack = t.stack ++ above ∧
      above.length = args.length := by
  induction args generalizing t with
  | nil => exact .pure ⟨[], (List.append_nil _).symm, rfl⟩
  | cons arg rest ih =>
      refine (adds_JSONtoDukValue arg [] t).bind fun _ t₁ ⟨v, h₁⟩ => ?_
      refine (ih t₁).mono fun _ t₂ ⟨above, h₂, hlength⟩ =>
        ⟨.value v :: above, ?_, by simp [hlength]⟩
      rw [h₂, h₁, List.append_assoc]
      rfl

/-- A call from the function on: what lies above the stack of before is the function, for a method
the target too. -/
theorem ensures_called {args : List Json} {below callee : List DukItem}
    {run : List DukItem → DukWorld → Except DukValue DukValue × DukWorld} {n : Nat}
    (hstack : t.stack = below ++ callee) (hn : callee.length + args.length = n) :
    Prog.Ensures (do
      pushArgs h z m env args
      let failed ← safeCall n run
      finish h z depth failed "Error calling function: ") t fun _ t' => t'.stack = below := by
  refine (ensures_pushArgs args t).bind fun _ t₁ ⟨above, h₁, hlength⟩ => ?_
  rw [hstack, List.append_assoc] at h₁
  have hcount : (callee ++ above).length = n := by rw [List.length_append, hlength, hn]
  refine (ensures_safeCall h₁ hcount).bind fun failed t₂ ⟨item, h₂⟩ => ?_
  exact ensures_finish h₂ failed

theorem ensures_install (name : Bytes) (nargs : UInt64) (pointer : Nat) :
    (installFunction h z name nargs pointer).Ensures t fun _ t' => t'.stack = t.stack := by
  refine (ensures_pushCFunction nargs).bind fun _ t₁ ⟨f, h₁⟩ => ?_
  refine (ensures_push (.pointer pointer)).bind fun _ t₂ h₂ => ?_
  refine (ensures_putProp h₂).bind fun _ t₃ h₃ => ?_
  exact ensures_putGlobalString (h₃.trans h₁)

/-! ## Calls that find nothing -/

theorem finds_or (lookup : DukStack Bool) (t : DukThread) :
    Finds lookup t ∨ ∃ t', lookup.Gives t false t' := by
  by_cases h : ∃ t', lookup.Gives t false t'
  · exact .inr h
  · refine .inl fun found t' hgives => ?_
    cases found with
    | true => rfl
    | false => exact absurd ⟨t', hgives⟩ h

theorem Finds.and {lookup : DukStack Bool} {Q : Bool → DukThread → Prop}
    (hfinds : Finds lookup t) (hlookup : lookup.Ensures t Q) :
    lookup.Ensures t fun found t' => found = true ∧ Q found t' :=
  fun found t' hgives => ⟨hfinds found t' hgives, hlookup found t' hgives⟩

variable {function target : Bytes} {args : List Json}

theorem ensures_callGlobal (hfinds : Finds (getGlobalString h z (cString function)) t) :
    (callGlobal h z m env depth function args).Ensures t fun _ t' => t'.stack = t.stack := by
  refine (hfinds.and (ensures_getGlobalString _)).bind fun found t₁ ⟨hfound, f, h₁⟩ => ?_
  rw [if_pos hfound]
  have h₁ : t₁.stack = t.stack ++ [f] := h₁
  exact ensures_called h₁ (Nat.add_comm _ _)

/-- The undefined value of a look-up stays on the stack. -/
theorem gives_callGlobal_missing {t₁ : DukThread}
    (hlookup : (getGlobalString h z (cString function)).Gives t false t₁) :
    ∃ r, (callGlobal h z m env depth function args).Gives t r t₁ :=
  ⟨_, Prog.gives_bind_iff.mpr ⟨false, t₁, hlookup, rfl⟩⟩

theorem ensures_callMethod (htarget : Finds (getGlobalString h z (cString target)) t)
    (hmethod : ∀ t', (getGlobalString h z (cString target)).Gives t true t' →
      Finds (getPropString h z (-1) (cString function)) t') :
    (callMethod h z m env depth function target args).Ensures t fun _ t' => t'.stack = t.stack := by
  have hlookup : (getGlobalString h z (cString target)).Ensures t fun found t₁ =>
      found = true ∧ (∃ item, t₁.stack = t.stack ++ [item]) ∧
        Finds (getPropString h z (-1) (cString function)) t₁ := by
    intro found t₁ hgives
    obtain ⟨rfl, hitem⟩ := htarget.and (ensures_getGlobalString _) found t₁ hgives
    exact ⟨rfl, hitem, hmethod t₁ hgives⟩
  refine hlookup.bind fun found t₁ ⟨hfound, ⟨base, h₁⟩, hfinds⟩ => ?_
  rw [if_pos hfound]
  refine (hfinds.and (ensures_getPropString _ _)).bind fun found t₂ ⟨hfound, f, h₂⟩ => ?_
  rw [if_pos hfound]
  -- the target becomes `this`, above the method
  refine (ensures_dup (-2)).bind fun _ t₃ ⟨this, h₃⟩ => ?_
  have h₃ : t₃.stack = t.stack ++ base :: [f, this] := by rw [h₃, h₂, h₁]; simp
  refine (ensures_remove h₃ rfl).bind fun _ t₄ h₄ => ?_
  exact ensures_called h₄ (Nat.add_comm _ _)

/-- Where the target has no such method, the target stays on the stack. -/
theorem gives_callMethod_missing {t₁ t₂ : DukThread}
    (htarget : (getGlobalString h z (cString target)).Gives t true t₁)
    (hmethod : (getPropString h z (-1) (cString function)).Gives t₁ false t₂) :
    ∃ r, (callMethod h z m env depth function target args).Gives t r
      { t₂ with stack := t₁.stack } := by
  obtain ⟨v, h₂⟩ := ensures_getPropString (-1) (cString function) false t₂ hmethod
  refine ⟨failure (text "Method not found: " ++ function),
    Prog.gives_bind_iff.mpr ⟨true, t₁, htarget, ?_⟩⟩
  refine Prog.gives_bind_iff.mpr ⟨false, t₂, hmethod, ?_⟩
  exact Prog.gives_bind_iff.mpr ⟨(), _, gives_pop t₁.stack [v] h₂ rfl, rfl⟩

theorem gives_callMethod_no_target {t₁ : DukThread}
    (hlookup : (getGlobalString h z (cString target)).Gives t false t₁) :
    ∃ r, (callMethod h z m env depth function target args).Gives t r t₁ :=
  ⟨_, Prog.gives_bind_iff.mpr ⟨false, t₁, hlookup, rfl⟩⟩

section

variable {α : Type} {f : DukStack α}

theorem keeps_of_ensures (hf : f.Ensures t fun _ t' => t'.stack = t.stack) : Keeps f t :=
  fun a t' hgives => congrArg List.length (hf a t' hgives)

/-- What ends with one value more does not keep the height. -/
theorem not_keeps {a : α} {t₁ : DukThread} {item : DukItem} (hgives : f.Gives t a t₁)
    (hstack : t₁.stack = t.stack ++ [item]) : ¬ Keeps f t := by
  intro hkeeps
  have hlength := hkeeps a t₁ hgives
  rw [hstack, List.length_append, List.length_singleton] at hlength
  omega

/-- It does not matter that the result is not looked at. -/
theorem keeps_discard_iff : Keeps (f >>= fun _ => (pure () : DukStack Unit)) t ↔ Keeps f t := by
  constructor
  · intro hkeeps a t' hgives
    exact hkeeps () t' (Prog.gives_bind_iff.mpr ⟨a, t', hgives, rfl⟩)
  · intro hkeeps u t' hgives
    obtain ⟨a, t₁, hfirst, hrest⟩ := Prog.gives_bind_iff.mp hgives
    obtain ⟨-, rfl⟩ := (Prog.gives_pure _ _ _ _).mp hrest
    exact hkeeps a t' hfirst

end

/-- A call of a function keeps the height exactly if the function is there. -/
theorem keeps_callGlobal_iff :
    Keeps (callGlobal h z m env depth function args) t ↔
      Finds (getGlobalString h z (cString function)) t := by
  rcases finds_or (getGlobalString h z (cString function)) t with hfinds | ⟨t₁, hlookup⟩
  · exact iff_of_true (keeps_of_ensures (ensures_callGlobal hfinds)) hfinds
  · obtain ⟨item, hstack⟩ := ensures_getGlobalString _ false t₁ hlookup
    obtain ⟨r, hgives⟩ : ∃ r, (callGlobal h z m env depth function args).Gives t r t₁ :=
      gives_callGlobal_missing hlookup
    apply iff_of_false
    · exact not_keeps hgives hstack
    · exact fun hfinds => Bool.false_ne_true (hfinds false t₁ hlookup)

/-- A call of a method keeps the height exactly if the target is there and has the method. -/
theorem keeps_callMethod_iff :
    Keeps (callMethod h z m env depth function target args) t ↔
      Finds (getGlobalString h z (cString target)) t ∧
        ∀ t', (getGlobalString h z (cString target)).Gives t true t' →
          Finds (getPropString h z (-1) (cString function)) t' := by
  rcases finds_or (getGlobalString h z (cString target)) t with htarget | ⟨t₁, hlookup⟩
  · by_cases hmethod : ∀ t', (getGlobalString h z (cString target)).Gives t true t' →
        Finds (getPropString h z (-1) (cString function)) t'
    · exact iff_of_true (keeps_of_ensures (ensures_callMethod htarget hmethod)) ⟨htarget, hmethod⟩
    · obtain ⟨t₁, hfirst, hnot⟩ : ∃ t₁, (getGlobalString h z (cString target)).Gives t true t₁ ∧
          ¬ Finds (getPropString h z (-1) (cString function)) t₁ := by simpa using hmethod
      obtain ⟨t₂, hsecond⟩ := (finds_or _ t₁).resolve_left hnot
      obtain ⟨item, hstack⟩ := ensures_getGlobalString _ true t₁ hfirst
      obtain ⟨r, hgives⟩ : ∃ r, (callMethod h z m env depth function target args).Gives t r
          { t₂ with stack := t₁.stack } := gives_callMethod_missing hfirst hsecond
      exact iff_of_false (not_keeps hgives hstack) fun hboth => hmethod hboth.2
  · obtain ⟨item, hstack⟩ := ensures_getGlobalString _ false t₁ hlookup
    obtain ⟨r, hgives⟩ : ∃ r, (callMethod h z m env depth function target args).Gives t r t₁ :=
      gives_callMethod_no_target hlookup
    apply iff_of_false
    · exact not_keeps hgives hstack
    · exact fun hboth => Bool.false_ne_true (hboth.1 false t₁ hlookup)

/-- An operation keeps the height exactly if what it names is there. -/
theorem keepsHeight_iff (t : DukThread) (op : StackOp) :
    KeepsHeight h z m env depth files t op ↔ Callable h z t op := by
  cases op with
  | execute code args =>
      rw [KeepsHeight, performOnStack, keeps_discard_iff]
      exact iff_of_true (keeps_of_ensures (ensures_execute code args)) trivial
  | load filename args =>
      rw [KeepsHeight, performOnStack, keeps_discard_iff, load]
      refine iff_of_true (keeps_of_ensures ?_) trivial
      -- a file that cannot be opened touches no stack
      split
      · exact .pure rfl
      · exact ensures_execute _ args
  | call function target args =>
      rw [KeepsHeight, performOnStack, keeps_discard_iff, call, Callable]
      split
      · exact keeps_callGlobal_iff
      · exact keeps_callMethod_iff
  | install name nargs pointer =>
      exact iff_of_true (keeps_of_ensures (ensures_install name nargs pointer)) trivial

/-- **The value stack of the JavaScript backend.** In whatever VM and on whatever stack a run of
operations starts, and whatever their outcomes are: every operation that returns leaves the stack
as high as it was if and only if no call names a function, a target or a method that is not
there. -/
theorem stack_height_kept_iff (h : DukHost) (z : DukSizes) (m : Margo) (env : ViewId → Env)
    (depth : Nat) (files : Bytes → Option Bytes) (t : DukThread) (ops : List StackOp) :
    Runs.Along (nextThread h z m env depth files) (Before (KeepsHeight h z m env depth files))
        (some t) ops ↔
      Runs.Along (nextThread h z m env depth files) (Before (Callable h z)) (some t) ops := by
  refine Runs.along_iff (I := fun _ => True) (fun t op _ => ?_) (fun _ _ _ _ => trivial) trivial
  cases t with
  | none => exact Iff.rfl
  | some t => exact keepsHeight_iff t op

/-- Functions that do nothing, and values without properties. -/
def inertHost : DukHost where
  toDukCode := inert
  getPrimitive _ _ w := (.gave (false, .undefined), w)
  primitiveSource _ _ _ := .absent
  pcall _ w := (.ok .undefined, w)
  pcallMethod _ w := (.ok .undefined, w)

/-- The call of a function that there is not leaves a value on the stack. -/
theorem call_of_missing_function :
    ¬ ∀ (h : DukHost) (t : DukThread) (ops : List StackOp),
      Runs.Along (nextThread h dukSizes (Margo.loopback noName) (fun _ => .quiet) 10 fun _ => none)
        (Before (KeepsHeight h dukSizes (Margo.loopback noName) (fun _ => .quiet) 10
          fun _ => none)) (some t) ops := by
  intro hall
  let missing : StackOp := .call (text "f") [] []
  have hkeeps := (hall inertHost ⟨(builtins, .empty fun _ => 0), []⟩ [missing]).1
  have hlength := hkeeps () ⟨(builtins, .empty fun _ => 0), [.value .undefined]⟩ rfl
  exact absurd hlength (by decide)

end JavascriptVm

end Poesie
