import Mathlib.Logic.Function.Iterate
import Poesie.Jx9Vm

set_option autoImplicit false

/-! # Function calls of the Jx9 backend

`Jx9Vm::call` writes a script that calls the function, and executes it. The loop that writes the
arguments compares its counter with the vector of arguments itself, which is converted to a JSON
array. Values of different types are compared by their types, and a number is smaller than any
array. The loop therefore goes on behind the last argument, whatever the arguments are; what lies
there is a parameter.
-/

namespace Poesie

open Wire Json

namespace Json

/-- The order of `value_t`. -/
def typeOrder : Json → Nat
  | null => 0
  | boolean _ => 1
  | numberInteger _ | numberUnsigned _ | numberFloat _ => 2
  | object _ => 3
  | array _ => 4
  | string _ => 5
  | binary _ _ => 6

/-- `operator<`. Two values of one type are compared by what they contain. -/
def less (sameType : Json → Json → Bool) (a b : Json) : Bool :=
  if a.typeOrder = b.typeOrder then sameType a b else a.typeOrder < b.typeOrder

theorem less_number_array (sameType : Json → Json → Bool) (n : UInt64) (items : List Json) :
    less sameType (numberUnsigned n) (array items) = true := rfl

end Json

/-- What a call needs of the library and of the memory of the process. -/
structure Jx9CallHost where
  /-- `json::dump` -/
  dump : Json → Except CppException Bytes
  sameType : Json → Json → Bool
  /-- What a read behind the end of `args` finds, unless it ends the process. -/
  beyond : UInt64 → Option Json

namespace Jx9Vm

/-! ## The loop -/

/-- The variables of the loop, with the indices at which it has read `args`. -/
structure CallLoop where
  i : UInt64
  code : Bytes
  reads : List UInt64

inductive CallStatus where
  | running (l : CallLoop)
  | exited (l : CallLoop)
  | thrown (e : CppException) (l : CallLoop)
  | crashed (l : CallLoop)

def CallStatus.loop : CallStatus → CallLoop
  | running l | exited l | thrown _ l | crashed l => l

variable (h : Jx9CallHost)

/-- `args[i]` -/
def element (args : List Json) (i : UInt64) : Option Json :=
  if i.toNat < args.length then args[i.toNat]? else h.beyond i

/-- What is written in front of the arguments. -/
def callHead (function target : Bytes) : Bytes :=
  text "return " ++ function ++ text "(" ++ if target = [] then [] else target ++ text ","

/-- What is written behind an argument. -/
def separator (args : List Json) (i : UInt64) : Bytes :=
  if i = UInt64.ofNat args.length - 1 then text " " else text ","

/-- One turn of the loop. -/
def callStep (args : List Json) : CallStatus → CallStatus
  | .running l =>
      if less h.sameType (numberUnsigned l.i) (array args) then
        let reads := l.reads ++ [l.i]
        match element h args l.i with
        | none => .crashed { l with reads }
        | some arg =>
            match h.dump arg with
            | .error e => .thrown e { l with reads }
            | .ok json => .running ⟨l.i + 1, l.code ++ json ++ separator args l.i, reads⟩
      else .exited l
  | status => status

def callStart (function target : Bytes) : CallStatus := .running ⟨0, callHead function target, []⟩

/-- `Jx9Vm::call`, if its loop ends within so many turns. -/
def call (m : Margo) (env : ViewId → Env) (answers : Jx9Answers) (function target : Bytes)
    (args : List Json) (turns : Nat) (s : Jx9State) :
    Option (Except Fault (Result Json) × Jx9State) :=
  match (callStep h args)^[turns] (callStart function target) with
  | .running _ => none
  | .exited l => some (execute m env answers (l.code ++ text ");") [] s)
  | .thrown e _ => some (.error (.thrown e), s)
  | .crashed l => some (.error (.outOfRange l.i.toNat args.length), s)

/-! ## The right program -/

/-- The text of the call: the target and the arguments, separated by commas. -/
def callText (function target : Bytes) (texts : List Bytes) : Bytes :=
  text "return " ++ function ++ text "(" ++
    (text ",").intercalate (if target = [] then texts else target :: texts) ++ text ");"

/-- The JSON texts of the arguments. -/
def Dumps (args : List Json) (texts : List Bytes) : Prop :=
  List.Forall₂ (fun arg json => h.dump arg = .ok json) args texts

def withoutBlanks (s : Bytes) : Bytes := s.filter (· != 32)

/-- The loop ends, having read nothing but the arguments, with the right program. -/
def BuildsRight (function target : Bytes) (args : List Json) : Prop :=
  ∃ turns l texts, (callStep h args)^[turns] (callStart function target) = .exited l ∧
    (∀ i ∈ l.reads, i.toNat < args.length) ∧ Dumps h args texts ∧
    withoutBlanks (l.code ++ text ");") = withoutBlanks (callText function target texts)

variable {h}

/-! ## What the loop does -/

/-- The condition holds in every turn. -/
theorem callStep_ne_exited {args : List Json} {status : CallStatus} (l : CallLoop)
    (hstatus : ∀ l, status ≠ .exited l) : callStep h args status ≠ .exited l := by
  cases status with
  | running r =>
      rw [callStep, if_pos (less_number_array _ _ _)]
      dsimp only
      split
      · exact fun hexit => by cases hexit
      · split <;> exact fun hexit => by cases hexit
  | exited r => exact absurd rfl (hstatus r)
  | thrown e r => exact hstatus l
  | crashed r => exact hstatus l

theorem never_exited (function target : Bytes) (args : List Json) (turns : Nat) (l : CallLoop) :
    (callStep h args)^[turns] (callStart function target) ≠ .exited l := by
  induction turns generalizing l with
  | zero => exact fun hexit => by cases hexit
  | succ turns ih =>
      rw [Function.iterate_succ_apply']
      exact callStep_ne_exited l ih

/-- No call gets as far as executing a script. -/
theorem call_ne_ok (m : Margo) (env : ViewId → Env) (answers : Jx9Answers)
    (function target : Bytes) (args : List Json) (turns : Nat) (s s' : Jx9State)
    (result : Result Json) :
    call h m env answers function target args turns s ≠ some (.ok result, s') := by
  intro hcall
  unfold call at hcall
  split at hcall
  · cases hcall
  · next l hexit => exact never_exited function target args turns l hexit
  · cases hcall
  · cases hcall

/-- What the arguments with these texts are written as, as far as the first `k` of them go. -/
def written (args : List Json) (texts : List Bytes) (k : Nat) : Bytes :=
  (List.range k).flatMap fun i => texts.getD i [] ++ separator args (UInt64.ofNat i)

theorem dump_getElem {args : List Json} {texts : List Bytes} (hdump : Dumps h args texts) {k : Nat}
    (hk : k < args.length) : h.dump args[k] = .ok (texts.getD k []) := by
  obtain ⟨hlength, hget⟩ := List.forall₂_iff_get.mp hdump
  have hk' : k < texts.length := hlength ▸ hk
  rw [List.getD_eq_getElem?_getD, List.getElem?_eq_getElem hk']
  exact hget k hk hk'

/-- The loop writes the arguments one after the other. -/
theorem callStep_arguments {args : List Json} {texts : List Bytes} (hdump : Dumps h args texts)
    (hsize : args.length < 2 ^ 64) (function target : Bytes) {k : Nat} (hk : k ≤ args.length) :
    (callStep h args)^[k] (callStart function target) =
      .running ⟨UInt64.ofNat k, callHead function target ++ written args texts k,
        (List.range k).map UInt64.ofNat⟩ := by
  induction k with
  | zero => simp [callStart, written]
  | succ k ih =>
      have hlt : k < args.length := hk
      -- the counter does not wrap before the last argument
      have hi : (UInt64.ofNat k).toNat = k := by
        rw [UInt64.toNat_ofNat']
        omega
      have harg : element h args (UInt64.ofNat k) = some args[k] := by
        rw [element, hi, if_pos hlt, List.getElem?_eq_getElem hlt]
      rw [Function.iterate_succ_apply', ih (by omega), callStep,
        if_pos (less_number_array _ _ _)]
      simp only [harg, dump_getElem hdump hlt, written, List.range_succ, List.flatMap_append,
        List.flatMap_singleton, List.map_append, List.map_singleton, List.append_assoc]
      rw [UInt64.ofNat_add]
      rfl

/-- Then it reads behind the last one. -/
theorem callStep_reads_behind {args : List Json} {texts : List Bytes}
    (hdump : Dumps h args texts) (hsize : args.length < 2 ^ 64) (function target : Bytes) :
    UInt64.ofNat args.length ∈
      ((callStep h args)^[args.length + 1] (callStart function target)).loop.reads := by
  rw [Function.iterate_succ_apply', callStep_arguments hdump hsize function target le_rfl, callStep,
    if_pos (less_number_array _ _ _)]
  dsimp only
  split
  · simp [CallStatus.loop]
  · split <;> simp [CallStatus.loop]

/-- **Function calls on Jx9.** There is no function, no target and no list of arguments for which
the loop ends and the right program is built. Where the arguments can be dumped, the loop reads
behind the last one, and no call ever executes a script. -/
theorem call_builds_never (h : Jx9CallHost) (function target : Bytes) (args : List Json) :
    ¬ BuildsRight h function target args ∧
      (∀ texts, Dumps h args texts → args.length < 2 ^ 64 → UInt64.ofNat args.length ∈
        ((callStep h args)^[args.length + 1] (callStart function target)).loop.reads) ∧
      ∀ (m : Margo) (env : ViewId → Env) (answers : Jx9Answers) (turns : Nat) (s s' : Jx9State)
        (result : Result Json),
        call h m env answers function target args turns s ≠ some (.ok result, s') := by
  refine ⟨?_, ?_, ?_⟩
  · rintro ⟨turns, l, texts, hexit, -⟩
    exact never_exited function target args turns l hexit
  · intro texts hdump hsize
    exact callStep_reads_behind hdump hsize function target
  · intro m env answers turns s s' result
    exact call_ne_ok m env answers function target args turns s s' result

/-- A memory in which nothing can be read behind a vector. -/
def strictHost : Jx9CallHost where
  dump _ := .ok (text "null")
  sameType _ _ := false
  beyond _ := none

/-- A call of a function without arguments. -/
theorem call_without_arguments :
    ¬ ∀ (h : Jx9CallHost) (function target : Bytes) (args : List Json),
      BuildsRight h function target args := by
  intro hall
  obtain ⟨turns, l, texts, hexit, -⟩ := hall strictHost (text "f") [] []
  exact never_exited _ _ _ turns l hexit

end Jx9Vm

end Poesie
