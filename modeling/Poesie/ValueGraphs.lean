import Poesie.LuaTable
import Poesie.PythonVm
import Poesie.RubyVm
import Poesie.Traversal

set_option autoImplicit false

/-! # The converters as traversals

The converters of results call themselves for the elements of a value. What they visit is what a
script has linked, and a script can put a table into itself. Apart from the JSON that they make,
they are traversals, each one with its own order of calls and checks.
-/

namespace Poesie

open Wire Json SharedPtr Outcomes Traversal

/-! ## How a conversion ends -/

namespace Limited

variable {ε α β γ X : Type}

/-- How a computation on a limited stack ends. -/
def ending : ExceptT ε Option α → Ending Unit
  | none => .overflow
  | some (.error _) => .failed
  | some (.ok _) => .done ()

theorem ending_eq_done_iff {x : ExceptT ε Option α} : ending x = .done () ↔ ∃ a, x = pure a := by
  rcases x with _ | _ | a
  · exact iff_of_false (fun h => by cases h) fun ⟨a, h⟩ => by cases h
  · exact iff_of_false (fun h => by cases h) fun ⟨a, h⟩ => by cases h
  · exact iff_of_true rfl ⟨a, rfl⟩

theorem ending_bind {x : ExceptT ε Option α} {f : α → ExceptT ε Option β} {e : Ending Unit}
    (h : ∀ a, ending (f a) = e) : ending (x >>= f) = (ending x).bind fun _ => e := by
  rcases x with _ | _ | a
  · rfl
  · rfl
  · exact h a

theorem ending_bind_pure (x : ExceptT ε Option α) (f : α → β) :
    ending (x >>= fun a => pure (f a)) = ending x := by
  rcases x with _ | _ | a <;> rfl

/-- A loop does for one element after the other what it does for one of them. -/
theorem ending_foldlM {step : γ → α → ExceptT ε Option γ} {items : α → List (Item X)}
    {visit : X → Ending Unit}
    (h : ∀ out a, ending (step out a) = (Plan.ofItems (items a)).eval visit) (xs : List α)
    (out : γ) :
    ending (xs.foldlM step out) = (Plan.ofItems (xs.flatMap items)).eval visit := by
  induction xs generalizing out with
  | nil => rfl
  | cons a rest ih =>
      rw [List.foldlM_cons, List.flatMap_cons, eval_append, ← h out a]
      exact ending_bind ih

theorem ending_mapM {f : α → ExceptT ε Option β} {items : α → List (Item X)}
    {visit : X → Ending Unit} (h : ∀ a, ending (f a) = (Plan.ofItems (items a)).eval visit)
    (xs : List α) : ending (xs.mapM f) = (Plan.ofItems (xs.flatMap items)).eval visit := by
  induction xs with
  | nil => rfl
  | cons a rest ih =>
      rw [List.mapM_cons, List.flatMap_cons, eval_append, ← h a]
      exact ending_bind fun b => (ending_bind_pure _ _).trans ih

/-- A step that may not return, where what comes after it ends as the rest of the plan. -/
theorem ending_bind_after {x : ExceptT ε Option α} {f : α → ExceptT ε Option β}
    {rest : α → Plan X Unit} {visit : X → Ending Unit}
    (h : ∀ a, (rest a).eval visit ≠ .overflow → ending (f a) = (rest a).eval visit)
    (hne : (Plan.after x rest).eval visit ≠ .overflow) :
    ending (x >>= f) = (Plan.after x rest).eval visit := by
  rcases x with _ | _ | a
  · exact absurd rfl hne
  · rfl
  · exact h a hne

/-- A call, where what comes after it ends as the rest of the plan. -/
theorem ending_bind_call {x : ExceptT ε Option α} {f : α → ExceptT ε Option β} {c : X}
    {next : Unit → Plan X Unit} {visit : X → Ending Unit}
    (hx : visit c ≠ .overflow → ending x = visit c)
    (h : ∀ a, ((next ()).eval visit) ≠ .overflow → ending (f a) = (next ()).eval visit)
    (hne : (Plan.call c next).eval visit ≠ .overflow) :
    ending (x >>= f) = (Plan.call c next).eval visit := by
  rw [Plan.eval] at hne ⊢
  cases hc : visit c with
  | overflow =>
      rw [hc, Ending.overflow_bind] at hne
      exact absurd rfl hne
  | failed =>
      have hfailed := hx (by simp [hc])
      rw [hc] at hfailed
      rcases x with _ | _ | a
      · cases hfailed
      · rfl
      · cases hfailed
  | done y =>
      rw [hc, Ending.done_bind] at hne
      have hdone := hx (by simp [hc])
      rw [hc] at hdone
      obtain ⟨a, rfl⟩ := ending_eq_done_iff.mp hdone
      exact h a hne

/-- Where the computation ends, the plan ends so at some depth. -/
def Reached (plan : X → Plan X Unit) (p : Plan X Unit) (x : ExceptT ε Option α) : Prop :=
  ending x ≠ .overflow → ∃ depth, p.eval (run plan depth) = ending x

theorem reached_after {plan : X → Plan X Unit} {x : ExceptT ε Option α}
    {f : α → ExceptT ε Option β} {rest : α → Plan X Unit}
    (h : ∀ a, Reached plan (rest a) (f a)) : Reached plan (.after x rest) (x >>= f) := by
  intro hne
  rcases x with _ | _ | a
  · exact absurd rfl hne
  · exact ⟨0, rfl⟩
  · exact h a hne

theorem reached_call {plan : X → Plan X Unit} {x : ExceptT ε Option α}
    {f : α → ExceptT ε Option β} {c : X} {next : Unit → Plan X Unit}
    (hx : ending x ≠ .overflow → ∃ depth, run plan depth c = ending x)
    (h : ∀ a, Reached plan (next ()) (f a)) : Reached plan (.call c next) (x >>= f) := by
  intro hne
  rcases x with _ | e | a
  · exact absurd rfl hne
  · obtain ⟨depth, hdepth⟩ := hx fun hover => by cases hover
    refine ⟨depth, ?_⟩
    rw [Plan.eval, hdepth]
    rfl
  · -- deep enough for the call and for the rest
    obtain ⟨depth, hdepth⟩ := hx fun hover => by cases hover
    obtain ⟨depth', hrest⟩ := h a hne
    have hdone : run plan (max depth depth') c = .done () :=
      run_of_le_done (Nat.le_max_left _ _) hdepth
    have hrest' : (next ()).eval (run plan depth') ≠ .overflow := by
      rw [hrest]
      exact hne
    refine ⟨max depth depth', ?_⟩
    rw [Plan.eval_call_done hdone, eval_of_le (Nat.le_max_right _ _) hrest', hrest]
    rfl

theorem ending_ended {X : Type} (visit : X → Ending Unit) (r : Except CppException α) :
    ending (ended r) = (Plan.ofItems [.check r.isOk]).eval visit := by
  cases r with
  | error e => rfl
  | ok a => rfl

end Limited

/-! ## Lua -/

namespace LuaObjects

variable {O : Type} (objects : LuaObjects O)

/-- What `LuaObjectToJSON` does at a value. -/
def items (o : O) : List (Item O) :=
  match objects.node o with
  | .table entries =>
      if objects.isArray 1 entries then entries.flatMap fun entry => [.call entry.2]
      else entries.flatMap fun entry => [.check (objects.asString entry.1).isOk, .call entry.2]
  | _ => []

def plan (o : O) : Plan O Unit := .ofItems (objects.items o)

theorem ending_LuaObjectToJSON (depth : Nat) (o : O) :
    Limited.ending (LuaObjectToJSON objects depth o) = run objects.plan depth o := by
  induction depth generalizing o with
  | zero => rfl
  | succ depth ih =>
      have hcall : ∀ o, Limited.ending (LuaObjectToJSON objects depth o) =
          (Plan.ofItems [.call o]).eval (run objects.plan depth) := by
        intro o
        rw [ih, eval_call]
      rw [run, plan, items, LuaObjectToJSON]
      cases objects.node o with
      | table entries =>
          dsimp only
          split
          · rw [Limited.ending_bind_pure]
            exact Limited.ending_mapM (fun entry => hcall entry.2) entries
          · rw [Limited.ending_bind_pure]
            refine Limited.ending_foldlM (fun out entry => ?_) entries []
            -- the key is made a string before the value is converted
            rw [← List.singleton_append, eval_append, ← Limited.ending_ended, ← hcall]
            exact Limited.ending_bind fun key => Limited.ending_bind_pure _ _
      | nil | boolean b | number x | string s | function | userdata | thread | lightuserdata
      | other => rfl

/-- The conversion of a value ends if the stack suffices, with JSON or with an exception. -/
def ConversionEnds (o : O) : Prop :=
  ∃ depth, Limited.ending (LuaObjectToJSON objects depth o) ≠ .overflow

theorem conversionEnds_iff (o : O) : objects.ConversionEnds o ↔ Ends objects.plan o := by
  simp only [ConversionEnds, ending_LuaObjectToJSON, Ends]

/-- The keys of all tables in the value that are no arrays have string forms, and no table
contains itself. -/
def Convertible (o : O) : Prop := Completes objects.plan (objects.plan o) ()

/-- A value of a table. -/
def Element (t v : O) : Prop := ∃ entries, objects.node t = .table entries ∧ ∃ k, (k, v) ∈ entries

variable {objects}

theorem convertible_iff {o : O} :
    objects.Convertible o ↔ ∃ depth j, LuaObjectToJSON objects depth o = pure j := by
  simp only [Convertible, completes_run_iff, ← ending_LuaObjectToJSON, Limited.ending_eq_done_iff]

theorem Convertible.element {t v : O} (h : objects.Convertible t) (hv : objects.Element t v) :
    objects.Convertible v := by
  obtain ⟨entries, hnode, k, hmem⟩ := hv
  refine (completes_ofItems_iff.mp h).2 v ?_
  rw [items, hnode]
  dsimp only
  split
  · exact List.mem_flatMap.mpr ⟨(k, v), hmem, by simp⟩
  · exact List.mem_flatMap.mpr ⟨(k, v), hmem, by simp⟩

theorem Convertible.within {o t : O} (h : objects.Convertible o)
    (ht : Relation.ReflTransGen objects.Element o t) : objects.Convertible t := by
  induction ht with
  | refl => exact h
  | tail _ hv ih => exact ih.element hv

end LuaObjects

/-! ## Python -/

/-- Where a conversion is: at an object, or at a turn of the loop over one. -/
inductive PyVisit (O : Type) where
  | object (o : O)
  | turn (o : O) (i : Nat)

namespace PyObjects

variable {O : Type} (objects : PyObjects O)

/-- What is done to an element of a list or a tuple, or to a key of a dictionary. -/
def elementPlan (o v : O) (rest : Plan (PyVisit O) Unit) : Plan (PyVisit O) Unit :=
  if objects.node o = .dict then
    .after (objects.getItem o v) fun value => .call (.object value) fun _ =>
      .after (objects.str v) fun _ => rest
  else .call (.object v) fun _ => rest

/-- What `to_json` does at an object, and in a turn of its loops. Each turn goes on to the next one,
for an iterator need not come to an end. -/
def plan : PyVisit O → Plan (PyVisit O) Unit
  | .object o =>
      match objects.node o with
      | .none | .bool | .float => .done ()
      | .int => .after (objects.intToJson o) fun found =>
          if found.isSome then .done () else .after (objects.repr o) fun _ => .fail
      | .bytes => .after (objects.b64encode o) fun _ => .done ()
      | .str => .after (ended (objects.castString o)) fun _ => .done ()
      | .sequence | .dict => .call (.turn o 0) .done
      | .other => .after (objects.repr o) fun _ => .fail
  | .turn o i =>
      .after (objects.next o i) fun found =>
        match found with
        | none => .done ()
        | some v => objects.elementPlan o v (.call (.turn o (i + 1)) .done)

variable {objects}

theorem eval_last (visit : PyVisit O → Ending Unit) (c : PyVisit O) :
    (Plan.call c .done).eval visit = visit c := by
  rw [Plan.eval]
  cases visit c with
  | done y => rfl
  | failed => rfl
  | overflow => rfl

/-- The body of a loop does to an element what the plan says, whatever comes after it. -/
structure DoesElement {β : Type} (objects : PyObjects O) (convert : O → PyResult Json) (o : O)
    (body : β → O → PyResult β) : Prop where
  follows : ∀ {visit : PyVisit O → Ending Unit} {f : β → PyResult β} {rest : Plan (PyVisit O) Unit}
    {out : β} {v : O},
    (∀ v, visit (.object v) ≠ .overflow → Limited.ending (convert v) = visit (.object v)) →
    (∀ out, rest.eval visit ≠ .overflow → Limited.ending (f out) = rest.eval visit) →
    (objects.elementPlan o v rest).eval visit ≠ .overflow →
    Limited.ending (body out v >>= f) = (objects.elementPlan o v rest).eval visit
  reached : ∀ {f : β → PyResult β} {rest : Plan (PyVisit O) Unit} {out : β} {v : O},
    (∀ v, Limited.ending (convert v) ≠ .overflow →
      ∃ depth, run objects.plan depth (.object v) = Limited.ending (convert v)) →
    (∀ out, Limited.Reached objects.plan rest (f out)) →
    Limited.Reached objects.plan (objects.elementPlan o v rest) (body out v >>= f)

theorem doesElement_addItem {convert : O → PyResult Json} {o : O} (h : objects.node o ≠ .dict) :
    objects.DoesElement convert o (addItem convert) where
  follows hconvert hrest hne := by
    rw [elementPlan, if_neg h] at hne ⊢
    rw [addItem, bind_assoc]
    exact Limited.ending_bind_call (hconvert _) (fun j => hrest _) hne
  reached hconvert hrest := by
    rw [elementPlan, if_neg h, addItem, bind_assoc]
    exact Limited.reached_call (hconvert _) fun j => hrest _

theorem doesElement_addMember {convert : O → PyResult Json} {o : O} (h : objects.node o = .dict) :
    objects.DoesElement convert o (objects.addMember convert o) where
  follows hconvert hrest hne := by
    rw [elementPlan, if_pos h] at hne ⊢
    simp only [addMember, bind_assoc, pure_bind]
    refine Limited.ending_bind_after (fun value => ?_) hne
    refine Limited.ending_bind_call (hconvert value) fun j => ?_
    exact Limited.ending_bind_after fun name => hrest _
  reached hconvert hrest := by
    rw [elementPlan, if_pos h]
    simp only [addMember, bind_assoc, pure_bind]
    refine Limited.reached_after fun value => ?_
    refine Limited.reached_call (hconvert value) fun j => ?_
    exact Limited.reached_after fun name => hrest _

section

variable {β : Type} {convert : O → PyResult Json} {o : O} {body : β → O → PyResult β}

/-- A loop with enough turns ends as its plan, if the conversions in it do. -/
theorem ending_loop (hdoes : objects.DoesElement convert o body) {n : Nat}
    (hconvert : ∀ n', n' < n → ∀ v, run objects.plan n' (.object v) ≠ .overflow →
      Limited.ending (convert v) = run objects.plan n' (.object v)) {rounds : Nat}
    (hrounds : n ≤ rounds) (i : Nat) (out : β) (hne : run objects.plan n (.turn o i) ≠ .overflow) :
    Limited.ending (Limited.loop (objects.next o) body rounds i out) =
      run objects.plan n (.turn o i) := by
  induction n generalizing rounds i out with
  | zero => exact absurd rfl hne
  | succ n ih =>
      obtain ⟨r, rfl⟩ : ∃ r, rounds = r + 1 := ⟨rounds - 1, by omega⟩
      rw [run, plan] at hne ⊢
      rw [Limited.loop]
      refine Limited.ending_bind_after (fun found => ?_) hne
      cases found with
      | none => exact fun _ => rfl
      | some v =>
          refine hdoes.follows (hconvert n (by omega)) fun out' => ?_
          rw [eval_last]
          exact ih (fun n' hn' => hconvert n' (by omega)) (by omega) (i + 1) out'

/-- If a loop ends, so does its plan. -/
theorem reached_loop (hdoes : objects.DoesElement convert o body)
    (hconvert : ∀ v, Limited.ending (convert v) ≠ .overflow →
      ∃ depth, run objects.plan depth (.object v) = Limited.ending (convert v))
    (rounds i : Nat) (out : β) :
    Limited.Reached objects.plan (objects.plan (.turn o i))
      (Limited.loop (objects.next o) body rounds i out) := by
  induction rounds generalizing i out with
  | zero => exact fun hne => absurd rfl hne
  | succ rounds ih =>
      rw [plan, Limited.loop]
      refine Limited.reached_after fun found => ?_
      cases found with
      | none => exact fun _ => ⟨0, rfl⟩
      | some v =>
          refine hdoes.reached hconvert fun out' hne => ?_
          obtain ⟨depth, hdepth⟩ := ih (i + 1) out' hne
          exact ⟨depth + 1, by rw [eval_last, run, hdepth]⟩

end

/-- With enough stack and time, `to_json` ends as the traversal. -/
theorem ending_to_json (n : Nat) (o : O) {rounds depth : Nat} (hrounds : n ≤ rounds)
    (hdepth : n ≤ depth) (hne : run objects.plan n (.object o) ≠ .overflow) :
    Limited.ending (to_json objects rounds depth o) = run objects.plan n (.object o) := by
  induction n using Nat.strong_induction_on generalizing o depth with
  | h n ih =>
      cases n with
      | zero => exact absurd rfl hne
      | succ n =>
          obtain ⟨d, rfl⟩ : ∃ d, depth = d + 1 := ⟨depth - 1, by omega⟩
          have hconvert : ∀ n', n' < n → ∀ v, run objects.plan n' (.object v) ≠ .overflow →
              Limited.ending (to_json objects rounds d v) = run objects.plan n' (.object v) :=
            fun n' hn' v => ih n' (by omega) v (by omega) (by omega)
          rw [run, plan] at hne ⊢
          rw [to_json]
          cases hnode : objects.node o with
          | none | bool | float => rfl
          | int =>
              simp only [hnode] at hne ⊢
              refine Limited.ending_bind_after (fun found => ?_) hne
              cases found with
              | some j => exact fun _ => rfl
              | none => exact Limited.ending_bind_after fun repr _ => rfl
          | bytes =>
              simp only [hnode] at hne ⊢
              exact Limited.ending_bind_after (fun encoded _ => rfl) hne
          | str =>
              dsimp only
              cases objects.castString o <;> rfl
          | sequence =>
              simp only [hnode, eval_last] at hne ⊢
              rw [Limited.ending_bind_pure]
              have hdoes : objects.DoesElement (to_json objects rounds d) o _ :=
                doesElement_addItem (by simp [hnode])
              exact ending_loop hdoes hconvert (by omega) 0 [] hne
          | dict =>
              simp only [hnode, eval_last] at hne ⊢
              rw [Limited.ending_bind_pure]
              have hdoes : objects.DoesElement (to_json objects rounds d) o _ :=
                doesElement_addMember hnode
              exact ending_loop hdoes hconvert (by omega) 0 [] hne
          | other =>
              simp only [hnode] at hne ⊢
              exact Limited.ending_bind_after (fun repr _ => rfl) hne

/-- If `to_json` ends, so does the traversal. -/
theorem reached_to_json (rounds depth : Nat) (o : O)
    (hne : Limited.ending (to_json objects rounds depth o) ≠ .overflow) :
    ∃ n, run objects.plan n (.object o) = Limited.ending (to_json objects rounds depth o) := by
  induction depth generalizing o with
  | zero => exact absurd rfl hne
  | succ depth ih =>
      suffices hreached : Limited.Reached objects.plan (objects.plan (.object o))
          (to_json objects rounds (depth + 1) o) by
        obtain ⟨n, hn⟩ := hreached hne
        exact ⟨n + 1, hn⟩
      rw [plan, to_json]
      cases hnode : objects.node o with
      | none | bool | float => exact fun _ => ⟨0, rfl⟩
      | int =>
          refine Limited.reached_after fun found => ?_
          cases found with
          | some j => exact fun _ => ⟨0, rfl⟩
          | none => exact Limited.reached_after fun repr _ => ⟨0, rfl⟩
      | bytes => exact Limited.reached_after fun encoded _ => ⟨0, rfl⟩
      | str =>
          refine fun _ => ⟨0, ?_⟩
          cases objects.castString o <;> rfl
      | sequence =>
          intro hends
          dsimp only at hends ⊢
          rw [Limited.ending_bind_pure] at hends ⊢
          have hdoes : objects.DoesElement (to_json objects rounds depth) o _ :=
            doesElement_addItem (by simp [hnode])
          obtain ⟨n, hn⟩ := reached_loop hdoes ih rounds 0 [] hends
          exact ⟨n + 1, by rw [eval_last, run, hn]⟩
      | dict =>
          intro hends
          dsimp only at hends ⊢
          rw [Limited.ending_bind_pure] at hends ⊢
          have hdoes : objects.DoesElement (to_json objects rounds depth) o _ :=
            doesElement_addMember hnode
          obtain ⟨n, hn⟩ := reached_loop hdoes ih rounds 0 [] hends
          exact ⟨n + 1, by rw [eval_last, run, hn]⟩
      | other => exact Limited.reached_after fun repr _ => ⟨0, rfl⟩

variable (objects)

/-- The conversion of an object ends if the stack and the time suffice, with JSON or with an
exception. -/
def ConversionEnds (o : O) : Prop :=
  ∃ rounds depth, Limited.ending (to_json objects rounds depth o) ≠ .overflow

theorem conversionEnds_iff (o : O) : objects.ConversionEnds o ↔ Ends objects.plan (.object o) := by
  constructor
  · rintro ⟨rounds, depth, hne⟩
    obtain ⟨n, hn⟩ := reached_to_json rounds depth o hne
    exact ⟨n, by rwa [hn]⟩
  · rintro ⟨n, hne⟩
    refine ⟨n, n, ?_⟩
    rwa [ending_to_json n o (Nat.le_refl n) (Nat.le_refl n) hne]

/-- Everything in the object has a JSON form, no list or dictionary contains itself, and all
iterators come to an end. -/
def Convertible (o : O) : Prop := Completes objects.plan (objects.plan (.object o)) ()

variable {objects}

theorem convertible_iff {o : O} :
    objects.Convertible o ↔ ∃ rounds depth j, to_json objects rounds depth o = pure j := by
  simp only [Convertible, completes_run_iff, ← Limited.ending_eq_done_iff]
  constructor
  · rintro ⟨n, hn⟩
    exact ⟨n, n, by rw [ending_to_json n o (Nat.le_refl n) (Nat.le_refl n) (by simp [hn]), hn]⟩
  · rintro ⟨rounds, depth, hdone⟩
    have hends : Limited.ending (to_json objects rounds depth o) ≠ .overflow := by simp [hdone]
    obtain ⟨n, hn⟩ := reached_to_json rounds depth o hends
    exact ⟨n, by rw [hn, hdone]⟩

end PyObjects

/-! ## Ruby -/

/-- How a program ends. -/
def ending {ε α : Type} : Outcome ε α → Ending Unit
  | .returned _ => .done ()
  | .raised => .failed
  | .thrown _ => .failed
  | .stuck => .overflow

section

variable {ε σ α β X : Type}

theorem ending_bind {f : Prog ε σ α} {g : α → Prog ε σ β} {s : σ} {e : Ending Unit}
    (hf : f.ReadOnly) (h : ∀ a, ending (g a s).1 = e) :
    ending ((f >>= g) s).1 = (ending (f s).1).bind fun _ => e := by
  rcases hfs : f s with ⟨r, s'⟩
  simp only [Bind.bind, hfs]
  cases r with
  | returned a =>
      rw [hf s a s' hfs]
      exact h a
  | raised => rfl
  | thrown e => rfl
  | stuck => rfl

theorem ending_bind_pure {f : Prog ε σ α} (g : α → β) (s : σ) :
    ending ((f >>= fun a => (pure (g a) : Prog ε σ β)) s).1 = ending (f s).1 := by
  rcases hfs : f s with ⟨r, s'⟩
  simp only [Bind.bind, hfs]
  cases r <;> rfl

theorem ending_mapM {f : α → Prog ε σ β} {items : α → List (Item X)} {visit : X → Ending Unit}
    {s : σ} (hf : ∀ a, (f a).ReadOnly)
    (h : ∀ a, ending (f a s).1 = (Plan.ofItems (items a)).eval visit) (xs : List α) :
    ending ((xs.mapM f) s).1 = (Plan.ofItems (xs.flatMap items)).eval visit := by
  induction xs with
  | nil => rfl
  | cons a rest ih =>
      rw [List.mapM_cons, List.flatMap_cons, eval_append, ← h a]
      exact ending_bind (hf a) fun b => (ending_bind_pure _ s).trans ih

end

namespace RubyVm

variable {S O : Type}

/-- `mrb_str_to_cstr` takes the value. -/
def takesCString (node : O → MrbNode O) (v : O) : Bool :=
  match node v with
  | .string bytes => !bytes.contains 0
  | _ => false

/-- What `mrb_value_to_json` does at a value. -/
def items (node : O → MrbNode O) (v : O) : List (Item O) :=
  match node v with
  | .string _ => [.check (takesCString node v)]
  | .array elements => elements.flatMap fun element => [.call element]
  | .hash entries =>
      entries.flatMap fun entry => [.call entry.2, .check (takesCString node entry.1)]
  | .nil | .fixnum _ | .float _ | .true | .false | .other => []

def plan (node : O → MrbNode O) (v : O) : Plan O Unit := .ofItems (items node v)

variable (p : Mruby S O)

theorem look_bind_apply {α : Type} (v : O) (g : MrbNode O → VmProg S α) (s : S × Heap) :
    (look p v >>= g) s = g (p.node s.1 v) s := rfl

theorem ending_mrb_str_to_cstr (visit : O → Ending Unit) (v : O) (s : S × Heap) :
    ending (mrb_str_to_cstr p v s).1 =
      (Plan.ofItems [.check (takesCString (p.node s.1) v)]).eval visit := by
  rw [mrb_str_to_cstr, look_bind_apply, takesCString]
  cases p.node s.1 v with
  | string bytes =>
      dsimp only
      by_cases hnul : 0 ∈ bytes
      · rw [if_pos hnul, List.contains_iff_mem.mpr hnul]
        rfl
      · rw [if_neg hnul, Bool.eq_false_iff.mpr fun h => hnul (List.contains_iff_mem.mp h)]
        rfl
  | nil | fixnum n | float x | true | false | array elements | hash entries | other => rfl

theorem ending_mrb_value_to_json (depth : Nat) (v : O) (s : S × Heap) :
    ending (mrb_value_to_json p depth v s).1 = run (plan (p.node s.1)) depth v := by
  induction depth generalizing v with
  | zero => rfl
  | succ depth ih =>
      -- each element is read in the state `s`, as the calls before it change nothing
      have hreadOnly := readOnly_mrb_value_to_json (p := p) depth
      have hcall : ∀ v, ending (mrb_value_to_json p depth v s).1 =
          (Plan.ofItems [.call v]).eval (run (plan (p.node s.1)) depth) := by
        intro v
        rw [ih, eval_call]
      rw [run, plan, items, mrb_value_to_json, look_bind_apply]
      cases p.node s.1 v with
      | string bytes =>
          dsimp only
          rw [ending_bind_pure, ending_mrb_str_to_cstr]
      | array elements =>
          dsimp only
          rw [ending_bind_pure]
          exact ending_mapM hreadOnly hcall elements
      | hash entries =>
          dsimp only
          rw [ending_bind_pure]
          refine ending_mapM (readOnly_entry hreadOnly) (fun entry => ?_) entries
          -- here too the value comes first
          rw [← List.singleton_append, eval_append, ← ending_mrb_str_to_cstr, ← hcall]
          exact ending_bind (hreadOnly entry.2) fun value => ending_bind_pure _ s
      | nil | fixnum n | float x | true | false | other => rfl

/-- The conversion of a value ends if the stack suffices, with JSON or with an error of mruby. -/
def ConversionEnds (v : O) (s : S × Heap) : Prop :=
  ∃ depth, ending (mrb_value_to_json p depth v s).1 ≠ .overflow

theorem conversionEnds_iff (v : O) (s : S × Heap) :
    ConversionEnds p v s ↔ Ends (plan (p.node s.1)) v := by
  simp only [ConversionEnds, ending_mrb_value_to_json, Ends]

end RubyVm

end Poesie
