import Mathlib.Logic.Relation
import Mathlib.Order.WellFounded

set_option autoImplicit false

/-! # Recursive traversals

A function that follows references goes from node to node: at each one it calls itself, for one
node after the other. No measure of the nodes makes it end. If the calls may be nested deeply
enough, it ends for the nodes from which it comes neither back to a node that it is at, nor from
new nodes to new ones for ever, nor to a step that never returns.
-/

namespace Traversal

/-- What is done at a node. What a call leaves decides how it goes on. A plan that hangs is at a
step that never returns. -/
inductive Plan (X Y : Type) where
  | done (y : Y)
  | fail
  | hang
  | call (x : X) (next : Y → Plan X Y)

/-- How a traversal ends. One that overflows has nested its calls too deeply, or hangs. -/
inductive Ending (Y : Type) where
  | done (y : Y)
  | failed
  | overflow

variable {X Y Z : Type}

/-- One ending after the other. -/
def Ending.bind (e : Ending Y) (rest : Y → Ending Z) : Ending Z :=
  match e with
  | .done y => rest y
  | .failed => .failed
  | .overflow => .overflow

@[simp] theorem Ending.done_bind (y : Y) (rest : Y → Ending Z) :
    (Ending.done y).bind rest = rest y := rfl

@[simp] theorem Ending.failed_bind (rest : Y → Ending Z) : Ending.failed.bind rest = .failed := rfl

@[simp] theorem Ending.overflow_bind (rest : Y → Ending Z) :
    Ending.overflow.bind rest = .overflow := rfl

theorem Ending.bind_assoc {W : Type} (e : Ending Y) (f : Y → Ending Z) (g : Z → Ending W) :
    (e.bind f).bind g = e.bind fun y => (f y).bind g := by
  cases e with
  | done y => rfl
  | failed => rfl
  | overflow => rfl

/-- What comes of a plan, if the calls come to what `visit` says. -/
def Plan.eval (visit : X → Ending Y) : Plan X Y → Ending Y
  | .done y => .done y
  | .fail => .failed
  | .hang => .overflow
  | .call x next => (visit x).bind fun y => (next y).eval visit

section

variable (plan : X → Plan X Y)

/-- The traversal, with at most `depth` calls inside one another. -/
def run : Nat → X → Ending Y
  | 0, _ => .overflow
  | depth + 1, x => (plan x).eval (run depth)

/-- Some depth is enough. -/
def Ends (x : X) : Prop := ∃ depth, run plan depth x ≠ .overflow

/-- All calls of a plan come back, and so does the plan. -/
inductive Completes : Plan X Y → Y → Prop
  | done (y : Y) : Completes (.done y) y
  | call {x : X} {next : Y → Plan X Y} {y z : Y} (visited : Completes (plan x) y)
      (rest : Completes (next y) z) : Completes (.call x next) z

/-- A plan comes to the call for a node, if the calls in front of it come back. -/
inductive Comes : Plan X Y → X → Prop
  | here (x : X) (next : Y → Plan X Y) : Comes (.call x next) x
  | later {x x' : X} {next : Y → Plan X Y} {y : Y} (visited : Completes plan (plan x) y)
      (rest : Comes (next y) x') : Comes (.call x next) x'

/-- A node visits another one. -/
def Visits (x x' : X) : Prop := Comes plan (plan x) x'

/-- A plan comes to a step that never returns, if the calls in front of it come back. -/
inductive Hangs : Plan X Y → Prop
  | here : Hangs .hang
  | later {x : X} {next : Y → Plan X Y} {y : Y} (visited : Completes plan (plan x) y)
      (rest : Hangs (next y)) : Hangs (.call x next)

/-- Each node of the chain visits the next one. -/
def Chain (chain : Nat → X) : Prop := ∀ n, Visits plan (chain n) (chain (n + 1))

/-- A node that can be reached visits itself, directly or through others. -/
def Cyclic (x : X) : Prop :=
  ∃ x', Relation.ReflTransGen (Visits plan) x x' ∧ Relation.TransGen (Visits plan) x' x'

/-- There is an endless chain of nodes that are all different. -/
def Unfolds (x : X) : Prop := ∃ chain, chain 0 = x ∧ Chain plan chain ∧ Function.Injective chain

/-- Every way from the node comes to an end. -/
structure Grounded (x : X) : Prop where
  acyclic : ¬ Cyclic plan x
  bounded : ¬ Unfolds plan x
  returns : ∀ x', Relation.ReflTransGen (Visits plan) x x' → ¬ Hangs plan (plan x')

end

/-! ## Depth -/

theorem Plan.eval_call_done {visit : X → Ending Y} {x : X} {next : Y → Plan X Y} {y : Y}
    (h : visit x = .done y) : (Plan.call x next).eval visit = (next y).eval visit := by
  rw [eval, h, Ending.done_bind]

/-- A plan that does not overflow comes to the same with calls that overflow less. -/
theorem Plan.eval_mono {visit visit' : X → Ending Y}
    (hvisit : ∀ x, visit x ≠ .overflow → visit' x = visit x) {p : Plan X Y}
    (h : p.eval visit ≠ .overflow) : p.eval visit' = p.eval visit := by
  induction p with
  | done y => rfl
  | fail => rfl
  | hang => exact absurd rfl h
  | call x next ih =>
      rw [eval] at h ⊢
      cases hx : visit x with
      | done y =>
          rw [hx, Ending.done_bind] at h
          rw [eval, hvisit x (by simp [hx]), hx, Ending.done_bind]
          exact ih y h
      | failed =>
          rw [eval, hvisit x (by simp [hx]), hx]
          rfl
      | overflow =>
          rw [hx, Ending.overflow_bind] at h
          exact absurd rfl h

variable {plan : X → Plan X Y}

theorem run_succ {depth : Nat} {x : X} (h : run plan depth x ≠ .overflow) :
    run plan (depth + 1) x = run plan depth x := by
  induction depth generalizing x with
  | zero => exact absurd rfl h
  | succ depth ih => exact Plan.eval_mono (fun _ => ih) h

/-- A traversal that ends does so at any greater depth, in the same way. -/
theorem run_of_le {depth depth' : Nat} (hle : depth ≤ depth') {x : X}
    (h : run plan depth x ≠ .overflow) : run plan depth' x = run plan depth x := by
  induction hle with
  | refl => rfl
  | step _ ih =>
      rw [run_succ (by rw [ih]; exact h)]
      exact ih

theorem run_of_le_done {depth depth' : Nat} (hle : depth ≤ depth') {x : X} {y : Y}
    (h : run plan depth x = .done y) : run plan depth' x = .done y := by
  rw [run_of_le hle (by simp [h]), h]

theorem eval_of_le {depth depth' : Nat} (hle : depth ≤ depth') {p : Plan X Y}
    (h : p.eval (run plan depth) ≠ .overflow) :
    p.eval (run plan depth') = p.eval (run plan depth) :=
  Plan.eval_mono (fun _ => run_of_le hle) h

theorem eval_of_le_done {depth depth' : Nat} (hle : depth ≤ depth') {p : Plan X Y} {y : Y}
    (h : p.eval (run plan depth) = .done y) : p.eval (run plan depth') = .done y := by
  rw [eval_of_le hle (by simp [h]), h]

/-! ## Plans that complete -/

theorem Completes.eval {p : Plan X Y} {y : Y} (h : Completes plan p y) :
    ∃ depth, p.eval (run plan depth) = .done y := by
  induction h with
  | done y => exact ⟨0, rfl⟩
  | @call x next y z _ _ ihvisited ihrest =>
      -- deep enough for the call, one level further in, and for the rest
      obtain ⟨depth₁, hvisited⟩ := ihvisited
      obtain ⟨depth₂, hrest⟩ := ihrest
      have hx : run plan (max (depth₁ + 1) depth₂) x = .done y :=
        run_of_le_done (Nat.le_max_left _ _) hvisited
      refine ⟨max (depth₁ + 1) depth₂, ?_⟩
      rw [Plan.eval_call_done hx]
      exact eval_of_le_done (Nat.le_max_right _ _) hrest

theorem completes_of_eval {depth : Nat} {p : Plan X Y} {y : Y}
    (h : p.eval (run plan depth) = .done y) : Completes plan p y := by
  -- on the depth for the calls, and within it on the plan for what comes after them
  induction depth generalizing p y with
  | zero =>
      cases p with
      | done y' =>
          cases h
          exact .done y
      | fail | hang => cases h
      | call x next => cases h
  | succ depth ih =>
      induction p with
      | done y' =>
          cases h
          exact .done y
      | fail | hang => cases h
      | call x next ihnext =>
          rw [Plan.eval] at h
          cases hx : run plan (depth + 1) x with
          | done y' =>
              rw [hx, Ending.done_bind] at h
              exact .call (ih hx) (ihnext y' h)
          | failed => simp [hx] at h
          | overflow => simp [hx] at h

/-- A node completes exactly if it does at some depth. -/
theorem completes_run_iff {x : X} {y : Y} :
    Completes plan (plan x) y ↔ ∃ depth, run plan depth x = .done y := by
  constructor
  · intro h
    obtain ⟨depth, hdepth⟩ := h.eval
    exact ⟨depth + 1, hdepth⟩
  · rintro ⟨depth, h⟩
    cases depth with
    | zero => cases h
    | succ depth => exact completes_of_eval h

/-! ## Chains of visits -/

/-- What a plan comes to before it ends has ended before. -/
theorem Comes.run_ne {depth : Nat} {p : Plan X Y} {x : X} (h : Comes plan p x)
    (hp : p.eval (run plan depth) ≠ .overflow) : run plan depth x ≠ .overflow := by
  induction h with
  | here x next =>
      intro hx
      apply hp
      rw [Plan.eval, hx, Ending.overflow_bind]
  | @later x x' next y hvisited _ ih =>
      have hx : run plan depth x ≠ .overflow := by
        intro hx
        apply hp
        rw [Plan.eval, hx, Ending.overflow_bind]
      -- it has ended at this depth, so in the way it ends at any
      have hdone : run plan depth x = .done y := by
        obtain ⟨depth', hdepth'⟩ := completes_run_iff.mp hvisited
        have hsame := run_of_le (Nat.le_max_left depth depth') hx
        rw [← hsame]
        exact run_of_le_done (Nat.le_max_right _ _) hdepth'
      rw [Plan.eval_call_done hdone] at hp
      exact ih hp

/-- No depth is enough for a plan that hangs. -/
theorem Hangs.eval {p : Plan X Y} (h : Hangs plan p) (depth : Nat) :
    p.eval (run plan depth) = .overflow := by
  induction h with
  | here => rfl
  | @later x next y hvisited _ ih =>
      by_cases hx : run plan depth x = .overflow
      · rw [Plan.eval, hx, Ending.overflow_bind]
      · obtain ⟨depth', hdepth'⟩ := completes_run_iff.mp hvisited
        have hdone : run plan depth x = .done y := by
          rw [← run_of_le (Nat.le_max_left depth depth') hx]
          exact run_of_le_done (Nat.le_max_right _ _) hdepth'
        rw [Plan.eval_call_done hdone]
        exact ih

theorem Ends.not_hangs {x : X} (h : Ends plan x) : ¬ Hangs plan (plan x) := by
  obtain ⟨depth, hdepth⟩ := h
  intro hhangs
  cases depth with
  | zero => exact hdepth rfl
  | succ depth => exact hdepth (hhangs.eval depth)

theorem Ends.visit {x x' : X} (h : Ends plan x) (hx' : Visits plan x x') : Ends plan x' := by
  obtain ⟨depth, hdepth⟩ := h
  cases depth with
  | zero => exact absurd rfl hdepth
  | succ depth => exact ⟨depth, hx'.run_ne hdepth⟩

theorem Ends.reach {x x' : X} (h : Ends plan x)
    (hx' : Relation.ReflTransGen (Visits plan) x x') : Ends plan x' := by
  induction hx' with
  | refl => exact h
  | tail _ hvisit ih => exact ih.visit hvisit

/-- A plan that does not hang ends if everything does that it comes to. -/
theorem eval_ne_of_comes {p : Plan X Y} (hreturns : ¬ Hangs plan p)
    (h : ∀ x, Comes plan p x → Ends plan x) : ∃ depth, p.eval (run plan depth) ≠ .overflow := by
  induction p with
  | done y => exact ⟨0, fun hover => by cases hover⟩
  | fail => exact ⟨0, fun hover => by cases hover⟩
  | hang => exact absurd .here hreturns
  | call x next ih =>
      obtain ⟨depth, hdepth⟩ := h x (.here x next)
      cases hx : run plan depth x with
      | done y =>
          have hvisited : Completes plan (plan x) y := completes_run_iff.mpr ⟨depth, hx⟩
          obtain ⟨depth', hrest⟩ := ih y (fun hrest => hreturns (.later hvisited hrest))
            fun x' hx' => h x' (.later hvisited hx')
          have hx : run plan (max depth depth') x = .done y :=
            run_of_le_done (Nat.le_max_left _ _) hx
          refine ⟨max depth depth', ?_⟩
          rw [Plan.eval_call_done hx, eval_of_le (Nat.le_max_right _ _) hrest]
          exact hrest
      | failed =>
          refine ⟨depth, ?_⟩
          rw [Plan.eval, hx, Ending.failed_bind]
          exact fun hover => by cases hover
      | overflow => exact absurd hx hdepth

theorem Ends.acc {x : X} (h : Ends plan x) : Acc (fun x' x => Visits plan x x') x := by
  obtain ⟨depth, hdepth⟩ := h
  induction depth generalizing x with
  | zero => exact absurd rfl hdepth
  | succ depth ih => exact Acc.intro x fun x' hx' => ih (Comes.run_ne hx' hdepth)

theorem ends_of_acc {x : X} (h : Acc (fun x' x => Visits plan x x') x)
    (hreturns : ∀ x', Relation.ReflTransGen (Visits plan) x x' → ¬ Hangs plan (plan x')) :
    Ends plan x := by
  induction h with
  | intro x _ ih =>
      obtain ⟨depth, hdepth⟩ := eval_ne_of_comes (hreturns x .refl) fun x' hx' =>
        ih x' hx' fun x'' hx'' => hreturns x'' (.head hx' hx'')
      exact ⟨depth + 1, hdepth⟩

theorem Chain.reaches {chain : Nat → X} (h : Chain plan chain) (n : Nat) :
    Relation.ReflTransGen (Visits plan) (chain 0) (chain n) := by
  induction n with
  | zero => exact .refl
  | succ n ih => exact ih.tail (h n)

theorem Chain.path {chain : Nat → X} (h : Chain plan chain) {i j : Nat} (hlt : i < j) :
    Relation.TransGen (Visits plan) (chain i) (chain j) := by
  induction j, hlt using Nat.le_induction with
  | base => exact .single (h i)
  | succ j _ ih => exact ih.tail (h j)

/-- A node on a cycle is not accessible. -/
theorem not_transGen_of_acc {r : X → X → Prop} {x : X} (h : Acc r x) :
    ¬ Relation.TransGen r x x := by
  have hacc : Acc (Relation.TransGen r) x := h.transGen
  induction hacc with
  | intro x _ ih => exact fun hloop => ih x hloop h hloop

/-- A traversal ends at some depth if and only if there are neither cycles nor endless chains of
new nodes, and each step that it comes to returns. -/
theorem ends_iff {x : X} : Ends plan x ↔ Grounded plan x := by
  constructor
  · intro hends
    have hacc := hends.acc
    refine ⟨?acyclic, ?bounded, fun x' hx' => (hends.reach hx').not_hangs⟩
    · rintro ⟨x', hreach, hcycle⟩
      -- accessibility goes with the visits, and is lost on a cycle
      have hacc' : Acc (fun x' x => Visits plan x x') x' := by
        rcases Relation.reflTransGen_iff_eq_or_transGen.mp hreach with rfl | hpath
        · exact hacc
        · exact hacc.inv_of_transGen (Relation.transGen_swap.mp hpath)
      exact not_transGen_of_acc hacc' (Relation.transGen_swap.mp hcycle)
    · rintro ⟨chain, hstart, hchain, -⟩
      exact not_acc_iff_exists_descending_chain.mpr
        ⟨chain, hstart, fun n => (hchain n : Visits plan (chain n) (chain (n + 1)))⟩ hacc
  · rintro ⟨hcyclic, hunfolds, hreturns⟩
    refine ends_of_acc ?_ hreturns
    by_contra hacc
    obtain ⟨chain, rfl, hchain⟩ := not_acc_iff_exists_descending_chain.mp hacc
    have hchain : Chain plan chain := hchain
    -- it is injective: two places of the chain with one node make a cycle
    refine hunfolds ⟨chain, rfl, hchain, fun i j heq => ?_⟩
    rcases Nat.lt_trichotomy i j with hlt | rfl | hgt
    · have hpath := hchain.path hlt
      rw [← heq] at hpath
      exact absurd ⟨_, hchain.reaches i, hpath⟩ hcyclic
    · rfl
    · have hpath := hchain.path hgt
      rw [heq] at hpath
      exact absurd ⟨_, hchain.reaches j, hpath⟩ hcyclic

/-! ## Steps that may not return -/

/-- A plan that starts with a step which returns, throws or runs for ever. -/
def Plan.after {ε α : Type} (r : ExceptT ε Option α) (rest : α → Plan X Y) : Plan X Y :=
  match r.run with
  | some (.ok a) => rest a
  | some (.error _) => .fail
  | none => .hang

/-! ## Checks and calls -/

/-- A step of a node whose calls leave nothing behind. -/
inductive Item (X : Type) where
  | check (ok : Bool)
  | call (x : X)

/-- Steps that are taken one after the other. -/
def Plan.ofItems : List (Item X) → Plan X Unit
  | [] => .done ()
  | .check ok :: rest => if ok then ofItems rest else .fail
  | .call x :: rest => .call x fun _ => ofItems rest

theorem eval_append (visit : X → Ending Unit) (xs ys : List (Item X)) :
    (Plan.ofItems (xs ++ ys)).eval visit =
      ((Plan.ofItems xs).eval visit).bind fun _ => (Plan.ofItems ys).eval visit := by
  induction xs with
  | nil => rfl
  | cons item rest ih =>
      cases item with
      | check ok =>
          cases ok with
          | false => rfl
          | true => exact ih
      | call x =>
          rw [List.cons_append, Plan.ofItems, Plan.ofItems, Plan.eval, Plan.eval, ih,
            Ending.bind_assoc]

theorem eval_call (visit : X → Ending Unit) (x : X) :
    (Plan.ofItems [.call x]).eval visit = visit x := by
  rw [Plan.ofItems, Plan.eval]
  cases visit x with
  | done y => rfl
  | failed => rfl
  | overflow => rfl

section

variable {plan : X → Plan X Unit}

/-- Such a node is complete if its checks succeed and its calls come back. -/
theorem completes_ofItems_iff {items : List (Item X)} :
    Completes plan (.ofItems items) () ↔
      (∀ ok, Item.check ok ∈ items → ok = true) ∧
        ∀ x, Item.call x ∈ items → Completes plan (plan x) () := by
  induction items with
  | nil =>
      rw [Plan.ofItems]
      exact iff_of_true (.done ()) (by simp)
  | cons item rest ih =>
      cases item with
      | check ok =>
          cases ok with
          | false =>
              refine iff_of_false ?_ fun h => Bool.false_ne_true (h.1 false (by simp))
              intro h
              rw [Plan.ofItems, if_neg Bool.false_ne_true] at h
              cases h
          | true =>
              rw [Plan.ofItems, if_pos rfl, ih]
              simp
      | call x =>
          constructor
          · intro h
            rw [Plan.ofItems] at h
            cases h with
            | call hvisited hrest =>
                obtain ⟨hchecks, hcalls⟩ := ih.mp hrest
                refine ⟨fun ok hok => hchecks ok (by simpa using hok), fun x' hx' => ?_⟩
                rcases List.mem_cons.mp hx' with heq | hmem
                · cases heq
                  exact hvisited
                · exact hcalls x' hmem
          · rintro ⟨hchecks, hcalls⟩
            rw [Plan.ofItems]
            exact .call (hcalls x (by simp)) (ih.mpr
              ⟨fun ok hok => hchecks ok (by simp [hok]), fun x' hx' => hcalls x' (by simp [hx'])⟩)

end

end Traversal
