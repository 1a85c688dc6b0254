import Poesie.HeapOps
import Poesie.StackCalls

set_option autoImplicit false

/-! # Installing functions in JavaScript

`JavascriptVm::install` makes a function object, stores the pointer to a new holder in its hidden
property and assigns it to a global of the given name. Then the holder goes into the map `m_ffuncs`,
or is destroyed at once if the map has an entry of that name.
-/

namespace Poesie

open Wire Json SharedPtr Outcomes

/-- A VM of the JavaScript backend, the map `m_ffuncs`, and the holders in memory. -/
structure JavascriptState where
  thread : DukThread
  ffuncs : List (Bytes × Nat)
  holders : Nat → Option FunctionHolder
  next : Nat

namespace JavascriptVm

/-- A VM in which nothing is installed yet. -/
def withoutFunctions (t : DukThread) : JavascriptState := ⟨t, [], fun _ => none, 0⟩

/-- The key of the hidden property. -/
def holderKey : Bytes := 0xff :: text "holder"

/-- `m_ffuncs.insert`: the rejected pair is destroyed, with the holder in it. -/
def insertHolder (name : Bytes) (holder : FunctionHolder) (s : JavascriptState) :
    JavascriptState :=
  let holders := Function.update s.holders s.next (some holder)
  if s.ffuncs.any fun f => f.1 == name then
    { s with holders := Function.update holders s.next none, next := s.next + 1 }
  else { s with
    ffuncs := s.ffuncs ++ [(name, s.next)]
    holders := holders
    next := s.next + 1 }

section

variable {s : JavascriptState} {name : Bytes}

/-- A name that is new gets an entry. -/
theorem insertHolder_of_new (hnew : ∀ f ∈ s.ffuncs, f.1 ≠ name) (holder : FunctionHolder) :
    insertHolder name holder s = ⟨s.thread, s.ffuncs ++ [(name, s.next)],
      Function.update s.holders s.next (some holder), s.next + 1⟩ := by
  have hany : (s.ffuncs.any fun f => f.1 == name) = false := by
    rw [List.any_eq_false]
    intro f hf
    rw [beq_iff_eq]
    exact hnew f hf
  simp only [insertHolder, hany]
  rfl

/-- New holders are made at pointers that have not been used. -/
theorem unused_insertHolder (hnew : ∀ f ∈ s.ffuncs, f.1 ≠ name)
    (holder : FunctionHolder) (hunused : ∀ p, s.holders p ≠ none → p < s.next) :
    ∀ p, (insertHolder name holder s).holders p ≠ none →
      p < (insertHolder name holder s).next := by
  intro p hp
  rw [insertHolder_of_new hnew] at hp ⊢
  show p < s.next + 1
  by_cases hnext : p = s.next
  · omega
  · have hlt := hunused p (by simpa [Function.update_of_ne hnext] using hp)
    omega

end

/-- `JavascriptVm::install`. It may end the process. -/
def install (h : DukHost) (z : DukSizes) (name : Bytes) (holder : FunctionHolder)
    (s : JavascriptState) : Option JavascriptState :=
  ((installFunction h z name holder.expectedArgs s.next).after s.thread).map fun t =>
    insertHolder name holder { s with thread := t }

/-- The objects after a script, or what else works on them. -/
def runScript (ops : List HeapOp) (t : DukThread) : DukThread :=
  let frame := HeapOp.run ops ⟨t.world.1, fun _ => .undefined⟩
  { t with world := (frame.heap, t.world.2) }

end JavascriptVm

/-! ## What an installation assigns -/

namespace DukStack

variable {h : DukHost} {z : DukSizes} {t t' : DukThread}

theorem gives_pushGlobalObject (hroom : t.Room 1) :
    pushGlobalObject.Gives t ()
      { t with stack := t.stack ++ [.value (.object t.world.1.globalObject)] } := by
  have hneed : (need 1).Gives t () t := if_pos hroom
  exact Prog.gives_bind_iff.mpr ⟨_, t, rfl, Prog.gives_bind_iff.mpr ⟨(), t, hneed, rfl⟩⟩

theorem of_gives_push {v : DukValue} (hgives : (push v).Gives t () t') :
    t.Room 1 ∧ t' = { t with stack := t.stack ++ [DukItem.value v] } :=
  ⟨(exactly_push v).only ⟨(), t', hgives⟩, (exactly_push v).holds hgives⟩

/-- The value on top is assigned to the global object. -/
theorem of_gives_putGlobalString {key : Bytes} {below : List DukItem} {v : DukValue}
    (hstack : t.stack = below ++ [.value v]) (hgives : (putGlobalString h z key).Gives t () t') :
    (Duk.putProp h.toDukCode (.object t.world.1.globalObject) (.name key) v).Gives t.world ()
      t'.world ∧ t'.stack = below := by
  obtain ⟨u, t₁, hglobal, hrest⟩ := Prog.gives_bind_iff.mp hgives
  have hroom : t.Room 1 := returns_pushGlobalObject_iff.mp ⟨u, t₁, hglobal⟩
  obtain ⟨-, rfl⟩ := hglobal.unique (gives_pushGlobalObject hroom)
  have hpair : t.stack ++ [DukItem.value (.object t.world.1.globalObject)] =
      below ++ [.value v, .value (.object t.world.1.globalObject)] := by
    rw [hstack, List.append_assoc]
    rfl
  obtain ⟨u₁, t₂, hinsert, hrest⟩ := Prog.gives_bind_iff.mp hrest
  obtain ⟨-, rfl⟩ := hinsert.unique (gives_insert hpair)
  obtain ⟨u₂, t₃, hput, hpop⟩ := Prog.gives_bind_iff.mp hrest
  have htop : below ++ [DukItem.value (.object t.world.1.globalObject), .value v] =
      below ++ [.value (.object t.world.1.globalObject)] ++ [.value v] := by
    simp
  obtain ⟨hworld, hbelow⟩ := of_gives_putProp htop (gives_itemAt_second rfl) hput
  obtain ⟨-, rfl⟩ := hpop.unique (gives_pop below [_] hbelow rfl)
  exact ⟨hworld, rfl⟩

/-- The object below the value on top stores it. -/
theorem gives_putBelow (key : DukKey) {below : List DukItem} {o : Nat} {v : DukValue}
    (hstack : t.stack = below ++ [.value (.object o), .value v])
    (hstores : t.world.1.Stores o key.bytes) (hroom : t.Room (putNeed z)) :
    (putProp h.toDukCode z (-2) key).Gives t ()
      ⟨(t.world.1.store o key.bytes v, t.world.2), below ++ [.value (.object o)]⟩ := by
  have htop : t.stack = below ++ [.value (.object o)] ++ [DukItem.value v] := by
    rw [hstack, List.append_assoc]
    rfl
  have hput := within_putProp (c := h.toDukCode) (z := z) htop (gives_itemAt_second hstack) hstores
  obtain ⟨u, t', hgives⟩ := hput.returns hroom
  obtain ⟨-, rfl⟩ := hput.ensures u t' hgives
  exact hgives

/-- The global object stores the value on top. -/
theorem gives_putGlobalString {key : Bytes} {below : List DukItem} {v : DukValue}
    (hstack : t.stack = below ++ [.value v])
    (hstores : t.world.1.Stores t.world.1.globalObject key) (hroom : t.Room (1 + putNeed z)) :
    (putGlobalString h z key).Gives t ()
      ⟨(t.world.1.store t.world.1.globalObject key v, t.world.2), below⟩ := by
  have hpair : t.stack ++ [DukItem.value (.object t.world.1.globalObject)] =
      below ++ [.value v, .value (.object t.world.1.globalObject)] := by
    rw [hstack, List.append_assoc]
    rfl
  have hone : t.Room 1 := by
    unfold DukThread.Room at hroom ⊢
    omega
  have hafter : DukThread.Room ⟨t.world, below ++
      [.value (.object t.world.1.globalObject), .value v]⟩ (putNeed z) := by
    have hheight : (below ++ [DukItem.value (.object t.world.1.globalObject), .value v]).length =
        t.stack.length + 1 := by
      rw [hstack]
      simp
    unfold DukThread.Room at hroom ⊢
    rw [hheight]
    show _ ≤ t.world.1.limit
    omega
  refine Prog.gives_bind_iff.mpr ⟨_, _, gives_pushGlobalObject hone, ?_⟩
  refine Prog.gives_bind_iff.mpr ⟨_, _, gives_insert hpair, ?_⟩
  refine Prog.gives_bind_iff.mpr ⟨_, _, gives_putBelow (.name key) rfl hstores hafter, ?_⟩
  exact gives_pop below [_] rfl rfl

end DukStack

namespace JavascriptVm

open DukStack

variable {h : DukHost} {z : DukSizes} {t t' : DukThread} {name : Bytes} {nargs : UInt64}
  {pointer : Nat}

theorem of_gives_pushCFunction {u : Unit} (hgives : (DukStack.pushCFunction nargs).Gives t u t') :
    t' = ⟨(t.world.1.allocFunction, t.world.2),
      t.stack ++ [.value (.object t.world.1.next)]⟩ := by
  unfold DukStack.pushCFunction at hgives
  split at hgives
  · obtain ⟨u₁, t₁, hneed, hrest⟩ := Prog.gives_bind_iff.mp hgives
    obtain rfl := (exactly_need 1).holds hneed
    cases hrest
    rfl
  · cases hgives

/-- The pointer is assigned to the hidden property of a new function, and the function to the
global. -/
theorem of_gives_installFunction {u : Unit}
    (hgives : (installFunction h z name nargs pointer).Gives t u t') :
    ∃ w, (Duk.putProp h.toDukCode (.object t.world.1.next) (.name holderKey)
        (.pointer pointer)).Gives (t.world.1.allocFunction, t.world.2) () w ∧
      (Duk.putProp h.toDukCode (.object w.1.globalObject) (.name (cString name))
        (.object t.world.1.next)).Gives w () t'.world ∧ t'.stack = t.stack := by
  obtain ⟨u₁, t₁, hfunction, hrest⟩ := Prog.gives_bind_iff.mp hgives
  obtain rfl := of_gives_pushCFunction hfunction
  obtain ⟨u₂, t₂, hpush, hrest⟩ := Prog.gives_bind_iff.mp hrest
  obtain ⟨-, rfl⟩ := of_gives_push hpush
  obtain ⟨u₃, t₃, hput, hglobal⟩ := Prog.gives_bind_iff.mp hrest
  have hpair : t.stack ++ [DukItem.value (.object t.world.1.next)] ++ [.value (.pointer pointer)] =
      t.stack ++ [.value (.object t.world.1.next), .value (.pointer pointer)] := by
    simp
  obtain ⟨hholder, hstack⟩ := of_gives_putProp rfl (gives_itemAt_second hpair) hput
  obtain ⟨hname, hbelow⟩ := of_gives_putGlobalString hstack hglobal
  exact ⟨t₃.world, hholder, hname, hbelow⟩

/-- Where nothing is run for the two assignments, they store their values. -/
theorem gives_installFunction (name : Bytes) (pointer : Nat)
    (hargs : (pushCFunction (dukIdx nargs)).isSome)
    (hroom : t.Room (2 + putNeed z))
    (hholder : t.world.1.allocFunction.Stores t.world.1.next holderKey)
    (hname : (t.world.1.allocFunction.store t.world.1.next holderKey (.pointer pointer)).Stores
      t.world.1.globalObject (cString name)) :
    (installFunction h z name nargs pointer).Gives t ()
      ⟨((t.world.1.allocFunction.store t.world.1.next holderKey (.pointer pointer)).store
        t.world.1.globalObject (cString name) (.object t.world.1.next), t.world.2), t.stack⟩ := by
  unfold DukThread.Room at hroom
  -- the function object and the pointer are pushed, and two assignments take them away again
  have hfunction : (DukStack.pushCFunction nargs).Gives t () ⟨(t.world.1.allocFunction, t.world.2),
      t.stack ++ [.value (.object t.world.1.next)]⟩ := by
    obtain ⟨n, hn⟩ := Option.isSome_iff_exists.mp hargs
    unfold DukStack.pushCFunction
    rw [hn]
    have hneed : (need 1).Gives t () t := if_pos (by omega)
    exact Prog.gives_bind_iff.mpr ⟨(), t, hneed, rfl⟩
  have hpush := (exactly_push (.pointer pointer) (t := ⟨(t.world.1.allocFunction, t.world.2),
    t.stack ++ [.value (.object t.world.1.next)]⟩)).gives
      (by rw [List.length_append, List.length_singleton]; show _ ≤ t.world.1.limit; omega)
  obtain ⟨u, t₂, hpush, rfl⟩ := hpush
  have hpair : t.stack ++ [DukItem.value (.object t.world.1.next)] ++ [.value (.pointer pointer)] =
      t.stack ++ [.value (.object t.world.1.next), .value (.pointer pointer)] := by
    simp
  refine Prog.gives_bind_iff.mpr ⟨_, _, hfunction, Prog.gives_bind_iff.mpr ⟨_, _, hpush, ?_⟩⟩
  refine Prog.gives_bind_iff.mpr ⟨_, _, gives_putBelow (.name holderKey) hpair hholder ?_, ?_⟩
  · unfold DukThread.Room
    rw [List.length_append, List.length_append]
    show _ ≤ t.world.1.limit
    simp only [List.length_singleton]
    omega
  · refine gives_putGlobalString rfl hname ?_
    unfold DukThread.Room
    rw [List.length_append]
    show _ ≤ t.world.1.limit
    simp only [List.length_singleton]
    omega

end JavascriptVm

end Poesie
