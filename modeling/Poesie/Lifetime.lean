import Poesie.Conversion
import Poesie.Provider

set_option autoImplicit false

/-! # How long the views of a script live

The views an operation creates for its arguments are kept by its list `createdViews` until it
returns; those a foreign function returns are kept by a list of the callback. The values that
the script received point into them and can be stored in the VM for longer. A run records each
access through such a value, with whether the view was alive at that moment.
-/

namespace Poesie

open Wire Json SharedPtr

variable {V : Type} {m : Margo} {env : ViewId → Env}

/-! ## Lists by reference and by value -/

/-- The pointers to views are the list and the other holders, before and after. -/
def Kept : ConvRel := fun x y =>
  ∀ holders, Balanced (x.1 ++ holders) x.2 →
    x.2.next ≤ y.2.next ∧ Balanced (y.1 ++ holders) y.2

/-- The list holds exactly the views made meanwhile in addition, and none was destroyed. -/
def Shared : ConvRel := fun x y =>
  Kept x y ∧ ∀ holders, Balanced (x.1 ++ holders) x.2 →
    y.1 = x.1 ++ between x.2.next y.2.next ∧ y.2.world = x.2.world

/-- The list is the same as before. -/
def Freed : ConvRel := fun x y => Kept x y ∧ y.1 = x.1

theorem Kept.refl (x : List ViewId × Heap) : Kept x x := fun _ h => ⟨Nat.le_refl _, h⟩

theorem Kept.trans {x y z : List ViewId × Heap} (hxy : Kept x y) (hyz : Kept y z) :
    Kept x z := by
  intro holders h
  obtain ⟨hle, hy⟩ := hxy holders h
  obtain ⟨hle', hz⟩ := hyz holders hy
  exact ⟨Nat.le_trans hle hle', hz⟩

theorem Shared.refl (x : List ViewId × Heap) : Shared x x :=
  ⟨Kept.refl x, fun _ _ => ⟨by simp, rfl⟩⟩

theorem Shared.trans (x y z : List ViewId × Heap) (hxy : Shared x y) (hyz : Shared y z) :
    Shared x z := by
  refine ⟨hxy.1.trans hyz.1, fun holders h => ?_⟩
  obtain ⟨hle, hy⟩ := hxy.1 holders h
  obtain ⟨hle', -⟩ := hyz.1 holders hy
  obtain ⟨hlist, hworld⟩ := hxy.2 holders h
  obtain ⟨hlist', hworld'⟩ := hyz.2 holders hy
  refine ⟨?_, hworld'.trans hworld⟩
  calc z.1 = y.1 ++ between y.2.next z.2.next := hlist'
    _ = x.1 ++ (between x.2.next y.2.next ++ between y.2.next z.2.next) := by
        rw [hlist, List.append_assoc]
    _ = x.1 ++ between x.2.next z.2.next := by rw [between_append hle hle']

theorem Freed.refl (x : List ViewId × Heap) : Freed x x := ⟨Kept.refl x, rfl⟩

theorem Freed.trans (x y z : List ViewId × Heap) (hxy : Freed x y) (hyz : Freed y z) :
    Freed x z := ⟨hxy.1.trans hyz.1, hyz.2.trans hxy.2⟩

/-- Creating a view: the local pointer is gone, the one in the list stays. -/
theorem shared_addView (c : Converter V) (j : Json) : (Conv.addView m env c j).Steps Shared := by
  intro created s
  unfold Conv.addView
  cases hj : MemoryView.ofJson m j with
  | error e => exact Shared.refl (created, s)
  | ok v =>
      generalize hd : (if c.callsData then
          v.prepareLocalData m (env s.next) ((s.make v).retain s.next).world
        else (.ok (), v)) = prepared
      obtain ⟨outcome, v'⟩ := prepared
      -- what the heap is after the local pointer is gone
      have hstep : ∀ holders, Balanced (created ++ holders) s →
          let s₁ := (s.make v).retain s.next
          let s₂ := (s₁.put s.next v' s₁.world).release MemoryViewImpl.destroy s.next
          (s₂.next = s.next + 1 ∧ Balanced ((created ++ [s.next]) ++ holders) s₂) ∧
            s₂.world = s.world := by
        intro holders h
        have hmade : Balanced (s.next :: s.next :: (created ++ holders))
            ((s.make v).retain s.next) := (h.make v).retain (by simp)
        have hput := hmade.put s.next v' ((s.make v).retain s.next).world
        have hperm : (s.next :: (created ++ holders)).Perm ((created ++ [s.next]) ++ holders) := by
          rw [List.append_assoc]
          exact List.perm_middle.symm
        refine ⟨⟨?_, (hput.release MemoryViewImpl.destroy).perm hperm⟩, ?_⟩
        · simp [Store.next, Store.put, Store.make]
        · rw [hput.world_release_of_mem (by simp)]
          rfl
      refine ⟨fun holders h => ?_, fun holders h => ?_⟩
      · obtain ⟨⟨hnext, hbalanced⟩, -⟩ := hstep holders h
        simp only [hd]
        exact ⟨by show s.next ≤ _; omega, hbalanced⟩
      · obtain ⟨⟨hnext, -⟩, hworld⟩ := hstep holders h
        simp only [hd]
        refine ⟨?_, hworld⟩
        rw [hnext, between_succ]

/-- A call with the list by value leaves the caller's list and its views. -/
theorem freed_call {α : Type} {f : Conv α} (hf : f.Steps Kept) :
    (Conv.call true f).Steps Freed := by
  intro created s
  refine ⟨fun holders h => ?_, rfl⟩
  have hcopied := h.retainAll created fun id hid => h.made id (by simp [hid])
  obtain ⟨hle, hbalanced⟩ := hf created (s.retainAll created) (created ++ holders) hcopied
  have hnext : (s.retainAll created).next = s.next := by simp [Store.next]
  rw [hnext] at hle
  refine ⟨?_, hbalanced.releaseAll MemoryViewImpl.destroy⟩
  show s.next ≤ Store.next (Store.releaseAll _ _ _)
  simpa [Store.next] using hle

/-- With a list by reference, a conversion keeps every view it creates. -/
theorem shared_convert {c : Converter V} (hc : c.takesListByValue = false) (j : Json) :
    (convert m env c j).Steps Shared := by
  refine steps_convert Shared.refl Shared.trans ?_ ?_ j
  · intro α f hf
    rw [hc]
    exact hf
  · intro j
    rw [hc]
    exact shared_addView c j

/-- With a list by value, a conversion keeps none. -/
theorem freed_convert {c : Converter V} (hc : c.takesListByValue = true) (j : Json) :
    (convert m env c j).Steps Freed := by
  refine steps_convert Freed.refl Freed.trans ?_ ?_ j
  · intro α f hf
    rw [hc]
    exact freed_call fun created s => (hf created s).1
  · intro j
    rw [hc]
    exact freed_call fun created s => (shared_addView c j created s).1

theorem kept_convert (m : Margo) (env : ViewId → Env) (c : Converter V) (j : Json) :
    (convert m env c j).Steps Kept := by
  cases hc : c.takesListByValue with
  | true => exact fun created s => (freed_convert hc j created s).1
  | false => exact fun created s => (shared_convert hc j created s).1

/-! ## Operations -/

inductive Vm where
  | javascript
  | lua
  | python
  | ruby
  | jx9
  deriving DecidableEq, Repr

namespace Vm

/-- The converter of a backend. -/
def converter (api : VmApi V) : Vm → Converter V
  | javascript => JSONtoDukValue api
  | lua => JSONToLuaObject api
  | python => from_json api
  | ruby => json_to_mrb_value api
  | jx9 => JSONtoJx9Value api

/-- The values that an operation converts before it runs the script. `global` is the variable
that a Jx9 VM keeps between operations; its `call` puts the arguments into the program text. -/
def converted (global : Json) : Vm → Request → List Json
  | javascript, .execute _ args | javascript, .load _ args => string (text "poesie") :: args
  | javascript, .call _ _ args => args
  | lua, .execute _ args | lua, .load _ args => [array args]
  | lua, .call _ _ args => args
  | python, req => req.args
  | ruby, req => req.args
  | jx9, .execute _ args | jx9, .load _ args =>
      [global, array (string (text "poesie") :: args)]
  | jx9, .call _ _ _ => [global, array [string (text "poesie")]]

/-- The conversion of what a foreign function returns, with a list that ends with the
callback. Inside a Jx9 VM a view is only a string. -/
def returned (m : Margo) (env : ViewId → Env) (api : VmApi V) (vm : Vm) (result : Json)
    (s : Heap) : Heap :=
  match vm with
  | jx9 => s
  | _ =>
      -- the list is empty when the callback starts, and goes away when it ends
      match convert m env (vm.converter api) result [] s with
      | (_, created, s') => s'.releaseAll MemoryViewImpl.destroy created

end Vm

/-- What a script does that concerns views: an access through a buffer value it has got hold
of, or a call to a foreign function. -/
inductive Event where
  | access (view : ViewId) (a : Access)
  | foreign (result : Json)

/-- An access that took place: the view, whether it was alive, and whether it was created for
the arguments of the operation. -/
structure Touch where
  view : ViewId
  alive : Bool
  argument : Bool
  deriving DecidableEq, Repr

/-- An access through a buffer value. What it does when the view is gone is not defined; here
it does nothing. -/
def Heap.access (m : Margo) (env : ViewId → Env) (id : ViewId) (a : Access) (s : Heap) : Heap :=
  match s.objects[id]? with
  | some v =>
      if s.live id then
        let s' := ((⟨v, s.world⟩ : Session).access m (env id) a).2
        s.put id s'.view s'.mem
      else s
  | none => s

/-- An operation: the request, the Jx9 variable at its beginning, and what the script does. -/
structure Operation where
  request : Request
  global : Json
  script : List Event

section

variable (m : Margo) (env : ViewId → Env) (api : VmApi V) (vm : Vm)

/-- A step of the script, with the accesses it makes. -/
def Event.run (isArgument : ViewId → Bool) : Event → Heap → List Touch × Heap
  | access id a, s =>
      if id < s.next then ([⟨id, s.live id, isArgument id⟩], Heap.access m env id a s)
      else ([], s)
  | foreign result, s => ([], vm.returned m env api result s)

def runScript (isArgument : ViewId → Bool) : List Event → Heap → List Touch × Heap
  | [], s => ([], s)
  | e :: rest, s =>
      let (touches, s') := e.run m env api vm isArgument s
      let (touches', s'') := runScript isArgument rest s'
      (touches ++ touches', s'')

/-- An operation of a backend: convert the arguments, run the script, and destroy the list of
views, also when the conversion throws. -/
def Operation.run (op : Operation) (s : Heap) : List Touch × Heap :=
  match convertItems m env (vm.converter api) (vm.converted op.global op.request) [] s with
  | (.ok _, created, s₁) =>
      -- the views made meanwhile are those of the arguments
      let (touches, s₂) :=
        runScript m env api vm (fun id => s.next ≤ id && id < s₁.next) op.script s₁
      (touches, s₂.releaseAll MemoryViewImpl.destroy created)
  | (.error _, created, s₁) => ([], s₁.releaseAll MemoryViewImpl.destroy created)

/-- The operations of a VM, one after the other. -/
def runOperations : List Operation → Heap → List Touch × Heap
  | [], s => ([], s)
  | op :: rest, s =>
      let (touches, s') := op.run m env api vm s
      let (touches', s'') := runOperations rest s'
      (touches ++ touches', s'')

end

/-! ## Which accesses find a living view -/

theorem takesListByValue_iff (api : VmApi V) (vm : Vm) :
    (vm.converter api).takesListByValue = true ↔ vm = .javascript := by
  cases vm <;> simp [Vm.converter, JSONtoDukValue, JSONToLuaObject, from_json,
    json_to_mrb_value, JSONtoJx9Value]

section

variable (m : Margo) (env : ViewId → Env) (api : VmApi V) (vm : Vm)

theorem balanced_access {held : List ViewId} {s : Heap} (h : Balanced held s) (id : ViewId)
    (a : Access) : Balanced held (Heap.access m env id a s) := by
  unfold Heap.access
  cases s.objects[id]? with
  | none => exact h
  | some v =>
      by_cases hlive : s.live id = true
      · simp only [if_pos hlive]
        exact h.put id _ _
      · simp only [if_neg hlive]
        exact h

/-- The views a foreign function returns are gone when it has returned. -/
theorem balanced_returned {held : List ViewId} {s : Heap} (h : Balanced held s) (result : Json) :
    Balanced held (vm.returned m env api result s) := by
  have hconv := (kept_convert m env (vm.converter api) result [] s held h).2
  cases vm with
  | jx9 => exact h
  | javascript => exact hconv.releaseAll MemoryViewImpl.destroy
  | lua => exact hconv.releaseAll MemoryViewImpl.destroy
  | python => exact hconv.releaseAll MemoryViewImpl.destroy
  | ruby => exact hconv.releaseAll MemoryViewImpl.destroy

/-- A step of a script finds alive exactly what is held. -/
theorem run_event {held : List ViewId} {s : Heap} (h : Balanced held s)
    (isArgument : ViewId → Bool) (e : Event) :
    Balanced held (e.run m env api vm isArgument s).2 ∧
      ∀ t ∈ (e.run m env api vm isArgument s).1,
        (t.alive = true ↔ t.view ∈ held) ∧ t.argument = isArgument t.view := by
  cases e with
  | foreign result => exact ⟨balanced_returned m env api vm h result, fun t ht => by cases ht⟩
  | access id a =>
      by_cases hid : id < s.next
      · simp only [Event.run, if_pos hid]
        refine ⟨balanced_access m env h id a, fun t ht => ?_⟩
        rw [List.mem_singleton.mp ht]
        exact ⟨h.live_iff id, rfl⟩
      · simp only [Event.run, if_neg hid]
        exact ⟨h, fun t ht => by cases ht⟩

theorem run_script {held : List ViewId} {s : Heap} (h : Balanced held s)
    (isArgument : ViewId → Bool) (script : List Event) :
    Balanced held (runScript m env api vm isArgument script s).2 ∧
      ∀ t ∈ (runScript m env api vm isArgument script s).1,
        (t.alive = true ↔ t.view ∈ held) ∧ t.argument = isArgument t.view := by
  induction script generalizing s with
  | nil => exact ⟨h, fun t ht => by cases ht⟩
  | cons e rest ih =>
      obtain ⟨hstep, htouch⟩ := run_event m env api vm h isArgument e
      obtain ⟨hrest, htouches⟩ := ih hstep
      refine ⟨hrest, fun t ht => ?_⟩
      rcases List.mem_append.mp ht with ht | ht
      · exact htouch t ht
      · exact htouches t ht

/-- With the list by reference, it holds the views of the arguments. -/
theorem createdViews_shared (hvm : vm ≠ .javascript) (js : List Json) {s : Heap}
    (h : Balanced [] s) :
    let converted := (convertItems m env (vm.converter api) js [] s).2
    Balanced converted.1 converted.2 ∧ converted.1 = between s.next converted.2.next := by
  have href : (vm.converter api).takesListByValue = false := by
    have := mt (takesListByValue_iff api vm).mp hvm
    simpa using this
  obtain ⟨hkept, hlist⟩ := steps_convertItems Shared.refl Shared.trans js
    (fun j _ => shared_convert (m := m) href j) [] s
  have hbalanced := (hkept [] h).2
  rw [List.append_nil] at hbalanced
  exact ⟨hbalanced, (hlist [] h).1⟩

/-- With the list by value, it stays empty. -/
theorem createdViews_freed (hvm : vm = .javascript) (js : List Json) {s : Heap}
    (h : Balanced [] s) :
    let converted := (convertItems m env (vm.converter api) js [] s).2
    Balanced [] converted.2 ∧ converted.1 = [] := by
  have hvalue := (takesListByValue_iff api vm).mpr hvm
  obtain ⟨hkept, hlist⟩ := steps_convertItems Freed.refl Freed.trans js
    (fun j _ => freed_convert (m := m) hvalue j) [] s
  have hbalanced := (hkept [] h).2
  rw [hlist] at hbalanced
  exact ⟨hbalanced, hlist⟩

/-- The list of views after the conversion of the arguments. -/
theorem mem_createdViews (js : List Json) {s : Heap} (h : Balanced [] s) :
    let converted := (convertItems m env (vm.converter api) js [] s).2
    Balanced converted.1 converted.2 ∧ ∀ id, id ∈ converted.1 ↔
      (s.next ≤ id ∧ id < converted.2.next) ∧ vm ≠ .javascript := by
  by_cases hvm : vm = .javascript
  · obtain ⟨hbalanced, hlist⟩ := createdViews_freed m env api vm hvm js h
    refine ⟨by rw [hlist]; exact hbalanced, fun id => ?_⟩
    rw [hlist]
    simp [hvm]
  · obtain ⟨hbalanced, hlist⟩ := createdViews_shared m env api vm hvm js h
    refine ⟨hbalanced, fun id => ?_⟩
    rw [hlist, mem_between]
    simp [hvm]

/-- In an operation, an access finds its view alive exactly when the view is one of the
operation's arguments and the list of views is not passed by value. Afterwards nothing holds
a view any more. -/
theorem run_operation {s : Heap} (h : Balanced [] s) (op : Operation) :
    Balanced [] (op.run m env api vm s).2 ∧
      ∀ t ∈ (op.run m env api vm s).1,
        (t.alive = true ↔ t.argument = true ∧ vm ≠ .javascript) := by
  obtain ⟨hbalanced, hcreated⟩ :=
    mem_createdViews m env api vm (vm.converted op.global op.request) h
  unfold Operation.run
  rcases hconv : convertItems m env (vm.converter api) (vm.converted op.global op.request) [] s
    with ⟨r, created, s₁⟩
  rw [hconv] at hbalanced hcreated
  have hheld : Balanced (created ++ []) s₁ := by
    rw [List.append_nil]
    exact hbalanced
  cases r with
  -- no script runs
  | error e => exact ⟨hheld.releaseAll MemoryViewImpl.destroy, fun t ht => by cases ht⟩
  | ok vs =>
      obtain ⟨hafter, htouches⟩ := run_script m env api vm hheld
        (fun id => s.next ≤ id && id < s₁.next) op.script
      refine ⟨hafter.releaseAll MemoryViewImpl.destroy, fun t ht => ?_⟩
      obtain ⟨halive, hargument⟩ := htouches t ht
      rw [halive, hargument, List.append_nil, hcreated]
      simp

theorem run_operations {s : Heap} (h : Balanced [] s) (ops : List Operation) :
    Balanced [] (runOperations m env api vm ops s).2 ∧
      ∀ t ∈ (runOperations m env api vm ops s).1,
        (t.alive = true ↔ t.argument = true ∧ vm ≠ .javascript) := by
  induction ops generalizing s with
  | nil => exact ⟨h, fun t ht => by cases ht⟩
  | cons op rest ih =>
      obtain ⟨hbalanced, hop⟩ := run_operation m env api vm h op
      obtain ⟨hafter, hrest⟩ := ih hbalanced
      refine ⟨hafter, fun t ht => ?_⟩
      rcases List.mem_append.mp ht with ht | ht
      · exact hop t ht
      · exact hrest t ht

/-- **Lifetimes.** In a run of operations on a new VM, every access finds its view alive if
and only if every access is to a view of the arguments of its own operation, and the backend is
not the JavaScript one, whose converter keeps no view at all. -/
theorem touches_alive_iff (ops : List Operation) (mem : Mem) :
    (∀ t ∈ (runOperations m env api vm ops (Store.empty mem)).1, t.alive = true) ↔
      ∀ t ∈ (runOperations m env api vm ops (Store.empty mem)).1,
        t.argument = true ∧ vm ≠ .javascript := by
  have hrun := (run_operations m env api vm (Balanced.empty mem) ops).2
  constructor
  · intro halive t ht
    exact (hrun t ht).mp (halive t ht)
  · intro hcond t ht
    exact (hrun t ht).mpr (hcond t ht)

end

/-- A Lua script that keeps an argument in a global variable, and a second one that reads it. -/
def keepAndRead : List Operation :=
  let view := MemoryView.toJson (Margo.loopback server) (some (secondByte .INOUT).fresh)
  [⟨.call (text "keep") [] [view], null, [.access 0 (.read 0)]⟩,
    ⟨.call (text "read") [] [], null, [.access 0 (.read 0)]⟩]

/-- The second script reads from a view that is gone. -/
theorem touches_dangling :
    ¬ ∀ (m : Margo) (env : ViewId → Env) (api : VmApi Unit) (vm : Vm) (ops : List Operation)
      (mem : Mem), vm ≠ .jx9 →
      ∀ t ∈ (runOperations m env api vm ops (Store.empty mem)).1, t.alive = true := by
  intro h
  have halive := h (Margo.loopback server) (fun _ => .quiet) .blank .lua keepAndRead (fun _ => 0)
    (by decide)
  have htrace : (runOperations (Margo.loopback server) (fun _ => .quiet) .blank .lua keepAndRead
      (Store.empty fun _ => 0)).1 = [⟨0, true, true⟩, ⟨0, false, false⟩] := by decide
  rw [htrace] at halive
  exact absurd (halive ⟨0, false, false⟩ (by simp)) (by decide)

end Poesie
