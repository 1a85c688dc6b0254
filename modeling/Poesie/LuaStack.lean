import Poesie.ConvProg
import Poesie.JsonNodes
import Poesie.Lifetime

set_option autoImplicit false

/-! # The Lua stack under the converter

`JSONToLuaObject` works on the stack of the main Lua state. What it does through sol2 leaves the
stack as it found it: a value is pushed, copied into the registry and popped. For a MemoryView it
calls the Lua API itself, and the userdata that `luamem_newref` pushes is copied but not popped.
Each MemoryView that is converted makes the stack one slot higher, for as long as the state lives.
-/

namespace Poesie

open Wire Json SharedPtr Outcomes

/-- What lies on the Lua stack. -/
inductive LuaItem (V : Type) where
  | value (v : V)
  | index (i : Nat)
  | name (s : Bytes)
  /-- A table that is being filled. -/
  | table
  | metatable
  /-- A `luamem_Ref`, and the view it points into. -/
  | ref (view : Option ViewId)

/-- The stack, from the bottom up, beside the list of views and the heap. -/
abbrev LuaThread (V : Type) : Type := Beside (List (LuaItem V))

abbrev LuaStack (V α : Type) : Type := ConvProg (List (LuaItem V)) α

namespace LuaStack

variable {V α β : Type}

/-! ## The Lua API -/

def push (item : LuaItem V) : LuaStack V Unit := onOwn fun stack => stack ++ [item]

/-- `lua_pop` -/
def pop (n : Nat) : LuaStack V Unit := onOwn fun stack => stack.take (stack.length - n)

/-- `lua_gettop`: indices start with 1. -/
def gettop : LuaStack V Nat := fun t => (.returned t.own.length, t)

/-- `luaL_newmetatable`: the metatable is pushed, whether it is new or not. -/
def newmetatable : LuaStack V Unit := push .metatable

/-- `lua_setmetatable` with the metatable on top, which is popped. -/
def setmetatable : LuaStack V Unit := pop 1

/-- `luamem_newref` -/
def newref : LuaStack V Unit := do
  push (.ref none)
  newmetatable
  setmetatable

/-- `luamem_setref`: nothing happens to what is no reference. -/
def setref (idx : Nat) (view : ViewId) : LuaStack V Unit := onOwn fun stack =>
  match stack[idx - 1]? with
  | some (.ref _) => stack.set (idx - 1) (.ref (some view))
  | _ => stack

/-! ## sol2 -/

variable (api : VmApi V)

/-- `sol::object{L, index}`: a copy in the registry of what lies there. -/
def object (index : Nat) : LuaStack V V := fun t =>
  match t.own[index - 1]? with
  | some (.value v) => (.returned v, t)
  | some (.ref (some view)) => (.returned (api.buffer view), t)
  | _ => (.returned api.nil, t)

/-- `sol::make_object` -/
def makeObject (v : V) : LuaStack V V := do
  push (.value v)
  let o ← object api (← gettop)
  pop 1
  pure o

/-- `create_table`: the table is referenced in the registry, not on the stack. -/
def createTable : LuaStack V Unit := do
  push .table
  pop 1

/-- `lua_table[key] = v`: the table, the key and the value are pushed. `lua_settable` pops the
key and the value. -/
def assign (key : LuaItem V) (v : V) : LuaStack V Unit := do
  push .table
  push key
  push (.value v)
  pop 2
  pop 1

/-! ## The converter -/

variable (m : Margo) (env : ViewId → Env)

/-- `MemoryView{engine, json}`: one pointer is the local variable, another one goes into the
list. -/
def makeView (j : Json) : Conv (ViewId × MemoryViewImpl) := fun created s =>
  match MemoryView.ofJson m j with
  | .error e => (.error e, created, s)
  | .ok v => (.ok (s.next, v), created ++ [s.next], (s.make v).retain s.next)

/-- `data()`. The local variable goes out of scope behind it, also when it throws. -/
def viewData (id : ViewId) (v : MemoryViewImpl) : Conv Unit := fun created s =>
  let (outcome, v') := v.prepareLocalData m (env id) s.world
  (outcome.mapError .thrown, created, (s.put id v' s.world).release MemoryViewImpl.destroy id)

/-- A reference to the data of a view. Nothing pops it. -/
def reference (id : ViewId) (v : MemoryViewImpl) : LuaStack V V := do
  newref
  let ref_idx ← gettop
  inHeap (viewData m env id v)
  setref ref_idx id
  object api ref_idx

mutual

/-- `JSONToLuaObject` -/
def JSONToLuaObject : Json → LuaStack V V
  | null => makeObject api api.nil
  | boolean b => makeObject api (api.boolean b)
  | numberInteger n => makeObject api (api.int (getInt32 (numberInteger n)).toInt)
  | numberUnsigned n => makeObject api (api.int (getInt32 (numberUnsigned n)).toInt)
  | numberFloat x => makeObject api (api.double x)
  | string s => do
      let v ← inHeap (Conv.lift (api.string s))
      makeObject api v
  | array items => do
      createTable
      let vs ← assignItems 0 items
      pure (api.list vs)
  | .object members => do
      createTable
      let vs ← assignMembers members
      pure (api.table vs)
  | binary b st =>
      if !isMemoryView (binary b st) then do
        let v ← inHeap (Conv.lift (api.string b))
        makeObject api v
      else do
        let made ← inHeap (makeView m (binary b st))
        reference api m env made.1 made.2

/-- The elements from `json[i]` on. -/
def assignItems (i : Nat) : List Json → LuaStack V (List V)
  | [] => pure []
  | item :: rest => do
      let v ← JSONToLuaObject item
      assign (.index (i + 1)) v
      let vs ← assignItems (i + 1) rest
      pure (v :: vs)

def assignMembers : List (Bytes × Json) → LuaStack V (List (Bytes × V))
  | [] => pure []
  | (key, item) :: rest => do
      let v ← JSONToLuaObject item
      assign (.name key) v
      let vs ← assignMembers rest
      pure ((key, v) :: vs)

end

end LuaStack

/-! ## MemoryViews in a value -/

/-- The value is a binary that stands for a MemoryView. -/
def Json.isViewBinary : Json → Bool
  | binary b st => isMemoryView (binary b st)
  | _ => false

/-- How many MemoryViews there are in a value, at any depth. -/
def Json.viewCount (j : Json) : Nat := j.nodes.countP isViewBinary

theorem Json.viewCount_array (items : List Json) :
    (array items).viewCount = (items.map viewCount).sum := by
  rw [viewCount, nodes, nodesOfItems_eq, List.countP_cons_of_neg (by simp [isViewBinary]),
    List.countP_flatMap]
  rfl

theorem Json.viewCount_object (members : List (Bytes × Json)) :
    (object members).viewCount = (members.map fun p => p.2.viewCount).sum := by
  rw [viewCount, nodes, nodesOfMembers_eq, List.countP_cons_of_neg (by simp [isViewBinary]),
    List.countP_flatMap]
  rfl

theorem Json.viewCount_eq_zero_iff (j : Json) :
    j.viewCount = 0 ↔ j.Every fun n => n.isViewBinary = false := by
  simp only [viewCount, List.countP_eq_zero, Every, Bool.not_eq_true]

namespace LuaStack

variable {V α β : Type} {api : VmApi V} {m : Margo} {env : ViewId → Env}

/-! ## What a conversion leaves on the stack -/

/-- The program does what the conversion does, and where it returns the stack is `n` slots
higher. -/
structure Leaves (x : LuaStack V α) (f : Conv α) (n : Nat) : Prop where
  follows : Follows x f
  height : ∀ t, x.Ensures t fun _ t' => t'.own.length = t.own.length + n

namespace Leaves

theorem pure (a : α) : Leaves (Pure.pure a : LuaStack V α) (Pure.pure a) 0 where
  follows := .pure a
  height _ := .pure rfl

theorem inHeap (f : Conv α) : Leaves (Poesie.inHeap f : LuaStack V α) f 0 where
  follows := .inHeap f
  height t := (ensures_inHeap f t).mono fun _ _ h => congrArg List.length h

theorem bind {x : LuaStack V α} {y : α → LuaStack V β} {f : Conv α} {g : α → Conv β} {n k : Nat}
    (hx : Leaves x f n) (hy : ∀ a, Leaves (y a) (g a) k) : Leaves (x >>= y) (f >>= g) (n + k) where
  follows := hx.follows.bind fun a => (hy a).follows
  height t := (hx.height t).bind fun a t₁ h₁ => ((hy a).height t₁).mono fun _ _ h₂ => by omega

/-- What returns and leaves the stack as it was. -/
theorem balanced {x : LuaStack V α} {a : α} (hx : ∀ t, x t = (.returned a, t)) :
    Leaves x (Pure.pure a) 0 where
  follows t := ⟨t.own, hx t⟩
  height t := .of_gives (hx t) rfl

/-- First something that leaves the stack as it was. -/
theorem skip {x : LuaStack V α} {y : α → LuaStack V β} {f : Conv β} {n : Nat} {a : α}
    (hx : ∀ t, x t = (.returned a, t)) (hy : Leaves (y a) f n) : Leaves (x >>= y) f n where
  follows := .skip (fun t => ⟨t.own, hx t⟩) hy.follows
  height t := by
    have hfirst : x.Ensures t fun b t' => b = a ∧ t' = t := .of_gives (hx t) ⟨rfl, rfl⟩
    refine hfirst.bind fun b t₁ h₁ => ?_
    rw [h₁.1, h₁.2]
    exact hy.height t

theorem of_eq {x : LuaStack V α} {f f' : Conv α} {n n' : Nat} (h : Leaves x f n) (hf : f = f')
    (hn : n = n') : Leaves x f' n' := by
  subst hf hn
  exact h

end Leaves

/-! ### Calls of sol2 -/

@[simp] theorem makeObject_apply (v : V) (t : LuaThread V) :
    makeObject api v t = (.returned v, t) := by
  simp [makeObject, push, pop, gettop, object, Bind.bind, Pure.pure]

@[simp] theorem createTable_apply (t : LuaThread V) :
    (createTable : LuaStack V Unit) t = (.returned (), t) := by
  simp [createTable, push, pop, Bind.bind]

@[simp] theorem assign_apply (key : LuaItem V) (v : V) (t : LuaThread V) :
    assign key v t = (.returned (), t) := by
  simp [assign, push, pop, Bind.bind, List.take_take]

theorem leaves_makeObject (v : V) : Leaves (makeObject api v) (pure v) 0 :=
  .balanced (makeObject_apply v)

theorem leaves_makeString (s : Bytes) :
    Leaves (inHeap (Conv.lift (api.string s)) >>= makeObject api) (Conv.lift (api.string s)) 0 :=
  ((Leaves.inHeap _).bind leaves_makeObject).of_eq (by
    funext created heap
    cases api.string s <;> simp [Bind.bind, Conv.lift, Pure.pure, Except.mapError]) rfl

/-! ### MemoryViews -/

theorem newref_apply (t : LuaThread V) :
    newref t = (.returned (), { t with own := t.own ++ [LuaItem.ref none] }) := by
  -- only the metatable is popped
  have hpop : (t.own ++ [LuaItem.ref none] ++ [LuaItem.metatable]).take (t.own.length + 1) =
      t.own ++ [LuaItem.ref none] := List.take_left' (by simp)
  simpa [newref, newmetatable, setmetatable, push, pop, Bind.bind] using hpop

theorem addView_eq (j : Json) :
    Conv.addView m env (Poesie.JSONToLuaObject api) j = (do
      let made ← makeView m j
      viewData m env made.1 made.2
      pure (api.buffer made.1)) := by
  funext created s
  simp only [Conv.addView, makeView, Bind.bind]
  cases MemoryView.ofJson m j with
  | error e => rfl
  | ok v =>
      simp only [viewData, Poesie.JSONToLuaObject, if_true]
      cases (v.prepareLocalData m (env s.next) ((s.make v).retain s.next).world).1 with
      | error e => rfl
      | ok u => rfl

/-- Where `data()` returns, the reference is left on top. -/
theorem reference_apply {id : ViewId} {v : MemoryViewImpl} {t : LuaThread V}
    {created : List ViewId} {heap : Heap}
    (hdata : viewData m env id v t.created t.heap = (.ok (), created, heap)) :
    reference api m env id v t =
      (.returned (api.buffer id), ⟨created, heap, t.own ++ [LuaItem.ref (some id)]⟩) := by
  simp [reference, Bind.bind, newref_apply, gettop, inHeap, outcomeOf, hdata, setref, object]

/-- Where it throws, the stack is as it is at that moment. -/
theorem reference_apply_of_error {id : ViewId} {v : MemoryViewImpl} {t : LuaThread V}
    {created : List ViewId} {heap : Heap} {e : Fault}
    (hdata : viewData m env id v t.created t.heap = (.error e, created, heap)) :
    reference api m env id v t =
      (outcomeOf (.error e), ⟨created, heap, t.own ++ [LuaItem.ref none]⟩) := by
  simp [reference, Bind.bind, newref_apply, gettop, inHeap, outcomeOf, hdata]

theorem leaves_reference (id : ViewId) (v : MemoryViewImpl) :
    Leaves (reference api m env id v)
      (viewData m env id v >>= fun _ => pure (api.buffer id)) 1 where
  follows t := by
    rcases hdata : viewData m env id v t.created t.heap with ⟨e | u, created, heap⟩
    · exact ⟨_, by rw [reference_apply_of_error hdata, Conv.bind_of_error hdata]⟩
    · exact ⟨_, by rw [reference_apply hdata, Conv.bind_of_ok hdata]; rfl⟩
  height t a t' hgives := by
    rcases hdata : viewData m env id v t.created t.heap with ⟨e | u, created, heap⟩
    · have hfails := (reference_apply_of_error hdata).symm.trans hgives
      cases hfails
    · cases (reference_apply hdata).symm.trans hgives
      simp

/-- A MemoryView: one slot more. -/
theorem leaves_view (j : Json) :
    Leaves (do
      let made ← inHeap (makeView m j)
      reference api m env made.1 made.2)
      (Conv.addView m env (Poesie.JSONToLuaObject api) j) 1 :=
  ((Leaves.inHeap (makeView m j)).bind fun made => leaves_reference made.1 made.2).of_eq
    (addView_eq j).symm (Nat.zero_add 1)

/-! ### Containers -/

theorem leaves_assignItems {items : List Json}
    (hitems : ∀ j ∈ items, Leaves (JSONToLuaObject api m env j)
      (convert m env (Poesie.JSONToLuaObject api) j) j.viewCount) (i : Nat) :
    Leaves (assignItems api m env i items)
      (convertItems m env (Poesie.JSONToLuaObject api) items) (items.map viewCount).sum := by
  induction items generalizing i with
  | nil =>
      rw [assignItems, convertItems]
      exact .pure []
  | cons j rest ih =>
      rw [assignItems, convertItems, List.map_cons, List.sum_cons]
      -- the slots of the first element, and then those of the rest
      refine (hitems j (by simp)).bind fun v => .skip (assign_apply _ v) ?_
      exact (ih (fun i hi => hitems i (by simp [hi])) (i + 1)).bind fun vs => .pure (v :: vs)

theorem leaves_assignMembers {members : List (Bytes × Json)}
    (hmembers : ∀ p ∈ members, Leaves (JSONToLuaObject api m env p.2)
      (convert m env (Poesie.JSONToLuaObject api) p.2) p.2.viewCount) :
    Leaves (assignMembers api m env members)
      (convertMembers m env (Poesie.JSONToLuaObject api) members)
      (members.map fun p => p.2.viewCount).sum := by
  induction members with
  | nil =>
      rw [assignMembers, convertMembers]
      exact .pure []
  | cons p rest ih =>
      rw [assignMembers, convertMembers, List.map_cons, List.sum_cons]
      refine (hmembers p (by simp)).bind fun v => .skip (assign_apply _ v) ?_
      exact (ih fun q hq => hmembers q (by simp [hq])).bind fun vs => .pure ((p.1, v) :: vs)

/-- The converter on its stack does what the converter does, and leaves a slot for each
MemoryView. -/
theorem leaves_JSONToLuaObject (j : Json) :
    Leaves (JSONToLuaObject api m env j) (convert m env (Poesie.JSONToLuaObject api) j)
      j.viewCount := by
  induction j using Json.ind with
  | array items ih =>
      rw [JSONToLuaObject, convert, viewCount_array]
      exact .skip createTable_apply ((leaves_assignItems ih 0).bind fun vs => .pure _)
  | object members ih =>
      rw [JSONToLuaObject, convert, viewCount_object]
      exact .skip createTable_apply ((leaves_assignMembers ih).bind fun vs => .pure _)
  | binary b st =>
      rw [JSONToLuaObject, convert]
      by_cases hview : isMemoryView (binary b st) = true
      · rw [if_pos hview, if_neg (by simp [hview])]
        exact (leaves_view _).of_eq rfl (by simp [viewCount, nodes, isViewBinary, hview])
      · rw [if_neg hview, if_pos (by simp [hview])]
        exact (leaves_makeString b).of_eq rfl (by simp [viewCount, nodes, isViewBinary, hview])
  | string s =>
      rw [JSONToLuaObject]
      exact leaves_makeString s
  | _ =>
      rw [JSONToLuaObject]
      exact leaves_makeObject _

end LuaStack

open LuaStack

/-- **The stack of the Lua state.** A conversion to a Lua object that returns leaves the stack as
high as it was if and only if there is no MemoryView in the value. -/
theorem lua_stack_height_kept_iff {V : Type} (api : VmApi V) (m : Margo) (env : ViewId → Env)
    (j : Json) (t t' : LuaThread V) (v : V)
    (hgives : (LuaStack.JSONToLuaObject api m env j).Gives t v t') :
    t'.own.length = t.own.length ↔ j.Every fun n => n.isViewBinary = false := by
  have hheight : t'.own.length = t.own.length + j.viewCount :=
    (leaves_JSONToLuaObject j).height t v t' hgives
  rw [← Json.viewCount_eq_zero_iff]
  omega

/-- A state with nothing on its stack. -/
def freshLua : LuaThread Unit := ⟨[], .empty fun _ => 0, []⟩

/-- A view inside an array, as an argument of a call. -/
def viewInArray : Json :=
  array [null, MemoryView.toJson (Margo.loopback server) (some (secondByte .INOUT).fresh)]

theorem gives_viewInArray :
    ∃ t', (LuaStack.JSONToLuaObject .blank (Margo.loopback server) (fun _ => .quiet)
      viewInArray).Gives freshLua () t' :=
  (leaves_JSONToLuaObject viewInArray).follows.gives rfl

theorem lua_stack_height_kept_view :
    ∃ t', (LuaStack.JSONToLuaObject .blank (Margo.loopback server) (fun _ => .quiet)
        viewInArray).Gives freshLua () t' ∧
      (t'.own.length = freshLua.own.length ↔
        viewInArray.Every fun n => n.isViewBinary = false) := by
  obtain ⟨t', hgives⟩ := gives_viewInArray
  exact ⟨t', hgives, lua_stack_height_kept_iff .blank _ _ viewInArray freshLua t' () hgives⟩

/-- After it, a reference lies on the stack. -/
theorem lua_stack_grows :
    ¬ ∀ (api : VmApi Unit) (m : Margo) (env : ViewId → Env) (j : Json) (t t' : LuaThread Unit)
      (v : Unit), (LuaStack.JSONToLuaObject api m env j).Gives t v t' →
        t'.own.length = t.own.length := by
  intro hall
  obtain ⟨t', hgives⟩ := gives_viewInArray
  have hkept : t'.own.length = 0 := hall _ _ _ _ _ _ _ hgives
  have hheight : t'.own.length = 0 + viewInArray.viewCount :=
    (leaves_JSONToLuaObject viewInArray).height _ _ _ hgives
  have hcount : viewInArray.viewCount = 1 := by decide
  omega

end Poesie
