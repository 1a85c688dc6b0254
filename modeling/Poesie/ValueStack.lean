import Poesie.DukCalls

set_option autoImplicit false

/-! # The value stack of Duktape

`JSONtoDukValue` and `dukValueToJSON` work on one stack, which they share with their callers. A
value on it is addressed by its index from the bottom, or by a negative one from the top. Here the
calls of `DukCalls.lean` take their operands from that stack and leave their results on it.

The backend never asks for more room on the stack. How much a call needs is up to what it comes
to: a getter is called with values of its own, and an enumeration that is over needs less than one
that goes on (`DukSizes`).
-/

namespace Poesie

open Wire Json SharedPtr Outcomes

/-- What lies on the stack. An enumerator holds the object whose properties it goes through, and
the keys that are still to come. -/
inductive DukItem where
  | value (v : DukValue)
  | enumerator (base : Nat) (keys : List Bytes)

/-- The objects, the memory, and the stack from the bottom up. -/
structure DukThread where
  world : DukWorld
  stack : List DukItem

/-- What a call comes to that needs more room than for one value. -/
inductive DukUse where
  /-- `duk_get_prop_string` -/
  | get (source : DukSource)
  /-- `duk_put_prop_string` and `duk_put_prop_index` -/
  | put (target : DukTarget)
  /-- `duk_enum`, of a proxy or of another object. -/
  | enum (proxy : Bool)
  /-- The keys that the trap `ownKeys` gave are copied. -/
  | ownKeys
  /-- `duk_next` without another property. -/
  | exhausted
  /-- `duk_next` with one. -/
  | next (source : DukSource)
  /-- `duk_peval_lstring` -/
  | eval
  deriving DecidableEq

/-- For how many values more the stack must have room during a call, what the call leaves on the
stack included. -/
structure DukSizes where
  room : DukUse → Nat
  enum_pos : ∀ proxy, 1 ≤ room (.enum proxy)
  next_pos : ∀ source, 2 ≤ room (.next source)
  /-- What is put somewhere does not need more room than what is read. -/
  put_le : ∀ target, room (.put target) ≤ room (.next .plain)

/-- The sizes of the Duktape under `src`. A proxy gets more room before it is asked. -/
def dukSizes : DukSizes where
  room
    | .get .absent => 2
    | .get .plain => 3
    | .get .getter => 5
    | .get .proxy => 1
    | .put .fast => 1
    | .put .plain => 2
    | .put .setter => 6
    | .put .proxy => 1
    | .enum false => 5
    | .enum true => 7
    | .ownKeys => 8
    | .exhausted => 4
    | .next .absent | .next .plain => 6
    | .next .getter => 8
    | .next .proxy => 4
    | .eval => 2
  enum_pos proxy := by cases proxy <;> decide
  next_pos source := by cases source <;> decide
  put_le target := by cases target <;> decide

/-- A program that works on the stack. -/
abbrev DukStack (α : Type) := Prog CppException DukThread α

/-- The key is that of a symbol: no text in UTF-8 starts with such a byte. -/
def isSymbol (k : Bytes) : Bool :=
  k.head?.any fun b => b == 0xff || (0x80 ≤ b && b ≤ 0x82)

namespace DukStack

variable {α β : Type} (c : DukCode) (z : DukSizes)

/-! ## Items -/

/-- A call that does not touch the stack. -/
def inWorld (f : Duk α) : DukStack α := fun t =>
  ((f t.world).1, { t with world := (f t.world).2 })

/-- The stack has room for so many values. Where it has not, it has run out, and the error that
says so ends the process. -/
def need (n : Nat) : DukStack Unit := fun t =>
  if t.stack.length + n ≤ t.world.1.limit then (.returned (), t) else (.stuck, t)

/-- The same for what a call comes to. -/
def needFor (use : DukHeap → DukUse) : DukStack Unit := fun t =>
  need (z.room (use t.world.1)) t

def append (item : DukItem) : DukStack Unit := fun t =>
  (.returned (), { t with stack := t.stack ++ [item] })

/-- `duk_normalize_index` -/
def normalize (index : Int) (height : Nat) : Option Nat :=
  let i := if index < 0 then height + index else index
  if 0 ≤ i ∧ i < height then some i.toNat else none

/-- The item at an index, if there is one. -/
def itemAt (index : Int) : DukStack (Option DukItem) := fun t =>
  (.returned ((normalize index t.stack.length).bind fun i => t.stack[i]?), t)

/-- Another item at the index. -/
def replace (index : Int) (item : DukItem) : DukStack Unit := fun t =>
  match normalize index t.stack.length with
  | some i => (.returned (), { t with stack := t.stack.set i item })
  | none => (.raised, t)

/-- `duk_push_null`, `duk_push_boolean`, `duk_push_number`, `duk_push_string` and buffers. -/
def push (v : DukValue) : DukStack Unit := do
  need 1
  append (.value v)

/-- The index of what is on top. -/
def topIndex : DukStack Int := fun t => (.returned (t.stack.length - 1), t)

/-- `duk_push_array` and `duk_push_object` -/
def pushObject (isArray : Bool) : DukStack Int := do
  need 1
  let o ← inWorld (Duk.push isArray)
  append (.value (.object o))
  topIndex

/-- `duk_pop` and `duk_pop_2` -/
def pop (n : Nat) : DukStack Unit := fun t =>
  if n ≤ t.stack.length then
    (.returned (), { t with stack := t.stack.take (t.stack.length - n) })
  else (.raised, t)

/-! ## Properties -/

/-- `duk_put_prop_index` and `duk_put_prop_string`: the value on top is assigned to the property
and popped. -/
def putProp (index : Int) (key : DukKey) : DukStack Unit := do
  match ← itemAt index, ← itemAt (-1) with
  | some (.value base), some (.value v) => do
      needFor z fun h => .put (h.putTarget c.slot base key)
      inWorld (Duk.putProp c base key v)
      pop 1
  | _, _ => Prog.raise

/-- The values are read through a proxy if its trap gave the keys. -/
def copyKeys (base : Nat) : DukStack Unit := do
  if ← inWorld (Duk.inspect fun h => (h.objects base).proxy.isSome) then
    needFor z fun _ => .ownKeys
  else pure ()

/-- `duk_enum` -/
def enumerate (index : Int) (indicesOnly : Bool) : DukStack Unit := do
  match ← itemAt index with
  | some (.value (.object o)) => do
      needFor z fun h => .enum (h.objects o).proxy.isSome
      let (base, keys) ← inWorld (Duk.enumerate c indicesOnly o)
      copyKeys z base
      append (.enumerator base (keys.filter fun k => !isSymbol k))
  | _ => Prog.raise

/-- `duk_next` with values: if there is another property, its key and its value are pushed. One
that is no longer there is passed over. -/
def next (index : Int) : DukStack Bool := do
  match ← itemAt index with
  | some (.enumerator base keys) => do
      needFor z fun _ => .exhausted
      match ← inWorld (Duk.inspect fun h => h.nextKey base keys) with
      | none => do
          replace index (.enumerator base [])
          pure false
      | some (k, rest) => do
          replace index (.enumerator base rest)
          needFor z fun h => .next (h.source base k)
          let (_, v) ← inWorld (Duk.getProp c base k)
          append (.value (.string k))
          append (.value v)
          pure true
  | _ => Prog.raise

/-- `while (duk_next(ctx, -1, 1))`, for so many properties at most. -/
def whileNext (body : β → DukStack β) : Nat → β → DukStack β
  | 0, _ => Prog.stuck
  | n + 1, out => do
      if ← next c z (-1) then
        let out ← body out
        whileNext body n out
      else pure out

/-- One more than the properties that the enumerator on top has left. -/
def rounds : DukStack Nat := do
  match ← itemAt (-1) with
  | some (.enumerator _ keys) => pure (keys.length + 1)
  | _ => pure 0

/-! ## Reading -/

/-- `std::string` of `duk_get_string`; it does not take a null pointer. -/
def getString (index : Int) : DukStack Bytes := do
  match ← itemAt index with
  | some (.value (.string s)) => pure (cString s)
  | _ => Prog.stuck

/-- `dukValueToJSON`, with so many nested calls at most. -/
def dukValueToJSON : Nat → Int → DukStack Json
  | 0, _ => Prog.stuck
  | depth + 1, index => do
      match ← itemAt index with
      | some (.value (.boolean b)) => pure (boolean b)
      | some (.value (.number x)) => pure (numberFloat x)
      | some (.value (.string s)) => pure (string (cString s))
      | some (.value (.object o)) => do
          if ← inWorld (Duk.inspect fun h => (h.objects o).isArray) then
            enumerate c z index true
            let n ← rounds
            let items ← whileNext c z (fun out => do
              let j ← dukValueToJSON depth (-1)
              pop 2
              pure (out ++ [j])) n []
            pop 1
            pure (array items)
          else
            enumerate c z index false
            let n ← rounds
            let members ← whileNext c z (fun out => do
              let key ← getString (-2)
              let j ← dukValueToJSON depth (-1)
              pop 2
              pure (StdMap.assign key j out)) n []
            pop 1
            pure (object members)
      -- nobody reads an enumerator
      | some (.enumerator _ _) => Prog.stuck
      | _ => pure null

/-! ## Writing -/

/-- A call with `createdViews` by value: the copy is destroyed when the call is left. -/
def withCopy (created : List ViewId) (body : DukStack Unit) : DukStack Unit := fun t =>
  match body { t with world := (t.world.1, t.world.2.retainAll created) } with
  | (r, t) => (r, { t with world :=
      (t.world.1, t.world.2.releaseAll MemoryViewImpl.destroy created) })

variable (m : Margo) (env : ViewId → Env)

/-- A buffer that points to the data of a view. The view goes into the copy of `createdViews`. -/
def pushView (j : Json) (created : List ViewId) : DukStack Unit := fun t =>
  match Conv.addView m env (Poesie.JSONtoDukValue VmApi.blank) j created
      (t.world.2.retainAll created) with
  | (outcome, created, heap) =>
      let t := { t with world := (t.world.1, heap) }
      let (r, t) := match outcome with
        | .ok _ => push .other t
        | .error (.thrown e) => (.thrown e, t)
        | .error (.outOfRange _ _) => (.stuck, t)
      (r, { t with world := (t.world.1, t.world.2.releaseAll MemoryViewImpl.destroy created) })

mutual

/-- `JSONtoDukValue` -/
def JSONtoDukValue : Json → List ViewId → DukStack Unit
  | null, created => withCopy created (push .null)
  | boolean b, created => withCopy created (push (.boolean b))
  | numberInteger n, created =>
      withCopy created (push (.number (getDouble (numberInteger n))))
  | numberUnsigned n, created =>
      withCopy created (push (.number (getDouble (numberUnsigned n))))
  | numberFloat x, created => withCopy created (push (.number (getDouble (numberFloat x))))
  | string s, created => withCopy created (push (.string (cString s)))
  | array items, created => withCopy created do
      let arr_idx ← pushObject true
      putItems arr_idx 0 items created
  | object members, created => withCopy created do
      let _ ← pushObject false
      putMembers members created
  | binary b st, created =>
      if isMemoryView (binary b st) then pushView m env (binary b st) created
      else withCopy created (push .other)

/-- The elements from index `i` on. The counter is an `int`, which must not overflow. -/
def putItems (arr_idx : Int) (i : Nat) : List Json → List ViewId → DukStack Unit
  | [], _ => pure ()
  | item :: rest, created => do
      JSONtoDukValue item created
      putProp c z arr_idx (.index i)
      if i + 1 < 2 ^ 31 then putItems arr_idx (i + 1) rest created else Prog.stuck

def putMembers : List (Bytes × Json) → List ViewId → DukStack Unit
  | [], _ => pure ()
  | (key, j) :: rest, created => do
      JSONtoDukValue j created
      putProp c z (-2) (.name (cString key))
      putMembers rest created

end

end DukStack

end Poesie
