import Mathlib.Data.List.Sort
import Poesie.VmCalls

set_option autoImplicit false

/-! # Objects of Duktape

What a VM of the JavaScript backend holds, and how Duktape looks a property up: along the chain
of prototypes when it reads or writes one, level by level when it enumerates them. What
functions do when they are called is not part of it.
-/

namespace Poesie

open Wire Json

/-! ## Values and objects -/

/-- A value on the stack of Duktape. -/
inductive DukValue where
  | undefined
  | null
  | boolean (b : Bool)
  | number (x : Float64)
  | string (s : Bytes)
  | object (id : Nat)
  /-- A pointer of C. -/
  | pointer (p : Nat)
  /-- A plain buffer or a light function. -/
  | other
  deriving DecidableEq, Repr

/-- A key, as a call is given it: a number or a string. -/
inductive DukKey where
  | index (i : Nat)
  | name (k : Bytes)
  deriving DecidableEq, Repr

/-- The key of an index. -/
def indexKey (i : Nat) : Bytes := text (toString i)

def DukKey.bytes : DukKey → Bytes
  | .index i => indexKey i
  | .name k => k

/-- The index that a key stands for, if it is that of an array element. -/
def arrayIndex (k : Bytes) : Option Nat :=
  let n := k.foldl (fun n c => 10 * n + (c.toNat - 48)) 0
  if k = indexKey n ∧ n < 2 ^ 32 - 1 then some n else none

/-- What a property holds. Getters and setters are told apart by numbers; the `caller` of a
function, when it must not be read, counts as a getter that throws. -/
inductive DukSlot where
  | data (v : DukValue) (writable : Bool)
  | accessor (get set : Option Nat)
  deriving DecidableEq, Repr

/-- A property. Symbols count as not enumerable. -/
structure DukProperty where
  slot : DukSlot
  enumerable : Bool
  deriving DecidableEq, Repr

/-- An object, with its own properties and, next to it, its chain of prototypes. -/
structure DukObject where
  /-- What `duk_is_array` says. It looks through a proxy. -/
  isArray : Bool
  /-- The target, if the object is a proxy. -/
  proxy : Option Nat
  own : List (Bytes × DukProperty)
  prototypes : List Nat
  extensible : Bool
  /-- The length, if the object is an array whose `length` is not writable. -/
  fixedLength : Option Nat
  deriving DecidableEq, Repr

/-- The objects of a VM. A fresh array has one chain of prototypes, a function of C another one and
any other fresh object a third, and a value that is not an object has one of its own. -/
structure DukHeap where
  objects : Nat → DukObject
  next : Nat
  globalObject : Nat
  arrayPrototypes : List Nat
  objectPrototypes : List Nat
  functionPrototypes : List Nat
  primitivePrototypes : DukValue → List Nat
  /-- How many values the stack can hold (`valstack_end`). Code that is run can make it larger. -/
  limit : Nat

/-! ## Looking a property up -/

/-- `DUK_HOBJECT_PROTOTYPE_CHAIN_SANITY` -/
def prototypeChainSanity : Nat := 10000

/-- Where a look-up along a chain of objects ends. A chain can be too long. -/
inductive DukFound where
  | absent
  | limit
  | property (o : Nat) (p : DukProperty)
  deriving DecidableEq, Repr

/-- What a read of a property comes to. -/
inductive DukRead where
  | absent
  | limit
  | value (v : DukValue)
  | getter (f : Nat)
  deriving DecidableEq, Repr

/-- What an assignment to a property comes to: the object gets the value, or a function is run,
or it is an error. -/
inductive DukWrite where
  | store (o : Nat)
  | setter (f : Nat)
  | refused
  deriving DecidableEq, Repr

/-- How a property is read: it is not there, it holds a value, it has a getter, or a proxy is
asked for it. -/
inductive DukSource where
  | absent
  | plain
  | getter
  | proxy
  deriving DecidableEq, Repr

/-- How a property is assigned: an array has a slot for it, an object gets the value, a setter is
run, or a proxy is asked to do it. -/
inductive DukTarget where
  | fast
  | plain
  | setter
  | proxy
  deriving DecidableEq, Repr

namespace DukHeap

/-- Look for the property along the chain. -/
def find (h : DukHeap) (k : Bytes) : Nat → List Nat → DukFound
  | _, [] => .absent
  | sanity, o :: chain =>
      match (h.objects o).own.lookup k with
      | some p => .property o p
      | none =>
          -- the limit is met even where there is no further prototype
          match sanity with
          | 0 => .limit
          | sanity + 1 => find h k sanity chain

/-- An object and its prototypes. -/
def chain (h : DukHeap) (o : Nat) : List Nat := o :: (h.objects o).prototypes

/-- The look-up of `duk_hobject_getprop`. -/
def read (h : DukHeap) (o : Nat) (k : Bytes) : DukRead :=
  match h.find k prototypeChainSanity (h.chain o) with
  | .absent => .absent
  | .limit => .limit
  | .property _ ⟨.data v _, _⟩ => .value v
  | .property _ ⟨.accessor (some f) _, _⟩ => .getter f
  | .property _ ⟨.accessor none _, _⟩ => .value .undefined

/-- `duk_hobject_hasprop_raw` -/
def hasProp (h : DukHeap) (o : Nat) (k : Bytes) : Bool :=
  match h.find k prototypeChainSanity (h.chain o) with
  | .absent | .limit => false
  | .property _ _ => true

/-- Whether an object can get a new property. An array whose `length` is not writable does not
grow. -/
def mayAdd (object : DukObject) (k : Bytes) : Bool :=
  object.extensible &&
    match object.fixedLength, arrayIndex k with
    | some n, some i => i < n
    | _, _ => true

/-- The look-up of `duk_hobject_putprop`. In a value that is not an object it looks for a setter.
(The properties that a string itself has, its characters and its length, are left out: nothing
assigns to these.) -/
def write (h : DukHeap) (base : DukValue) (k : Bytes) : DukWrite :=
  match base with
  | .undefined | .null => .refused
  | .object o =>
      -- an inherited property is shadowed, unless it is read-only or an accessor
      let added := if mayAdd (h.objects o) k then .store o else .refused
      match h.find k prototypeChainSanity (h.chain o) with
      | .absent => added
      | .limit => .refused
      | .property p ⟨.data _ true, _⟩ => if p = o then .store o else added
      | .property _ ⟨.data _ false, _⟩ => .refused
      | .property _ ⟨.accessor _ (some f), _⟩ => .setter f
      | .property _ ⟨.accessor _ none, _⟩ => .refused
  | v =>
      match h.find k prototypeChainSanity (h.primitivePrototypes v) with
      | .property _ ⟨.accessor _ (some f), _⟩ => .setter f
      | _ => .refused

/-- The own property becomes `v`, or a new one holds it. -/
def store (h : DukHeap) (o : Nat) (k : Bytes) (v : DukValue) : DukHeap :=
  let object := h.objects o
  -- a property that is there keeps its place, and stays enumerable or not
  let own := if (object.own.lookup k).isSome then
      object.own.map fun e => if e.1 = k then (k, { e.2 with slot := .data v true }) else e
    else object.own ++ [(k, ⟨.data v true, true⟩)]
  { h with objects := Function.update h.objects o { object with own := own } }

/-- A fresh object. -/
def alloc (h : DukHeap) (isArray : Bool) : DukHeap :=
  let prototypes := if isArray then h.arrayPrototypes else h.objectPrototypes
  { h with
    objects := Function.update h.objects h.next ⟨isArray, none, [], prototypes, true, none⟩,
    next := h.next + 1 }

/-- A fresh function of C. It has no properties of its own. -/
def allocFunction (h : DukHeap) : DukHeap :=
  { h with
    objects := Function.update h.objects h.next ⟨false, none, [], h.functionPrototypes, true, none⟩,
    next := h.next + 1 }

/-- The target of a proxy, with the proxy. -/
def target (h : DukHeap) : DukValue → Option (Nat × Nat)
  | .object o => (h.objects o).proxy.map (o, ·)
  | _ => none

/-- `duk__putprop_shallow_fastpath_array_tval`: an array that has a slot for the index is written
without a look-up. -/
def fastPath (h : DukHeap) (slot : DukHeap → Nat → Nat → Bool) (base : DukValue)
    (key : DukKey) : Option Nat :=
  match base, key with
  | .object o, .index i =>
      let object := h.objects o
      if object.isArray && mayAdd object (indexKey i) && slot h o i then some o else none
  | _, _ => none

/-- How a property of an object is read. A chain that is too long is gone through like one that
lacks the property. -/
def source (h : DukHeap) (o : Nat) (k : Bytes) : DukSource :=
  if (h.objects o).proxy.isSome then .proxy
  else match h.read o k with
    | .absent | .limit => .absent
    | .value _ => .plain
    | .getter _ => .getter

/-- How a property of a value is assigned. -/
def putTarget (h : DukHeap) (slot : DukHeap → Nat → Nat → Bool) (base : DukValue)
    (key : DukKey) : DukTarget :=
  if (h.target base).isSome then .proxy
  else if (h.fastPath slot base key).isSome then .fast
  else match h.write base key.bytes with
    | .setter _ => .setter
    | .store _ | .refused => .plain

/-! ## Enumeration -/

/-- `duk__sort_enum_keys_es6`: the indices come first, in their order. -/
def sortEnumKeys (keys : List Bytes) : List Bytes :=
  keys.insertionSort fun a b => (arrayIndex a).getD (2 ^ 32) ≤ (arrayIndex b).getD (2 ^ 32)

/-- The keys that `duk_hobject_enumerator_create` finds: the own properties of an object, or the
indices in it and in its prototypes. A key that is found twice stays in its first place. -/
def enumKeys (h : DukHeap) (indicesOnly : Bool) (o : Nat) : List Bytes :=
  -- only the own properties are asked for, except of an array
  let levels := if indicesOnly then h.chain o else [o]
  (levels.flatMap fun p =>
    let own := (h.objects p).own.filter fun e =>
      e.2.enumerable && (!indicesOnly || (arrayIndex e.1).isSome)
    sortEnumKeys (own.map (·.1))).eraseDups

/-- The first of the keys whose property is still there, with those behind it. A proxy is not asked
for that. -/
def nextKey (h : DukHeap) (o : Nat) : List Bytes → Option (Bytes × List Bytes)
  | [] => none
  | k :: rest =>
      if (h.objects o).proxy.isSome || h.hasProp o k then some (k, rest) else h.nextKey o rest

end DukHeap

end Poesie
