import Poesie.Chains
import Poesie.Jx9Value
import Poesie.Outcomes

set_option autoImplicit false

/-! # The hash maps of the Jx9 VM

Nodes in collision chains, one for each bucket, and in a list by the order of insertion. The table
of buckets grows with the number of entries. A map owns its nodes; their values lie in the memory
objects of the VM. Pointers are addresses: following one that is null or freed is a fault, and so
is a bucket outside of the table.
-/

namespace Poesie

open Wire Chains Outcomes

namespace Jx9Hash

/-- What a node holds besides its links. -/
structure Entry where
  pMap : Nat
  /-- `iType` and `xKey` -/
  key : Jx9Key
  nHash : UInt32
  nValIdx : Nat
  deriving DecidableEq

/-- `jx9_hashmap_node` -/
structure Node extends Entry where
  /-- `pNext` and `pPrev` -/
  list : Link Nat
  /-- `pNextCollide` and `pPrevCollide` -/
  collide : Link Nat

/-- `jx9_hashmap`, with `HASHMAP_JSON_OBJECT` of its flags. -/
structure Hashmap where
  apBucket : Option (List (Option Nat))
  pFirst : Option Nat
  pLast : Option Nat
  pCur : Option Nat
  nSize : UInt32
  nEntry : UInt32
  xIntHash : Int64 → UInt32
  xBlobHash : Bytes → UInt32
  isObject : Bool
  iNextIdx : Int64

/-- `jx9_vm`, as far as hash maps are concerned, with the memory that its allocator has given
out. -/
structure Vm (V : Type) where
  nodes : Nat → Option Node
  pool : Nat
  aMemObj : List V
  aFreeObj : List Nat
  maps : Nat → Hashmap

inductive Fault where
  | null
  | bounds
  /-- An automatic index past the largest integer. -/
  | overflow
  deriving DecidableEq, Repr

/-- A key as it is given to the functions that insert and look up. -/
inductive KeyArg where
  /-- No key: an automatic index. -/
  | auto
  | string (b : Bytes)
  /-- A map or a resource, as the string it is cast to. -/
  | cast (b : Bytes)
  /-- An integer, or any other value as the integer it is cast to. -/
  | int (n : Int64)
  deriving DecidableEq

/-- `IntHash` -/
def intHash (iKey : Int64) : UInt32 := (iKey ^^^ (iKey <<< 8) ^^^ (iKey >>> 8)).toUInt64.toUInt32

/-- `BinHash` -/
def binHash (key : Bytes) : UInt32 := key.foldl (fun nH b => nH * 33 + b.toUInt32) 5381

/-- `jx9NewHashmap` -/
def jx9NewHashmap (xIntHash : Option (Int64 → UInt32)) (xBlobHash : Option (Bytes → UInt32)) :
    Hashmap where
  apBucket := none
  pFirst := none
  pLast := none
  pCur := none
  nSize := 0
  nEntry := 0
  xIntHash := xIntHash.getD intHash
  xBlobHash := xBlobHash.getD binHash
  isObject := false
  iNextIdx := 0

variable {V : Type}

/-- A function of the hash maps. -/
abbrev Op (V α : Type) := Prog Fault (Vm V) α

/-! ## Memory -/

/-- The node at an address. -/
def node (a : Nat) : Op V Node := fun w =>
  match w.nodes a with
  | some n => (.returned n, w)
  | none => (.thrown .null, w)

def modifyNode (a : Nat) (f : Node → Node) : Op V Unit := fun w =>
  match w.nodes a with
  | some n => (.returned (), { w with nodes := Function.update w.nodes a (some (f n)) })
  | none => (.thrown .null, w)

def setPNext (a : Nat) (v : Option Nat) : Op V Unit :=
  modifyNode a fun n => { n with list := { n.list with next := v } }

def setPPrev (a : Nat) (v : Option Nat) : Op V Unit :=
  modifyNode a fun n => { n with list := { n.list with prev := v } }

def setPNextCollide (a : Nat) (v : Option Nat) : Op V Unit :=
  modifyNode a fun n => { n with collide := { n.collide with next := v } }

def setPPrevCollide (a : Nat) (v : Option Nat) : Op V Unit :=
  modifyNode a fun n => { n with collide := { n.collide with prev := v } }

/-- A pointer that is followed. -/
def follow (p : Option Nat) : Op V Nat := fun w =>
  match p with
  | some a => (.returned a, w)
  | none => (.thrown .null, w)

def hashmap (m : Nat) : Op V Hashmap := fun w => (.returned (w.maps m), w)

def modifyMap (m : Nat) (f : Hashmap → Hashmap) : Op V Unit := fun w =>
  (.returned (), { w with maps := Function.update w.maps m (f (w.maps m)) })

/-- `pMap->apBucket[i]` -/
def bucket (m : Nat) (i : UInt32) : Op V (Option Nat) := fun w =>
  match (w.maps m).apBucket with
  | none => (.thrown .null, w)
  | some table =>
      match table[i.toNat]? with
      | none => (.thrown .bounds, w)
      | some p => (.returned p, w)

def setBucket (m : Nat) (i : UInt32) (p : Option Nat) : Op V Unit := fun w =>
  match (w.maps m).apBucket with
  | none => (.thrown .null, w)
  | some table =>
      if i.toNat < table.length then
        modifyMap m (fun map => { map with apBucket := some (table.set i.toNat p) }) w
      else (.thrown .bounds, w)

/-- `SyMemBackendPoolAlloc` of a node, filled in. -/
def newNode (e : Entry) : Op V Nat := fun w =>
  (.returned w.pool, { w with
    nodes := Function.update w.nodes w.pool (some ⟨e, Link.single, Link.single⟩)
    pool := w.pool + 1 })

/-- `SyMemBackendPoolFree` of a node. -/
def freeNode (a : Nat) : Op V Unit := fun w =>
  (.returned (), { w with nodes := Function.update w.nodes a none })

section

variable [Inhabited V]

/-- `jx9VmReserveMemObj`: a free memory object, or a new one, which is null. -/
def jx9VmReserveMemObj : Op V Nat := fun w =>
  match w.aFreeObj with
  | i :: free =>
      if i < w.aMemObj.length then
        (.returned i, { w with aFreeObj := free, aMemObj := w.aMemObj.set i default })
      else
        (.returned w.aMemObj.length,
          { w with aFreeObj := free, aMemObj := w.aMemObj ++ [default] })
  | [] => (.returned w.aMemObj.length, { w with aMemObj := w.aMemObj ++ [default] })

/-- `jx9VmUnsetMemObj` -/
def jx9VmUnsetMemObj (i : Nat) : Op V Unit := fun w =>
  if i < w.aMemObj.length then
    (.returned (), { w with aFreeObj := i :: w.aFreeObj, aMemObj := w.aMemObj.set i default })
  else (.returned (), w)

/-- A value is stored in a memory object, or it becomes null where there is none. -/
def storeMemObj (i : Nat) (value : Option V) : Op V Unit := fun w =>
  (.returned (), { w with aMemObj := w.aMemObj.set i (value.getD default) })

/-- `SySetAt` of the memory objects. -/
def memObjAt (i : Nat) : Op V (Option V) := fun w => (.returned w.aMemObj[i]?, w)

end

/-! ## Linking -/

/-- Into the chain of a bucket, at its head. -/
def linkBucket (m a : Nat) (nBucketIdx : UInt32) : Op V Unit := do
  match ← bucket m nBucketIdx with
  | some h =>
      setPNextCollide a (some h)
      setPPrevCollide h (some a)
  | none => pure ()
  setBucket m nBucketIdx (some a)

/-- Into the list of the map. -/
def linkList (m a : Nat) : Op V Unit := do
  let map ← hashmap m
  match map.pFirst with
  | none => modifyMap m fun map => { map with pFirst := some a, pLast := some a, pCur := some a }
  | some _ =>
      match map.pLast with
      | none => modifyMap m fun map => { map with pLast := some a }
      | some last =>
          setPNext a (some last)
          setPPrev last (some a)
          modifyMap m fun map => { map with pLast := some a }

/-- `HashmapNodeLink` -/
def hashmapNodeLink (m a : Nat) (nBucketIdx : UInt32) : Op V Unit := do
  linkBucket m a nBucketIdx
  linkList m a
  modifyMap m fun map => { map with nEntry := map.nEntry + 1 }

/-- What comes before a node in its collision chain is linked to what comes behind it. -/
def skipBucket (a : Nat) : Op V Unit := do
  let n ← node a
  match n.collide.prev with
  | none =>
      let map ← hashmap n.pMap
      setBucket n.pMap (n.nHash &&& (map.nSize - 1)) n.collide.next
  | some p => setPNextCollide p n.collide.next

/-- Out of its collision chain. -/
def unlinkBucket (a : Nat) : Op V Unit := do
  skipBucket a
  let n ← node a
  match n.collide.next with
  | some next => setPPrevCollide next n.collide.prev
  | none => pure ()

/-- What comes before a node in the list of the map is linked to what comes behind it. -/
def skipList (a : Nat) : Op V Unit := do
  let n ← node a
  modifyMap n.pMap fun map =>
    { map with
      pFirst := if map.pFirst = some a then n.list.prev else map.pFirst
      pCur := if map.pCur = some a then n.list.prev else map.pCur
      pLast := if map.pLast = some a then n.list.next else map.pLast }
  match n.list.prev with
  | some p => setPNext p n.list.next
  | none => pure ()

/-- Out of the list of the map. -/
def unlinkList (a : Nat) : Op V Unit := do
  skipList a
  let n ← node a
  match n.list.next with
  | some next => setPPrev next n.list.prev
  | none => pure ()

/-- A node and its memory object are freed, and with the last node the table of the map. -/
def releaseNode [Inhabited V] (a : Nat) : Op V Unit := do
  let n ← node a
  jx9VmUnsetMemObj n.nValIdx
  freeNode a
  modifyMap n.pMap fun map => { map with nEntry := map.nEntry - 1 }
  modifyMap n.pMap fun map =>
    if map.nEntry < 1 then
      { map with apBucket := none, nSize := 0, pFirst := none, pLast := none, pCur := none }
    else map

/-- `jx9HashmapUnlinkNode` -/
def jx9HashmapUnlinkNode [Inhabited V] (a : Nat) : Op V Unit := do
  unlinkBucket a
  unlinkList a
  releaseNode a

/-! ## Growing -/

/-- The loop of `HashmapGrowBucket`, over the entries that are left. -/
def rehashLoop (m : Nat) (nNew : UInt32) : Nat → Option Nat → Op V Unit
  | 0, _ => pure ()
  | left + 1, pEntry => do
      let a ← follow pEntry
      setPNextCollide a none
      setPPrevCollide a none
      let n ← node a
      linkBucket m a (n.nHash &&& (nNew - 1))
      let n ← node a
      rehashLoop m nNew left n.list.prev

/-- `HashmapGrowBucket`, where `alloc` says whether there is memory for a new table. What the
allocator is asked for is a number of bytes of 32 bits. -/
def hashmapGrowBucket (m : Nat) (alloc : Bool) : Op V Bool := do
  let map ← hashmap m
  if map.nSize * 3 ≤ map.nEntry then
    let nNew : UInt32 := if map.nSize <<< 1 < 1 then 16 else map.nSize <<< 1
    if alloc then
      modifyMap m fun map =>
        { map with apBucket := some (List.replicate ((nNew * 8).toNat / 8) none), nSize := nNew }
      if map.apBucket.isSome then
        rehashLoop m nNew map.nEntry.toNat map.pFirst
      pure true
    else pure (1 ≤ map.nSize)
  else pure true

/-! ## Lookup -/

/-- The hash of a key. -/
def Hashmap.hash (map : Hashmap) : Jx9Key → UInt32
  | .int n => map.xIntHash n
  | .blob b => map.xBlobHash b

/-- The loop along a collision chain. -/
def lookupLoop (key : Jx9Key) (nHash : UInt32) : Nat → Option Nat → Op V (Option Nat)
  | _, none => pure none
  | 0, some _ => Prog.stuck
  | turns + 1, some a => do
      let n ← node a
      if n.nHash = nHash ∧ n.key = key then pure (some a)
      else lookupLoop key nHash turns n.collide.next

/-- The body of `HashmapLookupIntKey` and `HashmapLookupBlobKey`. -/
def lookupKey (m : Nat) (key : Jx9Key) : Op V (Option Nat) := do
  let map ← hashmap m
  if map.nEntry < 1 then pure none
  else
    let pNode ← bucket m (map.hash key &&& (map.nSize - 1))
    lookupLoop key (map.hash key) (map.nEntry.toNat + 1) pNode

/-- `HashmapLookupIntKey` -/
def hashmapLookupIntKey (m : Nat) (iKey : Int64) : Op V (Option Nat) := lookupKey m (.int iKey)

/-- `HashmapLookupBlobKey` -/
def hashmapLookupBlobKey (m : Nat) (key : Bytes) : Op V (Option Nat) := lookupKey m (.blob key)

/-- `HashmapLookup`. A string that is not empty is only looked up as a string. -/
def hashmapLookup (m : Nat) : KeyArg → Op V (Option Nat)
  | .string b | .cast b =>
      if b = [] then hashmapLookupIntKey m 0 else hashmapLookupBlobKey m b
  | .int n => hashmapLookupIntKey m n
  | .auto => pure none

/-! ## Insertion -/

section

variable [Inhabited V]

/-- The body of `HashmapInsertIntKey` and `HashmapInsertBlobKey`. -/
def insertKey (m : Nat) (key : Jx9Key) (value : Option V) (alloc : Bool) : Op V Bool := do
  let nIdx ← jx9VmReserveMemObj
  storeMemObj nIdx value
  let map ← hashmap m
  let a ← newNode ⟨m, key, map.hash key, nIdx⟩
  if ← hashmapGrowBucket m alloc then
    let map ← hashmap m
    hashmapNodeLink m a (map.hash key &&& (map.nSize - 1))
    pure true
  else
    freeNode a
    pure false

/-- `HashmapInsertIntKey` -/
def hashmapInsertIntKey (m : Nat) (iKey : Int64) (value : Option V) (alloc : Bool) : Op V Bool :=
  insertKey m (.int iKey) value alloc

/-- `HashmapInsertBlobKey` -/
def hashmapInsertBlobKey (m : Nat) (key : Bytes) (value : Option V) (alloc : Bool) : Op V Bool :=
  insertKey m (.blob key) value alloc

/-- Overwrite the value of a node. -/
def overwrite (a : Nat) (value : Option V) : Op V Unit := do
  let n ← node a
  storeMemObj n.nValIdx value

/-- `++pMap->iNextIdx`, from a value on. -/
def setNextIdx (m : Nat) (n : Int64) : Op V Unit := fun w =>
  if n.toInt = 2 ^ 63 - 1 then (.thrown .overflow, w)
  else modifyMap m (fun map => { map with iNextIdx := n + 1 }) w

/-- The loop that makes sure that the automatic index is not reserved. -/
def skipLoop (m : Nat) : Nat → Op V Unit
  | 0 => Prog.stuck
  | turns + 1 => do
      let map ← hashmap m
      match ← hashmapLookupIntKey m map.iNextIdx with
      | none => pure ()
      | some _ =>
          setNextIdx m map.iNextIdx
          skipLoop m turns

/-- The part of `HashmapInsert` behind `IntKey`, with a key. -/
def insertInt (m : Nat) (n : Int64) (value : Option V) (alloc : Bool) : Op V Bool := do
  match ← hashmapLookupIntKey m n with
  | some a =>
      overwrite a value
      pure true
  | none =>
      let ok ← hashmapInsertIntKey m n value alloc
      let map ← hashmap m
      if ok ∧ map.iNextIdx ≤ n then
        setNextIdx m n
        skipLoop m (map.nEntry.toNat + 1)
      pure ok

/-- The part of `HashmapInsert` behind `IntKey`, with an automatic index. -/
def insertAuto (m : Nat) (value : Option V) (alloc : Bool) : Op V Bool := do
  let map ← hashmap m
  let ok ← hashmapInsertIntKey m map.iNextIdx value alloc
  if ok then setNextIdx m map.iNextIdx
  pure ok

/-- The part of `HashmapInsert` about strings. -/
def insertString (m : Nat) (b : Bytes) (value : Option V) (alloc : Bool) : Op V Bool := do
  if b = [] then insertAuto m value alloc
  else if hashmapIsIntKey b then insertInt m (syStrToInt64 b) value alloc
  else
    match ← hashmapLookupBlobKey m b with
    | some a =>
        overwrite a value
        pure true
    | none => hashmapInsertBlobKey m b value alloc

/-- `HashmapInsert` -/
def hashmapInsert (m : Nat) (key : KeyArg) (value : Option V) (alloc : Bool) : Op V Bool :=
  match key with
  | .string b => do
      modifyMap m fun map => if map.nEntry < 1 then { map with isObject := true } else map
      insertString m b value alloc
  | .cast b => insertString m b value alloc
  | .int n => insertInt m n value alloc
  | .auto => insertAuto m value alloc

/-! ## Other operations -/

/-- `jx9_array_fetch`, and the other lookups of a value. -/
def fetch (m : Nat) (key : KeyArg) : Op V (Option V) := do
  let map ← hashmap m
  if map.nEntry < 1 then pure none
  else
    match ← hashmapLookup m key with
    | none => pure none
    | some a =>
        let n ← node a
        memObjAt n.nValIdx

/-- `jx9_hashmap_pop` -/
def pop (m : Nat) : Op V (Option V) := do
  let map ← hashmap m
  if map.nEntry < 1 then pure none
  else
    let last ← follow map.pLast
    let n ← node last
    let value ← memObjAt n.nValIdx
    if value.isSome then jx9HashmapUnlinkNode last
    modifyMap m fun map => { map with pCur := map.pFirst }
    pure value

/-- `HashmapRehashIntNode` -/
def hashmapRehashIntNode (a : Nat) : Op V Unit := do
  unlinkBucket a
  setPNextCollide a none
  setPPrevCollide a none
  let n ← node a
  let map ← hashmap n.pMap
  modifyNode a fun n => { n with nHash := map.xIntHash map.iNextIdx, key := .int map.iNextIdx }
  linkBucket n.pMap a (map.xIntHash map.iNextIdx &&& (map.nSize - 1))
  setNextIdx n.pMap map.iNextIdx

/-- The loop of `jx9_hashmap_shift` that gives the entries with integer keys new ones. -/
def renumberLoop : Nat → Option Nat → Op V Unit
  | 0, _ => pure ()
  | left + 1, pEntry => do
      let a ← follow pEntry
      let n ← node a
      match n.key with
      | .int _ => hashmapRehashIntNode a
      | .blob _ => pure ()
      let n ← node a
      renumberLoop left n.list.prev

/-- `jx9_hashmap_shift` -/
def shift (m : Nat) : Op V (Option V) := do
  let map ← hashmap m
  if map.nEntry < 1 then pure none
  else
    let first ← follow map.pFirst
    let n ← node first
    let value ← memObjAt n.nValIdx
    if value.isSome then jx9HashmapUnlinkNode first
    modifyMap m fun map => { map with iNextIdx := 0 }
    let map ← hashmap m
    renumberLoop map.nEntry.toNat map.pFirst
    modifyMap m fun map => { map with pCur := map.pFirst }
    pure value

/-- `jx9HashmapResetLoopCursor` -/
def jx9HashmapResetLoopCursor (m : Nat) : Op V Unit :=
  modifyMap m fun map => { map with pCur := map.pFirst }

/-- The key and the value of a node. -/
def extract (a : Nat) : Op V (Jx9Key × V) := do
  let n ← node a
  let value ← memObjAt n.nValIdx
  pure (n.key, value.getD default)

/-- `jx9HashmapGetNextEntry`, with the key and the value of the entry. -/
def jx9HashmapGetNextEntry (m : Nat) : Op V (Option (Jx9Key × V)) := do
  let map ← hashmap m
  match map.pCur with
  | none => pure none
  | some a =>
      let n ← node a
      modifyMap m fun map => { map with pCur := n.list.prev }
      let entry ← extract a
      pure (some entry)

/-- The loop of `jx9HashmapWalk`, with what its callback is given. -/
def walkLoop : Nat → Option Nat → Op V (List (Jx9Key × V))
  | 0, _ => pure []
  | left + 1, pEntry => do
      let a ← follow pEntry
      let entry ← extract a
      let n ← node a
      let rest ← walkLoop left n.list.prev
      pure (entry :: rest)

/-- `jx9HashmapWalk` -/
def jx9HashmapWalk (m : Nat) : Op V (List (Jx9Key × V)) := do
  let map ← hashmap m
  walkLoop map.nEntry.toNat map.pFirst

end

end Jx9Hash

end Poesie
