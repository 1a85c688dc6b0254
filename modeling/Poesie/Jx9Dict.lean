import Poesie.DataRefinement
import Poesie.Jx9Hashmap

set_option autoImplicit false

/-! # What the hash maps of the Jx9 VM are for

A dictionary keeps its entries in the order of insertion, under keys that are told apart. It has an
automatic index, which is past every integer key, and a cursor for walking through. This is the
purpose of the hash maps, without their tables, chains and memory objects: `Dict.step` says what an
operation returns and leaves.
-/

namespace Poesie

open Wire Outcomes

namespace Jx9Hash

variable {V : Type}

/-- The entries, the automatic index and the cursor of a map. -/
structure Dict (V : Type) where
  entries : List (Jx9Key × V)
  next : Int64
  cursor : Option Nat
  isObject : Bool

namespace Dict

def empty : Dict V := ⟨[], 0, none, false⟩

def keys (d : Dict V) : List Jx9Key := d.entries.map Prod.fst

/-- The value under a key. -/
def get (d : Dict V) (key : Jx9Key) : Option V :=
  (d.entries.find? fun e => e.1 = key).map Prod.snd

/-- The cursor before the first entry. -/
def start (d : Dict V) : Option Nat := if d.entries = [] then none else some 0

def rewind (d : Dict V) : Dict V := { d with cursor := d.start }

/-- Another value under a key that is there. -/
def replace (d : Dict V) (key : Jx9Key) (value : V) : Dict V :=
  { d with entries := d.entries.map fun e => if e.1 = key then (e.1, value) else e }

/-- An entry behind the others. The first one is where the cursor stands. -/
def append (d : Dict V) (key : Jx9Key) (value : V) : Dict V :=
  { d with
    entries := d.entries ++ [(key, value)]
    cursor := if d.entries = [] then some 0 else d.cursor }

/-- An automatic index past an integer key. -/
def setNext (d : Dict V) (n : Int64) : Except Fault (Dict V) :=
  if n.toInt = 2 ^ 63 - 1 then .error .overflow else .ok { d with next := n + 1 }

/-- A new entry. There has to be memory for the table of a map that is empty. -/
def add (d : Dict V) (key : Jx9Key) (value : V) (alloc : Bool) : Option (Dict V) :=
  if d.entries = [] ∧ alloc = false then none else some (d.append key value)

/-- Insertion under an integer. -/
def insertInt (d : Dict V) (n : Int64) (value : V) (alloc : Bool) : Except Fault (Bool × Dict V) :=
  if .int n ∈ d.keys then .ok (true, d.replace (.int n) value)
  else
    match d.add (.int n) value alloc with
    | none => .ok (false, d)
    | some d' => if d.next ≤ n then (d'.setNext n).map fun d' => (true, d') else .ok (true, d')

/-- Insertion under the automatic index. -/
def insertAuto (d : Dict V) (value : V) (alloc : Bool) : Except Fault (Bool × Dict V) :=
  match d.add (.int d.next) value alloc with
  | none => .ok (false, d)
  | some d' => (d'.setNext d.next).map fun d' => (true, d')

/-- Insertion under a string that does not look like an integer. -/
def insertBlob (d : Dict V) (b : Bytes) (value : V) (alloc : Bool) : Bool × Dict V :=
  if .blob b ∈ d.keys then (true, d.replace (.blob b) value)
  else
    match d.add (.blob b) value alloc with
    | none => (false, d)
    | some d' => (true, d')

/-- Insertion under a string. -/
def insertString (d : Dict V) (b : Bytes) (value : V) (alloc : Bool) :
    Except Fault (Bool × Dict V) :=
  if b = [] then d.insertAuto value alloc
  else if hashmapIsIntKey b then d.insertInt (syStrToInt64 b) value alloc
  else .ok (d.insertBlob b value alloc)

def insert (d : Dict V) (key : KeyArg) (value : V) (alloc : Bool) : Except Fault (Bool × Dict V) :=
  match key with
  | .string b =>
      ({ d with isObject := d.isObject || d.entries = [] } : Dict V).insertString b value alloc
  | .cast b => d.insertString b value alloc
  | .int n => d.insertInt n value alloc
  | .auto => d.insertAuto value alloc

/-- The key that a lookup is made for. -/
def lookedUp : KeyArg → Option Jx9Key
  | .string b | .cast b => some (if b = [] then .int 0 else .blob b)
  | .int n => some (.int n)
  | .auto => none

def fetch (d : Dict V) (key : KeyArg) : Option V := (lookedUp key).bind d.get

def pop (d : Dict V) : Option V × Dict V :=
  match d.entries.getLast? with
  | none => (none, d)
  | some e => (some e.2, rewind { d with entries := d.entries.dropLast })

/-- The integer keys of the entries are counted from some number on. -/
def renumber : Nat → List (Jx9Key × V) → List (Jx9Key × V)
  | _, [] => []
  | k, (.int _, v) :: rest => (.int (Int64.ofNat k), v) :: renumber (k + 1) rest
  | k, (.blob b, v) :: rest => (.blob b, v) :: renumber k rest

/-- How many keys are integers. -/
def countInts (entries : List (Jx9Key × V)) : Nat :=
  entries.countP fun e => match e.1 with
    | .int _ => true
    | .blob _ => false

def shift (d : Dict V) : Option V × Dict V :=
  match d.entries with
  | [] => (none, d)
  | e :: rest =>
      (some e.2, rewind { d with
        entries := renumber 0 rest
        next := Int64.ofNat (countInts rest) })

/-- The entry at the cursor, which goes on to the next one. -/
def advance (d : Dict V) : Option (Jx9Key × V) × Dict V :=
  match d.cursor with
  | none => (none, d)
  | some i =>
      (d.entries[i]?, { d with cursor := if i + 1 < d.entries.length then some (i + 1) else none })

end Dict

/-! ## Operations -/

/-- An operation on a map. An insertion comes with whether there is memory for a larger table. -/
inductive Call (V : Type) where
  | insert (key : KeyArg) (value : Option V) (alloc : Bool)
  | fetch (key : KeyArg)
  | pop
  | shift
  | reset
  | next
  | walk

inductive Result (V : Type) where
  | inserted (ok : Bool)
  | value (v : Option V)
  | entry (e : Option (Jx9Key × V))
  | entries (es : List (Jx9Key × V))
  | done

section

variable [Inhabited V]

/-- What an operation does to a dictionary. -/
def Dict.step (d : Dict V) : Call V → Except Fault (Result V × Dict V)
  | .insert key value alloc =>
      (d.insert key (value.getD default) alloc).map fun r => (.inserted r.1, r.2)
  | .fetch key => .ok (.value (d.fetch key), d)
  | .pop => .ok (.value d.pop.1, d.pop.2)
  | .shift => .ok (.value d.shift.1, d.shift.2)
  | .reset => .ok (.done, d.rewind)
  | .next => .ok (.entry d.advance.1, d.advance.2)
  | .walk => .ok (.entries d.entries, d)

/-- What it is in the VM. -/
def call (m : Nat) : Call V → Op V (Result V)
  | .insert key value alloc => do
      let ok ← hashmapInsert m key value alloc
      pure (.inserted ok)
  | .fetch key => do
      let v ← Jx9Hash.fetch m key
      pure (.value v)
  | .pop => do
      let v ← Jx9Hash.pop m
      pure (.value v)
  | .shift => do
      let v ← Jx9Hash.shift m
      pure (.value v)
  | .reset => do
      jx9HashmapResetLoopCursor m
      pure .done
  | .next => do
      let e ← jx9HashmapGetNextEntry m
      pure (.entry e)
  | .walk => do
      let es ← jx9HashmapWalk m
      pure (.entries es)

/-- The results of operations on the maps of a VM, in this order. -/
def runCalls : List (Nat × Call V) → Op V (List (Result V)) := Prog.runAll fun c => call c.1 c.2

/-- An operation on one of the dictionaries. -/
def stepAt (ds : Nat → Dict V) (c : Nat × Call V) : Except Fault (Result V × (Nat → Dict V)) :=
  ((ds c.1).step c.2).map fun r => (r.1, Function.update ds c.1 r.2)

/-- The same operations on dictionaries. -/
def runDicts : List (Nat × Call V) → (Nat → Dict V) →
    Except Fault (List (Result V) × (Nat → Dict V)) := runSpec stepAt

end

end Jx9Hash

end Poesie
