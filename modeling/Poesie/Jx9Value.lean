import Poesie.Conversion

set_option autoImplicit false

/-! # Jx9 values

The values of the Jx9 VM as far as the backend makes and reads them. Arrays and objects are
hash maps that keep their entries in the order of insertion; a map is an object once its first
entry was inserted under a string, also one that is then stored as an integer key.
-/

namespace Poesie

open Wire Json

/-! ## Hash maps -/

/-- The key of a hash map entry. -/
inductive Jx9Key where
  | int (n : Int64)
  | blob (b : Bytes)
  deriving DecidableEq, Repr

/-- `jx9_value`. A resource is the pointer to a view. -/
inductive Jx9Value where
  | null
  | bool (b : Bool)
  | int (n : Int64)
  | real (x : Float64)
  | string (s : Bytes)
  | resource (view : ViewId)
  | hashmap (isObject : Bool) (entries : List (Jx9Key × Jx9Value))

def isDigit (b : UInt8) : Bool := 48 ≤ b && b ≤ 57

/-- `HashmapIsIntKey` -/
def hashmapIsIntKey (key : Bytes) : Bool :=
  if key.length > 1 && key.head? == some 48 then false
  else
    match key with
    | sign :: b :: rest =>
        if sign == 45 || sign == 43 then (b :: rest).all isDigit else key.all isDigit
    | _ => key.all isDigit

/-- The number that a string of digits denotes. -/
def decimal (digits : Bytes) : Nat := digits.foldl (fun n d => 10 * n + (d.toNat - 48)) 0

/-- `SyStrToInt64` of an optional sign and digits. No more than 19 digits are read, and 18 where
the first 19 are past the largest or smallest integer. -/
def syStrToInt64 (key : Bytes) : Int64 :=
  let isNeg := key.head? == some 45
  let digits := (if isNeg || key.head? == some 43 then key.drop 1 else key).dropWhile (· == 48)
  let limit : Nat := if isNeg then 9223372036854775808 else 9223372036854775807
  let read := if digits.length ≥ 19 && decimal (digits.take 19) > limit then 18 else 19
  let n := decimal (digits.take read)
  Int64.ofInt (if isNeg then -(n : Int) else n)

namespace Jx9Map

abbrev Entries := List (Jx9Key × Jx9Value)

/-- `iNextIdx`, the automatic index. -/
def nextIdx (entries : Entries) : Int64 :=
  entries.foldl (fun next entry =>
    match entry.1 with
    | .int n => if n ≥ next then n + 1 else next
    | .blob _ => next) 0

/-- Overwrite the value under a key, or insert it behind the others. -/
def store (key : Jx9Key) (value : Jx9Value) : Entries → Entries
  | [] => [(key, value)]
  | entry :: rest => if entry.1 = key then (key, value) :: rest else entry :: store key value rest

/-- `HashmapInsert` under a string, and under an automatic index where it is empty. -/
def insertString (key : Bytes) (value : Jx9Value) (entries : Entries) : Entries :=
  if key = [] then store (.int (nextIdx entries)) value entries
  else if hashmapIsIntKey key then store (.int (syStrToInt64 key)) value entries
  else store (.blob key) value entries

end Jx9Map

namespace Jx9Value

/-- `jx9_new_array` -/
def newArray : Jx9Value := hashmap false []

/-- `jx9_array_add_elem` with an automatic index. -/
def addElem : Jx9Value → Jx9Value → Jx9Value
  | hashmap isObject entries, value =>
      hashmap isObject (Jx9Map.store (.int (Jx9Map.nextIdx entries)) value entries)
  | other, _ => other

/-- `jx9_array_add_strkey_elem` -/
def addStrkeyElem : Jx9Value → Bytes × Jx9Value → Jx9Value
  | hashmap isObject entries, (key, value) =>
      hashmap (isObject || (entries.isEmpty && !key.isEmpty))
        (Jx9Map.insertString key value entries)
  | other, _ => other

end Jx9Value

/-! ## Numbers -/

/-- `jx9_value_double`, with `jx9MemObjTryInteger`: a whole number strictly between the smallest
and the largest integer becomes one. -/
def Jx9Value.double (x : Float64) : Jx9Value :=
  match x.toInt? with
  | some n => if -2 ^ 63 < n ∧ n < 2 ^ 63 - 1 then .int (Int64.ofInt n) else .real x
  | none => .real x

/-! ## The converters -/

/-- The constructors that `JSONtoJx9Value` uses. -/
def jx9Api : VmApi Jx9Value where
  nil := .null
  boolean := .bool
  int n := .int (Int64.ofInt n)
  double := .double
  string s := .ok (.string s)
  bytes := .string
  list values := values.foldl .addElem .newArray
  table members := members.foldl .addStrkeyElem .newArray
  buffer := .resource

mutual

/-- `JSONtoJx9Value`, inside the VM. A binary becomes a string, whatever it holds. -/
def JSONtoJx9ValueInside : Json → Jx9Value
  | null => .null
  | boolean b => .bool b
  | numberInteger n => .int (Int64.ofInt (getInt32 (numberInteger n)).toInt)
  | numberUnsigned n => .int (Int64.ofInt (getInt32 (numberUnsigned n)).toInt)
  | numberFloat x => .double x
  | Json.string s => .string (cString s)
  | array items => addElems items .newArray
  | object members => addMembers members .newArray
  | binary b _ => .string b

def addElems : List Json → Jx9Value → Jx9Value
  | [], arrayValue => arrayValue
  | item :: rest, arrayValue => addElems rest (arrayValue.addElem (JSONtoJx9ValueInside item))

def addMembers : List (Bytes × Json) → Jx9Value → Jx9Value
  | [], objectValue => objectValue
  | (key, j) :: rest, objectValue =>
      let entry := JSONtoJx9ValueInside j
      addMembers rest (objectValue.addStrkeyElem (cString key, entry))

end

/-- An integer in the format `%qd`. The smallest one cannot be negated, and is printed as the one
next to it. -/
def jx9Numeral (n : Int64) : Bytes := text (toString (max n.toInt (-9223372036854775807)))

/-- `jx9_value_to_string` of a key, as the C string it is read as. -/
def Jx9Key.cString : Jx9Key → Bytes
  | .int n => jx9Numeral n
  | .blob b => Poesie.cString b

/-- The bytes of a pointer. -/
def pointerBytes (view : ViewId) : Bytes := leBytes 8 view

mutual

/-- `Jx9ValueToJSON` -/
def Jx9ValueToJSON : Jx9Value → Json
  | .null => null
  | .bool b => boolean b
  | .int n => numberInteger n.toInt32.toInt64
  | .real x => numberFloat x
  | .string s => Json.string (cString s)
  | .resource view => binary (pointerBytes view) none
  | .hashmap true entries => object (objectWalk entries [])
  | .hashmap false entries => array (arrayWalk entries)

/-- The walk through an object: each entry is assigned under its key as a string. -/
def objectWalk : List (Jx9Key × Jx9Value) → List (Bytes × Json) → List (Bytes × Json)
  | [], members => members
  | (key, value) :: rest, members =>
      objectWalk rest (StdMap.assign key.cString (Jx9ValueToJSON value) members)

def arrayWalk : List (Jx9Key × Jx9Value) → List Json
  | [] => []
  | (_, value) :: rest => Jx9ValueToJSON value :: arrayWalk rest

end

end Poesie
