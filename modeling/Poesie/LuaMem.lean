import Poesie.Double
import Poesie.Numeral

set_option autoImplicit false

/-! # Arguments of the memory library

The `memory` library of a Lua state works on its arguments through the Lua API: integers, numbers
and arrays of bytes, which are strings or memories. Lua's own conversions between numbers and
strings are a parameter. An array is never so long that its length does not fit in a
`lua_Integer`.
-/

namespace Poesie

open Wire

/-- What the functions of the library raise. -/
inductive LuaError where
  /-- `luaL_error` -/
  | error (message : Bytes)
  /-- `luaL_argerror` -/
  | argument (arg : Nat) (message : Bytes)
  /-- `luaL_typeerror` -/
  | type (arg : Nat) (expected : Bytes)
  deriving DecidableEq, Repr

namespace LuaMem

/-- The bytes of a string or of a memory. -/
structure CArray where
  bytes : Bytes
  short : bytes.length < 2 ^ 63
  deriving DecidableEq, Repr

inductive LuaNumber where
  | integer (n : Int64)
  | float (x : Float64)
  deriving DecidableEq, Repr

inductive LuaValue where
  | nil
  | boolean (b : Bool)
  | number (n : LuaNumber)
  | string (s : CArray)
  | memory (s : CArray)
  | other
  deriving DecidableEq, Repr

/-- Lua's conversions between numbers and strings. -/
structure LuaNumerals where
  /-- `lua_stringtonumber` -/
  stringToNumber : Bytes → Option LuaNumber
  /-- `lua_tolstring` of a number -/
  numberToString : LuaNumber → CArray

/-! ## Numbers -/

/-- `lua_Number2Integer`: only a whole number is converted. -/
def floatToInteger (x : Float64) : Option Int64 :=
  match x.toInt? with
  | none => none
  | some n => if -2 ^ 63 ≤ n ∧ n < 2 ^ 63 then some (Int64.ofInt n) else none

def LuaNumber.tointeger : LuaNumber → Option Int64
  | .integer n => some n
  | .float x => floatToInteger x

def LuaNumber.tonumber : LuaNumber → Float64
  | .integer n => Float64.ofInt n.toInt
  | .float x => x

variable (L : LuaNumerals)

/-- A value that is a number, or a string that can be converted to one. -/
def asNumber : LuaValue → Option LuaNumber
  | .number n => some n
  | .string s => L.stringToNumber s.bytes
  | _ => none

/-- `luaL_checkinteger` of argument `arg`, which may be missing. -/
def checkinteger (arg : Nat) (v : Option LuaValue) : Except LuaError Int64 :=
  match v.bind (asNumber L) with
  | none => .error (.type arg (text "number"))
  | some n =>
      match n.tointeger with
      | some n => .ok n
      | none => .error (.argument arg (text "number has no integer representation"))

/-- `luaL_optinteger` -/
def optinteger (arg : Nat) (df : Int64) (v : Option LuaValue) : Except LuaError Int64 :=
  if v = none ∨ v = some .nil then .ok df else checkinteger L arg v

/-- `luaL_checknumber` -/
def checknumber (arg : Nat) (v : Option LuaValue) : Except LuaError Float64 :=
  match v.bind (asNumber L) with
  | none => .error (.type arg (text "number"))
  | some n => .ok n.tonumber

/-! ## Arrays -/

/-- The argument as `lua_tolstring` leaves it: a number has become a string. -/
def tostring : LuaValue → LuaValue
  | .number n => .string (L.numberToString n)
  | v => v

/-- `luamem_toarray` -/
def toarray (v : LuaValue) : Option CArray :=
  match tostring L v with
  | .string s => some s
  | .memory s => some s
  | _ => none

/-- `luamem_checkarray` -/
def checkarray (arg : Nat) (v : Option LuaValue) : Except LuaError CArray :=
  match v.bind (toarray L) with
  | some s => .ok s
  | none => .error (.type arg (text "string or memory"))

/-! ## Positions -/

/-- `posrelatI`, in the arithmetic of `size_t`. -/
def posrelatI (pos : Int64) (len : Nat) : Nat :=
  if 0 < pos.toInt then pos.toUInt64.toNat
  else if pos.toInt = 0 then 1
  else if pos.toInt < -(len : Int) then 1
  else (len + pos.toUInt64.toNat + 1) % 2 ^ 64

/-- The conversion to an unsigned number. -/
theorem toNat_toUInt64_eq (n : Int64) : (n.toUInt64.toNat : Int) = n.toInt % 2 ^ 64 := by
  have hn : n.toInt = Int.bmod n.toUInt64.toNat (2 ^ 64) := BitVec.toInt_eq_toNat_bmod n.toBitVec
  have hlt : n.toUInt64.toNat < 2 ^ 64 := n.toUInt64.toNat_lt
  rw [Int.bmod_def] at hn
  split at hn <;> omega

end LuaMem

end Poesie
