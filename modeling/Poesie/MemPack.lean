import Poesie.Blocks
import Poesie.Outcomes
import Poesie.PackFormat

set_option autoImplicit false

/-! # Packing and unpacking

`mem_pack` writes its arguments into a memory as a format says, from a position on, and `mem_unpack`
reads them again. Both go through the format option by option. `mem_pack` writes through a pointer
that moves along with the position, and ends early where something does not fit, or with an error
in an argument or in the format. What it has written until then stays.

The memory that is written is not among the arguments, and the Lua stack has room for the results.
-/

namespace Poesie

open Wire Blocks Outcomes

namespace LuaMem

/-- What the machine decides. -/
structure Machine where
  /-- `nativeendian.little` -/
  little : Bool
  /-- The conversion of a double to a float. -/
  narrow : Float64 → UInt32
  /-- The conversion of a float to a double. -/
  widen : UInt32 → Float64

/-- A memory. The pointer to an empty one may be null. -/
structure Memory where
  array : CArray
  null : Bool
  empty : null = true → array.bytes = []

/-- How a function of the library ends. -/
inductive CallResult where
  | returned (results : List LuaValue)
  | error (e : LuaError)
  /-- An access outside of the memory. -/
  | fault
  | endless
  deriving DecidableEq, Repr

def integer (n : Nat) : LuaValue := .number (.integer (Int64.ofNat n))

/-- A difference of two `size_t`. -/
def sub64 (a b : Nat) : Nat := (a + 2 ^ 64 - b) % 2 ^ 64

/-- `luaL_checkstring`, which C code reads up to the first NUL. -/
def checkstring (L : LuaNumerals) (arg : Nat) (v : Option LuaValue) : Except LuaError Bytes :=
  match v.map (tostring L) with
  | some (.string s) => .ok (s.bytes.takeWhile (· != 0))
  | _ => .error (.type arg (text "string"))

def initheader (M : Machine) : Header := ⟨M.little, 1⟩

/-! ## Writing -/

/-- What `mem_pack` works on: the bytes, the pointer into them and the position. -/
structure Packing where
  bytes : Bytes
  mem : Option Nat
  i : Nat
  deriving DecidableEq, Repr

/-- Why `mem_pack` does not come to its end: something does not fit, in front of these arguments,
or there is an error. -/
inductive PackStop where
  | failed (i : Nat) (rest : List LuaValue)
  | error (e : LuaError)
  | fault
  deriving DecidableEq, Repr

abbrev Pack (α : Type) : Type := Prog PackStop Packing α

namespace Pack

def stop {α : Type} (e : PackStop) : Pack α := fun s => (.thrown e, s)

/-- `return packfailed(L, i, arg)` -/
def packfailed {α : Type} (rest : List LuaValue) : Pack α := fun s => (.thrown (.failed s.i rest), s)

/-- A check that may raise an error. -/
def check {α : Type} (r : Except LuaError α) : Pack α :=
  match r with
  | .ok a => pure a
  | .error e => stop (.error e)

/-- `luaL_argcheck` -/
def argcheck (cond : Bool) (arg : Nat) (message : Bytes) : Pack Unit :=
  if cond then pure () else stop (.error (.argument arg message))

def position : Pack Nat := fun s => (.returned s.i, s)

/-- `*p = b` -/
def put (p : Nat) (b : UInt8) : Pack Unit := fun s =>
  match poke s.bytes p b with
  | some bytes => (.returned (), { s with bytes })
  | none => (.thrown .fault, s)

def memcpy (p : Nat) (bs : Bytes) : Pack Unit := fun s =>
  match copyIn s.bytes p bs with
  | some bytes => (.returned (), { s with bytes })
  | none => (.thrown .fault, s)

/-- `*((*b)++) = c` -/
def putNext (c : UInt8) : Pack Unit := fun s =>
  match s.mem with
  | none => (.thrown .fault, s)
  | some p => put p c { s with mem := some (p + 1) }

end Pack

open Pack

def getbytes (lb sz : Nat) : Pack (Option Nat) := fun s =>
  let newtotal := (s.i + sz) % 2 ^ 64
  if newtotal ≤ lb then (.returned s.mem, { s with mem := s.mem.map (· + sz), i := newtotal })
  else (.returned none, s)

def packchar (lb : Nat) (c : UInt8) : Pack Bool := do
  let i ← position
  if i < lb then
    fun s => (.returned (), { s with i := (s.i + 1) % 2 ^ 64 })
    putNext c
    pure true
  else pure false

def packstream (lb : Nat) (s : Bytes) : Pack Bool :=
  if 0 < s.length then do
    match ← getbytes lb s.length with
    | none => pure false
    | some d =>
        memcpy d s
        pure true
  else pure true

/-- The bytes of `n` at these places, each time shifted by one byte more. -/
def shiftLoop (islittle : Bool) (size buff : Nat) : List Nat → UInt64 → Pack Unit
  | [], _ => pure ()
  | i :: is, n => do
      let n := n >>> 8
      put (buff + slot islittle size i) n.toUInt8
      shiftLoop islittle size buff is n

/-- The extra bytes of a negative number. -/
def extendLoop (islittle : Bool) (size buff : Nat) : List Nat → Pack Unit
  | [] => pure ()
  | i :: is => do
      put (buff + slot islittle size i) 255
      extendLoop islittle size buff is

def packint (lb : Nat) (n : UInt64) (islittle : Bool) (size : Nat) (neg : Bool) : Pack Bool := do
  match ← getbytes lb size with
  | none => pure false
  | some buff =>
      put (buff + slot islittle size 0) n.toUInt8
      shiftLoop islittle size buff (List.range' 1 (size - 1)) n
      if neg ∧ SZINT < size then
        extendLoop islittle size buff (List.range' SZINT (size - SZINT))
      pure true

/-- `*(dest++) = *(src++)` -/
def copyUp (dest : Nat) : Bytes → Pack Unit
  | [] => pure ()
  | b :: src => do
      put dest b
      copyUp (dest + 1) src

/-- `*(dest--) = *(src++)` -/
def copyDown (dest : Nat) : Bytes → Pack Unit
  | [] => pure ()
  | b :: src => do
      put dest b
      copyDown (dest - 1) src

def copywithendian (M : Machine) (dest : Nat) (src : Bytes) (islittle : Bool) : Pack Unit :=
  if islittle = M.little then copyUp dest src else copyDown (dest + (src.length - 1)) src

/-- The bits of a number as a float of this size. -/
def floatBits (M : Machine) (size : Nat) (x : Float64) : Nat :=
  if size = 4 then (M.narrow x).toNat else x.bits.toNat

/-! ## `mem_pack` -/

section

variable (M : Machine) (L : LuaNumerals) (lb : Nat)

/-- The `switch` of `mem_pack`, with the number of the argument and the arguments from it on. It
leaves the number and the arguments that come next. -/
def packOption (islittle : Bool) (opt : KOption) (size arg : Nat) (rest : List LuaValue) :
    Pack (Nat × List LuaValue) :=
  match opt with
  | .int => do
      let n ← check (checkinteger L arg rest.head?)
      if size < SZINT then
        let lim : Int := 2 ^ (size * 8 - 1)
        argcheck (-lim ≤ n.toInt && n.toInt < lim) arg (text "integer overflow")
      if ← packint lb n.toUInt64 islittle size (n < 0) then pure (arg, rest.tail)
      else packfailed rest
  | .uint => do
      let n ← check (checkinteger L arg rest.head?)
      if size < SZINT then
        argcheck (n.toUInt64.toNat < 2 ^ (size * 8)) arg (text "unsigned overflow")
      if ← packint lb n.toUInt64 islittle size false then pure (arg, rest.tail)
      else packfailed rest
  | .float => do
      match ← getbytes lb size with
      | none => packfailed rest
      | some data =>
          let n ← check (checknumber L arg rest.head?)
          copywithendian M data (ordered M.little (leBytes size (floatBits M size n))) islittle
          pure (arg, rest.tail)
  | .char => do
      let s ← check (checkarray L arg rest.head?)
      argcheck (s.bytes.length == size) arg (text "wrong length")
      if ← packstream lb s.bytes then pure (arg, rest.tail)
      else packfailed (rest.modifyHead (tostring L))
  | .string => do
      let s ← check (checkarray L arg rest.head?)
      argcheck (8 ≤ size || s.bytes.length < 2 ^ (size * 8)) arg
        (text "string length does not fit in given size")
      if ← packint lb (UInt64.ofNat s.bytes.length) islittle size false then
        if ← packstream lb s.bytes then pure (arg, rest.tail)
        else packfailed (rest.modifyHead (tostring L))
      else packfailed (rest.modifyHead (tostring L))
  | .zstr => do
      let s ← check (checkarray L arg rest.head?)
      argcheck (!s.bytes.contains 0) arg (text "string contains zeros")
      if ← packstream lb s.bytes then
        if ← packchar lb 0 then pure (arg, rest.tail)
        else packfailed (rest.modifyHead (tostring L))
      else packfailed (rest.modifyHead (tostring L))
  | .padding => do
      match ← getbytes lb 1 with
      | none => packfailed rest
      | some _ => pure (arg - 1, rest)
  | .paddalign | .nop => pure (arg - 1, rest)

/-- The loop of `mem_pack`, with so many turns at most. -/
def packLoop : Nat → Header → Bytes → Nat → List LuaValue → Pack Unit
  | _, _, [], _, _ => pure ()
  | 0, _, _ :: _, _, _ => Prog.stuck
  | turns + 1, h, opt :: fmt, arg, rest => do
      let i ← position
      let d ← check (getdetails M.little h i opt fmt)
      match ← getbytes lb d.ntoalign with
      | none => packfailed rest
      | some _ =>
          let next ← packOption M L lb d.h.islittle d.opt d.size (arg + 1) rest
          packLoop turns d.h d.fmt next.1 next.2

/-- What `mem_pack` returns, by how its loop ends. -/
def packResult : Outcome PackStop Unit × Packing → CallResult
  | (.returned _, s) => .returned [.boolean true, integer (s.i + 1)]
  | (.thrown (.failed i rest), _) => .returned ([.boolean false, integer (i + 1)] ++ rest)
  | (.thrown (.error e), _) => .error e
  | (.thrown .fault, _) => .fault
  | (.raised, _) => .fault
  | (.stuck, _) => .endless

end

/-- `mem_pack` of a memory, with the arguments behind it. -/
def mem_pack (M : Machine) (L : LuaNumerals) (m : Memory) (args : List LuaValue) :
    CallResult × Bytes :=
  let bytes := m.array.bytes
  match checkstring L 2 args.head?, checkinteger L 3 args[1]? with
  | .error e, _ => (.error e, bytes)
  | _, .error e => (.error e, bytes)
  | .ok fmt, .ok pos =>
      let i := posrelatI pos bytes.length - 1
      if i ≤ bytes.length then
        let s : Packing := ⟨bytes, if m.null then none else some i, i⟩
        let r := packLoop M L bytes.length fmt.length (initheader M) fmt 3 (args.drop 2) s
        (packResult r, r.2.bytes)
      else (.error (.argument 3 (text "index out of bounds")), bytes)

/-! ## Reading -/

/-- Why `mem_unpack` does not return. -/
inductive UnpackStop where
  | error (e : LuaError)
  | fault
  | endless
  deriving DecidableEq, Repr

abbrev Unpack (α : Type) : Type := Except UnpackStop α

/-- An access that must be inside of the memory. -/
def inside {α : Type} : Option α → Unpack α
  | some a => .ok a
  | none => .error .fault

/-- Bytes of an array, as a string. -/
def CArray.slice (a : CArray) (p n : Nat) : CArray where
  bytes := part a.bytes p n
  short := Nat.lt_of_le_of_lt (length_part_le a.bytes p n) a.short

/-- `lua_pushlstring` of `n` bytes at `p`. -/
def pushlstring (data : CArray) (p n : Nat) : Unpack LuaValue :=
  if p + n ≤ data.bytes.length then .ok (.string (data.slice p n)) else .error .fault

/-- The bytes at these places, the most significant one first. -/
def gatherLoop (data : Bytes) (islittle : Bool) (size p : Nat) : List Nat → UInt64 → Unpack UInt64
  | [], res => pure res
  | i :: is, res => do
      let c ← inside (peek data (p + slot islittle size i))
      gatherLoop data islittle size p is ((res <<< 8) ||| c.toUInt64)

/-- The bytes that do not fit in a Lua integer. -/
def unreadLoop (data : Bytes) (islittle : Bool) (size p : Nat) (mask : UInt8) :
    List Nat → Unpack Unit
  | [] => pure ()
  | i :: is => do
      let c ← inside (peek data (p + slot islittle size i))
      if c ≠ mask then
        .error (.error (.error (text (toString size) ++
          text "-byte integer does not fit into Lua Integer")))
      else unreadLoop data islittle size p mask is

def unpackint (data : Bytes) (p : Nat) (islittle : Bool) (size : Nat) (issigned : Bool) :
    Unpack Int64 := do
  let limit := if size ≤ SZINT then size else SZINT
  let res ← gatherLoop data islittle size p (List.range limit).reverse 0
  if size < SZINT then
    if issigned then
      let mask : UInt64 := 1 <<< UInt64.ofNat (size * 8 - 1)
      pure ((res ^^^ mask) - mask).toInt64
    else pure res.toInt64
  else
    if SZINT < size then
      let mask : UInt8 := if !issigned || 0 ≤ res.toInt64 then 0 else 255
      unreadLoop data islittle size p mask (List.range' limit (size - limit))
    pure res.toInt64

/-- `copywithendian` into a number, and the number that it makes. -/
def unpackfloat (M : Machine) (data : Bytes) (p : Nat) (islittle : Bool) (size : Nat) :
    Unpack Float64 := do
  let src ← inside (copyOut data p size)
  let buff := if islittle = M.little then src else src.reverse
  let bits := ofLE (ordered M.little buff)
  pure (if size = 4 then M.widen (UInt32.ofNat bits) else ⟨UInt64.ofNat bits⟩)

/-! ## `mem_unpack` -/

section

variable (M : Machine) (data : CArray)

/-- The `switch` of `mem_unpack`: the value that an option reads, if any, and the position behind
it. -/
def unpackOption (islittle : Bool) (opt : KOption) (size pos : Nat) :
    Unpack (Option LuaValue × Nat) :=
  let ld := data.bytes.length
  match opt with
  | .int => do
      let res ← unpackint data.bytes pos islittle size true
      pure (some (.number (.integer res)), pos + size)
  | .uint => do
      let res ← unpackint data.bytes pos islittle size false
      pure (some (.number (.integer res)), pos + size)
  | .float => do
      let num ← unpackfloat M data.bytes pos islittle size
      pure (some (.number (.float num)), pos + size)
  | .char => do
      let s ← pushlstring data pos size
      pure (some s, pos + size)
  | .string => do
      let n ← unpackint data.bytes pos islittle size false
      let len := n.toUInt64.toNat
      if len ≤ sub64 (sub64 ld pos) size then
        let s ← pushlstring data (pos + size) len
        pure (some s, pos + len + size)
      else .error (.error (.argument 2 (text "data string too short")))
  | .zstr => do
      let src ← inside (copyOut data.bytes pos (sub64 ld pos))
      if src.contains 0 then
        let len := src.idxOf 0
        let s ← pushlstring data pos len
        pure (some s, pos + (len + 1) + size)
      else .error (.error (.argument 2 (text "unfinished string for format 'z'")))
  | .padding | .paddalign | .nop => pure (none, pos + size)

/-- The loop of `mem_unpack`, with so many turns at most: the values that it reads, and the position
behind them. -/
def unpackLoop : Nat → Header → Bytes → Nat → Unpack (List LuaValue × Nat)
  | _, _, [], pos => pure ([], pos)
  | 0, _, _ :: _, _ => .error .endless
  | turns + 1, h, opt :: fmt, pos =>
      match getdetails M.little h pos opt fmt with
      | .error e => .error (.error e)
      | .ok d =>
          if d.ntoalign + d.size ≤ sub64 data.bytes.length pos then do
            let item ← unpackOption M data d.h.islittle d.opt d.size (pos + d.ntoalign)
            let rest ← unpackLoop turns d.h d.fmt item.2
            pure (item.1.toList ++ rest.1, rest.2)
          else .error (.error (.argument 2 (text "data string too short")))

end

/-- What `mem_unpack` returns, by how its loop ends. -/
def unpackResult : Unpack (List LuaValue × Nat) → CallResult
  | .ok (values, pos) => .returned (values ++ [integer (pos + 1)])
  | .error (.error e) => .error e
  | .error .fault => .fault
  | .error .endless => .endless

/-- `mem_unpack` of a memory, with the arguments behind it. -/
def mem_unpack (M : Machine) (L : LuaNumerals) (m : Memory) (args : List LuaValue) : CallResult :=
  match checkstring L 2 args.head?, optinteger L 3 1 args[1]? with
  | .error e, _ => .error e
  | _, .error e => .error e
  | .ok fmt, .ok at' =>
      let pos := posrelatI at' m.array.bytes.length - 1
      if pos ≤ m.array.bytes.length then
        unpackResult (unpackLoop M m.array fmt.length (initheader M) fmt pos)
      else .error (.argument 3 (text "index out of bounds"))

end LuaMem

end Poesie
