import Poesie.MemPack
import Poesie.TwosComplement

set_option autoImplicit false

/-! # What packing does to a memory

Seen from outside, `mem_pack` skips bytes and writes bytes, one piece behind the other, until a
piece does not fit or there is an error. Which pieces there are follows from the format and the
arguments (`layout`), and what becomes of the memory from the pieces (`perform`). `packLoop_eq` is
the connection: the loop with its pointers and its single bytes does what the pieces say.
-/

namespace Poesie

open Wire Blocks Outcomes TwosComplement

namespace LuaMem

open Pack

/-! ## Pieces -/

/-- A piece, with the arguments that are returned if it does not fit. -/
inductive Piece where
  | skip (n : Nat) (rest : List LuaValue)
  | write (bs : Bytes) (rest : List LuaValue)
  | raise (e : LuaError)

/-- How many bytes a piece takes. -/
def Piece.size : Piece → Nat
  | .skip n _ => n
  | .write bs _ => bs.length
  | .raise _ => 0

/-- How many bytes pieces take. -/
def extent (pieces : List Piece) : Nat := (pieces.map Piece.size).sum

/-- What has been written, up to a position, and why it was not all. -/
structure Written where
  stop : Option PackStop
  bytes : Bytes
  i : Nat

/-- Pieces in a memory from a position on. Nothing fits behind a null pointer. -/
def perform (null : Bool) : List Piece → Bytes → Nat → Written
  | [], bytes, i => ⟨none, bytes, i⟩
  | .skip n rest :: pieces, bytes, i =>
      if null = false ∧ i + n ≤ bytes.length then perform null pieces bytes (i + n)
      else ⟨some (.failed i rest), bytes, i⟩
  | .write bs rest :: pieces, bytes, i =>
      if null = false ∧ i + bs.length ≤ bytes.length then
        perform null pieces (memcpyTo bytes i bs) (i + bs.length)
      else ⟨some (.failed i rest), bytes, i⟩
  | .raise e :: _, bytes, i => ⟨some (.error e), bytes, i⟩

/-- Writing does not move the end of the memory, nor the position beyond it. -/
theorem perform_inside (null : Bool) (pieces : List Piece) {bytes : Bytes} {i : Nat}
    (hi : i ≤ bytes.length) :
    (perform null pieces bytes i).bytes.length = bytes.length ∧
      i ≤ (perform null pieces bytes i).i ∧ (perform null pieces bytes i).i ≤ bytes.length := by
  induction pieces generalizing bytes i with
  | nil => exact ⟨rfl, Nat.le_refl _, hi⟩
  | cons p pieces ih =>
      cases p with
      | skip n rest =>
          rw [perform]
          split
          · rename_i hfits
            have h := ih hfits.2
            exact ⟨h.1, by omega, h.2.2⟩
          · exact ⟨rfl, Nat.le_refl _, hi⟩
      | write bs rest =>
          rw [perform]
          split
          · rename_i hfits
            have hlen := length_memcpyTo hfits.2
            have h := ih (show i + bs.length ≤ (memcpyTo bytes i bs).length by omega)
            exact ⟨h.1.trans hlen, by omega, by omega⟩
          · exact ⟨rfl, Nat.le_refl _, hi⟩
      | raise e => exact ⟨rfl, Nat.le_refl _, hi⟩

theorem extent_cons (p : Piece) (pieces : List Piece) :
    extent (p :: pieces) = p.size + extent pieces := by simp [extent]

/-- Nothing in front of the position is written. -/
theorem perform_before {null : Bool} {pieces : List Piece} {bytes : Bytes} {i k : Nat}
    (hk : k < i) : (perform null pieces bytes i).bytes[k]? = bytes[k]? := by
  induction pieces generalizing bytes i with
  | nil => rfl
  | cons p pieces ih =>
      cases p with
      | skip n rest =>
          rw [perform]
          split
          · exact ih (by omega)
          · rfl
      | write bs rest =>
          rw [perform]
          split
          · rename_i hfits
            rw [ih (by omega), getElem?_memcpyTo_before (by omega) hk]
          · rfl
      | raise e => rfl

/-- Nothing behind the last position is written. -/
theorem perform_after {null : Bool} {pieces : List Piece} {bytes : Bytes} {i k : Nat}
    (hi : i ≤ bytes.length) (hk : (perform null pieces bytes i).i ≤ k) :
    (perform null pieces bytes i).bytes[k]? = bytes[k]? := by
  induction pieces generalizing bytes i with
  | nil => rfl
  | cons p pieces ih =>
      cases p with
      | skip n rest =>
          rw [perform] at hk ⊢
          split at hk
          · rename_i hfits
            rw [if_pos hfits]
            exact ih hfits.2 hk
          · rw [if_neg ‹_›]
      | write bs rest =>
          rw [perform] at hk ⊢
          split at hk
          · rename_i hfits
            have hlen := length_memcpyTo hfits.2
            have hnext : i + bs.length ≤ (memcpyTo bytes i bs).length := by omega
            have hinside := perform_inside null pieces hnext
            rw [if_pos hfits, ih hnext hk, getElem?_memcpyTo_after hi (by omega)]
          · rw [if_neg ‹_›]
      | raise e => rfl

/-- Where all is written, the pieces lie one behind the other. -/
theorem perform_extent {null : Bool} {pieces : List Piece} {bytes : Bytes} {i : Nat}
    (h : (perform null pieces bytes i).stop = none) :
    (perform null pieces bytes i).i = i + extent pieces := by
  induction pieces generalizing bytes i with
  | nil => rfl
  | cons p pieces ih =>
      rw [extent_cons]
      cases p with
      | skip n rest =>
          rw [perform] at h ⊢
          split at h
          · rw [if_pos ‹_›, ih h, Piece.size]
            omega
          · cases h
      | write bs rest =>
          rw [perform] at h ⊢
          split at h
          · rw [if_pos ‹_›, ih h, Piece.size]
            omega
          · cases h
      | raise e => cases h

/-- Go on with further pieces, if there is nothing against it. -/
def Written.andThen (w : Written) (next : Bytes → Nat → Written) : Written :=
  match w.stop with
  | none => next w.bytes w.i
  | some _ => w

theorem Written.andThen_of_some {w : Written} {e : PackStop} (h : w.stop = some e)
    (next : Bytes → Nat → Written) : w.andThen next = w := by
  rw [andThen, h]

theorem Written.andThen_of_none {w : Written} (h : w.stop = none)
    (next : Bytes → Nat → Written) : w.andThen next = next w.bytes w.i := by
  rw [andThen, h]

theorem perform_write_of_le {bs : Bytes} {rest : List LuaValue} {pieces : List Piece}
    {bytes : Bytes} {i : Nat} (h : i + bs.length ≤ bytes.length) :
    perform false (.write bs rest :: pieces) bytes i =
      perform false pieces (memcpyTo bytes i bs) (i + bs.length) := if_pos ⟨rfl, h⟩

theorem perform_write_of_lt {bs : Bytes} {rest : List LuaValue} {pieces : List Piece}
    {bytes : Bytes} {i : Nat} (h : bytes.length < i + bs.length) :
    perform false (.write bs rest :: pieces) bytes i = ⟨some (.failed i rest), bytes, i⟩ :=
  if_neg fun hfits => Nat.not_le.mpr h hfits.2

theorem perform_skip_of_le {n : Nat} {rest : List LuaValue} {pieces : List Piece}
    {bytes : Bytes} {i : Nat} (h : i + n ≤ bytes.length) :
    perform false (.skip n rest :: pieces) bytes i = perform false pieces bytes (i + n) :=
  if_pos ⟨rfl, h⟩

theorem perform_skip_of_lt {n : Nat} {rest : List LuaValue} {pieces : List Piece}
    {bytes : Bytes} {i : Nat} (h : bytes.length < i + n) (null : Bool) :
    perform null (.skip n rest :: pieces) bytes i = ⟨some (.failed i rest), bytes, i⟩ :=
  if_neg fun hfits => Nat.not_le.mpr h hfits.2

theorem perform_append (null : Bool) (pieces more : List Piece) (bytes : Bytes) (i : Nat) :
    perform null (pieces ++ more) bytes i =
      (perform null pieces bytes i).andThen (perform null more) := by
  induction pieces generalizing bytes i with
  | nil => rfl
  | cons p pieces ih =>
      cases p with
      | skip n rest =>
          simp only [List.cons_append, perform]
          split
          · exact ih _ _
          · rfl
      | write bs rest =>
          simp only [List.cons_append, perform]
          split
          · exact ih _ _
          · rfl
      | raise e => rfl

/-! ## Layouts -/

/-- The bytes of an integer, least significant first, if `neg` says whether its sign is to be
repeated. -/
def intBytes (size : Nat) (n : UInt64) (neg : Bool) : Bytes :=
  if neg ∧ SZINT < size then leBytes SZINT n.toNat ++ List.replicate (size - SZINT) 255
  else leBytes size n.toNat

section

variable (M : Machine) (L : LuaNumerals)

/-- The pieces of an argument, or the error that it is. -/
def piecesOf {α : Type} (r : Except LuaError α) (pieces : α → List Piece) : List Piece :=
  match r with
  | .error e => [.raise e]
  | .ok a => pieces a

/-- Pieces that are there under a condition on the argument. -/
def guarded (cond : Bool) (arg : Nat) (message : Bytes) (pieces : List Piece) : List Piece :=
  if cond then pieces else [.raise (.argument arg message)]

/-- The pieces of an option, without the padding in front of it. -/
def item (islittle : Bool) (opt : KOption) (size arg : Nat) (rest : List LuaValue) : List Piece :=
  match opt with
  | .int => piecesOf (checkinteger L arg rest.head?) fun n =>
      guarded (SZINT ≤ size || Fits size n.toInt) arg (text "integer overflow")
        [.write (ordered islittle (intBytes size n.toUInt64 (n < 0))) rest]
  | .uint => piecesOf (checkinteger L arg rest.head?) fun n =>
      guarded (SZINT ≤ size || n.toUInt64.toNat < 256 ^ size) arg (text "unsigned overflow")
        [.write (ordered islittle (intBytes size n.toUInt64 false)) rest]
  | .float =>
      match checknumber L arg rest.head? with
      | .error e => [.skip size rest, .raise e]
      | .ok x => [.write (ordered islittle (leBytes size (floatBits M size x))) rest]
  | .char => piecesOf (checkarray L arg rest.head?) fun s =>
      guarded (s.bytes.length == size) arg (text "wrong length")
        [.write s.bytes (rest.modifyHead (tostring L))]
  | .string => piecesOf (checkarray L arg rest.head?) fun s =>
      guarded (SZINT ≤ size || s.bytes.length < 256 ^ size) arg
        (text "string length does not fit in given size")
        [.write (ordered islittle (leBytes size s.bytes.length)) (rest.modifyHead (tostring L)),
          .write s.bytes (rest.modifyHead (tostring L))]
  | .zstr => piecesOf (checkarray L arg rest.head?) fun s =>
      guarded (!s.bytes.contains 0) arg (text "string contains zeros")
        [.write s.bytes (rest.modifyHead (tostring L)), .write [0] (rest.modifyHead (tostring L))]
  | .padding => [.skip 1 rest]
  | .paddalign | .nop => []

/-- Whether an option takes an argument. -/
def KOption.consumes : KOption → Bool
  | .padding | .paddalign | .nop => false
  | _ => true

/-- The arguments behind an option. -/
def behind (opt : KOption) (rest : List LuaValue) : List LuaValue :=
  if opt.consumes then rest.tail else rest

/-- The number of the argument that was the last. -/
def lastArg (opt : KOption) (arg : Nat) : Nat := if opt.consumes then arg + 1 else arg

/-- The pieces that an option comes to at a position. -/
def directivePieces (d : Directive) (arg : Nat) (rest : List LuaValue) (i : Nat) : List Piece :=
  .skip (gap d.align i) rest :: item M L d.islittle d.opt d.size (arg + 1) rest

/-- The pieces of a format at a position. -/
def layout (ending : Ending) : List Directive → Nat → List LuaValue → Nat → List Piece
  | [], _, _, _ =>
      match ending with
      | .error e => [.raise e]
      | _ => []
  | d :: ds, arg, rest, i =>
      let pieces := directivePieces M L d arg rest i
      pieces ++ layout ending ds (lastArg d.opt arg) (behind d.opt rest) (i + extent pieces)

end

/-! ## The steps of the loop -/

/-- The state at a position. -/
def Packing.here (null : Bool) (bytes : Bytes) (i : Nat) : Packing :=
  ⟨bytes, if null then none else some i, i⟩

/-- The end of a program that returns `a` when everything is written. -/
def Written.ending {α : Type} (w : Written) (null : Bool) (a : α) : Outcome PackStop α × Packing :=
  (match w.stop with
    | none => .returned a
    | some e => .thrown e,
    .here null w.bytes w.i)

/-- A program that writes `bs` if there is room, and returns whether there is. -/
def Writes (lb : Nat) (f : Pack Bool) (bs : Bytes) : Prop :=
  ∀ bytes i, bytes.length = lb → i ≤ lb → f (.here false bytes i) =
    if i + bs.length ≤ lb then (.returned true, .here false (memcpyTo bytes i bs) (i + bs.length))
    else (.returned false, .here false bytes i)

section

variable {lb : Nat} (hlb : lb < 2 ^ 63)

include hlb

theorem getbytes_of_le {bytes : Bytes} {i sz : Nat} (hlen : bytes.length = lb) (h : i + sz ≤ lb) :
    getbytes lb sz (.here false bytes i) = (.returned (some i), .here false bytes (i + sz)) := by
  have hmod : (i + sz) % 2 ^ 64 = i + sz := Nat.mod_eq_of_lt (by omega)
  simp only [getbytes, Packing.here, hmod, if_pos h]
  rfl

theorem getbytes_of_lt {bytes : Bytes} {i sz : Nat} (hi : i ≤ lb) (hsz : sz < 2 ^ 63)
    (h : lb < i + sz) (null : Bool) :
    getbytes lb sz (.here null bytes i) = (.returned none, .here null bytes i) := by
  have hmod : (i + sz) % 2 ^ 64 = i + sz := Nat.mod_eq_of_lt (by omega)
  simp only [getbytes, Packing.here, hmod, if_neg (show ¬ i + sz ≤ lb by omega)]

omit hlb in
/-- Behind a null pointer there is no room for anything. -/
theorem getbytes_null (sz : Nat) (bytes : Bytes) :
    getbytes 0 sz (.here true bytes 0) = (.returned none, .here true bytes 0) := by
  by_cases h : (0 + sz) % 2 ^ 64 ≤ 0
  · simp only [getbytes, Packing.here, Nat.le_zero.mp h]
    rfl
  · simp only [getbytes, Packing.here, if_neg h]

theorem packstream_writes {s : Bytes} (hs : s.length < 2 ^ 63) :
    Writes lb (packstream lb s) s := by
  intro bytes i hlen hi
  unfold packstream
  split
  · split
    · rename_i hroom
      rw [Prog.bind_of_gives (getbytes_of_le hlb hlen hroom)]
      have hput : memcpy i s (.here false bytes (i + s.length)) =
          (.returned (), .here false (memcpyTo bytes i s) (i + s.length)) := by
        simp only [memcpy, Packing.here, copyIn_of_le (hlen ▸ hroom)]
      exact Prog.bind_of_gives hput _
    · rename_i hroom
      rw [Prog.bind_of_gives (getbytes_of_lt hlb hi hs (by omega) false)]
      rfl
  · rename_i hempty
    have hnil : s = [] := List.length_eq_zero_iff.mp (by omega)
    rw [hnil, if_pos (by simpa using hi), memcpyTo_nil]
    rfl

theorem packchar_writes (c : UInt8) : Writes lb (packchar lb c) [c] := by
  intro bytes i hlen hi
  have hposition : position (.here false bytes i) = (.returned i, .here false bytes i) := rfl
  unfold packchar
  rw [Prog.bind_of_gives hposition]
  by_cases h : i < lb
  · have hmod : (i + 1) % 2 ^ 64 = i + 1 := Nat.mod_eq_of_lt (by omega)
    have hput : putNext c ⟨bytes, some i, i + 1⟩ =
        (.returned (), .here false (memcpyTo bytes i [c]) (i + 1)) := by
      have hset : bytes.set i c = memcpyTo bytes i [c] := by
        rw [memcpyTo, List.set_eq_take_append_cons_drop, if_pos (by omega)]
        simp
      simp only [putNext, put, poke, if_pos (show i < bytes.length by omega), hset]
      rfl
    rw [if_pos h, if_pos (show i + [c].length ≤ lb from h)]
    simp only [Bind.bind, Packing.here, hmod] at hput ⊢
    exact Prog.bind_of_gives hput _
  · rw [if_neg h, if_neg (show ¬ i + [c].length ≤ lb by simpa using h)]
    rfl

end

/-! ## Single bytes -/

/-- A byte that is written in a part whose bytes are kept in either order. -/
theorem put_slot (islittle : Bool) {bytes win : Bytes} {p k : Nat} {b : UInt8}
    (h : p + win.length ≤ bytes.length) (hk : k < win.length) (mem : Option Nat) (i : Nat) :
    put (p + slot islittle win.length k) b ⟨memcpyTo bytes p (ordered islittle win), mem, i⟩ =
      (.returned (), ⟨memcpyTo bytes p (ordered islittle (win.set k b)), mem, i⟩) := by
  simp only [put, poke_slot islittle h hk]

theorem shiftLoop_eq (islittle : Bool) {bytes : Bytes} {p size : Nat} (mem : Option Nat) (i : Nat)
    (h : p + size ≤ bytes.length) (pre old : Bytes) (hsize : pre.length + old.length = size)
    (n : UInt64) :
    shiftLoop islittle size p (List.range' pre.length old.length) n
        ⟨memcpyTo bytes p (ordered islittle (pre ++ old)), mem, i⟩ =
      (.returned (),
        ⟨memcpyTo bytes p (ordered islittle (pre ++ leBytes old.length (n.toNat / 256))), mem, i⟩) := by
  induction old generalizing pre n with
  | nil => rfl
  | cons o old ih =>
      have hlen : (pre ++ o :: old).length = size := by simpa using hsize
      have hput := put_slot islittle (b := (n >>> 8).toUInt8) (hlen ▸ h : p + (pre ++ o :: old).length
        ≤ bytes.length) (show pre.length < (pre ++ o :: old).length by simp) mem i
      rw [hlen, List.set_append_right _ _ (Nat.le_refl _), Nat.sub_self, List.set_cons_zero] at hput
      have hbyte : (n >>> 8).toUInt8 = UInt8.ofNat (n.toNat / 256) := by
        rw [← UInt8.toNat_inj]
        simp [Nat.shiftRight_eq_div_pow]
      have hrest := ih (pre ++ [(n >>> 8).toUInt8]) (by simp at hsize ⊢; omega) (n >>> 8)
      have hshift : (n >>> 8).toNat = n.toNat / 256 := by simp [Nat.shiftRight_eq_div_pow]
      rw [List.length_append, List.length_singleton, List.append_assoc, List.singleton_append,
        List.append_assoc, List.singleton_append, hshift] at hrest
      rw [List.length_cons, List.range'_succ, shiftLoop, Prog.bind_of_gives hput, hrest, leBytes,
        hbyte]

theorem extendLoop_eq (islittle : Bool) {bytes : Bytes} {p size : Nat} (mem : Option Nat) (i : Nat)
    (h : p + size ≤ bytes.length) (pre old : Bytes) (hsize : pre.length + old.length = size) :
    extendLoop islittle size p (List.range' pre.length old.length)
        ⟨memcpyTo bytes p (ordered islittle (pre ++ old)), mem, i⟩ =
      (.returned (),
        ⟨memcpyTo bytes p (ordered islittle (pre ++ List.replicate old.length 255)), mem, i⟩) := by
  induction old generalizing pre with
  | nil => rfl
  | cons o old ih =>
      have hlen : (pre ++ o :: old).length = size := by simpa using hsize
      have hput := put_slot islittle (b := 255) (hlen ▸ h : p + (pre ++ o :: old).length
        ≤ bytes.length) (show pre.length < (pre ++ o :: old).length by simp) mem i
      rw [hlen, List.set_append_right _ _ (Nat.le_refl _), Nat.sub_self, List.set_cons_zero] at hput
      have hrest := ih (pre ++ [255]) (by simp at hsize ⊢; omega)
      rw [List.length_append, List.length_singleton, List.append_assoc, List.singleton_append,
        List.append_assoc, List.singleton_append] at hrest
      rw [List.length_cons, List.range'_succ, extendLoop, Prog.bind_of_gives hput, hrest,
        List.replicate_succ]

section

variable {lb : Nat} (hlb : lb < 2 ^ 63)

include hlb

theorem packint_writes {size : Nat} (hpos : 1 ≤ size) (hsize : size ≤ MAXINTSIZE) (n : UInt64)
    (islittle neg : Bool) :
    Writes lb (packint lb n islittle size neg) (ordered islittle (intBytes size n neg)) := by
  intro bytes i hlen hi
  have hbytes : (ordered islittle (intBytes size n neg)).length = size := by
    rw [length_ordered, intBytes]
    split
    · simp only [List.length_append, leBytes_length, List.length_replicate, SZINT] at *
      omega
    · exact leBytes_length _ _
  rw [hbytes]
  unfold packint
  by_cases hroom : i + size ≤ lb
  · have hin : i + size ≤ bytes.length := hlen ▸ hroom
    rw [Prog.bind_of_gives (getbytes_of_le hlb hlen hroom), if_pos hroom]
    -- the part that is written, with the least significant byte first
    obtain ⟨o, old, hold⟩ : ∃ o old, ordered islittle (part bytes i size) = o :: old := by
      apply List.exists_cons_of_length_pos
      rw [length_ordered, length_part hin]
      exact hpos
    have hcount : old.length = size - 1 := by
      have hlength := congrArg List.length hold
      rw [length_ordered, length_part hin, List.length_cons] at hlength
      omega
    have hstart : (Packing.here false bytes (i + size) : Packing) =
        ⟨memcpyTo bytes i (ordered islittle (o :: old)), some (i + size), i + size⟩ := by
      rw [← hold, ordered_ordered, memcpyTo_part hin]
      rfl
    have hfirst := put_slot islittle (b := n.toUInt8) (show i + (o :: old).length ≤ bytes.length by
      rw [List.length_cons]; omega) (Nat.succ_pos _) (some (i + size)) (i + size)
    have hshift := shiftLoop_eq islittle (some (i + size)) (i + size) hin [n.toUInt8] old
      (by rw [List.length_singleton]; omega) n
    have hlow : [n.toUInt8] ++ leBytes old.length (n.toNat / 256) = leBytes size n.toNat := by
      obtain ⟨k, rfl⟩ : ∃ k, size = k + 1 := ⟨size - 1, by omega⟩
      rw [leBytes, hcount]
      rfl
    have hcons : (o :: old).length = size := by rw [List.length_cons]; omega
    rw [hlow, List.length_singleton, hcount, List.singleton_append] at hshift
    rw [hcons, List.set_cons_zero] at hfirst
    simp only [hstart]
    rw [Prog.bind_of_gives hfirst, Prog.bind_of_gives hshift]
    by_cases hneg : neg = true ∧ SZINT < size
    · have hlong : size = SZINT + (size - SZINT) := by omega
      have hsplit := leBytes_append SZINT (size - SZINT) n.toNat
      rw [← hlong] at hsplit
      have hextend := extendLoop_eq islittle (some (i + size)) (i + size) hin (leBytes SZINT n.toNat)
        (leBytes (size - SZINT) (n.toNat / 256 ^ SZINT))
        (by rw [leBytes_length, leBytes_length]; omega)
      rw [leBytes_length, leBytes_length, ← hsplit] at hextend
      rw [if_pos hneg, Prog.bind_of_gives hextend, intBytes, if_pos hneg]
      rfl
    · rw [if_neg hneg, intBytes, if_neg hneg]
      rfl
  · rw [Prog.bind_of_gives (getbytes_of_lt hlb hi (by simp only [MAXINTSIZE] at hsize; omega)
      (by omega) false), if_neg hroom]
    rfl

end

theorem copyUp_eq {bytes : Bytes} {p size : Nat} (mem : Option Nat) (i : Nat)
    (h : p + size ≤ bytes.length) (pre old src : Bytes) (hsize : pre.length + old.length = size)
    (hsrc : src.length = old.length) :
    copyUp (p + pre.length) src ⟨memcpyTo bytes p (pre ++ old), mem, i⟩ =
      (.returned (), ⟨memcpyTo bytes p (pre ++ src), mem, i⟩) := by
  induction src generalizing pre old with
  | nil =>
      rw [List.length_eq_zero_iff.mp hsrc.symm]
      rfl
  | cons b src ih =>
      obtain ⟨o, old, rfl⟩ := List.exists_cons_of_length_pos (show 0 < old.length by simp [← hsrc])
      have hlen : (pre ++ o :: old).length = size := by simpa using hsize
      have hput := put_slot true (b := b) (hlen ▸ h : p + (pre ++ o :: old).length ≤ bytes.length)
        (show pre.length < (pre ++ o :: old).length by simp) mem i
      rw [hlen, List.set_append_right _ _ (Nat.le_refl _), Nat.sub_self, List.set_cons_zero] at hput
      have hrest := ih (pre ++ [b]) old (by simp at hsize ⊢; omega) (by simpa using hsrc)
      rw [List.length_append, List.length_singleton, List.append_assoc, List.singleton_append,
        List.append_assoc, List.singleton_append, ← Nat.add_assoc] at hrest
      rw [copyUp]
      exact (Prog.bind_of_gives hput _).trans hrest

theorem copyDown_eq {bytes : Bytes} {p size : Nat} (mem : Option Nat) (i : Nat)
    (h : p + size ≤ bytes.length) (pre old src : Bytes) (hsize : pre.length + old.length = size)
    (hsrc : src.length = old.length) :
    copyDown (p + slot false size pre.length) src
        ⟨memcpyTo bytes p (ordered false (pre ++ old)), mem, i⟩ =
      (.returned (), ⟨memcpyTo bytes p (ordered false (pre ++ src)), mem, i⟩) := by
  induction src generalizing pre old with
  | nil =>
      rw [List.length_eq_zero_iff.mp hsrc.symm]
      rfl
  | cons b src ih =>
      obtain ⟨o, old, rfl⟩ := List.exists_cons_of_length_pos (show 0 < old.length by simp [← hsrc])
      have hlen : (pre ++ o :: old).length = size := by simpa using hsize
      have hput := put_slot false (b := b) (hlen ▸ h : p + (pre ++ o :: old).length ≤ bytes.length)
        (show pre.length < (pre ++ o :: old).length by simp) mem i
      rw [hlen, List.set_append_right _ _ (Nat.le_refl _), Nat.sub_self, List.set_cons_zero] at hput
      have hrest := ih (pre ++ [b]) old (by simp at hsize ⊢; omega) (by simpa using hsrc)
      rw [List.length_append, List.length_singleton, List.append_assoc, List.singleton_append,
        List.append_assoc, List.singleton_append] at hrest
      rw [copyDown, Prog.bind_of_gives hput]
      cases src with
      | nil =>
          rw [List.length_eq_zero_iff.mp (show old.length = 0 by simpa using hsrc.symm)]
          rfl
      | cons b' src =>
          -- the pointer moves down by one
          have hnext : p + slot false size pre.length - 1 = p + slot false size (pre.length + 1) := by
            simp only [List.length_cons, slot, Bool.false_eq_true, if_false] at hsize hsrc ⊢
            omega
          rw [hnext, hrest]

/-- The bytes end up in the order of the format, whatever the order of the machine. -/
theorem copywithendian_eq (M : Machine) {bytes src : Bytes} {p : Nat} (mem : Option Nat) (i : Nat)
    (h : p + src.length ≤ bytes.length) (islittle : Bool) :
    copywithendian M p (ordered M.little src) islittle ⟨bytes, mem, i⟩ =
      (.returned (), ⟨memcpyTo bytes p (ordered islittle src), mem, i⟩) := by
  have hold := length_part h
  unfold copywithendian
  split
  · rename_i hsame
    have hcopy := copyUp_eq mem i h [] (part bytes p src.length) (ordered M.little src)
      (by simpa using hold) (by simpa using hold.symm)
    rw [List.nil_append, memcpyTo_part h] at hcopy
    rw [hsame]
    exact hcopy
  · rename_i hother
    have hcopy := copyDown_eq mem i h [] (ordered false (part bytes p src.length))
      (ordered M.little src) (by simpa using hold) (by simpa using hold.symm)
    rw [List.nil_append, ordered_ordered, memcpyTo_part h] at hcopy
    have horder : ordered false (ordered M.little src) = ordered islittle src := by
      cases hlittle : M.little <;> cases islittle <;> simp_all [ordered]
    rw [← horder, length_ordered]
    exact hcopy

/-! ## Options -/

section

variable {α : Type} {lb : Nat} {null : Bool} {bytes : Bytes} {i : Nat} {a : α}

theorem check_bind {β : Type} {r : Except LuaError β} {pieces : β → List Piece} {g : β → Pack α}
    (h : ∀ b, g b (.here null bytes i) = (perform null (pieces b) bytes i).ending null a) :
    (check r >>= g) (.here null bytes i) =
      (perform null (piecesOf r pieces) bytes i).ending null a := by
  cases r with
  | error e => rfl
  | ok b => exact h b

theorem argcheck_bind {cond : Bool} {arg : Nat} {message : Bytes} {pieces : List Piece}
    {k : Pack α} (h : k (.here null bytes i) = (perform null pieces bytes i).ending null a) :
    (argcheck cond arg message >>= fun _ => k) (.here null bytes i) =
      (perform null (guarded cond arg message pieces) bytes i).ending null a := by
  cases cond with
  | false => rfl
  | true => exact h

/-- A check that is made under a condition. -/
theorem argcheck_bind_if {p : Prop} [Decidable p] {cond : Bool} {arg : Nat} {message : Bytes}
    {pieces : List Piece} {k : Pack α}
    (h : k (.here null bytes i) = (perform null pieces bytes i).ending null a) :
    (if p then argcheck cond arg message >>= fun _ => k else k) (.here null bytes i) =
      (perform null (guarded (if p then cond else true) arg message pieces) bytes i).ending null a := by
  split
  · exact argcheck_bind h
  · exact h

/-- A write that the rest of the option depends on. -/
theorem write_bind {f : Pack Bool} {bs : Bytes} (hw : Writes lb f bs) (hlen : bytes.length = lb)
    (hi : i ≤ lb) {pieces : List Piece} {k : Pack α} {rest : List LuaValue}
    (h : i + bs.length ≤ lb → k (.here false (memcpyTo bytes i bs) (i + bs.length)) =
      (perform false pieces (memcpyTo bytes i bs) (i + bs.length)).ending false a) :
    (f >>= fun ok => if ok then k else packfailed rest) (.here false bytes i) =
      (perform false (.write bs rest :: pieces) bytes i).ending false a := by
  have hf := hw bytes i hlen hi
  by_cases hroom : i + bs.length ≤ lb
  · rw [if_pos hroom] at hf
    rw [Prog.bind_of_gives hf, perform_write_of_le (hlen ▸ hroom)]
    exact h hroom
  · rw [if_neg hroom] at hf
    rw [Prog.bind_of_gives hf, perform_write_of_lt (by omega)]
    rfl

theorem lastWrite {f : Pack Bool} {bs : Bytes} (hw : Writes lb f bs) (hlen : bytes.length = lb)
    (hi : i ≤ lb) (rest : List LuaValue) (a : α) :
    (f >>= fun ok => if ok then pure a else packfailed rest) (.here false bytes i) =
      (perform false [.write bs rest] bytes i).ending false a :=
  write_bind hw hlen hi fun _ => rfl

end

theorem pow_bytes (size : Nat) : 256 ^ size = 2 ^ (size * 8) := by
  rw [Nat.mul_comm, pow_mul]
  norm_num

/-- Half of the range of `size` bytes, as the code writes it. -/
theorem half_pow {size : Nat} (h : 1 ≤ size) : 256 ^ size / 2 = 2 ^ (size * 8 - 1) := by
  have hpow : 2 ^ (size * 8) = 2 * 2 ^ (size * 8 - 1) := by
    rw [← pow_succ', show size * 8 - 1 + 1 = size * 8 by omega]
  rw [pow_bytes]
  omega

/-- The overflow check of a signed integer. -/
theorem fits_check {size : Nat} (h : 1 ≤ size) (z : Int) :
    (SZINT ≤ size || decide (Fits size z)) =
      if size < SZINT then -(2 ^ (size * 8 - 1) : Int) ≤ z && z < 2 ^ (size * 8 - 1) else true := by
  have hhalf : ((256 ^ size / 2 : Nat) : Int) = 2 ^ (size * 8 - 1) := by
    rw [half_pow h]
    norm_num
  split
  · rw [decide_eq_false (by omega), Bool.false_or, Bool.eq_iff_iff]
    simp [Fits, hhalf]
  · rw [decide_eq_true (by omega), Bool.true_or]

/-- The overflow checks of numbers without a sign. -/
theorem size_check (size n : Nat) :
    (SZINT ≤ size || decide (n < 256 ^ size)) =
      if size < SZINT then decide (n < 2 ^ (size * 8)) else true := by
  rw [pow_bytes]
  split
  · rw [decide_eq_false (by omega), Bool.false_or]
  · rw [decide_eq_true (by omega), Bool.true_or]

section

variable (M : Machine) (L : LuaNumerals) {lb : Nat} (hlb : lb < 2 ^ 63)

include hlb

/-- The argument of a float is checked when there is room for it already. -/
theorem packOption_float {bytes : Bytes} {i : Nat} (hlen : bytes.length = lb) (hi : i ≤ lb)
    {size : Nat} (hsize : KOption.float.Size size) (islittle : Bool) (arg : Nat)
    (rest : List LuaValue) :
    packOption M L lb islittle .float size (arg + 1) rest (.here false bytes i) =
      (perform false (item M L islittle .float size (arg + 1) rest) bytes i).ending false
        (lastArg .float arg, behind .float rest) := by
  have hsmall := hsize.le
  simp only [INT_MAX] at hsmall
  have hbits : ∀ x, (leBytes size (floatBits M size x)).length = size :=
    fun x => leBytes_length size _
  simp only [packOption, item]
  by_cases hroom : i + size ≤ lb
  · rw [Prog.bind_of_gives (getbytes_of_le hlb hlen hroom)]
    -- the room is taken before the argument is looked at
    cases hnum : checknumber L (arg + 1) rest.head? with
    | error e =>
        simp only [perform_skip_of_le (show i + size ≤ bytes.length by omega)]
        rfl
    | ok x =>
        have hcopy := copywithendian_eq M (some (i + size)) (i + size)
          (show i + (leBytes size (floatBits M size x)).length ≤ bytes.length by
            rw [hbits]; omega) islittle
        have hfit : i + (ordered islittle (leBytes size (floatBits M size x))).length ≤
            bytes.length := by
          rw [length_ordered, hbits]
          omega
        rw [perform_write_of_le hfit, length_ordered, hbits]
        exact Prog.bind_of_gives hcopy _
  · rw [Prog.bind_of_gives (getbytes_of_lt hlb hi (by omega) (by omega) false)]
    cases hnum : checknumber L (arg + 1) rest.head? with
    | error e =>
        simp only [perform_skip_of_lt (show bytes.length < i + size by omega)]
        rfl
    | ok x =>
        have hfit : bytes.length <
            i + (ordered islittle (leBytes size (floatBits M size x))).length := by
          rw [length_ordered, hbits]
          omega
        rw [perform_write_of_lt hfit]
        rfl

/-- A string is written behind its length. -/
theorem packOption_string {bytes : Bytes} {i : Nat} (hlen : bytes.length = lb) (hi : i ≤ lb)
    {size : Nat} (hsize : KOption.string.Size size) (islittle : Bool) (arg : Nat)
    (rest : List LuaValue) :
    packOption M L lb islittle .string size (arg + 1) rest (.here false bytes i) =
      (perform false (item M L islittle .string size (arg + 1) rest) bytes i).ending false
        (lastArg .string arg, behind .string rest) := by
  unfold packOption item
  refine check_bind fun s => ?_
  have hcheck : (SZINT ≤ size || decide (s.bytes.length < 256 ^ size)) =
      (decide (8 ≤ size) || decide (s.bytes.length < 2 ^ (size * 8))) := by
    rw [pow_bytes]
    rfl
  have hput := packint_writes hlb hsize.1 hsize.2 (UInt64.ofNat s.bytes.length) islittle false
  have hbytes : intBytes size (UInt64.ofNat s.bytes.length) false = leBytes size s.bytes.length := by
    have hshort := s.short
    rw [intBytes, if_neg (by simp), UInt64.toNat_ofNat_of_lt' (by show _ < 2 ^ 64; omega)]
  rw [hbytes] at hput
  rw [hcheck]
  refine argcheck_bind (write_bind hput hlen hi fun hroom => ?_)
  have hlen' : (memcpyTo bytes i (ordered islittle (leBytes size s.bytes.length))).length =
      bytes.length := length_memcpyTo (by omega)
  exact lastWrite (packstream_writes hlb s.short) (hlen'.trans hlen) hroom _ _

theorem packOption_padding {bytes : Bytes} {i : Nat} (hlen : bytes.length = lb) (hi : i ≤ lb)
    (size : Nat) (islittle : Bool) (arg : Nat) (rest : List LuaValue) :
    packOption M L lb islittle .padding size (arg + 1) rest (.here false bytes i) =
      (perform false (item M L islittle .padding size (arg + 1) rest) bytes i).ending false
        (lastArg .padding arg, behind .padding rest) := by
  simp only [packOption, item]
  by_cases hroom : i + 1 ≤ lb
  · rw [Prog.bind_of_gives (getbytes_of_le hlb hlen hroom),
      perform_skip_of_le (show i + 1 ≤ bytes.length by omega)]
    rfl
  · rw [Prog.bind_of_gives (getbytes_of_lt hlb hi (by omega) (by omega) false),
      perform_skip_of_lt (show bytes.length < i + 1 by omega)]
    rfl

/-- An option of `mem_pack` does what its pieces say. -/
theorem packOption_eq {bytes : Bytes} {i : Nat} (hlen : bytes.length = lb) (hi : i ≤ lb)
    {opt : KOption} {size : Nat} (hsize : opt.Size size) (islittle : Bool) (arg : Nat)
    (rest : List LuaValue) :
    packOption M L lb islittle opt size (arg + 1) rest (.here false bytes i) =
      (perform false (item M L islittle opt size (arg + 1) rest) bytes i).ending false
        (lastArg opt arg, behind opt rest) := by
  cases opt with
  | int =>
      unfold packOption item
      refine check_bind fun n => ?_
      rw [fits_check hsize.1]
      have hput := packint_writes hlb hsize.1 hsize.2 n.toUInt64 islittle (decide (n < 0))
      exact argcheck_bind_if (lastWrite hput hlen hi rest _)
  | uint =>
      unfold packOption item
      refine check_bind fun n => ?_
      rw [size_check]
      have hput := packint_writes hlb hsize.1 hsize.2 n.toUInt64 islittle false
      exact argcheck_bind_if (lastWrite hput hlen hi rest _)
  | float => exact packOption_float M L hlb hlen hi hsize islittle arg rest
  | char =>
      unfold packOption item
      refine check_bind fun s => argcheck_bind ?_
      exact lastWrite (packstream_writes hlb s.short) hlen hi _ _
  | string => exact packOption_string M L hlb hlen hi hsize islittle arg rest
  | zstr =>
      unfold packOption item
      refine check_bind fun s => argcheck_bind ?_
      refine write_bind (packstream_writes hlb s.short) hlen hi fun hroom => ?_
      have hlen' := length_memcpyTo (hlen ▸ hroom : i + s.bytes.length ≤ bytes.length)
      exact lastWrite (packchar_writes hlb 0) (hlen'.trans hlen) hroom _ _
  | padding => exact packOption_padding M L hlb hlen hi size islittle arg rest
  | paddalign => rfl
  | nop => rfl

end

/-! ## The loop -/

section

variable (M : Machine) (L : LuaNumerals)

/-- A turn of the loop of `mem_pack`. -/
theorem packLoop_cons (lb turns : Nat) (h : Header) (opt : UInt8) (fmt : Bytes) (arg : Nat)
    (rest : List LuaValue) (s : Packing) :
    packLoop M L lb (turns + 1) h (opt :: fmt) arg rest s =
      match directive M.little h opt fmt with
      | .error e => (.thrown (.error e), s)
      | .ok r =>
          (getbytes lb (gap r.1.align s.i) >>= fun res =>
            match res with
            | none => packfailed rest
            | some _ => packOption M L lb r.2.1.islittle r.1.opt r.1.size (arg + 1) rest >>=
                fun next => packLoop M L lb turns r.2.1 r.2.2 next.1 next.2) s := by
  rw [packLoop]
  have hposition : position s = (.returned s.i, s) := rfl
  rw [Prog.bind_of_gives hposition, getdetails_eq]
  cases directive M.little h opt fmt with
  | error e => rfl
  | ok r => rfl

/-- The loop of `mem_pack` does what the pieces of the format say. -/
theorem packLoop_eq {lb : Nat} (hlb : lb < 2 ^ 63) {turns : Nat} {h : Header} {fmt bytes : Bytes}
    {null : Bool} {i : Nat} (hlen : bytes.length = lb) (hnull : null = true → lb = 0) (hi : i ≤ lb)
    (hh : 1 ≤ h.maxalign ∧ h.maxalign ≤ MAXINTSIZE) (hturns : fmt.length ≤ turns) (arg : Nat)
    (rest : List LuaValue) :
    packLoop M L lb turns h fmt arg rest (.here null bytes i) =
      (perform null (layout M L (readFormat M.little turns h fmt).ending
        (readFormat M.little turns h fmt).directives arg rest i) bytes i).ending null () := by
  induction turns generalizing h fmt bytes i arg rest with
  | zero =>
      rw [List.length_eq_zero_iff.mp (Nat.le_zero.mp hturns)]
      rfl
  | succ turns ih =>
      cases fmt with
      | nil => rfl
      | cons opt fmt =>
          rw [packLoop_cons, readFormat]
          cases hd : directive M.little h opt fmt with
          | error e => rfl
          | ok r =>
              obtain ⟨hgood, horder, hmax, hshort⟩ := directive_good hh hd
              rw [List.length_cons] at hturns
              have hgap := (gap_spec hgood.align i).1
              have halign : r.1.align ≤ 16 := by
                have hmem := hgood.align
                simp only [List.mem_cons, List.not_mem_nil, or_false] at hmem
                omega
              show (getbytes lb (gap r.1.align i) >>= _) _ =
                (perform null (layout M L _ (r.1 :: _) arg rest i) bytes i).ending null ()
              rw [layout, perform_append]
              cases null with
              | true =>
                  -- a null pointer has no room even for no bytes
                  have hzero := hnull rfl
                  obtain rfl : i = 0 := by omega
                  rw [hzero, Prog.bind_of_gives (getbytes_null _ bytes)]
                  rfl
              | false =>
                  by_cases hroom : i + gap r.1.align i ≤ lb
                  · -- the padding fits: then comes the option, and behind it the rest of the format
                    have hfits : i + gap r.1.align i ≤ bytes.length := by omega
                    have hoption := packOption_eq M L hlb hlen hroom hgood.size r.2.1.islittle arg rest
                    have hinside := perform_inside false
                      (item M L r.2.1.islittle r.1.opt r.1.size (arg + 1) rest) hfits
                    rw [Prog.bind_of_gives (getbytes_of_le hlb hlen hroom), directivePieces,
                      horder, perform_skip_of_le hfits]
                    show (packOption M L lb r.2.1.islittle r.1.opt r.1.size (arg + 1) rest >>= _) _ = _
                    cases hstop : (perform false
                        (item M L r.2.1.islittle r.1.opt r.1.size (arg + 1) rest) bytes
                        (i + gap r.1.align i)).stop with
                    | some e =>
                        rw [Written.ending, hstop] at hoption
                        rw [Prog.bind_of_thrown hoption, Written.andThen_of_some hstop,
                          Written.ending, hstop]
                    | none =>
                        rw [Written.ending, hstop] at hoption
                        have hnext := ih (hinside.1.trans hlen) (hinside.2.2.trans_eq hlen) hmax
                          (show r.2.2.length ≤ turns by omega) (lastArg r.1.opt arg)
                          (behind r.1.opt rest)
                        refine (Prog.bind_of_gives hoption _).trans (hnext.trans ?_)
                        rw [Written.andThen_of_none hstop, perform_extent hstop, extent_cons,
                          Piece.size, Nat.add_assoc]
                  · rw [Prog.bind_of_gives (getbytes_of_lt hlb hi (by omega) (by omega) false),
                      directivePieces, perform_skip_of_lt (by omega)]
                    rfl

end

end LuaMem

end Poesie
