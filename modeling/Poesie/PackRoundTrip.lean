import Poesie.PackCalls

set_option autoImplicit false

/-! # Packing and unpacking again

What `mem_pack` has written, `mem_unpack` reads back with the same format from the same position: a
value for each argument, as its option takes it. The other way round, packing the values that were
unpacked leaves the memory as it is.
-/

namespace Poesie

open Wire Blocks Outcomes TwosComplement

namespace LuaMem

variable {M : Machine} {L : LuaNumerals}

/-! ## Integers -/

/-- The bytes that `packint` writes of a signed integer are those of its value. -/
theorem intBytes_signed (size : Nat) (n : Int64) :
    intBytes size n.toUInt64 (n < 0) = toBytes size n.toInt := by
  have hcast := toNat_toUInt64_eq n
  have hneg : n < 0 ↔ n.toInt < 0 := by
    rw [Int64.lt_iff_toInt_lt]
    rfl
  have hshort : ∀ {w : Nat}, w ≤ SZINT → leBytes w n.toUInt64.toNat = toBytes w n.toInt := by
    intro w hw
    rw [← toBytes_natCast, hcast]
    exact toBytes_emod hw n.toInt
  unfold intBytes
  by_cases hlong : SZINT < size
  · by_cases hn : n.toInt < 0
    · have hsplit := toBytes_add (fits_SZINT n) (size - SZINT)
      rw [signByte, if_pos hn, show SZINT + (size - SZINT) = size by omega] at hsplit
      rw [if_pos ⟨by simpa using hneg.mpr hn, hlong⟩, hshort (Nat.le_refl _), hsplit]
    · have hnat : (n.toUInt64.toNat : Int) = n.toInt := by
        have hlt := n.toInt_lt
        omega
      rw [if_neg (by simp [hneg, hn]), ← hnat, toBytes_natCast]
  · rw [if_neg fun h => hlong h.2, hshort (by omega)]

/-- A signed integer that passes the overflow check is the value of its bytes. -/
theorem ofBytes_intBytes {size : Nat} (hpos : 1 ≤ size) {n : Int64}
    (h : SZINT ≤ size ∨ Fits size n.toInt) :
    ofBytes (intBytes size n.toUInt64 (n < 0)) = n.toInt := by
  have hfits : Fits size n.toInt := by
    rcases h with h | h
    · have hmono := (fits_SZINT n).mono (size - SZINT)
      rwa [show SZINT + (size - SZINT) = size by omega] at hmono
    · exact h
  rw [intBytes_signed, ofBytes_toBytes hpos hfits]

/-- So is a number without a sign. -/
theorem ofLE_intBytes {size : Nat} {n : UInt64} (h : SZINT ≤ size ∨ n.toNat < 256 ^ size) :
    ofLE (intBytes size n false) = n.toNat := by
  have hlt : n.toNat < 256 ^ size := by
    rcases h with h | h
    · calc n.toNat < 256 ^ SZINT := n.toNat_lt
        _ ≤ 256 ^ size := Nat.pow_le_pow_right (by decide) h
    · exact h
  rw [intBytes, if_neg (by simp), ofLE_leBytes_of_lt hlt]

theorem length_intBytes (size : Nat) (n : UInt64) (neg : Bool) :
    (intBytes size n neg).length = size := by
  unfold intBytes
  split
  · rw [List.length_append, leBytes_length, List.length_replicate]
    omega
  · exact leBytes_length size _

/-! ## What an option takes of its argument -/

/-- A number as it is kept in a float of this size. -/
def rounded (M : Machine) (size : Nat) (x : Float64) : Float64 :=
  if size = 4 then M.widen (M.narrow x) else x

/-- The value that an option takes of its argument. -/
def taken (M : Machine) (L : LuaNumerals) (opt : KOption) (size arg : Nat) (rest : List LuaValue) :
    Option LuaValue :=
  match opt with
  | .int | .uint => (checkinteger L arg rest.head?).toOption.map fun n => .number (.integer n)
  | .float => (checknumber L arg rest.head?).toOption.map fun x => .number (.float (rounded M size x))
  | .char | .string | .zstr => (checkarray L arg rest.head?).toOption.map .string
  | .padding | .paddalign | .nop => none

/-- The values that the options of a format take of the arguments. -/
def takenAll (M : Machine) (L : LuaNumerals) :
    List Directive → Nat → List LuaValue → List LuaValue
  | [], _, _ => []
  | d :: ds, arg, rest =>
      (taken M L d.opt d.size (arg + 1) rest).toList ++
        takenAll M L ds (lastArg d.opt arg) (behind d.opt rest)

theorem floatOf_floatBits {size : Nat} (hsize : size = 4 ∨ size = 8) (x : Float64) :
    floatOf M size (leBytes size (floatBits M size x)) = rounded M size x := by
  rcases hsize with rfl | rfl
  · have hlt : (M.narrow x).toNat < 256 ^ 4 := (M.narrow x).toNat_lt
    simp only [floatOf, floatBits, rounded, if_true]
    rw [ofLE_leBytes_of_lt hlt, UInt32.ofNat_toNat]
  · have hlt : x.bits.toNat < 256 ^ 8 := x.bits.toNat_lt
    simp only [floatOf, floatBits, rounded, show ¬ 8 = 4 by decide, if_false]
    rw [ofLE_leBytes_of_lt hlt, UInt64.ofNat_toNat]

/-! ## Unpacking what was packed -/

section

variable {data : CArray} {old : Bytes} {islittle : Bool} {size pos arg : Nat}
  {rest : List LuaValue}

/-- A number that was written is found. -/
theorem itemBytes_of_laid {bs : Bytes} {r : List LuaValue} {more : List Piece}
    (hlen : bs.length = size)
    (h : Laid old data.bytes (.write (ordered islittle bs) r :: more) pos) :
    itemBytes data.bytes islittle pos size = bs := by
  have hpart := h.1
  rw [length_ordered, hlen] at hpart
  rw [itemBytes, hpart, ordered_ordered]

/-- An array that was written is found. -/
theorem slice_of_laid {s : CArray} {r : List LuaValue} {more : List Piece}
    (h : Laid old data.bytes (.write s.bytes r :: more) pos) :
    data.slice pos s.bytes.length = s := by
  have hpart : (data.slice pos s.bytes.length).bytes = s.bytes := h.1
  cases s
  cases hslice : data.slice pos _
  rw [hslice] at hpart
  congr

/-- A string with its terminator that was written is found. -/
theorem drop_of_laid {bs : Bytes} {r r' : List LuaValue}
    (h : Laid old data.bytes [.write bs r, .write [0] r'] pos) :
    data.bytes.drop pos = bs ++ 0 :: data.bytes.drop (pos + bs.length + 1) := by
  rw [drop_eq_part_append data.bytes pos bs.length,
    drop_eq_part_append data.bytes (pos + bs.length) [(0 : UInt8)].length, h.1, h.2.1]
  rfl

/-- A check that has been passed. -/
theorem laid_guarded {cond : Bool} {message : Bytes} {pieces : List Piece}
    (h : Laid old data.bytes (guarded cond arg message pieces) pos) :
    cond = true ∧ Laid old data.bytes pieces pos := by
  cases cond with
  | false => exact h.elim
  | true => exact ⟨rfl, h⟩

theorem laid_piecesOf {α : Type} {r : Except LuaError α} {pieces : α → List Piece}
    (h : Laid old data.bytes (piecesOf r pieces) pos) :
    ∃ a, r = .ok a ∧ Laid old data.bytes (pieces a) pos := by
  cases r with
  | error e => exact h.elim
  | ok a => exact ⟨a, rfl, h⟩

/-- The pieces of an option that checks its argument. -/
theorem laid_checked {α : Type} {r : Except LuaError α} {cond : α → Bool} {message : Bytes}
    {pieces : α → List Piece}
    (h : Laid old data.bytes (piecesOf r fun a => guarded (cond a) arg message (pieces a)) pos) :
    ∃ a, r = .ok a ∧ cond a = true ∧
      (piecesOf r fun a => guarded (cond a) arg message (pieces a)) = pieces a ∧
      Laid old data.bytes (pieces a) pos := by
  obtain ⟨a, rfl, hguarded⟩ := laid_piecesOf h
  obtain ⟨hcheck, hpieces⟩ := laid_guarded hguarded
  exact ⟨a, rfl, hcheck, if_pos hcheck, hpieces⟩

theorem extent_ordered (bs : Bytes) (r : List LuaValue) :
    extent [.write (ordered islittle bs) r] = bs.length := by simp [extent, Piece.size]

variable (M L data islittle size pos arg rest) in
/-- The option reads what is laid out for it, where there is room for that. -/
def ReadsLaid (opt : KOption) : Prop :=
  ∀ old, Laid old data.bytes (item M L islittle opt size arg rest) pos →
    pos + extent (item M L islittle opt size arg rest) ≤ data.bytes.length →
    size ≤ extent (item M L islittle opt size arg rest) ∧
      readItem M data islittle opt size pos =
        .ok (taken M L opt size arg rest, pos + extent (item M L islittle opt size arg rest))

theorem readsLaid_int (hsize : KOption.int.Size size) :
    ReadsLaid M L data islittle size pos arg rest .int := by
  intro old hlaid _
  obtain ⟨n, hn, hcheck, hitem, hwrite⟩ := laid_checked hlaid
  have hbytes := itemBytes_of_laid (length_intBytes size n.toUInt64 _) hwrite
  have hvalue := ofBytes_intBytes hsize.1 (by simpa using hcheck)
  rw [show item M L islittle .int size arg rest = _ from hitem, extent_ordered, length_intBytes]
  refine ⟨Nat.le_refl _, ?_⟩
  simp only [readItem, hbytes, hvalue, if_pos (fits_SZINT n), Int64.ofInt_toInt, taken, hn]
  rfl

theorem readsLaid_uint : ReadsLaid M L data islittle size pos arg rest .uint := by
  intro old hlaid _
  obtain ⟨n, hn, hcheck, hitem, hwrite⟩ := laid_checked hlaid
  have hbytes := itemBytes_of_laid (length_intBytes size n.toUInt64 _) hwrite
  have hvalue : ofLE (intBytes size n.toUInt64 false) = _ := ofLE_intBytes (by simpa using hcheck)
  have hlt : n.toUInt64.toNat < 256 ^ SZINT := n.toUInt64.toNat_lt
  rw [show item M L islittle .uint size arg rest = _ from hitem, extent_ordered, length_intBytes]
  refine ⟨Nat.le_refl _, ?_⟩
  simp only [readItem, hbytes, hvalue, if_pos hlt, integer64, UInt64.ofNat_toNat, taken, hn]
  rfl

theorem readsLaid_float (hsize : KOption.float.Size size) :
    ReadsLaid M L data islittle size pos arg rest .float := by
  intro old hlaid _
  unfold item at hlaid ⊢
  cases hnum : checknumber L arg rest.head? with
  | error e =>
      rw [hnum] at hlaid
      exact hlaid.2.elim
  | ok x =>
      rw [hnum] at hlaid
      have hbytes := itemBytes_of_laid (leBytes_length size _) hlaid
      simp only [extent_ordered, leBytes_length]
      refine ⟨Nat.le_refl _, ?_⟩
      simp only [readItem, hbytes, floatOf_floatBits hsize, taken, hnum]
      rfl

theorem readsLaid_char : ReadsLaid M L data islittle size pos arg rest .char := by
  intro old hlaid _
  obtain ⟨s, hs, hcheck, hitem, hwrite⟩ := laid_checked hlaid
  have hlen : s.bytes.length = size := by simpa using hcheck
  have hslice := slice_of_laid hwrite
  have hextent : extent (item M L islittle .char size arg rest) = size := by
    rw [show item M L islittle .char size arg rest = _ from hitem]
    simpa [extent, Piece.size] using hlen
  rw [hlen] at hslice
  rw [hextent]
  refine ⟨Nat.le_refl _, ?_⟩
  simp only [readItem, hslice, taken, hs]
  rfl

/-- A string comes behind its length, which is checked before it is read. -/
theorem readsLaid_string : ReadsLaid M L data islittle size pos arg rest .string := by
  intro old hlaid hroom
  obtain ⟨s, hs, hcheck, hitem, hwrite⟩ := laid_checked hlaid
  have hbytes := itemBytes_of_laid (leBytes_length size _) hwrite
  have hlt : s.bytes.length < 256 ^ SZINT := by
    have hshort := s.short
    simp only [SZINT]
    omega
  have hvalue : ofLE (leBytes size s.bytes.length) = s.bytes.length := by
    apply ofLE_leBytes_of_lt
    have hcheck' : SZINT ≤ size ∨ s.bytes.length < 256 ^ size := by simpa using hcheck
    rcases hcheck' with h | h
    · calc s.bytes.length < 256 ^ SZINT := hlt
        _ ≤ 256 ^ size := Nat.pow_le_pow_right (by decide) h
    · exact h
  have hslice := hwrite.2
  rw [length_ordered, leBytes_length] at hslice
  have hextent : extent (item M L islittle .string size arg rest) = size + s.bytes.length := by
    rw [show item M L islittle .string size arg rest = _ from hitem]
    simp [extent, Piece.size]
  rw [hextent] at hroom ⊢
  refine ⟨Nat.le_add_right _ _, ?_⟩
  rw [← Nat.add_assoc] at hroom ⊢
  simp only [readItem, hbytes, hvalue, if_pos hlt, if_pos hroom, slice_of_laid hslice, taken, hs]
  rfl

/-- The first zero is the terminator, as the string has none. -/
theorem readsLaid_zstr (hsize : KOption.zstr.Size size) :
    ReadsLaid M L data islittle size pos arg rest .zstr := by
  intro old hlaid _
  obtain ⟨s, hs, hcheck, hitem, hwrite⟩ := laid_checked hlaid
  have hextent : extent (item M L islittle .zstr size arg rest) = s.bytes.length + 1 := by
    rw [show item M L islittle .zstr size arg rest = _ from hitem]
    rfl
  have hnone : size = 0 := hsize
  have hzero : (0 : UInt8) ∉ s.bytes := by simpa using hcheck
  have hdrop := drop_of_laid hwrite
  have hidx : (data.bytes.drop pos).idxOf 0 = s.bytes.length := by
    rw [hdrop, List.idxOf_append_of_notMem hzero, List.idxOf_cons_self, Nat.add_zero]
  have hcontains : (data.bytes.drop pos).contains 0 = true := by
    rw [hdrop]
    simp
  rw [hextent]
  refine ⟨by omega, ?_⟩
  simp only [readItem, if_pos hcontains, hidx, slice_of_laid hwrite, taken, hs]
  rfl

/-- An option reads what was written for it. -/
theorem readItem_of_laid {opt : KOption} (hsize : opt.Size size)
    (hlaid : Laid old data.bytes (item M L islittle opt size arg rest) pos)
    (hroom : pos + extent (item M L islittle opt size arg rest) ≤ data.bytes.length) :
    size ≤ extent (item M L islittle opt size arg rest) ∧
      readItem M data islittle opt size pos =
        .ok (taken M L opt size arg rest, pos + extent (item M L islittle opt size arg rest)) := by
  cases opt with
  | int => exact readsLaid_int hsize old hlaid hroom
  | uint => exact readsLaid_uint old hlaid hroom
  | float => exact readsLaid_float hsize old hlaid hroom
  | char => exact readsLaid_char old hlaid hroom
  | string => exact readsLaid_string old hlaid hroom
  | zstr => exact readsLaid_zstr hsize old hlaid hroom
  | padding =>
      have hone : size = 1 := hsize
      have hextent : extent (item M L islittle .padding size arg rest) = 1 := rfl
      rw [hextent, hone]
      exact ⟨Nat.le_refl _, rfl⟩
  | paddalign | nop =>
      have hnone : size = 0 := hsize
      rw [hnone]
      exact ⟨Nat.zero_le _, rfl⟩

theorem laid_append {old new : Bytes} (pieces more : List Piece) (i : Nat) :
    Laid old new (pieces ++ more) i ↔
      Laid old new pieces i ∧ Laid old new more (i + extent pieces) := by
  induction pieces generalizing i with
  | nil => simp [Laid, extent]
  | cons p pieces ih =>
      rw [List.cons_append, extent_cons, ← Nat.add_assoc]
      cases p with
      | skip n rest | write bs rest => simp only [Laid, ih, Piece.size, and_assoc]
      | raise e => simp [Laid]

theorem extent_append (pieces more : List Piece) :
    extent (pieces ++ more) = extent pieces + extent more := by simp [extent]

/-- A format reads what was written for it. -/
theorem readItems_of_laid {ending : Ending} (hending : ending ≠ .unread) {ds : List Directive}
    (hgood : ∀ d ∈ ds, d.Good)
    (hlaid : Laid old data.bytes (layout M L ending ds arg rest pos) pos)
    (hroom : pos + extent (layout M L ending ds arg rest pos) ≤ data.bytes.length) :
    readItems M data ending ds pos =
      .ok (takenAll M L ds arg rest, pos + extent (layout M L ending ds arg rest pos)) := by
  induction ds generalizing arg rest pos with
  | nil =>
      cases ending with
      | done => rfl
      | error e => exact hlaid.elim
      | unread => exact absurd rfl hending
  | cons d ds ih =>
      rw [layout, directivePieces, laid_append, extent_cons, Piece.size] at hlaid
      rw [layout, directivePieces, extent_append, extent_cons, Piece.size] at hroom ⊢
      obtain ⟨⟨-, hitem⟩, hbehind⟩ := hlaid
      have hread := readItem_of_laid (hgood d List.mem_cons_self).size hitem (by omega)
      have hrest := ih (fun d' hd' => hgood d' (List.mem_cons_of_mem d hd')) hbehind (by omega)
      rw [readItems, if_pos (by omega), hread.2, takenAll]
      rw [← Nat.add_assoc] at hrest
      show (readItems M data ending ds _ >>= _) = _
      rw [hrest]
      simp only [Nat.add_assoc]
      rfl

end

/-- A call of `mem_unpack` with the format and the position of a call of `mem_pack`. -/
theorem unpackStart_of_packStart {m m' : Memory} {fmt pos : LuaValue} {args : List LuaValue}
    {f : Bytes} {i : Nat} (hlen : m'.array.bytes.length = m.array.bytes.length)
    (h : packStart L m (fmt :: pos :: args) = .ok (f, i)) :
    unpackStart L m' [fmt, pos] = .ok (f, i) := by
  have hpresent : pos ≠ .nil := by
    rintro rfl
    unfold packStart at h
    cases hfmt : checkstring L 2 (fmt :: LuaValue.nil :: args).head? <;> rw [hfmt] at h <;> cases h
  have hopt : optinteger L 3 1 (some pos) = checkinteger L 3 (some pos) :=
    if_neg (by simpa using hpresent)
  unfold unpackStart
  rw [hlen]
  simp only [List.getElem?_cons_succ, List.getElem?_cons_zero, hopt]
  exact h

/-- What `mem_pack` has written, `mem_unpack` reads with the same format from the same position:
what each option took of its argument, and the position behind everything. -/
theorem mem_unpack_mem_pack (M : Machine) (L : LuaNumerals) {m m' : Memory}
    {fmt pos next : LuaValue} {args : List LuaValue}
    (hpack : (mem_pack M L m (fmt :: pos :: args)).1 = .returned [.boolean true, next])
    (hwritten : m'.array.bytes = (mem_pack M L m (fmt :: pos :: args)).2) :
    ∃ f, checkstring L 2 (some fmt) = .ok f ∧
      mem_unpack M L m' [fmt, pos] =
        .returned (takenAll M L (formatOf M f).directives 3 args ++ [next]) := by
  obtain ⟨f, i, hstart, ⟨-, hfits⟩, rfl, hlaid⟩ := mem_pack_true hpack
  obtain ⟨hi, hcall⟩ := mem_pack_of_ok M hstart
  have hfmt : checkstring L 2 (some fmt) = .ok f := by
    unfold packStart at hstart
    cases hfmt : checkstring L 2 (some fmt) with
    | error e => simp only [List.head?_cons, hfmt] at hstart; cases hstart
    | ok f' =>
        simp only [List.head?_cons, hfmt, bind, Except.bind] at hstart
        split at hstart
        · cases hstart
        · split at hstart
          · cases hstart
            rfl
          · cases hstart
  -- a call of `mem_pack` keeps the size of the memory
  have hlen : m'.array.bytes.length = m.array.bytes.length := by
    rw [hwritten, hcall]
    exact (perform_inside _ _ hi).1
  have hroom : i + extent (callPieces M L (fmt :: pos :: args) f i) ≤ m'.array.bytes.length := by
    rw [hlen]
    rcases hfits with hnone | hfits
    · simpa [hnone, extent] using hi
    · exact hfits.2
  obtain ⟨hending, hgood⟩ := formatOf_good M f
  rw [← hwritten] at hlaid
  have hread : readItems M m'.array (formatOf M f).ending (formatOf M f).directives i =
      .ok (takenAll M L (formatOf M f).directives 3 args, _) :=
    readItems_of_laid hending hgood hlaid hroom
  refine ⟨f, hfmt, ?_⟩
  rw [(mem_unpack_of_ok M (unpackStart_of_packStart hlen hstart)).2, hread]
  rfl

section

/-- A machine that keeps the upper half of a double as a float. -/
def halving : Machine where
  little := true
  narrow x := UInt32.ofNat (x.bits.toNat / 2 ^ 32)
  widen u := ⟨UInt64.ofNat (u.toNat * 2 ^ 32)⟩

/-- No string is a number. -/
def noNumerals : LuaNumerals where
  stringToNumber _ := none
  numberToString _ := ⟨[], by decide⟩

/-- `>i2z` -/
def shortFormat : LuaValue := .string ⟨[62, 105, 50, 122], by decide⟩

def sixBytes : Memory := ⟨⟨[7, 7, 7, 7, 7, 7], by decide⟩, false, by decide⟩

def sixBytesPacked : Memory := ⟨⟨[7, 255, 254, 65, 0, 7], by decide⟩, false, by decide⟩

theorem mem_unpack_mem_pack_short : ∃ f, checkstring noNumerals 2 (some shortFormat) = .ok f ∧
    mem_unpack halving noNumerals sixBytesPacked [shortFormat, .number (.integer 2)] =
      .returned (takenAll halving noNumerals (formatOf halving f).directives 3
        [.number (.integer (-2)), .string ⟨[65], by decide⟩] ++ [integer 6]) :=
  mem_unpack_mem_pack (m := sixBytes) halving noNumerals (by decide +kernel) (by decide +kernel)

end

/-! ## Packing what was unpacked -/

section

variable {data : CArray} {islittle : Bool} {size pos : Nat}

/-- Writing what is already there. -/
theorem perform_same {bs : Bytes} {n : Nat} {rest : List LuaValue} {pieces : List Piece}
    (hlen : bs.length = n) (hroom : pos + n ≤ data.bytes.length)
    (h : part data.bytes pos n = bs) :
    perform false (.write bs rest :: pieces) data.bytes pos =
      perform false pieces data.bytes (pos + n) := by
  subst hlen
  have hsame : memcpyTo data.bytes pos bs = data.bytes := by
    have hpart := memcpyTo_part hroom
    rwa [h] at hpart
  rw [perform_write_of_le hroom, hsame]

theorem ordered_itemBytes (bytes : Bytes) (islittle : Bool) (pos size : Nat) :
    ordered islittle (itemBytes bytes islittle pos size) = part bytes pos size :=
  ordered_ordered islittle _

/-- A number that is read and kept again. -/
theorem leBytes_floatBits {bs : Bytes}
    (hwiden : ∀ u, (M.widen u).isNaN = false → M.narrow (M.widen u) = u)
    (hsize : size = 4 ∨ size = 8) (hlen : bs.length = size)
    (hnan : (floatOf M size bs).isNaN = false) :
    leBytes size (floatBits M size (floatOf M size bs)) = bs := by
  have hlt := ofLE_lt bs
  subst hlen
  rcases hsize with h | h
  · have hkeep : floatBits M bs.length (floatOf M bs.length bs) = ofLE bs := by
      simp only [floatOf, floatBits, h, if_true] at hnan ⊢
      rw [hwiden _ hnan]
      exact UInt32.toNat_ofNat_of_lt' (by rw [h] at hlt; exact hlt)
    rw [hkeep, leBytes_ofLE]
  · have hkeep : floatBits M bs.length (floatOf M bs.length bs) = ofLE bs := by
      simp only [floatOf, floatBits, h, show ¬ 8 = 4 by decide, if_false]
      exact UInt64.toNat_ofNat_of_lt' (by rw [h] at hlt; exact hlt)
    rw [hkeep, leBytes_ofLE]

theorem part_one {bytes : Bytes} {b : UInt8} (h : bytes[pos]? = some b) : part bytes pos 1 = [b] := by
  have hlt : pos < bytes.length := by
    by_contra hge
    rw [List.getElem?_eq_none (by omega)] at h
    cases h
  have hb := List.getElem?_eq_getElem hlt
  rw [part, List.drop_eq_getElem_cons hlt]
  simp_all

/-- The bytes of a number are put where they were. -/
theorem perform_itemBytes (hin : pos + size ≤ data.bytes.length) {bs : Bytes}
    (hbs : itemBytes data.bytes islittle pos size = bs) (rest : List LuaValue)
    (pieces : List Piece) :
    perform false (.write (ordered islittle bs) rest :: pieces) data.bytes pos =
      perform false pieces data.bytes (pos + size) := by
  subst hbs
  exact perform_same (by rw [length_ordered, length_itemBytes hin]) hin
    (ordered_itemBytes data.bytes islittle pos size).symm

variable (M data islittle size pos) in
/-- What the option has read is put where it was. -/
def PutsBack (opt : KOption) : Prop :=
  ∀ r, readItem M data islittle opt size pos = .ok r →
    (∀ x, .number (.float x) ∈ r.1 → x.isNaN = false) → ∀ (L : LuaNumerals) arg more,
      perform false (item M L islittle opt size arg (r.1.toList ++ more)) data.bytes pos =
          ⟨none, data.bytes, r.2⟩ ∧
        behind opt (r.1.toList ++ more) = more

theorem putsBack_int (hsize : KOption.int.Size size) (hin : pos + size ≤ data.bytes.length) :
    PutsBack M data islittle size pos .int := by
  intro r hread _ L arg more
  have hlen := length_itemBytes hin islittle
  have hwrite := @perform_itemBytes data islittle size pos hin _ rfl
  simp only [readItem] at hread
  generalize itemBytes data.bytes islittle pos size = bs at hlen hwrite hread
  split at hread
  · rename_i hfits
    cases hread
    have hvalue : (Int64.ofInt (ofBytes bs)).toInt = ofBytes bs := by
      have hbound : -(2 ^ 63 : Int) ≤ ofBytes bs ∧ ofBytes bs < 2 ^ 63 := by
        simp only [Fits, SZINT] at hfits
        omega
      exact Int64.toInt_ofInt_of_le hbound.1 hbound.2
    have hbytes : intBytes size (Int64.ofInt (ofBytes bs)).toUInt64 (Int64.ofInt (ofBytes bs) < 0) =
        bs := by
      rw [intBytes_signed, hvalue, ← hlen, toBytes_ofBytes]
    have hcheck : (SZINT ≤ size || decide (Fits size (Int64.ofInt (ofBytes bs)).toInt)) = true := by
      have hfit := fits_ofBytes (show 0 < bs.length by rw [hlen]; exact hsize.1)
      rw [hlen] at hfit
      simp [hvalue, hfit]
    refine ⟨?_, rfl⟩
    show perform false (guarded _ _ _ _) _ _ = _
    rw [hcheck, guarded, if_pos rfl, hbytes, hwrite]
    rfl
  · cases hread

theorem putsBack_uint (hin : pos + size ≤ data.bytes.length) :
    PutsBack M data islittle size pos .uint := by
  intro r hread _ L arg more
  have hlen := length_itemBytes hin islittle
  have hwrite := @perform_itemBytes data islittle size pos hin _ rfl
  simp only [readItem] at hread
  generalize itemBytes data.bytes islittle pos size = bs at hlen hwrite hread
  split at hread
  · rename_i hfits
    cases hread
    have hvalue := toNat_integer64 hfits
    have hbytes : intBytes size (UInt64.ofNat (ofLE bs)).toInt64.toUInt64 false = bs := by
      rw [intBytes, if_neg (by simp), hvalue, ← hlen, leBytes_ofLE]
    have hcheck : (SZINT ≤ size ||
        decide ((UInt64.ofNat (ofLE bs)).toInt64.toUInt64.toNat < 256 ^ size)) = true := by
      have hlt := ofLE_lt bs
      rw [hlen] at hlt
      rw [hvalue, decide_eq_true hlt, Bool.or_true]
    refine ⟨?_, rfl⟩
    show perform false (guarded _ _ _ _) _ _ = _
    rw [hcheck, guarded, if_pos rfl, hbytes, hwrite]
    rfl
  · cases hread

theorem putsBack_float (hwiden : ∀ u, (M.widen u).isNaN = false → M.narrow (M.widen u) = u)
    (hsize : KOption.float.Size size) (hin : pos + size ≤ data.bytes.length) :
    PutsBack M data islittle size pos .float := by
  intro r hread hnan L arg more
  have hlen := length_itemBytes hin islittle
  have hwrite := @perform_itemBytes data islittle size pos hin _ rfl
  simp only [readItem] at hread
  generalize itemBytes data.bytes islittle pos size = bs at hlen hwrite hread
  cases hread
  refine ⟨?_, rfl⟩
  show perform false
    [.write (ordered islittle (leBytes size (floatBits M size (floatOf M size bs)))) _] _ _ = _
  rw [leBytes_floatBits hwiden hsize hlen (hnan _ rfl), hwrite]
  rfl

theorem putsBack_char (hin : pos + size ≤ data.bytes.length) :
    PutsBack M data islittle size pos .char := by
  intro r hread _ L arg more
  cases hread
  refine ⟨?_, rfl⟩
  have hslice : (data.slice pos size).bytes.length = size := length_part hin
  show perform false (guarded ((data.slice pos size).bytes.length == size) _ _ _) _ _ = _
  rw [hslice, beq_self_eq_true, guarded, if_pos rfl, perform_same hslice hin rfl]
  rfl

/-- The length of the string is the number that was read, which fits in its bytes. -/
theorem putsBack_string (hin : pos + size ≤ data.bytes.length) :
    PutsBack M data islittle size pos .string := by
  intro r hread _ L arg more
  have hlen := length_itemBytes hin islittle
  have hwrite := @perform_itemBytes data islittle size pos hin _ rfl
  simp only [readItem] at hread
  generalize itemBytes data.bytes islittle pos size = bs at hlen hwrite hread
  split at hread
  · split at hread
    · rename_i hroom
      cases hread
      have hslice : (data.slice (pos + size) (ofLE bs)).bytes.length = ofLE bs := length_part hroom
      have hbytes : leBytes size (ofLE bs) = bs := by rw [← hlen, leBytes_ofLE]
      have hcheck : (SZINT ≤ size || decide (ofLE bs < 256 ^ size)) = true := by
        have hlt := ofLE_lt bs
        rw [hlen] at hlt
        simp [hlt]
      refine ⟨?_, rfl⟩
      show perform false (guarded (SZINT ≤ size ||
        decide ((data.slice (pos + size) (ofLE bs)).bytes.length < 256 ^ size)) _ _
          [.write (ordered islittle (leBytes size _)) _, .write _ _]) _ _ = _
      rw [hslice, hcheck, guarded, if_pos rfl, hbytes, hwrite, perform_same hslice hroom rfl]
      rfl
    · cases hread
  · cases hread

/-- The string ends in front of the first zero, where the terminator goes. -/
theorem putsBack_zstr : PutsBack M data islittle size pos .zstr := by
  intro r hread _ L arg more
  simp only [readItem] at hread
  split at hread
  · rename_i hzero
    cases hread
    have hmem : 0 ∈ data.bytes.drop pos := by simpa using hzero
    have hidx := List.idxOf_lt_length_iff.mpr hmem
    have hat := List.getElem?_idxOf hmem
    have hbefore := mt (List.mem_take_iff_idxOf_lt hmem).mp (Nat.lt_irrefl _)
    generalize (data.bytes.drop pos).idxOf 0 = n at hidx hat hbefore
    rw [List.length_drop] at hidx
    rw [List.getElem?_drop] at hat
    have hroom : pos + n ≤ data.bytes.length := by omega
    have hslice : (data.slice pos n).bytes.length = n := length_part hroom
    have hnone : (!(data.slice pos n).bytes.contains 0) = true := by
      have hfree : 0 ∉ (data.slice pos n).bytes := hbefore
      simpa using hfree
    refine ⟨?_, rfl⟩
    show perform false (guarded (!(data.slice pos n).bytes.contains 0) _ _ _) _ _ = _
    rw [hnone, guarded, if_pos rfl, perform_same hslice hroom rfl,
      perform_same rfl (by show pos + n + 1 ≤ _; omega) (part_one hat)]
    rfl
  · cases hread

/-- What an option has read is put where it was. -/
theorem perform_item_of_readItem {opt : KOption} {r : Option LuaValue × Nat}
    (hwiden : ∀ u, (M.widen u).isNaN = false → M.narrow (M.widen u) = u) (hsize : opt.Size size)
    (hin : pos + size ≤ data.bytes.length)
    (hread : readItem M data islittle opt size pos = .ok r)
    (hnan : ∀ x, .number (.float x) ∈ r.1 → x.isNaN = false) (L : LuaNumerals) (arg : Nat)
    (more : List LuaValue) :
    perform false (item M L islittle opt size arg (r.1.toList ++ more)) data.bytes pos =
        ⟨none, data.bytes, r.2⟩ ∧
      behind opt (r.1.toList ++ more) = more := by
  cases opt with
  | int => exact putsBack_int hsize hin r hread hnan L arg more
  | uint => exact putsBack_uint hin r hread hnan L arg more
  | float => exact putsBack_float hwiden hsize hin r hread hnan L arg more
  | char => exact putsBack_char hin r hread hnan L arg more
  | string => exact putsBack_string hin r hread hnan L arg more
  | zstr => exact putsBack_zstr r hread hnan L arg more
  | padding =>
      cases hread
      refine ⟨?_, rfl⟩
      have hone : size = 1 := hsize
      subst hone
      show perform false [.skip 1 _] _ _ = _
      rw [perform_skip_of_le hin]
      rfl
  | paddalign | nop =>
      cases hread
      have hnone : size = 0 := hsize
      subst hnone
      exact ⟨rfl, rfl⟩

/-- So are the values that a format has read. -/
theorem perform_layout_of_readItems {ending : Ending} {ds : List Directive}
    {r : List LuaValue × Nat}
    (hwiden : ∀ u, (M.widen u).isNaN = false → M.narrow (M.widen u) = u)
    (hgood : ∀ d ∈ ds, d.Good) (hread : readItems M data ending ds pos = .ok r)
    (hnan : ∀ x, .number (.float x) ∈ r.1 → x.isNaN = false) (L : LuaNumerals) (arg : Nat) :
    perform false (layout M L ending ds arg r.1 pos) data.bytes pos = ⟨none, data.bytes, r.2⟩ := by
  induction ds generalizing arg pos r with
  | nil =>
      cases ending with
      | done => cases hread; rfl
      | error e | unread => cases hread
  | cons d ds ih =>
      rw [readItems] at hread
      split at hread
      · rename_i hroom
        cases hitem : readItem M data d.islittle d.opt d.size (pos + gap d.align pos) with
        | error e => rw [hitem] at hread; cases hread
        | ok item =>
            cases hrest : readItems M data ending ds item.2 with
            | error e =>
                simp only [hitem, hrest, bind, Except.bind] at hread
                cases hread
            | ok rest =>
                simp only [hitem, hrest, bind, Except.bind] at hread
                cases hread
                have hhead := perform_item_of_readItem hwiden (hgood d List.mem_cons_self).size hroom
                  hitem (fun x hx => hnan x (List.mem_append_left _ (by simpa using hx))) L (arg + 1)
                  rest.1
                have hnext := ih (fun d' hd' => hgood d' (List.mem_cons_of_mem d hd')) hrest
                  (fun x hx => hnan x (List.mem_append_right _ hx)) (lastArg d.opt arg)
                -- the option writes nothing new, and its pieces end where it stopped reading
                have hdone : perform false (directivePieces M L d arg (item.1.toList ++ rest.1) pos)
                    data.bytes pos = ⟨none, data.bytes, item.2⟩ := by
                  rw [directivePieces, perform_skip_of_le (by omega), hhead.1]
                have hend := perform_extent (congrArg Written.stop hdone)
                rw [hdone] at hend
                rw [layout, perform_append, hdone, hhead.2, ← hend]
                exact hnext
      · cases hread

end

/-- A call of `mem_pack` with the format and the position of a call of `mem_unpack`. -/
theorem packStart_of_unpackStart {m : Memory} {fmt pos : LuaValue} {f : Bytes} {i : Nat}
    (hpos : pos ≠ .nil) (h : unpackStart L m [fmt, pos] = .ok (f, i)) (args : List LuaValue) :
    packStart L m (fmt :: pos :: args) = .ok (f, i) := by
  have hopt : optinteger L 3 1 (some pos) = checkinteger L 3 (some pos) :=
    if_neg (by simpa using hpos)
  unfold unpackStart at h
  simp only [List.getElem?_cons_succ, List.getElem?_cons_zero, hopt] at h
  exact h

end LuaMem

end Poesie
