import Poesie.Bulk
import Poesie.Cursor
import Poesie.JsonSerialize

set_option autoImplicit false

/-! # Memory views and their JSON form

A `MemoryView` refers to a range of a remote bulk handle. `toJson` lays its fields out in a
binary of subtype 2388; the constructor from JSON reads them back with a cursor, from such a
binary or from the object a binary becomes when it is dumped as text and parsed again.

The reads of the constructor do not look at the length of the binary. `readAt` is a read that
says when it leaves it, so that the model can tell an exception (`Fault.thrown`) from a read
out of range (`Fault.outOfRange`).
-/

namespace Poesie

open Wire Json

/-! ## Views -/

/-- `MemoryView::Intent`, an enumeration over a byte: other bytes are values of it as well. -/
structure Intent where
  code : UInt8
  deriving DecidableEq, Repr

namespace Intent

def IN : Intent := ⟨1⟩
def OUT : Intent := ⟨2⟩
def INOUT : Intent := ⟨3⟩

end Intent

/-- What a view refers to. -/
structure RemoteView where
  intent : Intent
  remoteBulk : Bulk
  remoteEp : Endpoint
  remoteOffset : UInt64
  remoteSize : UInt64

/-- `m_local_data`: null, a pointer into a segment of the server's own memory, or a buffer
that the view allocated. -/
inductive LocalData where
  | null
  | segment (address : Nat)
  | buffer (bytes : Bytes)

/-- `m_local_bulk`, when it is not null: the remote bulk itself, or an exposure of the
view's own buffer. -/
inductive LocalBulk where
  | remote
  | exposed

/-- `MemoryViewImpl`. `engine` says whether `m_engine` is set. -/
structure MemoryViewImpl extends RemoteView where
  engine : Bool
  localData : LocalData := .null
  localBulk : Option LocalBulk := none
  ownsLocalData : Bool := false

/-- A view that has not been asked for its data. -/
def RemoteView.fresh (v : RemoteView) : MemoryViewImpl := { v with engine := true }

/-- The constructor from a bulk handle. The sum is one of 64-bit words. -/
def MemoryView.make (remoteBulk : Bulk) (remoteOwner : Endpoint) (intent : Intent)
    (offsetOpt sizeOpt : Option UInt64) : Except CppException MemoryViewImpl :=
  if offsetOpt.getD 0 + sizeOpt.getD remoteBulk.size > remoteBulk.size then
    .error (.poesie (text "Invalid offset and/or size when exposing bulk handle as MemoryView"))
  else
    -- a size that is not given is that of the whole bulk, whatever the offset is
    let offset := offsetOpt.getD 0
    let size := sizeOpt.getD remoteBulk.size
    .ok { engine := true, intent := intent, remoteBulk := remoteBulk, remoteEp := remoteOwner,
          remoteOffset := offset, remoteSize := size }

/-- What the constructor checked. -/
def RemoteView.Accepted (v : RemoteView) : Prop :=
  ¬ v.remoteOffset + v.remoteSize > v.remoteBulk.size

theorem make_eq_ok_iff {b : Bulk} {e : Endpoint} {i : Intent} {o s : Option UInt64}
    {v : MemoryViewImpl} :
    MemoryView.make b e i o s = .ok v ↔
      v = (⟨i, b, e, o.getD 0, s.getD b.size⟩ : RemoteView).fresh ∧ v.Accepted := by
  unfold MemoryView.make
  by_cases h : o.getD 0 + s.getD b.size > b.size
  · rw [if_pos h]
    constructor
    · intro he
      cases he
    · rintro ⟨rfl, hacc⟩
      exact absurd h hacc
  · rw [if_neg h]
    constructor
    · intro hv
      cases hv
      exact ⟨rfl, h⟩
    · rintro ⟨rfl, -⟩
      rfl

/-- A view in the middle of a fragmented bulk. -/
def sampleView : RemoteView where
  intent := .INOUT
  remoteBulk := ⟨[⟨100, 2⟩, ⟨200, 3⟩], by decide, by decide, by decide⟩
  remoteEp := noName
  remoteOffset := 1
  remoteSize := 3

theorem sampleView_accepted : sampleView.Accepted := by
  unfold RemoteView.Accepted
  decide

/-- A view of the second of two bytes in one segment. -/
def secondByte (intent : Intent) : RemoteView where
  intent := intent
  remoteBulk := ⟨[⟨100, 2⟩], by decide, by decide, by decide⟩
  remoteEp := noName
  remoteOffset := 1
  remoteSize := 1

/-! ## Writing a view -/

/-- `MEMORY_VIEW_SUBTYPE_CODE` -/
def memoryViewSubtypeCode : UInt64 := 2388

/-- The bytes of a `size_t` in memory. -/
def sizeBytes (n : UInt64) : Bytes := leBytes 8 n.toNat

/-- The fields in the order they are written. -/
def fields (m : Margo) (v : RemoteView) : List Bytes :=
  [[v.intent.code],
   sizeBytes (UInt64.ofNat v.remoteEp.address.length),
   v.remoteEp.address,
   sizeBytes (UInt64.ofNat (m.serialize v.remoteBulk).length),
   m.serialize v.remoteBulk,
   sizeBytes v.remoteOffset,
   sizeBytes v.remoteSize]

/-- `bin_size` -/
def binSize (m : Margo) (v : RemoteView) : UInt64 :=
  1 + UInt64.ofNat (m.serialize v.remoteBulk).length + 8
    + UInt64.ofNat v.remoteEp.address.length + 8 + 8 + 8

/-- The bytes `toJson` writes into the binary it allocated. -/
def toBinary (m : Margo) (v : RemoteView) : Bytes :=
  writeAll (List.replicate (binSize m v).toNat 0) (layout 0 (fields m v))

/-- `MemoryView::toJson` of a handle, which may be empty. -/
def MemoryView.toJson (m : Margo) : Option MemoryViewImpl → Json
  | none => null
  | some v => binary (toBinary m v.toRemoteView) (some memoryViewSubtypeCode)

theorem fields_length (m : Margo) (v : RemoteView) :
    (fields m v).flatten.length
      = 33 + v.remoteEp.address.length + (m.serialize v.remoteBulk).length := by
  simp only [fields, sizeBytes, List.flatten_cons, List.flatten_nil, List.length_append,
    leBytes_length, List.length_cons, List.length_nil]
  omega

theorem fields_fit (m : Margo) (v : RemoteView) : (fields m v).flatten.length < 2 ^ 64 := by
  have ha := v.remoteEp.fits
  have hb := m.serialize_fits v.remoteBulk
  rw [fields_length]
  omega

/-- `bin_size` is the size of the fields together. -/
theorem binSize_toNat (m : Margo) (v : RemoteView) :
    (binSize m v).toNat = (fields m v).flatten.length := by
  have hfit := fields_fit m v
  rw [fields_length] at hfit ⊢
  simp only [binSize, UInt64.toNat_add, UInt64.toNat_ofNat', UInt64.reduceToNat]
  omega

/-- The binary holds the fields one after the other. -/
theorem toBinary_eq (m : Margo) (v : RemoteView) : toBinary m v = (fields m v).flatten := by
  have hfit := fields_fit m v
  have hbuf : (List.replicate (binSize m v).toNat (0 : UInt8)).length
      = (fields m v).flatten.length := by
    rw [List.length_replicate, binSize_toNat]
  have h := writeAll_layout (fields m v) [] _ 0 rfl hbuf (by simpa using hfit)
  exact h

/-- Every byte that is allocated is written exactly once, and no other byte is. -/
theorem toBinary_writes_once (m : Margo) (v : RemoteView) :
    (∀ p < (binSize m v).toNat, (layout 0 (fields m v)).countP (covers p) = 1) ∧
      ∀ w ∈ layout 0 (fields m v), w.1.toNat + w.2.length ≤ (binSize m v).toNat := by
  have hfit := fields_fit m v
  have hzero : (0 : UInt64).toNat = 0 := rfl
  rw [binSize_toNat]
  constructor
  · intro p hp
    exact countP_layout (fields m v) (by omega) (Nat.zero_le p) (by omega)
  · intro w hw
    have := layout_inside (fields m v) (by omega) hw
    omega

/-! ## Recognising a view -/

/-- `get<int>()` of an unsigned number. -/
def getInt (n : UInt64) : Int32 := n.toUInt32.toInt32

/-- An element of "bytes": an unsigned number below 256. -/
def isByte : Json → Bool
  | numberUnsigned n => n < 256
  | _ => false

/-- `MemoryView::IsMemoryView` -/
def isMemoryView : Json → Bool
  | binary _ none => false
  | binary _ (some subtype) => subtype == memoryViewSubtypeCode
  -- a binary that was dumped as text and parsed again
  | object members =>
      match StdMap.find? (text "bytes") members, StdMap.find? (text "subtype") members with
      | some bytes, some subtype =>
          match subtype with
          | numberUnsigned n =>
              -- the comparison is one of 32-bit numbers
              if getInt n != 2388 then false
              else
                match bytes with
                | array items => items.all isByte
                | _ => false
          | _ => false
      | _, _ => false
  | _ => false

/-- `b.get<std::uint8_t>()`. Only unsigned numbers get this far. -/
def getByte : Json → Except CppException UInt8
  | numberUnsigned n => .ok n.toUInt8
  | _ => .error (.json (text "type must be number"))

/-- The bytes of either JSON form. -/
def binaryOf : Json → Except CppException Bytes
  | binary b _ => .ok b
  | object members =>
      match StdMap.find? (text "bytes") members with
      | some (array items) => items.mapM getByte
      | _ => .error (.json (text "key 'bytes' not found"))
  | _ => .error (.json (text "type must be object"))

/-- A recognised object holds an array of bytes. -/
theorem isMemoryView_object {members : List (Bytes × Json)}
    (h : isMemoryView (object members) = true) :
    ∃ items, StdMap.find? (text "bytes") members = some (array items) ∧
      items.all isByte = true := by
  unfold isMemoryView at h
  cases hb : StdMap.find? (text "bytes") members with
  | none => simp [hb] at h
  | some bytes =>
      cases hs : StdMap.find? (text "subtype") members with
      | none => simp [hb, hs] at h
      | some subtype =>
          cases subtype <;> simp only [hb, hs, Bool.false_eq_true] at h
          case numberUnsigned n =>
            by_cases hn : getInt n = 2388
            · cases bytes <;> simp_all
            · simp [hn] at h

theorem mapM_getByte {items : List Json} (h : items.all isByte = true) :
    ∃ bytes, items.mapM getByte = .ok bytes ∧ bytes.length = items.length := by
  induction items with
  | nil => exact ⟨[], rfl, rfl⟩
  | cons j items ih =>
      rw [List.all_cons, Bool.and_eq_true] at h
      obtain ⟨hj, hitems⟩ := h
      obtain ⟨bytes, hbytes, hlen⟩ := ih hitems
      have hn : ∃ b, getByte j = .ok b := by
        cases j <;> simp_all [isByte, getByte]
      obtain ⟨b, hb⟩ := hn
      refine ⟨b :: bytes, ?_, by rw [List.length_cons, List.length_cons, hlen]⟩
      rw [List.mapM_cons, hb, hbytes]
      rfl

/-- A recognised value has bytes, and no more than a `size_t` counts. -/
theorem binaryOf_of_isMemoryView (j : JsonValue) (h : isMemoryView j.tree = true) :
    ∃ bin, binaryOf j.tree = .ok bin ∧ bin.length < 2 ^ 64 := by
  obtain ⟨tree, wellFormed⟩ := j
  cases wellFormed with
  | binary st fits => exact ⟨_, rfl, fits⟩
  | object fits ascending keys each =>
      obtain ⟨items, hfind, hall⟩ := isMemoryView_object h
      obtain ⟨bytes, hbytes, hlen⟩ := mapM_getByte hall
      obtain ⟨p, hp, hitems⟩ := StdMap.mem_of_find? hfind
      have harray := each p hp
      rw [hitems] at harray
      cases harray with
      | array fits each =>
          refine ⟨bytes, ?_, hlen ▸ fits⟩
          simp only [binaryOf, hfind]
          exact hbytes
  | _ => cases h

/-! ## Reading a view -/

/-- How the constructor ends other than with a view. -/
inductive Fault where
  | thrown (e : CppException)
  | outOfRange (off n : Nat)

/-- Copy `n` bytes from the cursor on. -/
def readAt (bin : Bytes) (off : UInt64) (n : Nat) : Except Fault Bytes :=
  if off.toNat + n ≤ bin.length then .ok ((bin.drop off.toNat).take n)
  else .error (.outOfRange off.toNat n)

/-- Copy a `size_t` from the cursor on. -/
def readSizeAt (bin : Bytes) (off : UInt64) : Except Fault UInt64 :=
  match readAt bin off 8 with
  | .ok bs => .ok (UInt64.ofNat (ofLE bs))
  | .error e => .error e

theorem readAt_of_le {bin : Bytes} {off : UInt64} {n : Nat} (h : off.toNat + n ≤ bin.length) :
    readAt bin off n = .ok ((bin.drop off.toNat).take n) := if_pos h

theorem readAt_of_lt {bin : Bytes} {off : UInt64} {n : Nat} (h : bin.length < off.toNat + n) :
    readAt bin off n = .error (.outOfRange off.toNat n) := if_neg (Nat.not_le.mpr h)

/-- `margo_bulk_deserialize` at the cursor. -/
def readBulkAt (m : Margo) (bin : Bytes) (off : UInt64) (n : Nat) :
    Except Fault (Option Bulk) :=
  let buf := bin.drop off.toNat
  if m.touched buf n ≤ buf.length then .ok (m.deserialize buf n)
  else .error (.outOfRange off.toNat (m.touched buf n))

/-- The view that the decoded fields describe. -/
def assemble (m : Margo) (intent : Intent) (owner : Bytes) (bulk : Option Bulk)
    (remoteOffset remoteSize : UInt64) : Except CppException MemoryViewImpl := do
  let remoteEp ← m.lookup owner
  match bulk with
  | none => .error (.thallium (text "margo_bulk_ref_incr failed"))
  | some b => MemoryView.make b remoteEp intent (some remoteOffset) (some remoteSize)

/-- The body of the constructor from JSON, on the bytes. -/
def ofBinary (m : Margo) (bin : Bytes) : Except Fault MemoryViewImpl := do
  let off : UInt64 := 0
  let intent ← readAt bin off 1
  let off := off + 1
  let ownerSize ← readSizeAt bin off
  let off := off + 8
  if !m.resize ownerSize.toNat then .error (.thrown (.std (text "basic_string::resize")))
  else do
    let owner ← readAt bin off ownerSize.toNat
    -- the cursor may wrap from here on
    let off := off + ownerSize
    let bulkSize ← readSizeAt bin off
    let off := off + 8
    let bulk ← readBulkAt m bin off bulkSize.toNat
    let off := off + bulkSize
    let remoteOffset ← readSizeAt bin off
    let off := off + 8
    let remoteSize ← readSizeAt bin off
    (assemble m ⟨intent.headD 0⟩ owner bulk remoteOffset remoteSize).mapError .thrown

/-! ## At the cursor -/

section

variable {bin x rest : Bytes} {off : UInt64}

theorem readAt_cursor (h : AtCursor bin off (x ++ rest)) : readAt bin off x.length = .ok x := by
  rw [readAt_of_le h.fits, h.take]

theorem readSizeAt_cursor {n : UInt64} (h : AtCursor bin off (sizeBytes n ++ rest)) :
    readSizeAt bin off = .ok n := by
  have hread := readAt_cursor h
  rw [sizeBytes, leBytes_length] at hread
  have hn : n.toNat < 256 ^ 8 := n.toNat_lt
  rw [readSizeAt, hread]
  show Except.ok (UInt64.ofNat (ofLE (leBytes 8 n.toNat))) = _
  rw [ofLE_leBytes_of_lt hn, UInt64.ofNat_toNat]

theorem cursor_past_size (hbin : bin.length < 2 ^ 64) {n : UInt64}
    (h : AtCursor bin off (sizeBytes n ++ rest)) : AtCursor bin (off + 8) rest := by
  have := h.advance hbin
  rwa [sizeBytes, leBytes_length] at this

theorem readBulkAt_cursor (m : Margo) {b : Bulk} (h : AtCursor bin off (m.serialize b ++ rest)) :
    readBulkAt m bin off (m.serialize b).length = .ok (some b) := by
  have hlen := h.fits
  have ht := m.touched_le (bin.drop off.toNat) (m.serialize b).length
  have hin : m.touched (bin.drop off.toNat) (m.serialize b).length
      ≤ (bin.drop off.toNat).length := by
    rw [List.length_drop]
    omega
  unfold readBulkAt
  rw [if_pos hin, h.drop, m.deserialize_serialize]

end

/-- The constructor reads back the fields that `toJson` laid out. -/
theorem ofBinary_toBinary (m : Margo) {v : RemoteView} (hv : v.Accepted) :
    ofBinary m (toBinary m v) = .ok v.fresh := by
  have hbin : (toBinary m v).length < 2 ^ 64 := by
    rw [toBinary_eq]
    exact fields_fit m v
  have howner : (UInt64.ofNat v.remoteEp.address.length).toNat = v.remoteEp.address.length :=
    UInt64.toNat_ofNat_of_lt' (Nat.lt_trans v.remoteEp.fits (by decide))
  have hbulk : (UInt64.ofNat (m.serialize v.remoteBulk).length).toNat
      = (m.serialize v.remoteBulk).length :=
    UInt64.toNat_ofNat_of_lt' (Nat.lt_trans (m.serialize_fits v.remoteBulk) (by decide))
  -- the cursor, field by field
  have c₀ : AtCursor (toBinary m v) 0 (fields m v).flatten := by
    have := AtCursor.start (toBinary m v)
    rwa [toBinary_eq] at this ⊢
  have c₁ : AtCursor (toBinary m v) (0 + 1) _ :=
    AtCursor.advance hbin (x := [v.intent.code]) c₀
  have c₂ := cursor_past_size hbin c₁
  have c₃ := AtCursor.advance hbin c₂
  have c₄ := cursor_past_size hbin c₃
  have c₅ := AtCursor.advance hbin c₄
  have c₆ := cursor_past_size hbin c₅
  -- and what is read there
  have r₁ : readAt (toBinary m v) 0 1 = .ok [v.intent.code] :=
    readAt_cursor (x := [v.intent.code]) c₀
  have r₂ := readSizeAt_cursor c₁
  have r₃ := readAt_cursor c₂
  have r₄ := readSizeAt_cursor c₃
  have r₅ := readBulkAt_cursor m c₄
  have r₆ := readSizeAt_cursor c₅
  have r₇ := readSizeAt_cursor c₆
  have hmake : MemoryView.make v.remoteBulk v.remoteEp v.intent (some v.remoteOffset)
      (some v.remoteSize) = .ok v.fresh := make_eq_ok_iff.mpr ⟨rfl, hv⟩
  have hview : assemble m ⟨v.intent.code⟩ v.remoteEp.address (some v.remoteBulk) v.remoteOffset
      v.remoteSize = .ok v.fresh := by
    unfold assemble
    rw [m.lookup_address]
    exact hmake
  unfold ofBinary
  simp only [r₁, r₂, r₃, r₄, r₅, r₆, r₇, bind, Except.bind, howner, hbulk, m.resize_address,
    List.headD_cons, Bool.not_true, Bool.false_eq_true, if_false]
  rw [hview]
  rfl

/-- `MemoryView::MemoryView(engine, json)` -/
def MemoryView.ofJson (m : Margo) (j : Json) : Except Fault MemoryViewImpl :=
  if !isMemoryView j then
    .error (.thrown (.poesie (text "JSON object is not a MemoryView representation")))
  else
    match binaryOf j with
    | .ok bin => ofBinary m bin
    | .error e => .error (.thrown e)

/-! ## Decoded views are new and were checked -/

theorem ok_of_bind {ε α β : Type} {x : Except ε α} {f : α → Except ε β} {b : β}
    (h : (x >>= f) = .ok b) : ∃ a, x = .ok a ∧ f a = .ok b := by
  cases x with
  | error e => cases h
  | ok a => exact ⟨a, rfl, h⟩

theorem made_of_assemble {m : Margo} {intent : Intent} {owner : Bytes} {bulk : Option Bulk}
    {remoteOffset remoteSize : UInt64} {v : MemoryViewImpl}
    (h : assemble m intent owner bulk remoteOffset remoteSize = .ok v) :
    v = v.toRemoteView.fresh ∧ v.Accepted := by
  obtain ⟨remoteEp, -, hmake⟩ := ok_of_bind h
  cases bulk with
  | none => cases hmake
  | some b =>
      obtain ⟨hv, haccepted⟩ := make_eq_ok_iff.mp hmake
      refine ⟨?_, haccepted⟩
      rw [hv]
      rfl

theorem made_of_ofBinary {m : Margo} {bin : Bytes} {v : MemoryViewImpl}
    (h : ofBinary m bin = .ok v) : v = v.toRemoteView.fresh ∧ v.Accepted := by
  obtain ⟨intent, -, h⟩ := ok_of_bind h
  obtain ⟨ownerSize, -, h⟩ := ok_of_bind h
  cases hr : m.resize ownerSize.toNat with
  | false =>
      rw [hr] at h
      cases h
  | true =>
      rw [hr] at h
      obtain ⟨owner, -, h⟩ := ok_of_bind h
      obtain ⟨bulkSize, -, h⟩ := ok_of_bind h
      obtain ⟨bulk, -, h⟩ := ok_of_bind h
      obtain ⟨remoteOffset, -, h⟩ := ok_of_bind h
      obtain ⟨remoteSize, -, h⟩ := ok_of_bind h
      cases hview : assemble m ⟨intent.headD 0⟩ owner bulk remoteOffset remoteSize with
      | error e =>
          rw [hview] at h
          cases h
      | ok v' =>
          rw [hview] at h
          cases h
          exact made_of_assemble hview

theorem made_of_ofJson {m : Margo} {j : Json} {v : MemoryViewImpl}
    (h : MemoryView.ofJson m j = .ok v) : v = v.toRemoteView.fresh ∧ v.Accepted := by
  unfold MemoryView.ofJson at h
  cases hj : isMemoryView j with
  | false =>
      rw [hj] at h
      cases h
  | true =>
      rw [hj] at h
      cases hbin : binaryOf j with
      | error e =>
          rw [hbin] at h
          cases h
      | ok bin =>
          rw [hbin] at h
          exact made_of_ofBinary h

theorem fresh_of_ofJson {m : Margo} {j : Json} {v : MemoryViewImpl}
    (h : MemoryView.ofJson m j = .ok v) : v = v.toRemoteView.fresh := (made_of_ofJson h).1

end Poesie
