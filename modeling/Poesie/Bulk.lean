import Poesie.Result

set_option autoImplicit false

/-! # Bulk handles and the transport

A bulk handle describes memory of one process as a list of segments; its bytes are the
segments one after the other, and position `p` of the bulk is the `p`-th of their addresses.

`Margo` collects what the code calls in Margo, Mercury and Thallium to look up addresses,
to serialise bulk handles and to reach the memory behind them, with the documented behaviour
the code relies on as laws.
-/

namespace Poesie

open Wire

/-! ## Processes and memory -/

/-- A process, by the address string that other processes look up. A `std::string` is
smaller than a quarter of the address space. -/
structure Endpoint where
  address : Bytes
  fits : address.length < 2 ^ 62
  deriving DecidableEq, Repr

/-- A byte of some process's memory. -/
abbrev Cell := Endpoint × Nat

/-- A contiguous piece of memory. -/
structure Segment where
  base : UInt64
  len : UInt64
  deriving DecidableEq, Repr

def Segment.addresses (s : Segment) : List Nat := List.range' s.base.toNat s.len.toNat

/-- A bulk handle. The segments, counted by a `uint32_t`, split the exposed bytes: no address
is in two of them, and the total fits in a `size_t`. -/
structure Bulk where
  segments : List Segment
  count : segments.length < 2 ^ 32
  disjoint : (segments.flatMap Segment.addresses).Nodup
  fits : (segments.flatMap Segment.addresses).length < 2 ^ 64

namespace Bulk

/-- The addresses of a bulk's bytes, by position. -/
def addresses (b : Bulk) : List Nat := b.segments.flatMap Segment.addresses

/-- `bulk.size()` -/
def size (b : Bulk) : UInt64 := UInt64.ofNat b.addresses.length

/-- The memory behind a bulk of process `owner`, by position. -/
def cells (b : Bulk) (owner : Endpoint) : List Cell := b.addresses.map (fun a => (owner, a))

/-- The memory behind the positions from `o` on, `n` of them. -/
def range (b : Bulk) (owner : Endpoint) (o n : Nat) : List Cell :=
  ((b.cells owner).drop o).take n

theorem size_toNat (b : Bulk) : b.size.toNat = b.addresses.length :=
  UInt64.toNat_ofNat_of_lt' b.fits

theorem cells_length (b : Bulk) (owner : Endpoint) : (b.cells owner).length = b.size.toNat := by
  rw [size_toNat, cells, List.length_map]

theorem cells_nodup (b : Bulk) (owner : Endpoint) : (b.cells owner).Nodup :=
  b.disjoint.map fun _ _ h => (Prod.ext_iff.mp h).2

theorem range_nodup (b : Bulk) (owner : Endpoint) (o n : Nat) : (b.range owner o n).Nodup :=
  ((b.cells_nodup owner).sublist (List.drop_sublist o _)).sublist (List.take_sublist n _)

theorem range_getElem? (b : Bulk) (owner : Endpoint) {o n i : Nat} (hi : i < n) :
    (b.range owner o n)[i]? = (b.cells owner)[o + i]? := by
  rw [range, List.getElem?_take_of_lt hi, List.getElem?_drop]

theorem mem_range {b : Bulk} {owner : Endpoint} {o n : Nat} {c : Cell}
    (h : c ∈ b.range owner o n) : ∃ i < n, (b.cells owner)[o + i]? = some c := by
  obtain ⟨i, hi⟩ := List.mem_iff_getElem?.mp h
  by_cases hlt : i < n
  · exact ⟨i, hlt, b.range_getElem? owner hlt ▸ hi⟩
  · rw [range, List.getElem?_take_eq_none (by omega)] at hi
    cases hi

end Bulk

/-! ## The transport -/

/-- What the code uses of Margo, Mercury and Thallium. -/
structure Margo where
  /-- `engine.self()` -/
  self : Endpoint
  /-- `engine.lookup` -/
  lookup : Bytes → Except CppException Endpoint
  lookup_address : ∀ e : Endpoint, lookup e.address = .ok e
  /-- `std::string::resize`: whether a string of that size can be had. -/
  resize : Nat → Bool
  resize_address : ∀ e : Endpoint, resize e.address.length = true
  /-- `margo_bulk_serialize`; `HG_Bulk_get_serialize_size` is the length of what it writes. -/
  serialize : Bulk → Bytes
  serialize_fits : ∀ b, (serialize b).length < 2 ^ 63
  /-- `margo_bulk_deserialize` on the bytes from a position on and a size; `none` leaves
  `HG_BULK_NULL`. -/
  deserialize : Bytes → Nat → Option Bulk
  deserialize_serialize : ∀ (b : Bulk) (rest : Bytes),
    deserialize (serialize b ++ rest) (serialize b).length = some b
  /-- How many of the bytes from that position on `margo_bulk_deserialize` looks at. -/
  touched : Bytes → Nat → Nat
  touched_le : ∀ buf n, touched buf n ≤ n
  /-- `HG_Bulk_access` with room for one segment: an error code, no segment, or the address
  and length of the first piece of the range. -/
  access : Bulk → Nat → Nat → Except Unit (Option (Nat × Nat))
  access_piece : ∀ b o n p k, access b o n = .ok (some (p, k)) →
    k ≤ n ∧ ∀ i < k, b.addresses[o + i]? = some (p + i)

/-! ## A transport that meets the laws

Bulk handles are serialised as their segments, with the count in front. -/

namespace Loopback

def putSegment (s : Segment) : Bytes := Prim.uint64LE.put s.base ++ Prim.uint64LE.put s.len

def readSegment : Load Segment := do
  let base ← Reader.prim Prim.uint64LE
  let len ← Reader.prim Prim.uint64LE
  pure ⟨base, len⟩

def serialize (b : Bulk) : Bytes :=
  putSize Prim.uint64LE b.segments.length ++ b.segments.flatMap putSegment

def readSegments : Load (List Segment) := do
  let n ← readSize Prim.uint64LE
  Reader.loop (fun segments => readSegment >>= fun s => pure (segments ++ [s])) n []

def deserialize (buf : Bytes) (n : Nat) : Option Bulk :=
  match readSegments (buf.take n) with
  | .ok (segments, _) =>
      if h : segments.length < 2 ^ 32 ∧ (segments.flatMap Segment.addresses).Nodup ∧
          (segments.flatMap Segment.addresses).length < 2 ^ 64 then
        some ⟨segments, h.1, h.2.1, h.2.2⟩
      else none
  | .error _ => none

/-- The piece of the segment that holds position `o`, as far as it goes. -/
def access : List Segment → Nat → Nat → Option (Nat × Nat)
  | [], _, _ => none
  | s :: rest, o, n =>
      if o < s.len.toNat then some (s.base.toNat + o, min n (s.len.toNat - o))
      else access rest (o - s.len.toNat) n

theorem putSegment_length (s : Segment) : (putSegment s).length = 16 := by
  rw [putSegment, List.length_append, Prim.put_length, Prim.put_length]
  rfl

theorem serialize_length (b : Bulk) : (serialize b).length = 8 + 16 * b.segments.length := by
  have hseg : ∀ segs : List Segment, (segs.flatMap putSegment).length = 16 * segs.length := by
    intro segs
    induction segs with
    | nil => rfl
    | cons s segs ih =>
        rw [List.flatMap_cons, List.length_append, putSegment_length, ih, List.length_cons]
        omega
  rw [serialize, List.length_append, hseg, putSize, Prim.put_length]
  rfl

theorem reads_segment (s : Segment) : Reads readSegment (putSegment s) s :=
  Reads.bind (Reads.prim Prim.uint64LE s.base)
    (Reads.map (f := fun n => (⟨s.base, n⟩ : Segment)) (Reads.prim Prim.uint64LE s.len))

theorem reads_segments (b : Bulk) : Reads readSegments (serialize b) b.segments := by
  have hcount : b.segments.length < 2 ^ 64 := Nat.lt_trans b.count (by decide)
  have hloop := Reads.loop
    (fun segments => readSegment >>= fun s => (pure (segments ++ [s]) : Load (List Segment)))
    putSegment (fun segments s => segments ++ [s]) b.segments
    (fun segments s _ => Reads.map (f := fun s => segments ++ [s]) (reads_segment s)) []
  have hfold := foldl_snoc (id : Segment → Segment) b.segments []
  rw [List.map_id, List.nil_append] at hfold
  rw [show b.segments.foldl (fun segments s => segments ++ [s]) [] = b.segments from hfold] at hloop
  exact Reads.bind (Reads.size Prim.uint64LE hcount) hloop

theorem deserialize_serialize (b : Bulk) (rest : Bytes) :
    deserialize (serialize b ++ rest) (serialize b).length = some b := by
  have hread := reads_segments b []
  rw [List.append_nil] at hread
  unfold deserialize
  rw [List.take_left, hread]
  exact dif_pos ⟨b.count, b.disjoint, b.fits⟩

theorem access_piece (segs : List Segment) {o n p k : Nat} (h : access segs o n = some (p, k)) :
    k ≤ n ∧ ∀ i < k, (segs.flatMap Segment.addresses)[o + i]? = some (p + i) := by
  induction segs generalizing o with
  | nil => cases h
  | cons s rest ih =>
      have hlen : s.addresses.length = s.len.toNat := List.length_range'
      rw [access] at h
      by_cases ho : o < s.len.toNat
      · rw [if_pos ho] at h
        cases h
        refine ⟨Nat.min_le_left _ _, fun i hi => ?_⟩
        have hi' : o + i < s.len.toNat := by omega
        rw [List.flatMap_cons, List.getElem?_append_left (by omega), Segment.addresses,
          List.getElem?_range' hi', Nat.one_mul, Nat.add_assoc]
      · rw [if_neg ho] at h
        obtain ⟨hk, hat⟩ := ih h
        refine ⟨hk, fun i hi => ?_⟩
        rw [List.flatMap_cons, List.getElem?_append_right (by omega), hlen,
          show o + i - s.len.toNat = o - s.len.toNat + i by omega]
        exact hat i hi

end Loopback

/-- The process whose address is the empty string. -/
def noName : Endpoint := ⟨[], by decide⟩

/-- Another process. -/
def server : Endpoint := ⟨[1], by decide⟩

/-- The process `self`, in a network where every string is an address. -/
def Margo.loopback (self : Endpoint) : Margo where
  self := self
  lookup a :=
    if h : a.length < 2 ^ 62 then .ok ⟨a, h⟩ else .error (.thallium (text "lookup failed"))
  lookup_address e := dif_pos e.fits
  resize n := n < 2 ^ 62
  resize_address e := decide_eq_true e.fits
  serialize := Loopback.serialize
  serialize_fits b := by
    have := b.count
    rw [Loopback.serialize_length]
    omega
  deserialize := Loopback.deserialize
  deserialize_serialize := Loopback.deserialize_serialize
  touched _ n := n
  touched_le _ _ := Nat.le_refl _
  access b o n := .ok (Loopback.access b.segments o n)
  access_piece b o n p k h := Loopback.access_piece b.segments (Except.ok.inj h)

end Poesie
