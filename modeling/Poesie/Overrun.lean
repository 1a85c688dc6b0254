import Poesie.MemoryView

set_option autoImplicit false

/-! # Where the constructor from JSON reads

`isMemoryView` looks at the subtype of a binary and not at its bytes, and the constructor
takes its cursor positions from two sizes it finds in those bytes. `InRange` says which
binaries it reads without leaving them.
-/

namespace Poesie

open Wire Json

/-- The computation does not read outside the binary. -/
def StaysInside {α : Type} (r : Except Fault α) : Prop :=
  ∀ off n, r ≠ .error (.outOfRange off n)

/-- The two sizes in the binary, and what they ask for, fit in it: the owner's string, when
there is room for it at all, the part of the serialised bulk that is looked at, and the last
two fields, at a cursor that may have wrapped. -/
def InRange (m : Margo) (bin : Bytes) : Prop :=
  9 ≤ bin.length ∧
    let ownerSize := ofLE ((bin.drop 1).take 8)
    m.resize ownerSize = true →
      17 + ownerSize ≤ bin.length ∧
        let bulkSize := ofLE ((bin.drop (9 + ownerSize)).take 8)
        m.touched (bin.drop (17 + ownerSize)) bulkSize ≤ bin.length - (17 + ownerSize) ∧
          (17 + ownerSize + bulkSize) % 2 ^ 64 + 16 ≤ bin.length

/-- The size in eight bytes. -/
theorem size_of_bytes_toNat (bin : Bytes) (k : Nat) :
    (UInt64.ofNat (ofLE ((bin.drop k).take 8))).toNat = ofLE ((bin.drop k).take 8) := by
  apply UInt64.toNat_ofNat_of_lt'
  calc ofLE ((bin.drop k).take 8) < 256 ^ ((bin.drop k).take 8).length := ofLE_lt _
    _ ≤ 256 ^ 8 := Nat.pow_le_pow_right (by decide) (List.length_take_le 8 _)
    _ = UInt64.size := by decide

/-! ## One read after the other -/

section

variable {α : Type} {bin : Bytes} {off : UInt64} {k : Nat}

theorem staysInside_readAt {n : Nat} {f : Bytes → Except Fault α} (hoff : off.toNat = k) :
    StaysInside (readAt bin off n >>= f) ↔
      k + n ≤ bin.length ∧ StaysInside (f ((bin.drop k).take n)) := by
  subst hoff
  by_cases h : off.toNat + n ≤ bin.length
  · rw [readAt_of_le h]
    exact ⟨fun hs => ⟨h, hs⟩, And.right⟩
  · rw [readAt_of_lt (by omega)]
    constructor
    · intro hs
      exact absurd rfl (hs off.toNat n)
    · rintro ⟨hle, -⟩
      exact absurd hle h

theorem staysInside_readSizeAt {f : UInt64 → Except Fault α} (hoff : off.toNat = k) :
    StaysInside (readSizeAt bin off >>= f) ↔
      k + 8 ≤ bin.length ∧ StaysInside (f (UInt64.ofNat (ofLE ((bin.drop k).take 8)))) := by
  have hread : StaysInside (readAt bin off 8 >>= fun bs => f (UInt64.ofNat (ofLE bs))) ↔ _ :=
    staysInside_readAt hoff
  rw [← hread]
  unfold readSizeAt
  cases readAt bin off 8 <;> rfl

theorem staysInside_readBulkAt (m : Margo) {n : Nat} {f : Option Bulk → Except Fault α}
    (hoff : off.toNat = k) :
    StaysInside (readBulkAt m bin off n >>= f) ↔
      m.touched (bin.drop k) n ≤ bin.length - k ∧
        StaysInside (f (m.deserialize (bin.drop k) n)) := by
  subst hoff
  unfold readBulkAt
  have hlen : (bin.drop off.toNat).length = bin.length - off.toNat := List.length_drop
  by_cases h : m.touched (bin.drop off.toNat) n ≤ bin.length - off.toNat
  · rw [if_pos (hlen ▸ h)]
    exact ⟨fun hs => ⟨h, hs⟩, And.right⟩
  · rw [if_neg (hlen ▸ h)]
    constructor
    · intro hs
      exact absurd rfl (hs off.toNat _)
    · rintro ⟨hle, -⟩
      exact absurd hle h

theorem staysInside_finish (r : Except CppException α) :
    StaysInside (r.mapError .thrown) := by
  intro off n
  cases r with
  | ok v => exact fun h => by cases h
  | error e => exact fun h => by cases h

/-- The part behind the owner's string, from position `k` on. The cursor that reaches the
last two fields may have wrapped. -/
theorem staysInside_behind_owner (m : Margo) (hbin : bin.length < 2 ^ 64)
    (hoff : off.toNat = k)
    (finish : Option Bulk → UInt64 → UInt64 → Except CppException α) :
    StaysInside (do
      let bulkSize ← readSizeAt bin off
      let off := off + 8
      let bulk ← readBulkAt m bin off bulkSize.toNat
      let off := off + bulkSize
      let remoteOffset ← readSizeAt bin off
      let off := off + 8
      let remoteSize ← readSizeAt bin off
      (finish bulk remoteOffset remoteSize).mapError .thrown) ↔
    k + 8 ≤ bin.length ∧
      m.touched (bin.drop (k + 8)) (ofLE ((bin.drop k).take 8)) ≤ bin.length - (k + 8) ∧
        (k + 8 + ofLE ((bin.drop k).take 8)) % 2 ^ 64 + 16 ≤ bin.length := by
  rw [staysInside_readSizeAt hoff]
  apply and_congr_right
  intro hk8
  have hsize := size_of_bytes_toNat bin k
  have hoff' : (off + 8).toNat = k + 8 := by
    rw [UInt64.toNat_add, hoff]
    exact Nat.mod_eq_of_lt (by show k + 8 < 2 ^ 64; omega)
  rw [staysInside_readBulkAt m hoff', hsize]
  apply and_congr_right
  intro _
  generalize ofLE ((bin.drop k).take 8) = bulkSize at hsize ⊢
  -- the offset behind the bulk is computed in 64 bits and may wrap around
  have hoff'' : (off + 8 + UInt64.ofNat bulkSize).toNat = (k + 8 + bulkSize) % 2 ^ 64 := by
    rw [UInt64.toNat_add, hoff', hsize]
  generalize (k + 8 + bulkSize) % 2 ^ 64 = p at hoff'' ⊢
  rw [staysInside_readSizeAt hoff'']
  constructor
  · rintro ⟨hp, hrest⟩
    have hlast : (off + 8 + UInt64.ofNat bulkSize + 8).toNat = p + 8 := by
      rw [UInt64.toNat_add, hoff'']
      exact Nat.mod_eq_of_lt (by show p + 8 < 2 ^ 64; omega)
    have := ((staysInside_readSizeAt hlast).mp hrest).1
    omega
  · intro hp
    have hlast : (off + 8 + UInt64.ofNat bulkSize + 8).toNat = p + 8 := by
      rw [UInt64.toNat_add, hoff'']
      exact Nat.mod_eq_of_lt (by show p + 8 < 2 ^ 64; omega)
    refine ⟨by omega, (staysInside_readSizeAt hlast).mpr ⟨by omega, ?_⟩⟩
    exact staysInside_finish _

end

/-! ## The whole constructor -/

theorem staysInside_ofBinary (m : Margo) {bin : Bytes} (hbin : bin.length < 2 ^ 64) :
    StaysInside (ofBinary m bin) ↔ InRange m bin := by
  unfold ofBinary InRange
  rw [staysInside_readAt (k := 0) rfl, staysInside_readSizeAt (k := 1) rfl,
    size_of_bytes_toNat bin 1]
  have hsize := size_of_bytes_toNat bin 1
  let finish := fun n => assemble m ⟨((bin.drop 0).take 1).headD 0⟩ ((bin.drop 9).take n)
  generalize ofLE ((bin.drop 1).take 8) = ownerSize at hsize ⊢
  constructor
  · rintro ⟨-, h9, h⟩
    refine ⟨h9, fun hr => ?_⟩
    -- a string of that size can be made, so that the reads go on
    rw [hr] at h
    obtain ⟨howner, h⟩ := (staysInside_readAt (k := 9) rfl).mp h
    have hoff : (0 + 1 + 8 + UInt64.ofNat ownerSize).toNat = 9 + ownerSize := by
      rw [UInt64.toNat_add, hsize]
      exact Nat.mod_eq_of_lt (by show 9 + ownerSize < 2 ^ 64; omega)
    have htail := (staysInside_behind_owner m hbin hoff (finish ownerSize)).mp h
    rw [show 9 + ownerSize + 8 = 17 + ownerSize by omega] at htail
    exact htail
  · rintro ⟨h9, h⟩
    refine ⟨by omega, h9, ?_⟩
    cases hr : m.resize ownerSize with
    -- `resize` throws before the next read
    | false => exact fun off n he => by cases he
    | true =>
        have htail := h hr
        rw [show 17 + ownerSize = 9 + ownerSize + 8 by omega] at htail
        have howner : 9 + ownerSize ≤ bin.length := by omega
        have hoff : (0 + 1 + 8 + UInt64.ofNat ownerSize).toNat = 9 + ownerSize := by
          rw [UInt64.toNat_add, hsize]
          exact Nat.mod_eq_of_lt (by show 9 + ownerSize < 2 ^ 64; omega)
        exact (staysInside_readAt (k := 9) rfl).mpr
          ⟨howner, (staysInside_behind_owner m hbin hoff (finish ownerSize)).mpr htail⟩

/-- On a value that is recognised as a view, the constructor stays inside the binary exactly
when its sizes are in range. -/
theorem staysInside_ofJson_iff (m : Margo) (j : JsonValue) (h : isMemoryView j.tree = true) :
    StaysInside (MemoryView.ofJson m j.tree) ↔
      ∃ bin, binaryOf j.tree = .ok bin ∧ InRange m bin := by
  obtain ⟨bin, hbin, hfit⟩ := binaryOf_of_isMemoryView j h
  have hread : MemoryView.ofJson m j.tree = ofBinary m bin := by
    rw [MemoryView.ofJson, h, hbin]
    rfl
  rw [hread, staysInside_ofBinary m hfit]
  constructor
  · intro hin
    exact ⟨bin, hbin, hin⟩
  · rintro ⟨bin', hbin', hin⟩
    rw [hbin] at hbin'
    cases hbin'
    exact hin

/-- A binary of 81 bytes that announces a serialised bulk of 1000 bytes. -/
def longBulk : Bytes := 3 :: leBytes 8 0 ++ leBytes 8 1000 ++ List.replicate 64 7

/-- The binary of a view is in range. A longer one is not, because of a size in it. -/
theorem staysInside_ofJson_sizes :
    StaysInside (MemoryView.ofJson (Margo.loopback server)
        (binary (toBinary (Margo.loopback server) sampleView) (some memoryViewSubtypeCode))) ∧
      (toBinary (Margo.loopback server) sampleView).length < longBulk.length ∧
      ¬ StaysInside (MemoryView.ofJson (Margo.loopback server)
        (binary longBulk (some memoryViewSubtypeCode))) := by
  refine ⟨?_, by decide +kernel, ?_⟩
  · refine (staysInside_ofJson_iff (Margo.loopback server) ⟨binary (toBinary (Margo.loopback server)
      sampleView) (some memoryViewSubtypeCode), .binary _ (by decide +kernel)⟩ rfl).mpr
      ⟨_, rfl, by decide +kernel, fun _ => ⟨?_, ?_, ?_⟩⟩
    all_goals decide +kernel
  · intro h
    obtain ⟨bin, hbin, -, hrange⟩ := (staysInside_ofJson_iff (Margo.loopback server)
      ⟨binary longBulk (some memoryViewSubtypeCode), .binary _ (by decide +kernel)⟩ rfl).mp h
    cases hbin
    have htouched := (hrange (by decide +kernel)).2.1
    exact absurd htouched (by decide +kernel)

/-- An empty binary with the subtype of views is recognised, and read at position 0. -/
theorem ofJson_overruns :
    ¬ ∀ (m : Margo) (j : JsonValue), isMemoryView j.tree = true →
      StaysInside (MemoryView.ofJson m j.tree) := by
  intro h
  have hempty := h (Margo.loopback noName)
    ⟨binary [] (some memoryViewSubtypeCode), .binary _ (by decide)⟩ rfl
  exact hempty 0 1 rfl

end Poesie
