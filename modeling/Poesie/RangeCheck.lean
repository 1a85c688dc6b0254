import Poesie.MemoryView

set_option autoImplicit false

/-! # The range check of the constructor

The constructor of a view compares one sum of 64-bit words with the size of the bulk. The
range it is to accept, with the documented defaults, is stated over the natural numbers.
-/

namespace Poesie

open Wire

/-- The range of the view lies in its bulk. -/
def RemoteView.Inside (v : RemoteView) : Prop :=
  v.remoteOffset.toNat + v.remoteSize.toNat ≤ v.remoteBulk.size.toNat

/-- The documented offset: 0 where none is given. -/
def documentedOffset (offsetOpt : Option UInt64) : Nat := (offsetOpt.getD 0).toNat

/-- The documented size: what is left of the bulk where none is given. -/
def documentedSize (b : Bulk) (offsetOpt : Option UInt64) : Option UInt64 → Nat
  | some size => size.toNat
  | none => b.size.toNat - documentedOffset offsetOpt

/-- A call of the constructor succeeds exactly on a range inside the bulk, and the view then
has that range. -/
def RangeChecked (b : Bulk) (owner : Endpoint) (intent : Intent)
    (offsetOpt sizeOpt : Option UInt64) : Prop :=
  ((∃ v, MemoryView.make b owner intent offsetOpt sizeOpt = .ok v) ↔
    documentedOffset offsetOpt + documentedSize b offsetOpt sizeOpt ≤ b.size.toNat) ∧
  ∀ v, MemoryView.make b owner intent offsetOpt sizeOpt = .ok v →
    v.remoteOffset.toNat = documentedOffset offsetOpt ∧
      v.remoteSize.toNat = documentedSize b offsetOpt sizeOpt

/-- The arguments on which the 64-bit sum, with the whole bulk as the default size, tells the
same as the sum of natural numbers. -/
def SumExact (b : Bulk) (offsetOpt : Option UInt64) : Option UInt64 → Prop
  | some size =>
      documentedOffset offsetOpt + size.toNat < 2 ^ 64 ∨
        b.size.toNat + 2 ^ 64 < documentedOffset offsetOpt + size.toNat
  | none =>
      documentedOffset offsetOpt = 0 ∨
        (b.size.toNat < documentedOffset offsetOpt ∧
          documentedOffset offsetOpt + b.size.toNat < 2 ^ 64)

/-- What the constructor tests, over the natural numbers. -/
theorem make_ok_iff {b : Bulk} {owner : Endpoint} {intent : Intent}
    {offsetOpt sizeOpt : Option UInt64} :
    (∃ v, MemoryView.make b owner intent offsetOpt sizeOpt = .ok v) ↔
      (documentedOffset offsetOpt + (sizeOpt.getD b.size).toNat) % 2 ^ 64 ≤ b.size.toNat := by
  have hsum : (offsetOpt.getD 0 + sizeOpt.getD b.size).toNat
      = (documentedOffset offsetOpt + (sizeOpt.getD b.size).toNat) % 2 ^ 64 := UInt64.toNat_add _ _
  rw [← hsum, ← UInt64.le_iff_toNat_le]
  constructor
  · rintro ⟨v, hv⟩
    obtain ⟨rfl, haccepted⟩ := make_eq_ok_iff.mp hv
    exact UInt64.not_lt.mp haccepted
  · intro hle
    exact ⟨_, make_eq_ok_iff.mpr ⟨rfl, UInt64.not_lt.mpr hle⟩⟩

/-- A view has the offset and the size that were given, and the size of the bulk where none
was. -/
theorem make_range {b : Bulk} {owner : Endpoint} {intent : Intent}
    {offsetOpt sizeOpt : Option UInt64} {v : MemoryViewImpl}
    (h : MemoryView.make b owner intent offsetOpt sizeOpt = .ok v) :
    v.remoteOffset.toNat = documentedOffset offsetOpt ∧
      v.remoteSize.toNat = (sizeOpt.getD b.size).toNat := by
  obtain ⟨rfl, -⟩ := make_eq_ok_iff.mp h
  exact ⟨rfl, rfl⟩

/-- With a size given, the sum is right unless it wraps back into the bulk. -/
theorem rangeChecked_given (b : Bulk) (owner : Endpoint) (intent : Intent)
    (offsetOpt : Option UInt64) (size : UInt64) :
    RangeChecked b owner intent offsetOpt (some size) ↔ SumExact b offsetOpt (some size) := by
  have hN := b.size.toNat_lt
  have ho : documentedOffset offsetOpt < 2 ^ 64 := (offsetOpt.getD 0).toNat_lt
  have hs := size.toNat_lt
  have hmake : (∃ v, MemoryView.make b owner intent offsetOpt (some size) = .ok v) ↔
      (documentedOffset offsetOpt + size.toNat) % 2 ^ 64 ≤ b.size.toNat := make_ok_iff
  unfold RangeChecked
  rw [hmake]
  simp only [SumExact, documentedSize]
  constructor
  · rintro ⟨hiff, -⟩
    omega
  · intro hexact
    refine ⟨by omega, fun v hv => make_range hv⟩

/-- With no size given, the whole bulk is right only for offset 0, and an offset past the end
is refused unless the sum wraps. -/
theorem rangeChecked_omitted (b : Bulk) (owner : Endpoint) (intent : Intent)
    (offsetOpt : Option UInt64) :
    RangeChecked b owner intent offsetOpt none ↔ SumExact b offsetOpt none := by
  have hN := b.size.toNat_lt
  have ho : documentedOffset offsetOpt < 2 ^ 64 := (offsetOpt.getD 0).toNat_lt
  have hmake : (∃ v, MemoryView.make b owner intent offsetOpt none = .ok v) ↔
      (documentedOffset offsetOpt + b.size.toNat) % 2 ^ 64 ≤ b.size.toNat := make_ok_iff
  unfold RangeChecked
  rw [hmake]
  simp only [SumExact, documentedSize]
  constructor
  · rintro ⟨hiff, hrange⟩
    by_cases hok : ∃ v, MemoryView.make b owner intent offsetOpt none = .ok v
    · obtain ⟨v, hv⟩ := hok
      have hwhole : v.remoteSize.toNat = b.size.toNat := (make_range hv).2
      have hleft := (hrange v hv).2
      have hfits := hmake.mp ⟨v, hv⟩
      omega
    · have hrefused := mt hmake.mpr hok
      omega
  · intro hexact
    refine ⟨by omega, fun v hv => ?_⟩
    have hmade := make_range hv
    have hfits := hmake.mp ⟨v, hv⟩
    rw [Option.getD_none] at hmade
    omega

/-- The constructor checks the range exactly where the sum is exact; a decoded view, whose
offset and size are both given, lies in its bulk exactly where its own sum is. -/
theorem rangeChecked_iff (m : Margo) :
    (∀ (b : Bulk) (owner : Endpoint) (intent : Intent) (offsetOpt sizeOpt : Option UInt64),
      RangeChecked b owner intent offsetOpt sizeOpt ↔ SumExact b offsetOpt sizeOpt) ∧
    ∀ (j : Json) (v : MemoryViewImpl), MemoryView.ofJson m j = .ok v →
      (v.Inside ↔ SumExact v.remoteBulk (some v.remoteOffset) (some v.remoteSize)) := by
  constructor
  · intro b owner intent offsetOpt sizeOpt
    cases sizeOpt with
    | none => exact rangeChecked_omitted b owner intent offsetOpt
    | some size => exact rangeChecked_given b owner intent offsetOpt size
  · intro j v hv
    obtain ⟨hfresh, haccepted⟩ := made_of_ofJson hv
    have hmade : MemoryView.make v.remoteBulk v.remoteEp v.intent (some v.remoteOffset)
        (some v.remoteSize) = .ok v := make_eq_ok_iff.mpr ⟨hfresh, haccepted⟩
    rw [← rangeChecked_given v.remoteBulk v.remoteEp v.intent]
    constructor
    · intro hinside
      exact ⟨iff_of_true ⟨v, hmade⟩ hinside, fun v' hv' => make_range hv'⟩
    · rintro ⟨hiff, -⟩
      exact hiff.mp ⟨v, hmade⟩

/-- The view that the sample view decodes to lies in its bulk. -/
theorem rangeChecked_sample :
    sampleView.fresh.Inside ↔
      SumExact sampleView.remoteBulk (some sampleView.remoteOffset) (some sampleView.remoteSize) :=
  (rangeChecked_iff (Margo.loopback noName)).2
    (.binary (toBinary (Margo.loopback noName) sampleView) (some memoryViewSubtypeCode))
    sampleView.fresh (ofBinary_toBinary _ sampleView_accepted)

/-- Offset 2 ^ 64 - 1 and size 2 wrap to 1; offset 1 with no size asks for one byte too many. -/
theorem rangeChecked_fails :
    (¬ ∀ (b : Bulk) (owner : Endpoint) (intent : Intent) (offsetOpt sizeOpt : Option UInt64),
      RangeChecked b owner intent offsetOpt sizeOpt) ∧
    ¬ RangeChecked sampleView.remoteBulk noName .IN (some 0xffffffffffffffff) (some 2) ∧
    ¬ RangeChecked sampleView.remoteBulk noName .IN (some 1) none := by
  have hwrap : ¬ RangeChecked sampleView.remoteBulk noName .IN (some 0xffffffffffffffff)
      (some 2) := by
    rw [rangeChecked_given]
    unfold SumExact
    decide
  refine ⟨fun h => hwrap (h _ _ _ _ _), hwrap, ?_⟩
  rw [rangeChecked_omitted]
  unfold SumExact
  decide

end Poesie
