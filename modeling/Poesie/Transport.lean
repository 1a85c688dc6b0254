import Poesie.MemoryView

set_option autoImplicit false

/-! # Memory views across the transports

A view reaches the constructor as the value `toJson` returned, as the object that
`json::parse` makes of the dumped text, or as what `loadJSON` makes of its wire form. All
three are recognised as views and give back the fields of the view.
-/

namespace Poesie

open Wire Json

/-- What `json::parse` makes of a dumped binary. -/
def dumpedBinary (bytes : Bytes) (subtype : Option UInt64) : Json :=
  object [(text "bytes", array (bytes.map fun b => numberUnsigned b.toUInt64)),
    (text "subtype", match subtype with
      | some n => numberUnsigned n
      | none => null)]

inductive Transport where
  | none
  | dump
  | wire (ar : Archive) (rest : Bytes)

/-- The value that arrives. Only binaries are dumped here. -/
def Transport.carry : Transport → Json → Option Json
  | none, j => some j
  | dump, binary bytes subtype => some (dumpedBinary bytes subtype)
  | dump, _ => Option.none
  | wire ar rest, j =>
      match loadFresh ar (saveJSON ar j ++ rest) with
      | .ok (received, _) => some received
      | .error _ => Option.none

theorem all_isByte (bytes : Bytes) :
    (bytes.map fun b => numberUnsigned b.toUInt64).all isByte = true := by
  rw [List.all_map, List.all_eq_true]
  intro b _
  have hb : b.toNat < 256 := b.toNat_lt
  show decide (b.toUInt64 < 256) = true
  rw [decide_eq_true_eq, UInt64.lt_iff_toNat_lt, UInt8.toNat_toUInt64]
  exact hb

/-- A dumped binary is recognised by the low 32 bits of its subtype. -/
theorem isMemoryView_dumped (bytes : Bytes) (n : UInt64) :
    isMemoryView (dumpedBinary bytes (some n)) = (getInt n == 2388) := by
  show (if getInt n != 2388 then false
    else (bytes.map fun b => numberUnsigned b.toUInt64).all isByte) = _
  rw [all_isByte, bne]
  cases getInt n == 2388 <;> rfl

theorem isMemoryView_dumpedBinary (bytes : Bytes) :
    isMemoryView (dumpedBinary bytes (some memoryViewSubtypeCode)) = true := by
  rw [isMemoryView_dumped]
  decide

theorem binaryOf_dumpedBinary (bytes : Bytes) (subtype : Option UInt64) :
    binaryOf (dumpedBinary bytes subtype) = .ok bytes := by
  show (bytes.map fun b => numberUnsigned b.toUInt64).mapM getByte = .ok bytes
  induction bytes with
  | nil => rfl
  | cons b bytes ih =>
      have hb : getByte (numberUnsigned b.toUInt64) = .ok b := by simp [getByte]
      rw [List.map_cons, List.mapM_cons, hb, ih]
      rfl

/-- Every transport delivers something that is recognised and holds the same bytes. -/
theorem carry_binary (t : Transport) {bytes : Bytes} (hfit : bytes.length < 2 ^ 64) :
    ∃ j, t.carry (binary bytes (some memoryViewSubtypeCode)) = some j ∧
      isMemoryView j = true ∧ binaryOf j = .ok bytes := by
  cases t with
  | none => exact ⟨_, rfl, rfl, rfl⟩
  | dump => exact ⟨_, rfl, isMemoryView_dumpedBinary bytes, binaryOf_dumpedBinary bytes _⟩
  | wire ar rest =>
      have hread := loadFresh_saveJSON ar
        (WellFormed.binary (some memoryViewSubtypeCode) hfit) rest
      refine ⟨binary bytes (some memoryViewSubtypeCode), ?_, rfl, rfl⟩
      rw [Transport.carry, hread]
      rfl

/-- A view comes back from every transport with the same fields. -/
theorem ofJson_toJson (m : Margo) {v : MemoryViewImpl} (hv : v.Accepted) (t : Transport) :
    (∃ j, t.carry (MemoryView.toJson m (some v)) = some j ∧ isMemoryView j = true ∧
      MemoryView.ofJson m j = .ok v.fresh) ∧
    (toBinary m v.toRemoteView).length = (binSize m v.toRemoteView).toNat ∧
    (∀ p < (binSize m v.toRemoteView).toNat,
      (layout 0 (fields m v.toRemoteView)).countP (covers p) = 1) ∧
    ∀ w ∈ layout 0 (fields m v.toRemoteView),
      w.1.toNat + w.2.length ≤ (binSize m v.toRemoteView).toNat := by
  have hlen : (toBinary m v.toRemoteView).length = (binSize m v.toRemoteView).toNat := by
    rw [toBinary_eq, binSize_toNat]
  refine ⟨?_, hlen, toBinary_writes_once m v.toRemoteView⟩
  have hfit : (toBinary m v.toRemoteView).length < 2 ^ 64 := by
    rw [hlen]
    exact (binSize m v.toRemoteView).toNat_lt
  obtain ⟨j, hcarry, hview, hbytes⟩ := carry_binary t hfit
  refine ⟨j, hcarry, hview, ?_⟩
  rw [MemoryView.ofJson, hview, hbytes]
  exact ofBinary_toBinary m hv

/-- The sample view, dumped and parsed again. -/
theorem ofJson_toJson_sample :
    ∃ j, Transport.dump.carry
        (MemoryView.toJson (Margo.loopback noName) (some sampleView.fresh)) = some j ∧
      isMemoryView j = true ∧
      MemoryView.ofJson (Margo.loopback noName) j = .ok sampleView.fresh :=
  (ofJson_toJson (Margo.loopback noName) (v := sampleView.fresh) sampleView_accepted .dump).1

/-! ## The two JSON forms -/

/-- The binary and the object it is dumped to are both views or neither is, and if they are,
the constructor makes the same of them. -/
def SameForms (m : Margo) (bytes : Bytes) (subtype : Option UInt64) : Prop :=
  isMemoryView (binary bytes subtype) = isMemoryView (dumpedBinary bytes subtype) ∧
    (isMemoryView (binary bytes subtype) = true →
      MemoryView.ofJson m (binary bytes subtype)
        = MemoryView.ofJson m (dumpedBinary bytes subtype))

/-- `get<int>()` keeps the low 32 bits. -/
theorem getInt_eq_code (n : UInt64) : getInt n = 2388 ↔ n.toNat % 2 ^ 32 = 2388 := by
  have hcode : (2388 : Int32).toUInt32 = 2388 := by decide
  have hint : getInt n = 2388 ↔ n.toUInt32 = 2388 := by
    constructor
    · intro h
      have hlow := congrArg Int32.toUInt32 h
      rwa [hcode] at hlow
    · intro h
      rw [getInt, h]
      decide
  rw [hint, ← UInt32.toNat_inj, UInt64.toNat_toUInt32]
  rfl

theorem ofJson_binary (m : Margo) (bytes : Bytes) :
    MemoryView.ofJson m (binary bytes (some memoryViewSubtypeCode)) = ofBinary m bytes := rfl

theorem ofJson_dumpedBinary (m : Margo) (bytes : Bytes) :
    MemoryView.ofJson m (dumpedBinary bytes (some memoryViewSubtypeCode)) = ofBinary m bytes := by
  rw [MemoryView.ofJson, isMemoryView_dumpedBinary, binaryOf_dumpedBinary]
  rfl

/-- The forms agree except on a foreign subtype with the low 32 bits of the view's own. -/
theorem sameForms_iff (m : Margo) (bytes : Bytes) (subtype : Option UInt64) :
    SameForms m bytes subtype ↔
      ∀ n, subtype = some n → n = memoryViewSubtypeCode ∨ n.toNat % 2 ^ 32 ≠ 2388 := by
  cases subtype with
  | none =>
      constructor
      · intro _ n hn
        cases hn
      · intro _
        exact ⟨rfl, fun h => by cases h⟩
  | some n =>
      have hbinary : isMemoryView (binary bytes (some n)) = (n == memoryViewSubtypeCode) := rfl
      unfold SameForms
      rw [hbinary, isMemoryView_dumped]
      by_cases hn : n = memoryViewSubtypeCode
      · subst hn
        constructor
        · intro _ k hk
          exact .inl (Option.some.inj hk).symm
        · intro _
          refine ⟨by decide, fun _ => ?_⟩
          rw [ofJson_binary, ofJson_dumpedBinary]
      · have hfalse : (n == memoryViewSubtypeCode) = false := beq_eq_false_iff_ne.mpr hn
        rw [hfalse]
        constructor
        · rintro ⟨hint, -⟩ k hk
          cases hk
          have hne : getInt n ≠ 2388 := beq_eq_false_iff_ne.mp hint.symm
          exact .inr (mt (getInt_eq_code n).mpr hne)
        · intro hall
          -- `get<int>` compares the low 32 bits only
          have hlow := (hall n rfl).resolve_left hn
          have hint : (getInt n == 2388) = false :=
            beq_eq_false_iff_ne.mpr (mt (getInt_eq_code n).mp hlow)
          exact ⟨hint.symm, fun h => by cases h⟩

/-- Subtype 2388 + 2 ^ 32 is no view as a binary, and a view once it is dumped. -/
theorem foreign_subtype_differs :
    ¬ ∀ (m : Margo) (bytes : Bytes) (subtype : Option UInt64), SameForms m bytes subtype := by
  intro h
  have hforms := h (Margo.loopback noName) [] (some 4294969684)
  exact absurd hforms.1 (by decide)

end Poesie
