import Poesie.Overrun

set_option autoImplicit false

/-! # What a decoded view came from

The constructor from JSON takes its fields from the front of a binary: it compares the first
byte with nothing and does not ask what follows the last field. With a transport that takes an
address or a bulk from exactly its bytes, a binary it accepts is what `toJson` writes for the
decoded view, followed by bytes that were never read.
-/

namespace Poesie

open Wire Json

/-- Addresses and bulks are accepted from exactly the bytes they are written as. -/
structure Margo.Exact (m : Margo) : Prop where
  lookup : ∀ a e, m.lookup a = .ok e → e.address = a
  deserialize : ∀ buf n b, m.deserialize buf n = some b →
    n ≤ buf.length ∧ m.serialize b = buf.take n

/-- `owner_size` -/
def ownerSize (bin : Bytes) : Nat := ofLE ((bin.drop 1).take 8)

/-- `bulk_size` -/
def bulkSize (bin : Bytes) : Nat := ofLE ((bin.drop (9 + ownerSize bin)).take 8)

/-- `IN`, `OUT` or `INOUT` -/
def Intent.Declared (i : Intent) : Prop := i = .IN ∨ i = .OUT ∨ i = .INOUT

theorem Intent.declared_iff (i : Intent) :
    i.Declared ↔ i.code = 1 ∨ i.code = 2 ∨ i.code = 3 := by
  obtain ⟨c⟩ := i
  simp [Declared, IN, OUT, INOUT]

/-! ## One field after the other -/

section

variable {bin s x : Bytes} {off : UInt64}

/-- What is read at the cursor comes first in what was left. -/
theorem readAt_split {n : Nat} (h : AtCursor bin off s) (hr : readAt bin off n = .ok x) :
    x.length = n ∧ ∃ rest, s = x ++ rest := by
  have hlen := h.inside
  unfold readAt at hr
  by_cases hn : off.toNat + n ≤ bin.length
  · rw [if_pos hn, h.drop] at hr
    cases hr
    refine ⟨?_, s.drop n, (List.take_append_drop n s).symm⟩
    rw [List.length_take]
    omega
  · rw [if_neg hn] at hr
    cases hr

theorem readSizeAt_split {n : UInt64} (h : AtCursor bin off s)
    (hr : readSizeAt bin off = .ok n) : ∃ rest, s = sizeBytes n ++ rest := by
  unfold readSizeAt at hr
  cases hx : readAt bin off 8 with
  | error e =>
      rw [hx] at hr
      cases hr
  | ok x =>
      rw [hx] at hr
      cases hr
      obtain ⟨hlen, rest, hs⟩ := readAt_split h hx
      have hlt : ofLE x < 2 ^ 64 := by
        have := ofLE_lt x
        rwa [hlen] at this
      refine ⟨rest, ?_⟩
      rw [sizeBytes, UInt64.toNat_ofNat_of_lt' hlt, ← hlen, leBytes_ofLE]
      exact hs

theorem readBulkAt_split {m : Margo} (hm : m.Exact) {n : Nat} {b : Bulk} (h : AtCursor bin off s)
    (hr : readBulkAt m bin off n = .ok (some b)) :
    (m.serialize b).length = n ∧ ∃ rest, s = m.serialize b ++ rest := by
  unfold readBulkAt at hr
  rw [h.drop] at hr
  by_cases ht : m.touched s n ≤ s.length
  · rw [if_pos ht] at hr
    obtain ⟨hn, hb⟩ := hm.deserialize s n b (Except.ok.inj hr)
    refine ⟨?_, s.drop n, ?_⟩
    · rw [hb, List.length_take]
      omega
    · rw [hb, List.take_append_drop]
  · rw [if_neg ht] at hr
    cases hr

end

theorem assemble_eq_ok {m : Margo} (hm : m.Exact) {intent : Intent} {owner : Bytes}
    {bulk : Option Bulk} {remoteOffset remoteSize : UInt64} {v : MemoryViewImpl}
    (h : assemble m intent owner bulk remoteOffset remoteSize = .ok v) :
    v.intent = intent ∧ v.remoteEp.address = owner ∧ bulk = some v.remoteBulk ∧
      v.remoteOffset = remoteOffset ∧ v.remoteSize = remoteSize := by
  obtain ⟨remoteEp, hlookup, hmake⟩ := ok_of_bind h
  cases bulk with
  | none => cases hmake
  | some b =>
      obtain ⟨rfl, -⟩ := make_eq_ok_iff.mp hmake
      exact ⟨rfl, hm.lookup owner remoteEp hlookup, rfl, rfl, rfl⟩

/-- A binary that is accepted starts with the fields of the view that comes out. -/
theorem fields_of_ofBinary {m : Margo} (hm : m.Exact) {bin : Bytes} (hbin : bin.length < 2 ^ 64)
    {v : MemoryViewImpl} (h : ofBinary m bin = .ok v) :
    ∃ rest, bin = (fields m v.toRemoteView).flatten ++ rest := by
  obtain ⟨intent, r₁, h⟩ := ok_of_bind h
  obtain ⟨ownerSize, r₂, h⟩ := ok_of_bind h
  cases hr : m.resize ownerSize.toNat with
  | false =>
      rw [hr] at h
      cases h
  | true =>
      rw [hr] at h
      obtain ⟨owner, r₃, h⟩ := ok_of_bind h
      obtain ⟨bulkSize, r₄, h⟩ := ok_of_bind h
      obtain ⟨bulk, r₅, h⟩ := ok_of_bind h
      obtain ⟨remoteOffset, r₆, h⟩ := ok_of_bind h
      obtain ⟨remoteSize, r₇, h⟩ := ok_of_bind h
      have hview : assemble m ⟨intent.headD 0⟩ owner bulk remoteOffset remoteSize = .ok v := by
        cases ha : assemble m ⟨intent.headD 0⟩ owner bulk remoteOffset remoteSize with
        | error e =>
            rw [ha] at h
            cases h
        | ok v' =>
            rw [ha] at h
            cases h
            rfl
      obtain ⟨hintent, howner, rfl, rfl, rfl⟩ := assemble_eq_ok hm hview
      -- the bytes that are left, field by field
      have c₀ := AtCursor.start bin
      obtain ⟨l₁, s₁, e₁⟩ := readAt_split c₀ r₁
      have c₀' : AtCursor bin 0 (intent ++ s₁) := by
        rw [← e₁]
        exact c₀
      have c₁ := AtCursor.advance hbin c₀'
      rw [l₁] at c₁
      obtain ⟨s₂, e₂⟩ := readSizeAt_split c₁ r₂
      have c₂ := cursor_past_size hbin (e₂ ▸ c₁)
      obtain ⟨l₃, s₃, e₃⟩ := readAt_split c₂ r₃
      have c₃ := AtCursor.advance hbin (e₃ ▸ c₂)
      rw [l₃, UInt64.ofNat_toNat] at c₃
      obtain ⟨s₄, e₄⟩ := readSizeAt_split c₃ r₄
      have c₄ := cursor_past_size hbin (e₄ ▸ c₃)
      obtain ⟨l₅, s₅, e₅⟩ := readBulkAt_split hm c₄ r₅
      have c₅ := AtCursor.advance hbin (e₅ ▸ c₄)
      rw [l₅, UInt64.ofNat_toNat] at c₅
      obtain ⟨s₆, e₆⟩ := readSizeAt_split c₅ r₆
      have c₆ := cursor_past_size hbin (e₆ ▸ c₅)
      obtain ⟨s₇, e₇⟩ := readSizeAt_split c₆ r₇
      obtain ⟨i, rfl⟩ := List.length_eq_one_iff.mp l₁
      have hi : v.intent.code = i := congrArg Intent.code hintent
      have hsize : UInt64.ofNat owner.length = ownerSize := by rw [l₃, UInt64.ofNat_toNat]
      have hbulk : UInt64.ofNat (m.serialize v.remoteBulk).length = bulkSize := by
        rw [l₅, UInt64.ofNat_toNat]
      refine ⟨s₇, ?_⟩
      simp only [fields, hi, howner, hsize, hbulk, List.flatten_cons, List.flatten_nil,
        List.append_assoc, List.nil_append]
      rw [← e₇, ← e₆, ← e₅, ← e₄, ← e₃, ← e₂]
      exact e₁

/-! ## The two sizes -/

theorem ofLE_sizeBytes (n : UInt64) : ofLE (sizeBytes n) = n.toNat :=
  ofLE_leBytes_of_lt n.toNat_lt

theorem take_size (n : UInt64) (s : Bytes) : (sizeBytes n ++ s).take 8 = sizeBytes n :=
  List.take_left' (leBytes_length 8 _)

theorem ownerSize_fields (m : Margo) (v : RemoteView) (rest : Bytes) :
    ownerSize ((fields m v).flatten ++ rest) = v.remoteEp.address.length := by
  have hfit : v.remoteEp.address.length < 2 ^ 64 := Nat.lt_trans v.remoteEp.fits (by decide)
  simp only [ownerSize, fields, List.flatten_cons, List.cons_append, List.nil_append,
    List.append_assoc, List.drop_succ_cons, List.drop_zero]
  rw [take_size, ofLE_sizeBytes, UInt64.toNat_ofNat_of_lt' hfit]

theorem bulkSize_fields (m : Margo) (v : RemoteView) (rest : Bytes) :
    bulkSize ((fields m v).flatten ++ rest) = (m.serialize v.remoteBulk).length := by
  have hfit : (m.serialize v.remoteBulk).length < 2 ^ 64 :=
    Nat.lt_trans (m.serialize_fits v.remoteBulk) (by decide)
  have hfront : ([v.intent.code] ++ (sizeBytes (UInt64.ofNat v.remoteEp.address.length)
      ++ v.remoteEp.address)).length = 9 + v.remoteEp.address.length := by
    simp only [List.length_append, List.length_singleton, sizeBytes, leBytes_length]
    omega
  have hsplit : (fields m v).flatten ++ rest
      = ([v.intent.code] ++ (sizeBytes (UInt64.ofNat v.remoteEp.address.length)
          ++ v.remoteEp.address))
        ++ (sizeBytes (UInt64.ofNat (m.serialize v.remoteBulk).length)
          ++ (m.serialize v.remoteBulk ++ (sizeBytes v.remoteOffset
            ++ (sizeBytes v.remoteSize ++ rest)))) := by
    simp only [fields, List.flatten_cons, List.flatten_nil, List.append_assoc, List.nil_append]
  rw [bulkSize, ownerSize_fields, hsplit, List.drop_left' hfront,
    take_size, ofLE_sizeBytes, UInt64.toNat_ofNat_of_lt' hfit]

/-! ## When the view gives the binary back -/

/-- The view writes back the part of the binary that was read. -/
theorem toBinary_of_ofBinary {m : Margo} (hm : m.Exact) {bin : Bytes}
    (hbin : bin.length < 2 ^ 64) {v : MemoryViewImpl} (h : ofBinary m bin = .ok v) :
    33 + ownerSize bin + bulkSize bin ≤ bin.length ∧
      toBinary m v.toRemoteView = bin.take (33 + ownerSize bin + bulkSize bin) ∧
      [v.intent.code] = bin.take 1 := by
  obtain ⟨rest, rfl⟩ := fields_of_ofBinary hm hbin h
  have hlen := fields_length m v.toRemoteView
  rw [ownerSize_fields, bulkSize_fields, toBinary_eq, ← hlen, List.length_append, List.take_left]
  exact ⟨by omega, rfl, rfl⟩

/-- **The image of the encoder.** A view that was read from a binary has a declared intent and
writes the binary back if and only if the first byte is one of the three intents and the
binary ends where the fields do. -/
theorem toJson_ofJson_eq_iff (m : Margo) (hm : m.Exact) (b : Bytes) (hb : b.length < 2 ^ 64)
    (st : Option UInt64) (v : MemoryViewImpl) (h : MemoryView.ofJson m (binary b st) = .ok v) :
    (v.intent.Declared ∧ MemoryView.toJson m (some v) = binary b st) ↔
      (b.head? = some 1 ∨ b.head? = some 2 ∨ b.head? = some 3) ∧
        b.length = 33 + ownerSize b + bulkSize b := by
  have hst : st = some memoryViewSubtypeCode ∧ ofBinary m b = .ok v := by
    cases st with
    | none => cases h
    | some n =>
        by_cases hn : n = memoryViewSubtypeCode
        · subst hn
          exact ⟨rfl, h⟩
        · have hview : isMemoryView (binary b (some n)) = false := by simp [isMemoryView, hn]
          rw [MemoryView.ofJson, hview] at h
          cases h
  obtain ⟨rfl, hof⟩ := hst
  obtain ⟨hle, htake, hhead⟩ := toBinary_of_ofBinary hm hb hof
  have hfirst : b.head? = some v.intent.code := by
    cases b with
    | nil => cases hhead
    | cons c b => exact congrArg List.head? hhead.symm
  have himage : MemoryView.toJson m (some v) = binary b (some memoryViewSubtypeCode) ↔
      b.length = 33 + ownerSize b + bulkSize b := by
    rw [MemoryView.toJson, htake, binary.injEq, List.take_eq_self_iff]
    exact ⟨fun hend => Nat.le_antisymm hend.1 hle, fun hend => ⟨Nat.le_of_eq hend, rfl⟩⟩
  rw [himage, Intent.declared_iff, hfirst]
  simp only [Option.some.injEq]

/-- The loopback transport, checking that the bytes of a bulk are all of them. -/
def Margo.strict (self : Endpoint) : Margo :=
  { Margo.loopback self with
    deserialize := fun buf n =>
      (Loopback.deserialize buf n).filter fun b =>
        n ≤ buf.length && Loopback.serialize b == buf.take n
    deserialize_serialize := fun b rest => by
      have hread := Loopback.deserialize_serialize b rest
      show (Loopback.deserialize (Loopback.serialize b ++ rest)
        (Loopback.serialize b).length).filter _ = some b
      rw [hread]
      simp [Margo.loopback] }

theorem Margo.strict_exact (self : Endpoint) : (Margo.strict self).Exact where
  lookup a e h := by
    have h' : (if h : a.length < 2 ^ 62 then
        (.ok ⟨a, h⟩ : Except CppException Endpoint) else .error (.thallium (text "lookup failed")))
        = .ok e := h
    split at h' <;> cases h'
    rfl
  deserialize buf n b h := by
    have hfilter := (Option.filter_eq_some_iff.mp h).2
    have hexact : n ≤ buf.length ∧ Loopback.serialize b = buf.take n := by
      simpa only [Bool.and_eq_true, decide_eq_true_eq, beq_iff_eq] using hfilter
    exact hexact

/-- What `toJson` wrote is accepted, and the view writes it again. -/
theorem toJson_ofJson_sample :
    (sampleView.fresh.intent.Declared ∧
        MemoryView.toJson (Margo.strict noName) (some sampleView.fresh)
          = binary (toBinary (Margo.strict noName) sampleView) (some memoryViewSubtypeCode)) ↔
      ((toBinary (Margo.strict noName) sampleView).head? = some 1 ∨
          (toBinary (Margo.strict noName) sampleView).head? = some 2 ∨
          (toBinary (Margo.strict noName) sampleView).head? = some 3) ∧
        (toBinary (Margo.strict noName) sampleView).length
          = 33 + ownerSize (toBinary (Margo.strict noName) sampleView)
            + bulkSize (toBinary (Margo.strict noName) sampleView) :=
  toJson_ofJson_eq_iff (Margo.strict noName) (Margo.strict_exact noName)
    (toBinary (Margo.strict noName) sampleView)
    (by rw [toBinary_eq]; exact fields_fit _ _) (some memoryViewSubtypeCode) sampleView.fresh
    (ofBinary_toBinary (Margo.strict noName) sampleView_accepted)

/-- A view of nothing, with the intent byte 9, followed by the byte 0. -/
def foreignBinary : Bytes := [9] ++ sizeBytes 0 ++ sizeBytes 8 ++ sizeBytes 0 ++ sizeBytes 0
  ++ sizeBytes 0 ++ [0]

/-- The binary is accepted, although 9 is no intent and its last byte is no part of a view. -/
theorem toJson_ofJson_foreign :
    ¬ ∀ (b : Bytes) (v : MemoryViewImpl), b.length < 2 ^ 64 →
      MemoryView.ofJson (Margo.strict noName) (binary b (some memoryViewSubtypeCode)) = .ok v →
        v.intent.Declared ∧
          MemoryView.toJson (Margo.strict noName) (some v)
            = binary b (some memoryViewSubtypeCode) := by
  intro h
  have hread : MemoryView.ofJson (Margo.strict noName)
      (binary foreignBinary (some memoryViewSubtypeCode))
        = .ok (⟨⟨9⟩, ⟨[], by decide, by decide, by decide⟩, noName, 0, 0⟩ : RemoteView).fresh := by
    rfl
  have hbad := (h foreignBinary _ (by decide) hread).1
  rw [Intent.declared_iff] at hbad
  revert hbad
  decide

end Poesie
