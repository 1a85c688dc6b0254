import Poesie.Jx9Value
import Poesie.Overrun
import Poesie.Runs

set_option autoImplicit false

/-! # Access to the bytes of a view

The Jx9 backend gives scripts the functions `memory_view_get` and `memory_view_set`, the Ruby
backend the methods `[]` and `[]=`. Both are meant to make an array of bytes of a view
(`ByteArraySpec`). The Ruby methods do. The integers of a Jx9 script lose their upper half on the
way into JSON, and a byte comes back as a `char`, which has a sign.
-/

namespace Poesie

open Wire Json

/-! ## An array of bytes -/

/-- The accesses, with the integers of a script. -/
inductive ByteCall where
  | get (i : Int64)
  | set (i b : Int64)

namespace ByteArraySpec

/-- The indices of `n` elements. -/
def InRange (n : Nat) (i : Int) : Prop := 0 ≤ i ∧ i < n

instance (n : Nat) (i : Int) : Decidable (InRange n i) := inferInstanceAs (Decidable (_ ∧ _))

/-- The byte at an index. -/
def get (bytes : Bytes) (i : Int) : Option UInt8 :=
  if InRange bytes.length i then bytes[i.toNat]? else none

/-- Whether the byte can be stored at the index, and the bytes behind that. -/
def set (bytes : Bytes) (i b : Int) : Bool × Bytes :=
  if InRange bytes.length i ∧ InRange 256 b then (true, bytes.set i.toNat (UInt8.ofInt b))
  else (false, bytes)

section

variable {bytes : Bytes} {i b : Int}

theorem InRange.toNat_lt {n : Nat} (hi : InRange n i) : i.toNat < n := by
  have hlower : 0 ≤ i := hi.1
  have hupper : i < n := hi.2
  omega

theorem get_of_inRange (hi : InRange bytes.length i) :
    ∃ b, bytes[i.toNat]? = some b ∧ get bytes i = some b := by
  have hlt := hi.toNat_lt
  have hbyte : bytes[i.toNat]? = some bytes[i.toNat] := List.getElem?_eq_getElem hlt
  exact ⟨_, hbyte, by rw [get, if_pos hi, hbyte]⟩

theorem get_of_not_inRange (hi : ¬ InRange bytes.length i) : get bytes i = none := if_neg hi

theorem set_of_inRange (h : InRange bytes.length i ∧ InRange 256 b) :
    set bytes i b = (true, bytes.set i.toNat (UInt8.ofInt b)) := if_pos h

theorem set_of_not_inRange (h : ¬ (InRange bytes.length i ∧ InRange 256 b)) :
    set bytes i b = (false, bytes) := if_neg h

end

end ByteArraySpec

/-! ## The functions of the Jx9 backend -/

/-- Where a live `MemoryView` lies. -/
structure ViewPointer where
  address : ViewId
  nonNull : address ≠ 0
  fits : address < 2 ^ 64

def isNumber : Json → Bool
  | numberInteger _ | numberUnsigned _ | numberFloat _ => true
  | _ => false

/-- `get<int64_t>()` of a number. `truncate` is the conversion of a `double`. -/
def getInt64 (truncate : Float64 → Int64) : Json → Int64
  | numberInteger n => n
  | numberUnsigned n => n.toInt64
  | numberFloat x => truncate x
  | _ => 0

section

variable (m : Margo) (env : Env) (truncate : Float64 → Int64) (p : ViewPointer)

/-- What a host function returns, and the view behind that. There is nothing where it follows a
pointer that leads to no view, or reads behind the data. -/
abbrev HostResult (α : Type) : Type := Option (Except CppException α × Session)

/-- The body of a host function, for a binary that is meant to hold the pointer to the view. -/
def withView (ptr : Bytes) (otherwise : Json) (s : Session) (body : HostResult Json) :
    HostResult Json :=
  if ptr.length ≠ 8 then some (.ok otherwise, s)
  else if ofLE ptr = 0 then some (.ok otherwise, s)
  else if ofLE ptr = p.address then body
  else none

/-- The end of `MemoryView_get`, with the index and the view. -/
def readByte (i : Int64) (s : Session) : HostResult Json :=
  if i < 0 || i ≥ s.view.remoteSize.toInt64 then some (.ok null, s)
  else
    match s.data m env with
    -- `char` has a sign
    | (.ok (), s) => (s.byteAt m i.toInt.toNat).map fun b =>
        (.ok (numberInteger b.toInt8.toInt64), s)
    | (.error e, s) => some (.error e, s)

/-- `MemoryView_get` -/
def MemoryView_get (argv : List Json) (s : Session) : HostResult Json :=
  match argv with
  | [binary ptr _, index] =>
      if !isNumber index then some (.ok null, s)
      else
        let i := getInt64 truncate index
        withView p ptr null s (readByte m env i s)
  | [_, _] => some (.ok null, s)
  | _ => none

/-- The end of `MemoryView_set`. -/
def writeByte (i b : Int64) (s : Session) : HostResult Json :=
  if i < 0 || i ≥ s.view.remoteSize.toInt64 then some (.ok (boolean false), s)
  else
    match s.data m env with
    | (.ok (), s) => some (.ok (boolean true), s.store m i.toInt.toNat (UInt8.ofInt b.toInt))
    | (.error e, s) => some (.error e, s)

/-- `MemoryView_set` -/
def MemoryView_set (argv : List Json) (s : Session) : HostResult Json :=
  match argv with
  | [binary ptr _, index, value] =>
      if !isNumber index then some (.ok (boolean false), s)
      else if !isNumber value then some (.ok (boolean false), s)
      else
        let i := getInt64 truncate index
        let b := getInt64 truncate value
        if b < 0 || b > 255 then some (.ok (boolean false), s)
        else withView p ptr (boolean false) s (writeByte m env i b s)
  | [_, _, _] => some (.ok (boolean false), s)
  | _ => none

/-- `FunctionHolder::binding` of a function that is called with as many arguments as it
expects. -/
def hostCall (f : List Json → Session → HostResult Json) (args : List Jx9Value) (s : Session) :
    HostResult Jx9Value :=
  (f (args.map Jx9ValueToJSON) s).map fun r => (r.1.map JSONtoJx9ValueInside, r.2)

/-- A call of a script, on the view. -/
def viewCall (s : Session) : ByteCall → HostResult Jx9Value
  | .get i => hostCall (MemoryView_get m env truncate p) [.resource p.address, .int i] s
  | .set i b =>
      hostCall (MemoryView_set m env truncate p) [.resource p.address, .int i, .int b] s

def afterCall (s : Session) (c : ByteCall) : Session :=
  match viewCall m env truncate p s c with
  | some (_, s) => s
  | none => s

/-! ## The methods of the Ruby backend -/

/-- The exceptions that the methods raise. -/
inductive MrbError where
  | indexError
  | argumentError

/-- `memory_view_get_byte` -/
def memory_view_get_byte (data : Bytes) (index : Int64) : Except MrbError Int :=
  if index < 0 || index.toUInt64.toNat ≥ data.length then .error .indexError
  else .ok (data.getD index.toUInt64.toNat 0).toNat

/-- `memory_view_set_byte` -/
def memory_view_set_byte (data : Bytes) (index value : Int64) : Except MrbError Int × Bytes :=
  if index < 0 || index.toUInt64.toNat ≥ data.length then (.error .indexError, data)
  else if value < 0 || value > 255 then (.error .argumentError, data)
  else (.ok value.toInt, data.set index.toUInt64.toNat (UInt8.ofInt value.toInt))

/-! ## What should hold -/

/-- The bytes of a view, also of one whose data has not been asked for. -/
def contents (s : Session) : Bytes :=
  (List.range s.view.remoteSize.toNat).map fun i => ((s.data m env).2.byteAt m i).getD 0

/-- The view has its data, or gets it when it is asked for. No object is larger than the largest
difference of pointers. -/
structure Live (s : Session) : Prop where
  data : ∃ s', s.data m env = (.ok (), s') ∧
    ∀ i < s.view.remoteSize.toNat, s'.byteAt m i ≠ none
  fits : s.view.remoteSize.toNat < 2 ^ 63

/-- What `memory_view_get` should answer. -/
def byteValue : Option UInt8 → Jx9Value
  | none => .null
  | some b => .int (Int64.ofNat b.toNat)

/-- The call acts on the array of bytes. -/
def ActsOnArray (s : Session) : ByteCall → Prop
  | .get i => ∃ s', viewCall m env truncate p s (.get i) =
        some (.ok (byteValue (ByteArraySpec.get (contents m env s) i.toInt)), s') ∧
      contents m env s' = contents m env s
  | .set i b => ∃ s', viewCall m env truncate p s (.set i b) =
        some (.ok (.bool (ByteArraySpec.set (contents m env s) i.toInt b.toInt).1), s') ∧
      contents m env s' = (ByteArraySpec.set (contents m env s) i.toInt b.toInt).2

/-- An integer of a script, as JSON has it. -/
def narrow (n : Int64) : Int := n.toInt32.toInt

/-- The lower halves of the integers are in range if and only if the integers are, and mean the
same byte. A byte that is read has no sign bit, and one that is stored at another index is there
already, at both. -/
def NarrowsWell (bytes : Bytes) : ByteCall → Prop
  | .get i =>
      (ByteArraySpec.InRange bytes.length i.toInt ↔ ByteArraySpec.InRange bytes.length (narrow i)) ∧
      (ByteArraySpec.InRange bytes.length i.toInt →
        ∃ b < 128, bytes[(narrow i).toNat]? = some b ∧ bytes[i.toInt.toNat]? = some b)
  | .set i b =>
      (ByteArraySpec.InRange bytes.length i.toInt ∧ ByteArraySpec.InRange 256 b.toInt ↔
        ByteArraySpec.InRange bytes.length (narrow i) ∧ ByteArraySpec.InRange 256 (narrow b)) ∧
      (ByteArraySpec.InRange bytes.length i.toInt ∧ ByteArraySpec.InRange 256 b.toInt →
        narrow i = i.toInt ∨ bytes[(narrow i).toNat]? = some (UInt8.ofInt b.toInt) ∧
          bytes[i.toInt.toNat]? = some (UInt8.ofInt b.toInt))

end

/-! ## The data of a live view -/

section

variable {m : Margo} {env : Env} {s s' : Session}

/-- Data that has been asked for once is there. -/
theorem data_of_prepared (h : s.view.localData ≠ .null) : s.data m env = (.ok (), s) := by
  rcases hdata : s.view.localData with _ | address | bytes
  · exact absurd hdata h
  all_goals simp only [Session.data, MemoryViewImpl.prepareLocalData, hdata]

theorem fetchFromRemote_prepared (env : Env) (v : MemoryViewImpl) (mem : Mem) :
    (v.fetchFromRemote env mem).2.localData ≠ .null ∧
      (v.fetchFromRemote env mem).2.remoteSize = v.remoteSize := by
  simp only [MemoryViewImpl.fetchFromRemote]
  split
  · split <;> simp
  · simp

theorem prepared_of_prepare {v v' : MemoryViewImpl} {mem : Mem}
    (h : v.prepareLocalData m env mem = (.ok (), v')) :
    v'.localData ≠ .null ∧ v'.remoteSize = v.remoteSize := by
  have hfetched : v.fetchFromRemote env mem = (.ok (), v') →
      v'.localData ≠ .null ∧ v'.remoteSize = v.remoteSize := by
    intro hfetch
    have hprepared := fetchFromRemote_prepared env v mem
    rwa [hfetch] at hprepared
  unfold MemoryViewImpl.prepareLocalData at h
  split at h
  · split at h
    · split at h
      · cases h
      · split at h
        · cases h
          exact ⟨by simp, rfl⟩
        · exact hfetched h
      · exact hfetched h
    · exact hfetched h
  · next hdata =>
      cases h
      exact ⟨hdata, rfl⟩

/-- A live view whose data has been asked for, and what it holds. -/
structure HoldsBytes (m : Margo) (s : Session) (bytes : Bytes) : Prop where
  prepared : s.view.localData ≠ .null
  size : s.view.remoteSize.toNat = bytes.length
  fits : bytes.length < 2 ^ 63
  byteAt : ∀ i < bytes.length, s.byteAt m i = bytes[i]?

theorem HoldsBytes.contents {bytes : Bytes} (h : HoldsBytes m s bytes) :
    contents m env s = bytes := by
  unfold Poesie.contents
  rw [data_of_prepared h.prepared, h.size]
  apply List.ext_getElem
  · simp
  · intro i h₁ h₂
    simp [h.byteAt i h₂, h₂]

theorem HoldsBytes.live {bytes : Bytes} (h : HoldsBytes m s bytes) : Live m env s where
  data := ⟨s, data_of_prepared h.prepared, fun i hi => by
    rw [h.size] at hi
    rw [h.byteAt i hi, List.getElem?_eq_getElem hi]
    simp⟩
  fits := h.size ▸ h.fits

/-- Asking a live view for its data. -/
theorem Live.holds (h : Live m env s) :
    ∃ s', s.data m env = (.ok (), s') ∧ HoldsBytes m s' (Poesie.contents m env s) := by
  obtain ⟨s', hdata, hbytes⟩ := h.data
  have hprepare : s.view.prepareLocalData m env s.mem = (.ok (), s'.view) := by
    rcases hprepare : s.view.prepareLocalData m env s.mem with ⟨outcome, view⟩
    rw [Session.data, hprepare] at hdata
    cases hdata
    rfl
  obtain ⟨hprepared, hsize⟩ := prepared_of_prepare hprepare
  have hlength : (Poesie.contents m env s).length = s.view.remoteSize.toNat := by
    simp [Poesie.contents]
  refine ⟨s', hdata, hprepared, by rw [hsize, hlength], hlength ▸ h.fits, fun i hi => ?_⟩
  rw [hlength] at hi
  obtain ⟨b, hb⟩ := Option.ne_none_iff_exists'.mp (hbytes i hi)
  simp [Poesie.contents, hdata, hb, hi]

/-! ## The calls -/

theorem HoldsBytes.store {bytes : Bytes} (h : HoldsBytes m s bytes) {i : Nat}
    (hi : i < bytes.length) (b : UInt8) : HoldsBytes m (s.store m i b) (bytes.set i b) := by
  have hbyte : ∀ j < bytes.length, (s.store m i b).byteAt m j =
      if i = j then some b else s.byteAt m j := by
    intro j hj
    have hdata := h.byteAt j hj
    unfold Session.store
    unfold Session.byteAt at hdata ⊢
    cases hlocal : s.view.localData with
    | null => exact absurd hlocal h.prepared
    | segment address =>
        by_cases hij : i = j
        · simp [hlocal, hij]
        · simp [hlocal, hij, Ne.symm hij]
    | buffer data =>
        have hfound := h.byteAt i hi
        rw [Session.byteAt, hlocal, List.getElem?_eq_getElem hi] at hfound
        -- the buffer is at least as long as the view
        obtain ⟨hlength, -⟩ := List.getElem?_eq_some_iff.mp hfound
        simp [List.getElem?_set, hlength]
  have hkept : (s.store m i b).view.localData ≠ .null ∧
      (s.store m i b).view.remoteSize = s.view.remoteSize := by
    unfold Session.store
    cases hlocal : s.view.localData with
    | null => exact absurd hlocal h.prepared
    | segment address => exact ⟨h.prepared, rfl⟩
    | buffer data => exact ⟨by simp, rfl⟩
  exact {
    prepared := hkept.1
    size := by rw [hkept.2, h.size, List.length_set]
    fits := by simpa using h.fits
    byteAt := fun j hj => by
      rw [List.length_set] at hj
      rw [hbyte j hj, h.byteAt j hj, List.getElem?_set, if_pos hi] }

/-- The check of the index. -/
theorem index_refused_iff {size : UInt64} (fits : size.toNat < 2 ^ 63) (i : Int64) :
    (i < 0 || i ≥ size.toInt64) = true ↔ ¬ ByteArraySpec.InRange size.toNat i.toInt := by
  have hsize : size.toInt64.toInt = size.toNat :=
    BitVec.toInt_eq_toNat_of_lt (by
      rw [UInt64.toBitVec_toInt64]
      exact Nat.mul_lt_mul_of_pos_left fits (by decide))
  simp only [Bool.or_eq_true, decide_eq_true_eq, ge_iff_le, Int64.lt_iff_toInt_lt,
    Int64.le_iff_toInt_le, hsize, Int64.toInt_zero, ByteArraySpec.InRange]
  omega

theorem value_refused_iff (b : Int64) :
    (b < 0 || b > 255) = true ↔ ¬ ByteArraySpec.InRange 256 b.toInt := by
  have h255 : (255 : Int64).toInt = 255 := rfl
  simp only [Bool.or_eq_true, decide_eq_true_eq, gt_iff_lt, Int64.lt_iff_toInt_lt,
    Int64.toInt_zero, h255, ByteArraySpec.InRange]
  omega

variable {truncate : Float64 → Int64} {p : ViewPointer}

theorem withView_pointer (otherwise : Json) (s : Session) (body : HostResult Json) :
    withView p (pointerBytes p.address) otherwise s body = body := by
  have hread : ofLE (pointerBytes p.address) = p.address := ofLE_leBytes_of_lt p.fits
  rw [withView, if_neg (by simp [pointerBytes, leBytes_length]), hread, if_neg p.nonNull,
    if_pos rfl]

/-- The lower half of an integer, as a call passes it on. -/
theorem toInt_lowerHalf (n : Int64) : n.toInt32.toInt64.toInt = narrow n := Int32.toInt_toInt64 _

theorem viewCall_get_eq (i : Int64) (s : Session) :
    viewCall m env truncate p s (.get i) =
      (readByte m env i.toInt32.toInt64 s).map fun r =>
        (r.1.map JSONtoJx9ValueInside, r.2) := by
  have hget : MemoryView_get m env truncate p
      [binary (pointerBytes p.address) none, numberInteger i.toInt32.toInt64] s =
        withView p (pointerBytes p.address) null s (readByte m env i.toInt32.toInt64 s) := by
    unfold MemoryView_get
    exact if_neg Bool.false_ne_true
  have hcall : viewCall m env truncate p s (.get i) = (MemoryView_get m env truncate p
      [binary (pointerBytes p.address) none, numberInteger i.toInt32.toInt64] s).map fun r =>
        (r.1.map JSONtoJx9ValueInside, r.2) := rfl
  rw [hcall, hget, withView_pointer]

theorem readByte_refused {i : Int64} (hs : s.view.remoteSize.toNat < 2 ^ 63)
    (hi : ¬ ByteArraySpec.InRange s.view.remoteSize.toNat i.toInt) :
    readByte m env i s = some (.ok null, s) := if_pos ((index_refused_iff hs i).mpr hi)

theorem readByte_of_data {i : Int64} {b : UInt8} (hs : s.view.remoteSize.toNat < 2 ^ 63)
    (hi : ByteArraySpec.InRange s.view.remoteSize.toNat i.toInt)
    (hdata : s.data m env = (.ok (), s')) (hb : s'.byteAt m i.toInt.toNat = some b) :
    readByte m env i s = some (.ok (numberInteger b.toInt8.toInt64), s') := by
  rw [readByte, if_neg ((index_refused_iff hs i).not.mpr (not_not.mpr hi)), hdata]
  simp only [hb, Option.map_some]

theorem writeByte_refused {i b : Int64} (hs : s.view.remoteSize.toNat < 2 ^ 63)
    (hi : ¬ ByteArraySpec.InRange s.view.remoteSize.toNat i.toInt) :
    writeByte m env i b s = some (.ok (boolean false), s) :=
  if_pos ((index_refused_iff hs i).mpr hi)

theorem writeByte_of_data {i b : Int64} (hs : s.view.remoteSize.toNat < 2 ^ 63)
    (hi : ByteArraySpec.InRange s.view.remoteSize.toNat i.toInt)
    (hdata : s.data m env = (.ok (), s')) :
    writeByte m env i b s =
      some (.ok (boolean true), s'.store m i.toInt.toNat (UInt8.ofInt b.toInt)) := by
  rw [writeByte, if_neg ((index_refused_iff hs i).not.mpr (not_not.mpr hi)), hdata]

theorem viewCall_set_eq (i b : Int64) (s : Session) :
    viewCall m env truncate p s (.set i b) =
      if ByteArraySpec.InRange 256 (narrow b) then
        (writeByte m env i.toInt32.toInt64 b.toInt32.toInt64 s).map fun r =>
          (r.1.map JSONtoJx9ValueInside, r.2)
      else some (.ok (.bool false), s) := by
  have hset : MemoryView_set m env truncate p [binary (pointerBytes p.address) none,
      numberInteger i.toInt32.toInt64, numberInteger b.toInt32.toInt64] s =
        if b.toInt32.toInt64 < 0 || b.toInt32.toInt64 > 255 then some (.ok (boolean false), s)
        else withView p (pointerBytes p.address) (boolean false) s
          (writeByte m env i.toInt32.toInt64 b.toInt32.toInt64 s) := by
    unfold MemoryView_set
    exact (if_neg Bool.false_ne_true).trans (if_neg Bool.false_ne_true)
  have hcall : viewCall m env truncate p s (.set i b) = (MemoryView_set m env truncate p
      [binary (pointerBytes p.address) none, numberInteger i.toInt32.toInt64,
        numberInteger b.toInt32.toInt64] s).map fun r =>
          (r.1.map JSONtoJx9ValueInside, r.2) := rfl
  have hvalue := value_refused_iff b.toInt32.toInt64
  rw [toInt_lowerHalf] at hvalue
  rw [withView_pointer] at hset
  rw [hcall, hset]
  by_cases hb : ByteArraySpec.InRange 256 (narrow b)
  · rw [if_pos hb, if_neg (hvalue.not.mpr (not_not.mpr hb))]
  · rw [if_neg hb, if_pos (hvalue.mpr hb)]
    rfl

/-! ## Reading -/

theorem toInt_toInt8 (b : UInt8) :
    b.toInt8.toInt = if b.toNat < 128 then (b.toNat : Int) else b.toNat - 256 := by
  have hbmod : b.toInt8.toInt = (b.toNat : Int).bmod 256 := BitVec.toInt_eq_toNat_bmod b.toBitVec
  have hlt := b.toNat_lt
  rw [hbmod, Int.bmod_def]
  split <;> split <;> omega

/-- A byte survives the way into the script if and only if its sign bit is not set. -/
theorem byteValue_iff (b b' : UInt8) :
    JSONtoJx9ValueInside (numberInteger b.toInt8.toInt64) = byteValue (some b') ↔
      b < 128 ∧ b = b' := by
  have hvalue : JSONtoJx9ValueInside (numberInteger b.toInt8.toInt64) =
      .int (Int64.ofInt b.toInt8.toInt64.toInt32.toInt) := rfl
  have hsigned : (Int64.ofInt b.toInt8.toInt64.toInt32.toInt).toInt = b.toInt8.toInt := by
    rw [Int8.toInt32_toInt64, Int8.toInt_toInt32, ← Int8.toInt_toInt64, Int64.ofInt_toInt]
  have hlt := b.toNat_lt
  have hlt' := b'.toNat_lt
  rw [hvalue, byteValue, Jx9Value.int.injEq, ← Int64.toInt_inj, hsigned, toInt_toInt8,
    Int64.toInt_ofNat_of_lt (by omega), UInt8.lt_iff_toNat_lt, ← UInt8.toNat_inj]
  have h128 : (128 : UInt8).toNat = 128 := rfl
  rw [h128]
  split <;> omega

theorem length_contents (m : Margo) (env : Env) (s : Session) :
    (contents m env s).length = s.view.remoteSize.toNat := by
  simp [contents]

/-- What `memory_view_get` does with the lower half of an index. -/
theorem viewCall_get_of_inRange (hs : Live m env s) {i : Int64}
    (hn : ByteArraySpec.InRange (contents m env s).length (narrow i)) :
    ∃ b s', (contents m env s)[(narrow i).toNat]? = some b ∧
      viewCall m env truncate p s (.get i) =
        some (.ok (JSONtoJx9ValueInside (numberInteger b.toInt8.toInt64)), s') ∧
      contents m env s' = contents m env s ∧ Live m env s' := by
  have hlength := length_contents m env s
  obtain ⟨s', hdata, hholds⟩ := hs.holds
  obtain ⟨b, hb, -⟩ := ByteArraySpec.get_of_inRange hn
  have hread : s'.byteAt m i.toInt32.toInt64.toInt.toNat = some b := by
    rw [toInt_lowerHalf, hholds.byteAt _ hn.toNat_lt, hb]
  refine ⟨b, s', hb, ?_, hholds.contents, hholds.live⟩
  rw [viewCall_get_eq, readByte_of_data hs.fits (by rwa [toInt_lowerHalf, ← hlength]) hdata hread]
  rfl

theorem viewCall_get_of_not_inRange (hs : Live m env s) {i : Int64}
    (hn : ¬ ByteArraySpec.InRange (contents m env s).length (narrow i)) :
    viewCall m env truncate p s (.get i) = some (.ok .null, s) := by
  have hlength := length_contents m env s
  rw [viewCall_get_eq, readByte_refused hs.fits (by rwa [toInt_lowerHalf, ← hlength])]
  rfl

/-- With an index that stays in range, a byte is read: the right one, if it is the byte at both
indices. -/
theorem get_acts_iff_of_inRange (hs : Live m env s) {i : Int64}
    (hn : ByteArraySpec.InRange (contents m env s).length (narrow i)) :
    ActsOnArray m env truncate p s (.get i) ↔ NarrowsWell (contents m env s) (.get i) := by
  obtain ⟨b, s', hb, hcall, hsame, -⟩ : ∃ b s', (contents m env s)[(narrow i).toNat]? = some b ∧
      viewCall m env truncate p s (.get i) = _ ∧ _ := viewCall_get_of_inRange hs hn
  simp only [ActsOnArray, NarrowsWell, hcall, hn, iff_true]
  by_cases hi : ByteArraySpec.InRange (contents m env s).length i.toInt
  · obtain ⟨b', hb', hget⟩ := ByteArraySpec.get_of_inRange hi
    rw [hget, hb, hb']
    constructor
    · rintro ⟨_, hanswer, -⟩
      have hvalue := Except.ok.inj (Prod.mk.inj (Option.some.inj hanswer)).1
      obtain ⟨hsmall, rfl⟩ := (byteValue_iff b b').mp hvalue
      exact ⟨hi, fun _ => ⟨b, hsmall, rfl, rfl⟩⟩
    · rintro ⟨-, hbyte⟩
      obtain ⟨x, hsmall, hx, hx'⟩ := hbyte hi
      cases hx
      cases hx'
      exact ⟨s', by rw [(byteValue_iff b b).mpr ⟨hsmall, rfl⟩], hsame⟩
  · -- a byte is answered where there should be null
    rw [ByteArraySpec.get_of_not_inRange hi]
    apply iff_of_false
    · rintro ⟨_, hanswer, -⟩
      cases hanswer
    · exact fun hwell => hi hwell.1

/-- With an index that leaves the range, null is answered. -/
theorem get_acts_iff_of_not_inRange (hs : Live m env s) {i : Int64}
    (hn : ¬ ByteArraySpec.InRange (contents m env s).length (narrow i)) :
    ActsOnArray m env truncate p s (.get i) ↔ NarrowsWell (contents m env s) (.get i) := by
  have hcall : viewCall m env truncate p s (.get i) = _ := viewCall_get_of_not_inRange hs hn
  simp only [ActsOnArray, NarrowsWell, hcall, hn, iff_false]
  by_cases hi : ByteArraySpec.InRange (contents m env s).length i.toInt
  · obtain ⟨b', -, hget⟩ := ByteArraySpec.get_of_inRange hi
    rw [hget]
    apply iff_of_false
    · rintro ⟨_, hanswer, -⟩
      cases hanswer
    · exact fun hwell => hwell.1 hi
  · rw [ByteArraySpec.get_of_not_inRange hi]
    exact iff_of_true ⟨s, rfl, rfl⟩ ⟨hi, fun h => absurd h hi⟩

/-- `memory_view_get` answers right if and only if the index and the byte are preserved. -/
theorem get_acts_iff (hs : Live m env s) (i : Int64) :
    ActsOnArray m env truncate p s (.get i) ↔ NarrowsWell (contents m env s) (.get i) := by
  by_cases hn : ByteArraySpec.InRange (contents m env s).length (narrow i)
  · exact get_acts_iff_of_inRange hs hn
  · exact get_acts_iff_of_not_inRange hs hn

/-! ## Writing -/

/-- What `memory_view_set` does with the lower halves of its arguments. -/
theorem viewCall_set_of_inRange (hs : Live m env s) {i b : Int64}
    (hn : ByteArraySpec.InRange (contents m env s).length (narrow i) ∧
      ByteArraySpec.InRange 256 (narrow b)) :
    ∃ s', viewCall m env truncate p s (.set i b) = some (.ok (.bool true), s') ∧
      contents m env s' =
        (contents m env s).set (narrow i).toNat (UInt8.ofInt (narrow b)) ∧ Live m env s' := by
  have hlength := length_contents m env s
  obtain ⟨s', hdata, hholds⟩ := hs.holds
  have hstored := hholds.store hn.1.toNat_lt (UInt8.ofInt (narrow b))
  refine ⟨_, ?_, hstored.contents, hstored.live⟩
  rw [viewCall_set_eq, if_pos hn.2,
    writeByte_of_data hs.fits (by rwa [toInt_lowerHalf, ← hlength, and_iff_left hn.2] at *) hdata]
  simp only [toInt_lowerHalf]
  rfl

theorem viewCall_set_of_not_inRange (hs : Live m env s) {i b : Int64}
    (hn : ¬ (ByteArraySpec.InRange (contents m env s).length (narrow i) ∧
      ByteArraySpec.InRange 256 (narrow b))) :
    viewCall m env truncate p s (.set i b) = some (.ok (.bool false), s) := by
  have hlength := length_contents m env s
  rw [viewCall_set_eq]
  split
  · next hb =>
      have hi : ¬ ByteArraySpec.InRange (contents m env s).length (narrow i) :=
        fun hi => hn ⟨hi, hb⟩
      rw [writeByte_refused hs.fits (by rwa [toInt_lowerHalf, ← hlength])]
      rfl
  · rfl

/-- A value can be stored at another index if it is at both already. -/
theorem set_eq_set_iff {bytes : Bytes} {i j : Nat} (hi : i < bytes.length) (hj : j < bytes.length)
    (b : UInt8) : bytes.set j b = bytes.set i b ↔
      j = i ∨ bytes[j]? = some b ∧ bytes[i]? = some b := by
  constructor
  · intro h
    by_cases hij : j = i
    · exact .inl hij
    · have hatj := congrArg (·[j]?) h
      have hati := congrArg (·[i]?) h
      simp only [List.getElem?_set_self hj, List.getElem?_set_self hi,
        List.getElem?_set_ne hij, List.getElem?_set_ne (Ne.symm hij)] at hatj hati
      exact .inr ⟨hatj.symm, hati⟩
  · have hsame : ∀ k : Nat, bytes[k]? = some b → bytes.set k b = bytes := by
      intro k hk
      obtain ⟨hlt, rfl⟩ := List.getElem?_eq_some_iff.mp hk
      exact List.set_getElem_self hlt
    rintro (rfl | ⟨hbj, hbi⟩)
    · rfl
    · rw [hsame j hbj, hsame i hbi]

/-- A byte has no upper half. -/
theorem narrow_of_byte {b : Int64} (hb : ByteArraySpec.InRange 256 b.toInt) :
    narrow b = b.toInt := by
  have hlower : 0 ≤ b.toInt := hb.1
  have hupper : b.toInt < 256 := hb.2
  have hbmod : narrow b = b.toInt.bmod (2 ^ 32) := Int64.toInt_toInt32 b
  rw [hbmod, Int.bmod_eq_of_le] <;> omega

/-- With lower halves that are in range, a byte is stored: at the right index, or where it makes no
difference. -/
theorem set_acts_iff_of_inRange (hs : Live m env s) {i b : Int64}
    (hn : ByteArraySpec.InRange (contents m env s).length (narrow i) ∧
      ByteArraySpec.InRange 256 (narrow b)) :
    ActsOnArray m env truncate p s (.set i b) ↔ NarrowsWell (contents m env s) (.set i b) := by
  obtain ⟨s', hcall, hstored, -⟩ : ∃ s', viewCall m env truncate p s (.set i b) = _ ∧ _ :=
    viewCall_set_of_inRange hs hn
  simp only [ActsOnArray, NarrowsWell, hcall, hn, and_self, iff_true]
  by_cases hv : ByteArraySpec.InRange (contents m env s).length i.toInt ∧
      ByteArraySpec.InRange 256 b.toInt
  · have hindex : (narrow i).toNat = i.toInt.toNat ↔ narrow i = i.toInt := by
      have hi₁ : 0 ≤ i.toInt := hv.1.1
      have hi₂ : 0 ≤ narrow i := hn.1.1
      omega
    rw [narrow_of_byte hv.2] at hstored
    rw [ByteArraySpec.set_of_inRange hv, ← hindex, ← set_eq_set_iff hv.1.toNat_lt hn.1.toNat_lt,
      ← hstored]
    constructor
    · rintro ⟨_, hanswer, hcontents⟩
      cases hanswer
      exact ⟨hv, fun _ => hcontents⟩
    · exact fun hwell => ⟨s', rfl, hwell.2 hv⟩
  · -- true is answered where nothing should be stored
    rw [ByteArraySpec.set_of_not_inRange hv]
    apply iff_of_false
    · rintro ⟨_, hanswer, -⟩
      cases hanswer
    · exact fun hwell => hv hwell.1

/-- With lower halves one of which is out of range, nothing is stored. -/
theorem set_acts_iff_of_not_inRange (hs : Live m env s) {i b : Int64}
    (hn : ¬ (ByteArraySpec.InRange (contents m env s).length (narrow i) ∧
      ByteArraySpec.InRange 256 (narrow b))) :
    ActsOnArray m env truncate p s (.set i b) ↔ NarrowsWell (contents m env s) (.set i b) := by
  have hcall : viewCall m env truncate p s (.set i b) = _ := viewCall_set_of_not_inRange hs hn
  simp only [ActsOnArray, NarrowsWell, hcall, hn, iff_false]
  by_cases hv : ByteArraySpec.InRange (contents m env s).length i.toInt ∧
      ByteArraySpec.InRange 256 b.toInt
  · rw [ByteArraySpec.set_of_inRange hv]
    apply iff_of_false
    · rintro ⟨_, hanswer, -⟩
      cases hanswer
    · exact fun hwell => hwell.1 hv
  · rw [ByteArraySpec.set_of_not_inRange hv]
    exact iff_of_true ⟨s, rfl, rfl⟩ ⟨hv, fun h => absurd h hv⟩

/-- `memory_view_set` does what it should if and only if the index and the value are
preserved. -/
theorem set_acts_iff (hs : Live m env s) (i b : Int64) :
    ActsOnArray m env truncate p s (.set i b) ↔ NarrowsWell (contents m env s) (.set i b) := by
  by_cases hn : ByteArraySpec.InRange (contents m env s).length (narrow i) ∧
      ByteArraySpec.InRange 256 (narrow b)
  · exact set_acts_iff_of_inRange hs hn
  · exact set_acts_iff_of_not_inRange hs hn

/-! ## Runs -/

/-- A live view stays one. -/
theorem live_afterCall (hs : Live m env s) (c : ByteCall) :
    Live m env (afterCall m env truncate p s c) := by
  unfold afterCall
  cases c with
  | get i =>
      by_cases hn : ByteArraySpec.InRange (contents m env s).length (narrow i)
      · obtain ⟨b, s', -, hcall, -, hlive⟩ : ∃ b s',
            (contents m env s)[(narrow i).toNat]? = some b ∧
              viewCall m env truncate p s (.get i) = _ ∧ _ := viewCall_get_of_inRange hs hn
        rw [hcall]
        exact hlive
      · rw [viewCall_get_of_not_inRange hs hn]
        exact hs
  | set i b =>
      by_cases hn : ByteArraySpec.InRange (contents m env s).length (narrow i) ∧
          ByteArraySpec.InRange 256 (narrow b)
      · obtain ⟨s', hcall, -, hlive⟩ : ∃ s', viewCall m env truncate p s (.set i b) = _ ∧ _ :=
          viewCall_set_of_inRange hs hn
        rw [hcall]
        exact hlive
      · rw [viewCall_set_of_not_inRange hs hn]
        exact hs

/-- What a call stores in an array of `n` bytes. -/
def stored (n : Nat) : ByteCall → List (Nat × UInt8)
  | .get _ => []
  | .set i b =>
      if ByteArraySpec.InRange n i.toInt ∧ ByteArraySpec.InRange 256 b.toInt then
        [(i.toInt.toNat, UInt8.ofInt b.toInt)]
      else []

theorem contents_afterCall {c : ByteCall} (hacts : ActsOnArray m env truncate p s c) :
    contents m env (afterCall m env truncate p s c) =
      Memory.overwrite (contents m env s) (stored (contents m env s).length c) := by
  unfold afterCall
  cases c with
  | get i =>
      obtain ⟨s', hcall, hsame⟩ := hacts
      rw [hcall]
      exact hsame
  | set i b =>
      obtain ⟨s', hcall, hstored⟩ := hacts
      rw [hcall]
      refine hstored.trans ?_
      by_cases hv : ByteArraySpec.InRange (contents m env s).length i.toInt ∧
          ByteArraySpec.InRange 256 b.toInt
      · rw [ByteArraySpec.set_of_inRange hv, stored, if_pos hv]
        rfl
      · rw [ByteArraySpec.set_of_not_inRange hv, stored, if_neg hv]
        rfl

/-- In a run that acts on the array, each byte is the last one that was stored there, or the
original one. -/
theorem contents_run {calls : List ByteCall}
    (hacts : Runs.Along (afterCall m env truncate p) (ActsOnArray m env truncate p) s calls) :
    contents m env (Runs.run (afterCall m env truncate p) s calls) =
      Memory.overwrite (contents m env s) (calls.flatMap (stored (contents m env s).length)) := by
  -- what the later calls store comes after what the first one does
  induction calls generalizing s with
  | nil => rfl
  | cons c rest ih =>
      have hfirst := contents_afterCall hacts.1
      have hrest := ih hacts.2
      have hlength : (contents m env (afterCall m env truncate p s c)).length =
          (contents m env s).length := by rw [hfirst, Memory.overwrite_length]
      rw [hlength, hfirst, ← Memory.overwrite_append] at hrest
      exact hrest

end

/-! ## The methods of Ruby -/

/-- An integer that is not negative is the same without a sign. -/
theorem toNat_toUInt64 {i : Int64} (hi : 0 ≤ i.toInt) : i.toUInt64.toNat = i.toInt.toNat := by
  have hnat : i.toUInt64.toNat = i.toBitVec.toNat := rfl
  have hint : i.toInt = _ := BitVec.toInt_eq_toNat_cond i.toBitVec
  have hlt : i.toBitVec.toNat < 2 ^ 64 := i.toBitVec.isLt
  split at hint <;> omega

/-- The check of the index in Ruby. -/
theorem mrb_index_refused_iff (n : Nat) (i : Int64) :
    (i < 0 || i.toUInt64.toNat ≥ n) = true ↔ ¬ ByteArraySpec.InRange n i.toInt := by
  simp only [Bool.or_eq_true, decide_eq_true_eq, ge_iff_le, Int64.lt_iff_toInt_lt,
    Int64.toInt_zero, ByteArraySpec.InRange]
  by_cases hi : 0 ≤ i.toInt
  · rw [toNat_toUInt64 hi]
    omega
  · omega

/-- The method `[]` reads the array of bytes, and raises an exception behind its end. -/
theorem memory_view_get_byte_eq (bytes : Bytes) (i : Int64) :
    memory_view_get_byte bytes i = ((ByteArraySpec.get bytes i.toInt).map fun b =>
      Except.ok (b.toNat : Int)).getD (.error .indexError) := by
  unfold memory_view_get_byte
  by_cases hi : ByteArraySpec.InRange bytes.length i.toInt
  · obtain ⟨b, hb, hget⟩ := ByteArraySpec.get_of_inRange hi
    rw [if_neg ((mrb_index_refused_iff _ i).not.mpr (not_not.mpr hi)), hget,
      toNat_toUInt64 hi.1, List.getD_eq_getElem?_getD, hb]
    rfl
  · rw [if_pos ((mrb_index_refused_iff _ i).mpr hi), ByteArraySpec.get_of_not_inRange hi]
    rfl

/-- The method `[]=` stores in it, and raises an exception where it cannot. -/
theorem memory_view_set_byte_eq (bytes : Bytes) (i b : Int64) :
    ((∃ v, (memory_view_set_byte bytes i b).1 = .ok v) ↔
      (ByteArraySpec.set bytes i.toInt b.toInt).1 = true) ∧
    (memory_view_set_byte bytes i b).2 = (ByteArraySpec.set bytes i.toInt b.toInt).2 := by
  unfold memory_view_set_byte
  by_cases hi : ByteArraySpec.InRange bytes.length i.toInt
  · rw [if_neg ((mrb_index_refused_iff _ i).not.mpr (not_not.mpr hi))]
    by_cases hb : ByteArraySpec.InRange 256 b.toInt
    · rw [if_neg ((value_refused_iff b).not.mpr (not_not.mpr hb)),
        ByteArraySpec.set_of_inRange ⟨hi, hb⟩, toNat_toUInt64 hi.1]
      simp
    · rw [if_pos ((value_refused_iff b).mpr hb), ByteArraySpec.set_of_not_inRange fun h => hb h.2]
      simp
  · rw [if_pos ((mrb_index_refused_iff _ i).mpr hi),
      ByteArraySpec.set_of_not_inRange fun h => hi h.1]
    simp

/-- **Byte access from Jx9.** The Ruby methods make an array of bytes of a view. A run of calls of
the Jx9 functions on a live view acts on that array if and only if no call reads a byte with the
sign bit set, and the lower halves of the integers mean the same as the integers. Then each byte
afterwards is the last one that was stored there, or the original one. -/
theorem byte_access_iff (m : Margo) (env : Env) (truncate : Float64 → Int64) (p : ViewPointer)
    (s : Session) (hs : Live m env s) (calls : List ByteCall) :
    (∀ bytes i b, memory_view_get_byte bytes i = ((ByteArraySpec.get bytes i.toInt).map fun b =>
        Except.ok (b.toNat : Int)).getD (.error .indexError) ∧
      ((∃ v, (memory_view_set_byte bytes i b).1 = .ok v) ↔
        (ByteArraySpec.set bytes i.toInt b.toInt).1 = true) ∧
      (memory_view_set_byte bytes i b).2 = (ByteArraySpec.set bytes i.toInt b.toInt).2) ∧
    (Runs.Along (afterCall m env truncate p) (ActsOnArray m env truncate p) s calls ↔
      Runs.Along (afterCall m env truncate p) (fun s => NarrowsWell (contents m env s)) s
        calls) ∧
    (Runs.Along (afterCall m env truncate p) (ActsOnArray m env truncate p) s calls →
      ∀ k (hk : k < (contents m env s).length),
        (contents m env (Runs.run (afterCall m env truncate p) s calls))[k]? =
          some ((Memory.lastAt (calls.flatMap (stored (contents m env s).length)) k).getD
            (contents m env s)[k])) := by
  refine ⟨?_, ?_, ?_⟩
  · exact fun bytes i b => ⟨memory_view_get_byte_eq bytes i, memory_view_set_byte_eq bytes i b⟩
  · refine Runs.along_iff (I := Live m env) (fun s c hs => ?_)
      (fun s c hs _ => live_afterCall hs c) hs
    cases c with
    | get i => exact get_acts_iff hs i
    | set i b => exact set_acts_iff hs i b
  · intro hacts k hk
    rw [contents_run hacts, Memory.overwrite_getElem? _ _ hk]

/-- A view of one byte, which has its sign bit set. -/
def highByte : Session := ⟨(secondByte .IN).buffered [200], fun _ => 0⟩

theorem holds_highByte : HoldsBytes (Margo.loopback noName) highByte [200] where
  prepared := by simp [highByte, RemoteView.buffered]
  size := rfl
  fits := by decide
  byteAt _ _ := rfl

/-- The pointer to an object. -/
def somePointer : ViewPointer := ⟨4096, by decide, by decide⟩

/-- The byte is replaced before it is read, and stays where it is asked for in vain. -/
theorem byte_access_letter :
    Runs.Along (afterCall (Margo.loopback noName) .quiet (fun _ => 0) somePointer)
        (ActsOnArray (Margo.loopback noName) .quiet (fun _ => 0) somePointer) highByte
        [.set 0 65, .get 0, .set 1 66, .get (-1), .set 0 256] ∧
      (contents (Margo.loopback noName) .quiet (Runs.run (afterCall (Margo.loopback noName) .quiet
        (fun _ => 0) somePointer) highByte [.set 0 65, .get 0, .set 1 66, .get (-1), .set 0 256]))[0]?
          = some 65 := by
  obtain ⟨-, hiff, hlast⟩ := byte_access_iff (Margo.loopback noName) .quiet (fun _ => 0) somePointer
    highByte holds_highByte.live [.set 0 65, .get 0, .set 1 66, .get (-1), .set 0 256]
  have hacts := hiff.mpr ⟨⟨by decide, fun _ => .inl (by decide)⟩,
    ⟨by decide +kernel, fun _ => ⟨65, by decide, by decide +kernel, by decide +kernel⟩⟩,
    ⟨by decide +kernel, fun _ => .inl (by decide)⟩,
    ⟨by decide +kernel, fun h => absurd h (by decide +kernel)⟩,
    ⟨by decide +kernel, fun _ => .inl (by decide)⟩, trivial⟩
  rw [holds_highByte.contents] at hlast
  exact ⟨hacts, hlast hacts 0 (by decide)⟩

/-- It comes back as -56. -/
theorem byte_access_high :
    ¬ ∀ (m : Margo) (env : Env) (truncate : Float64 → Int64) (p : ViewPointer) (s : Session)
      (calls : List ByteCall), Live m env s →
        Runs.Along (afterCall m env truncate p) (ActsOnArray m env truncate p) s calls := by
  intro hall
  have hacts := (hall (Margo.loopback noName) .quiet (fun _ => 0) somePointer highByte [.get 0]
    holds_highByte.live).1
  obtain ⟨-, hread⟩ := (get_acts_iff holds_highByte.live 0).mp hacts
  rw [holds_highByte.contents] at hread
  obtain ⟨b, hsmall, -, hb⟩ := hread (by decide)
  cases hb
  exact absurd hsmall (by decide)

end Poesie
