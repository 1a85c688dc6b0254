import Poesie.Json

set_option autoImplicit false

/-! # Exceptions and results

`poesie::Result<T>` is what every RPC sends back: a success flag with either a value or an
error string. The exceptions are kept apart by their C++ class, because the handlers of the
backends catch some classes only.
-/

namespace Poesie

open Wire

/-- The bytes of a string literal. -/
def text (s : String) : Bytes := s.toUTF8.data.toList

/-! ## Exceptions -/

/-- A C++ exception, by class and message. -/
inductive CppException where
  /-- `poesie::Exception` -/
  | poesie (what : Bytes)
  /-- `thallium::exception` -/
  | thallium (what : Bytes)
  /-- `nlohmann::json::exception` -/
  | json (what : Bytes)
  /-- `sol::error` -/
  | sol (what : Bytes)
  /-- `pybind11::error_already_set` -/
  | errorAlreadySet (what : Bytes)
  /-- any other `std::exception` -/
  | std (what : Bytes)
  deriving DecidableEq, Repr

/-! ## The archive

Thallium's archives are parameters: the primitives the code writes, each at a fixed width.
`size_t`, `uint64_t` and the size tags of strings and vectors are the same C++ type. -/

structure Archive where
  char : Prim UInt8
  boolean : Prim Bool
  int64 : Prim Int64
  uint64 : Prim UInt64
  float64 : Prim Float64

/-- The archive of a little-endian machine that copies primitives as they lie in memory. -/
def Archive.native : Archive where
  char := Prim.byte
  boolean := Prim.bool
  int64 := Prim.uint64LE.through Int64.toUInt64 UInt64.toInt64 (fun _ => rfl)
  uint64 := Prim.uint64LE
  float64 := Prim.uint64LE.through Float64.bits Float64.mk (fun _ => rfl)

/-- A decoder of this code: it may throw. -/
abbrev Load (α : Type) : Type := Reader CppException α

/-! ## Results -/

/-- `poesie::Result<T>` -/
structure Result (α : Type) where
  success : Bool := true
  error : Bytes := []
  value : α

namespace Result

variable {α : Type}

instance [Inhabited α] : Inhabited (Result α) := ⟨{ value := default }⟩

/-- `Result::check` and `Result::valueOrThrow` -/
def valueOrThrow (r : Result α) : Except CppException α :=
  if r.success then .ok r.value else .error (.poesie r.error)

/-- `Result::serialize` into an output archive: the flag, then the value or the error. -/
def save (ar : Archive) (putValue : α → Bytes) (r : Result α) : Bytes :=
  ar.boolean.put r.success ++
    if r.success then putValue r.value else putString ar.uint64 r.error

/-- `Result::serialize` from an input archive, into a default-constructed result. -/
def load [Inhabited α] (ar : Archive) (readValue : Load α) : Load (Result α) := do
  let success ← Reader.prim ar.boolean
  if success then do
    let value ← readValue
    pure { success := true, value := value }
  else do
    let error ← readString ar.uint64
    pure { success := false, error := error, value := default }

/-- What a result looks like after it went through an archive: of value and error only the
one that counts is sent. -/
def received [Inhabited α] (r : Result α) : Result α :=
  if r.success then { success := true, value := r.value }
  else { success := false, error := r.error, value := default }

theorem valueOrThrow_received [Inhabited α] (r : Result α) :
    r.received.valueOrThrow = r.valueOrThrow := by
  cases h : r.success <;> simp [received, valueOrThrow, h]

/-- A result goes through an archive, when its value does. -/
theorem reads_load [Inhabited α] (ar : Archive) (putValue : α → Bytes) (readValue : Load α)
    {r : Result α} {value : α} (herr : r.error.length < 2 ^ 64)
    (hval : r.success = true → Reads readValue (putValue r.value) value) :
    Reads (load ar readValue) (r.save ar putValue)
      ({ r with value := value } : Result α).received := by
  cases h : r.success with
  | true =>
      have hv := hval h
      unfold load save received
      simp only [h]
      exact Reads.bind (Reads.prim ar.boolean true)
        (Reads.map (f := fun v => ({ success := true, value := v } : Result α)) hv)
  | false =>
      have he := Reads.string (ε := CppException) ar.uint64 herr
      unfold load save received
      simp only [h]
      exact Reads.bind (Reads.prim ar.boolean false)
        (Reads.map
          (f := fun e => ({ success := false, error := e, value := default } : Result α)) he)

end Result

end Poesie
