import Poesie.Wire

set_option autoImplicit false

/-! # Fields at a moving cursor

A record written as consecutive fields: each field is copied into a buffer at the position
of a 64-bit cursor, which then moves past it (`layout`, `writeAll`). As long as the fields
fit in 64 bits the cursor does not wrap, the fields end up one after the other, and each
position of the buffer is written exactly once.

Reading goes the other way round: `AtCursor buf off rest` says that the cursor `off` stands
in `buf` with `rest` still to come, and the rules below it move the cursor on.
-/

namespace Wire

/-! ## Writing -/

/-- `std::memcpy` into a buffer. -/
def memcpyTo (buf : Bytes) (off : Nat) (src : Bytes) : Bytes :=
  buf.take off ++ src ++ buf.drop (off + src.length)

/-- Each field is written at the cursor, which then moves past it. -/
def layout : UInt64 → List Bytes → List (UInt64 × Bytes)
  | _, [] => []
  | off, f :: fs => (off, f) :: layout (off + UInt64.ofNat f.length) fs

/-- A buffer after copies into it. -/
def writeAll (buf : Bytes) (writes : List (UInt64 × Bytes)) : Bytes :=
  writes.foldl (fun buf w => memcpyTo buf w.1.toNat w.2) buf

/-- Whether a copy writes position `p`. -/
def covers (p : Nat) (w : UInt64 × Bytes) : Bool :=
  w.1.toNat ≤ p && p < w.1.toNat + w.2.length

theorem cursor_toNat (off : UInt64) (n : Nat) (h : off.toNat + n < 2 ^ 64) :
    (off + UInt64.ofNat n).toNat = off.toNat + n := by
  rw [UInt64.toNat_add, UInt64.toNat_ofNat_of_lt' (by show n < 2 ^ 64; omega), Nat.mod_eq_of_lt h]

theorem memcpyTo_append (pre post : Bytes) {old src : Bytes} (h : old.length = src.length) :
    memcpyTo (pre ++ (old ++ post)) pre.length src = pre ++ src ++ post := by
  rw [memcpyTo, List.take_left, ← h, ← List.length_append, ← List.append_assoc pre old post,
    List.drop_left]

/-- The fields end up one after the other from the cursor on. -/
theorem writeAll_layout (fs : List Bytes) (pre buf : Bytes) (off : UInt64)
    (hoff : off.toNat = pre.length) (hbuf : buf.length = fs.flatten.length)
    (hfit : pre.length + fs.flatten.length < 2 ^ 64) :
    writeAll (pre ++ buf) (layout off fs) = pre ++ fs.flatten := by
  induction fs generalizing pre buf off with
  | nil =>
      have hnil : buf = [] := List.length_eq_zero_iff.mp hbuf
      rw [hnil]
      rfl
  | cons f fs ih =>
      rw [List.flatten_cons, List.length_append] at hbuf hfit
      have hold : (buf.take f.length).length = f.length := by
        rw [List.length_take]
        omega
      have hput : memcpyTo (pre ++ buf) off.toNat f = (pre ++ f) ++ buf.drop f.length := by
        have h := memcpyTo_append pre (buf.drop f.length) hold
        rwa [List.take_append_drop, ← hoff] at h
      have hnext : (off + UInt64.ofNat f.length).toNat = (pre ++ f).length := by
        rw [cursor_toNat off f.length (by omega), hoff, List.length_append]
      have hrest : (buf.drop f.length).length = fs.flatten.length := by
        rw [List.length_drop]
        omega
      have htail := ih (pre ++ f) (buf.drop f.length) _ hnext hrest
        (by rw [List.length_append]; omega)
      calc writeAll (pre ++ buf) (layout off (f :: fs))
          = writeAll (memcpyTo (pre ++ buf) off.toNat f)
              (layout (off + UInt64.ofNat f.length) fs) := rfl
        _ = pre ++ f ++ fs.flatten := by rw [hput, htail]
        _ = pre ++ (f :: fs).flatten := by rw [List.flatten_cons, List.append_assoc]

/-- Writing starts at the cursor and stops where the fields end. -/
theorem layout_inside (fs : List Bytes) {off : UInt64}
    (hfit : off.toNat + fs.flatten.length < 2 ^ 64) {w : UInt64 × Bytes} (hw : w ∈ layout off fs) :
    off.toNat ≤ w.1.toNat ∧ w.1.toNat + w.2.length ≤ off.toNat + fs.flatten.length := by
  induction fs generalizing off with
  | nil => cases hw
  | cons f fs ih =>
      rw [List.flatten_cons, List.length_append] at hfit ⊢
      rcases List.mem_cons.mp hw with rfl | hw
      · show off.toNat ≤ off.toNat ∧ off.toNat + f.length ≤ _
        omega
      · have hnext := cursor_toNat off f.length (by omega)
        have h := ih (by omega) hw
        omega

/-- Between the cursor and the end of the fields, each position is written once. -/
theorem countP_layout (fs : List Bytes) {off : UInt64} {p : Nat}
    (hfit : off.toNat + fs.flatten.length < 2 ^ 64) (hlo : off.toNat ≤ p)
    (hhi : p < off.toNat + fs.flatten.length) :
    (layout off fs).countP (covers p) = 1 := by
  induction fs generalizing off with
  | nil => simp at hhi; omega
  | cons f fs ih =>
      rw [List.flatten_cons, List.length_append] at hfit hhi
      have hnext := cursor_toNat off f.length (by omega)
      rw [layout, List.countP_cons]
      by_cases hp : p < off.toNat + f.length
      · -- the position lies in `f`: the later fields start after it
        have hrest : (layout (off + UInt64.ofNat f.length) fs).countP (covers p) = 0 := by
          rw [List.countP_eq_zero]
          intro w hw hcov
          have hin := layout_inside fs (by omega) hw
          simp only [covers, Bool.and_eq_true, decide_eq_true_eq] at hcov
          omega
        have hf : covers p (off, f) = true := by
          simp only [covers, Bool.and_eq_true, decide_eq_true_eq]
          exact ⟨hlo, hp⟩
        rw [hrest, hf]
        rfl
      · have hf : covers p (off, f) = false := by
          simp only [covers, Bool.and_eq_false_iff, decide_eq_false_iff_not]
          exact Or.inr hp
        rw [ih (by omega) (by omega) (by omega), hf]
        rfl

/-! ## Reading -/

/-- The cursor `off` stands in `buf`, and `rest` is what follows it. -/
structure AtCursor (buf : Bytes) (off : UInt64) (rest : Bytes) : Prop where
  drop : buf.drop off.toNat = rest
  inside : off.toNat + rest.length = buf.length

namespace AtCursor

variable {buf x rest : Bytes} {off : UInt64}

theorem start (buf : Bytes) : AtCursor buf 0 buf := ⟨rfl, by simp⟩

/-- The field at the cursor lies inside the buffer. -/
theorem fits (h : AtCursor buf off (x ++ rest)) : off.toNat + x.length ≤ buf.length := by
  have := h.inside
  rw [List.length_append] at this
  omega

theorem take (h : AtCursor buf off (x ++ rest)) : (buf.drop off.toNat).take x.length = x := by
  rw [h.drop, List.take_left]

/-- Past a field, what follows the field is left. -/
theorem advance (hbuf : buf.length < 2 ^ 64) (h : AtCursor buf off (x ++ rest)) :
    AtCursor buf (off + UInt64.ofNat x.length) rest := by
  have hlen := h.inside
  rw [List.length_append] at hlen
  have hnext := cursor_toNat off x.length (by omega)
  refine ⟨?_, by omega⟩
  rw [hnext, ← List.drop_drop, h.drop, List.drop_left]

end AtCursor

end Wire
