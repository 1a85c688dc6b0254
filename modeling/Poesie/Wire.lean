import Mathlib.Tactic

set_option autoImplicit false

/-! # Reading and writing byte streams

Fixed-width primitives (`Prim`), decoders that consume a prefix of a byte string (`Reader`)
and the relation `Reads r enc a`: on the bytes `enc` followed by anything, the decoder `r`
returns `a` and leaves exactly what followed. The rules for `Reads` follow the way a decoder
is put together (`pure`, bind, primitives, raw bytes, counted loops), so that a round trip is
proved by walking the encoder and the decoder side by side.
-/

namespace Wire

/-- A byte string. -/
abbrev Bytes := List UInt8

/-! ## Primitives of a fixed width -/

/-- A primitive written as a fixed number of bytes and read back from them. -/
structure Prim (α : Type) where
  width : Nat
  put : α → Bytes
  get : Bytes → α
  width_pos : 0 < width
  put_length : ∀ a, (put a).length = width
  get_put : ∀ a, get (put a) = a

/-- The `w` low bytes of `n`, least significant first. -/
def leBytes : Nat → Nat → Bytes
  | 0, _ => []
  | w + 1, n => UInt8.ofNat n :: leBytes w (n / 256)

/-- The number whose bytes are given, least significant first. -/
def ofLE : Bytes → Nat
  | [] => 0
  | b :: bs => b.toNat + 256 * ofLE bs

@[simp] theorem leBytes_length (w n : Nat) : (leBytes w n).length = w := by
  induction w generalizing n with
  | zero => rfl
  | succ w ih => simp [leBytes, ih]

theorem ofLE_leBytes (w n : Nat) : ofLE (leBytes w n) = n % 256 ^ w := by
  induction w generalizing n with
  | zero => simp [leBytes, ofLE, Nat.mod_one]
  | succ w ih =>
      have hb : (UInt8.ofNat n).toNat = n % 256 := by simp
      rw [leBytes, ofLE, ih, hb, pow_succ, Nat.mul_comm (256 ^ w) 256, Nat.mod_mul]

theorem ofLE_leBytes_of_lt {w n : Nat} (h : n < 256 ^ w) : ofLE (leBytes w n) = n := by
  rw [ofLE_leBytes, Nat.mod_eq_of_lt h]

theorem leBytes_ofLE (bs : Bytes) : leBytes bs.length (ofLE bs) = bs := by
  induction bs with
  | nil => rfl
  | cons b bs ih =>
      have hb : b.toNat < 256 := b.toNat_lt
      have hlow : UInt8.ofNat (b.toNat + 256 * ofLE bs) = b := by
        rw [← UInt8.toNat_inj, UInt8.toNat_ofNat']
        omega
      have hhigh : (b.toNat + 256 * ofLE bs) / 256 = ofLE bs := by omega
      rw [List.length_cons, ofLE, leBytes, hlow, hhigh, ih]

theorem ofLE_lt (bs : Bytes) : ofLE bs < 256 ^ bs.length := by
  induction bs with
  | nil => simp [ofLE]
  | cons b bs ih =>
      have hb : b.toNat < 256 := b.toNat_lt
      rw [ofLE, List.length_cons, pow_succ]
      omega

/-- One byte. -/
def Prim.byte : Prim UInt8 where
  width := 1
  put b := [b]
  get bs := bs.headD 0
  width_pos := by decide
  put_length _ := rfl
  get_put _ := rfl

/-- A truth value, one byte that is `0` or `1`. -/
def Prim.bool : Prim Bool where
  width := 1
  put b := [if b then 1 else 0]
  get bs := bs.headD 0 != 0
  width_pos := by decide
  put_length _ := rfl
  get_put b := by cases b <;> rfl

/-- A 64-bit word, least significant byte first. -/
def Prim.uint64LE : Prim UInt64 where
  width := 8
  put n := leBytes 8 n.toNat
  get bs := UInt64.ofNat (ofLE bs)
  width_pos := by decide
  put_length n := leBytes_length 8 n.toNat
  get_put n := by
    have h : n.toNat < 256 ^ 8 := n.toNat_lt
    rw [ofLE_leBytes_of_lt h, UInt64.ofNat_toNat]

/-- A primitive carried over to a type with the same values. -/
def Prim.through {α β : Type} (p : Prim α) (enc : β → α) (dec : α → β)
    (h : ∀ b, dec (enc b) = b) : Prim β where
  width := p.width
  put b := p.put (enc b)
  get bs := dec (p.get bs)
  width_pos := p.width_pos
  put_length b := p.put_length (enc b)
  get_put b := by rw [p.get_put, h]

/-! ## Readers -/

/-- Why a reader gave up: the input ended, the value is nested deeper than the reader
follows, or the decoder itself rejected what it read. -/
inductive Failure (ε : Type) where
  | short
  | depth
  | thrown (e : ε)
  deriving DecidableEq, Repr

/-- A decoder: it takes the unread bytes and returns a value with the bytes it left. -/
def Reader (ε α : Type) : Type := Bytes → Except (Failure ε) (α × Bytes)

variable {ε α β σ : Type}

namespace Reader

instance : Monad (Reader ε) where
  pure a := fun bs => .ok (a, bs)
  bind r f := fun bs =>
    match r bs with
    | .ok (a, rest) => f a rest
    | .error e => .error e

/-- Give up with an error of the decoder's own. -/
def throw (e : ε) : Reader ε α := fun _ => .error (.thrown e)

/-- Give up because the value is nested too deep. -/
def tooDeep : Reader ε α := fun _ => .error .depth

/-- Take the next `n` bytes. -/
def take (n : Nat) : Reader ε Bytes := fun bs =>
  if n ≤ bs.length then .ok (bs.take n, bs.drop n) else .error .short

/-- Read one primitive. -/
def prim (p : Prim α) : Reader ε α := do
  let bs ← take p.width
  pure (p.get bs)

/-- Run `body` `n` times over an accumulator. -/
def loop (body : σ → Reader ε σ) : Nat → σ → Reader ε σ
  | 0, s => pure s
  | n + 1, s => do
      let s' ← body s
      loop body n s'

theorem bind_of_ok {r : Reader ε α} {bs rest : Bytes} {a : α} (h : r bs = .ok (a, rest))
    (f : α → Reader ε β) : (r >>= f) bs = f a rest := by
  show (match r bs with
    | .ok (a, rest) => f a rest
    | .error e => .error e) = _
  rw [h]

theorem bind_of_error {r : Reader ε α} {bs : Bytes} {e : Failure ε} (h : r bs = .error e)
    (f : α → Reader ε β) : (r >>= f) bs = .error e := by
  show (match r bs with
    | .ok (a, rest) => f a rest
    | .error e => .error e) = _
  rw [h]

theorem take_of_le {n : Nat} {bs : Bytes} (h : n ≤ bs.length) :
    (take n : Reader ε Bytes) bs = .ok (bs.take n, bs.drop n) := if_pos h

theorem take_of_lt {n : Nat} {bs : Bytes} (h : bs.length < n) :
    (take n : Reader ε Bytes) bs = .error .short := if_neg (Nat.not_le.mpr h)

theorem prim_of_le (p : Prim α) {bs : Bytes} (h : p.width ≤ bs.length) :
    (prim p : Reader ε α) bs = .ok (p.get (bs.take p.width), bs.drop p.width) :=
  bind_of_ok (take_of_le h) _

theorem prim_of_lt (p : Prim α) {bs : Bytes} (h : bs.length < p.width) :
    (prim p : Reader ε α) bs = .error .short :=
  bind_of_error (take_of_lt h) _

end Reader

/-! ## What a reader makes of an encoding -/

/-- On `enc` followed by anything, `r` returns `a` and leaves what followed. -/
def Reads (r : Reader ε α) (enc : Bytes) (a : α) : Prop :=
  ∀ rest, r (enc ++ rest) = .ok (a, rest)

theorem Reads.pure (a : α) : Reads (Pure.pure a : Reader ε α) [] a := fun _ => rfl

theorem Reads.bind {r : Reader ε α} {f : α → Reader ε β} {e₁ e₂ : Bytes} {a : α} {b : β}
    (h₁ : Reads r e₁ a) (h₂ : Reads (f a) e₂ b) : Reads (r >>= f) (e₁ ++ e₂) b := by
  intro rest
  rw [List.append_assoc, Reader.bind_of_ok (h₁ (e₂ ++ rest))]
  exact h₂ rest

/-- A last step that only builds the result from what was read. -/
theorem Reads.map {r : Reader ε α} {f : α → β} {enc : Bytes} {a : α} (h : Reads r enc a) :
    Reads (r >>= fun x => Pure.pure (f x)) enc (f a) := by
  have h' := Reads.bind (f := fun x => (Pure.pure (f x) : Reader ε β)) h (Reads.pure (f a))
  rwa [List.append_nil] at h'

theorem Reads.take (bs : Bytes) : Reads (Reader.take bs.length : Reader ε Bytes) bs bs := by
  intro rest
  simp [Reader.take]

theorem Reads.prim (p : Prim α) (a : α) : Reads (Reader.prim p : Reader ε α) (p.put a) a := by
  have h := Reads.take (ε := ε) (p.put a)
  rw [p.put_length] at h
  have h' := Reads.map (f := p.get) h
  rwa [p.get_put] at h'

/-- A counted loop reads the encodings of the list elements one after the other, when each
turn reads one of them from whatever accumulator it finds. -/
theorem Reads.loop (body : σ → Reader ε σ) (enc : α → Bytes) (upd : σ → α → σ) (xs : List α)
    (h : ∀ s, ∀ x ∈ xs, Reads (body s) (enc x) (upd s x)) (s : σ) :
    Reads (Reader.loop body xs.length s) (xs.flatMap enc) (xs.foldl upd s) := by
  induction xs generalizing s with
  | nil => exact Reads.pure s
  | cons x xs ih =>
      have hx : Reads (body s) (enc x) (upd s x) := h s x (by simp)
      have hxs := ih (fun s y hy => h s y (by simp [hy])) (upd s x)
      rw [List.flatMap_cons]
      exact Reads.bind hx hxs

/-- The accumulator of a loop that appends one result per element. -/
theorem foldl_snoc (f : α → β) (xs : List α) (acc : List β) :
    xs.foldl (fun acc x => acc ++ [f x]) acc = acc ++ xs.map f := by
  induction xs generalizing acc with
  | nil => simp
  | cons x xs ih => rw [List.foldl_cons, ih, List.map_cons, List.append_assoc]; rfl

theorem map_eq_self_iff {f : α → α} {xs : List α} : xs.map f = xs ↔ ∀ x ∈ xs, f x = x := by
  have h := List.map_inj_left (f := f) (g := id) (l := xs)
  rwa [List.map_id] at h

/-- An element's encoding is no longer than that of the list. -/
theorem length_le_flatMap (enc : α → Bytes) {x : α} {xs : List α} (h : x ∈ xs) :
    (enc x).length ≤ (xs.flatMap enc).length := by
  induction xs with
  | nil => cases h
  | cons y ys ih =>
      rw [List.flatMap_cons, List.length_append]
      rcases List.mem_cons.mp h with rfl | h
      · omega
      · have := ih h
        omega

/-! ## Readers that never run out of depth -/

/-- On fewer than `n` bytes, `r` does not stop for depth and leaves no more than it was
given. -/
def Bounded (r : Reader ε α) (n : Nat) : Prop :=
  ∀ bs, bs.length < n → r bs ≠ .error .depth ∧
    ∀ a rest, r bs = .ok (a, rest) → rest.length ≤ bs.length

theorem Bounded.pure (a : α) (n : Nat) : Bounded (Pure.pure a : Reader ε α) n := by
  intro bs _
  refine ⟨fun h => (by cases h), fun a' rest h => ?_⟩
  cases h
  exact Nat.le_refl _

theorem Bounded.throw (e : ε) (n : Nat) : Bounded (Reader.throw e : Reader ε α) n := by
  intro bs _
  exact ⟨fun h => (by cases h), fun a rest h => by cases h⟩

theorem Bounded.of_error {r : Reader ε α} {bs : Bytes} {e : Failure ε} (h : r bs = .error e)
    (he : e ≠ .depth) :
    r bs ≠ .error .depth ∧ ∀ a rest, r bs = .ok (a, rest) → rest.length ≤ bs.length := by
  rw [h]
  exact ⟨fun hd => he (Except.error.inj hd), fun a rest ha => by cases ha⟩

theorem Bounded.take (k n : Nat) : Bounded (Reader.take k : Reader ε Bytes) n := by
  intro bs _
  by_cases h : k ≤ bs.length
  · rw [Reader.take_of_le h]
    refine ⟨fun he => (by cases he), fun a rest he => ?_⟩
    cases he
    rw [List.length_drop]
    omega
  · exact Bounded.of_error (Reader.take_of_lt (by omega)) (by simp)

theorem Bounded.bind {r : Reader ε α} {f : α → Reader ε β} {n : Nat} (hr : Bounded r n)
    (hf : ∀ a, Bounded (f a) n) : Bounded (r >>= f) n := by
  intro bs hbs
  obtain ⟨hdeep, hle⟩ := hr bs hbs
  cases h : r bs with
  | error e =>
      exact Bounded.of_error (Reader.bind_of_error h f) (fun he => hdeep (he ▸ h))
  | ok p =>
      obtain ⟨a, rest⟩ := p
      have hrest := hle a rest h
      obtain ⟨hd, hl⟩ := hf a rest (by omega)
      rw [Reader.bind_of_ok h]
      exact ⟨hd, fun b rest' hb => Nat.le_trans (hl b rest' hb) hrest⟩

theorem Bounded.prim (p : Prim α) (n : Nat) : Bounded (Reader.prim p : Reader ε α) n :=
  Bounded.bind (Bounded.take p.width n) (fun bs => Bounded.pure (p.get bs) n)

/-- A primitive takes at least one byte, so what comes after it may go one less deep. -/
theorem Bounded.prim_bind {p : Prim α} {f : α → Reader ε β} {n : Nat}
    (hf : ∀ a, Bounded (f a) n) : Bounded (Reader.prim p >>= f) (n + 1) := by
  intro bs hbs
  have hw := p.width_pos
  by_cases h : p.width ≤ bs.length
  · have hlen : (bs.drop p.width).length = bs.length - p.width := List.length_drop
    obtain ⟨hd, hl⟩ := hf (p.get (bs.take p.width)) (bs.drop p.width) (by omega)
    rw [Reader.bind_of_ok (Reader.prim_of_le p h)]
    refine ⟨hd, fun b rest' hb => ?_⟩
    have := hl b rest' hb
    omega
  · exact Bounded.of_error (Reader.bind_of_error (Reader.prim_of_lt p (by omega)) f) (by simp)

theorem Bounded.loop {body : σ → Reader ε σ} {n : Nat} (h : ∀ s, Bounded (body s) n)
    (k : Nat) (s : σ) : Bounded (Reader.loop body k s) n := by
  induction k generalizing s with
  | zero => exact Bounded.pure s n
  | succ k ih => exact Bounded.bind (h s) ih

/-! ## Strings and vectors with a length in front -/

/-- A length prefix. -/
def putSize (size : Prim UInt64) (n : Nat) : Bytes := size.put (UInt64.ofNat n)

/-- A string: its length, then its bytes. -/
def putString (size : Prim UInt64) (s : Bytes) : Bytes := putSize size s.length ++ s

/-- Read a length. -/
def readSize (size : Prim UInt64) : Reader ε Nat := do
  let n ← Reader.prim size
  pure n.toNat

/-- Read a string with its length in front. -/
def readString (size : Prim UInt64) : Reader ε Bytes := do
  let n ← readSize size
  Reader.take n

theorem Reads.size (size : Prim UInt64) {n : Nat} (h : n < 2 ^ 64) :
    Reads (readSize size : Reader ε Nat) (putSize size n) n := by
  have h' := Reads.map (ε := ε) (f := UInt64.toNat) (Reads.prim size (UInt64.ofNat n))
  rwa [UInt64.toNat_ofNat_of_lt' h] at h'

theorem Reads.string (size : Prim UInt64) {s : Bytes} (h : s.length < 2 ^ 64) :
    Reads (readString size : Reader ε Bytes) (putString size s) s :=
  Reads.bind (Reads.size size h) (Reads.take s)

theorem Bounded.size (size : Prim UInt64) (n : Nat) :
    Bounded (readSize size : Reader ε Nat) n :=
  Bounded.bind (Bounded.prim size n) (fun m => Bounded.pure m.toNat n)

theorem Bounded.string (size : Prim UInt64) (n : Nat) :
    Bounded (readString size : Reader ε Bytes) n :=
  Bounded.bind (Bounded.size size n) (fun k => Bounded.take k n)

end Wire
