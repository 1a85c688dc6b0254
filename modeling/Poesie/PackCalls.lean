import Poesie.UnpackSpec

set_option autoImplicit false

/-! # Calls of `memory.pack` and `memory.unpack`

Whatever the arguments are, a call stays inside of the memory and comes to an end. It writes from
the position it is given up to the one it returns. All is written exactly if each argument is one
that its option takes and the items fit one behind the other.
-/

namespace Poesie

open Wire Blocks Outcomes TwosComplement

namespace LuaMem

variable {M : Machine} {L : LuaNumerals} {m : Memory} {args : List LuaValue}

/-! ## The beginning of a call -/

/-- The format and the position at which `mem_pack` begins. -/
def packStart (L : LuaNumerals) (m : Memory) (args : List LuaValue) :
    Except LuaError (Bytes × Nat) := do
  let fmt ← checkstring L 2 args.head?
  let pos ← checkinteger L 3 args[1]?
  if posrelatI pos m.array.bytes.length - 1 ≤ m.array.bytes.length then
    pure (fmt, posrelatI pos m.array.bytes.length - 1)
  else .error (.argument 3 (text "index out of bounds"))

/-- A format as the machine reads it. -/
def formatOf (M : Machine) (fmt : Bytes) : Format :=
  readFormat M.little fmt.length (initheader M) fmt

/-- The pieces that a call comes to. -/
def callPieces (M : Machine) (L : LuaNumerals) (args : List LuaValue) (fmt : Bytes) (i : Nat) :
    List Piece :=
  layout M L (formatOf M fmt).ending (formatOf M fmt).directives 3 (args.drop 2) i

/-- What is returned about what has been written. -/
def Written.result (w : Written) : CallResult :=
  match w.stop with
  | none => .returned [.boolean true, integer (w.i + 1)]
  | some (.failed i rest) => .returned ([.boolean false, integer (i + 1)] ++ rest)
  | some (.error e) => .error e
  | some .fault => .fault

theorem initheader_good (M : Machine) :
    1 ≤ (initheader M).maxalign ∧ (initheader M).maxalign ≤ MAXINTSIZE := by
  simp [initheader, MAXINTSIZE]

theorem formatOf_good (M : Machine) (fmt : Bytes) :
    (formatOf M fmt).ending ≠ .unread ∧ ∀ d ∈ (formatOf M fmt).directives, d.Good :=
  readFormat_good (initheader_good M) (Nat.le_refl fmt.length)

theorem mem_pack_of_error {e : LuaError} (h : packStart L m args = .error e) :
    mem_pack M L m args = (.error e, m.array.bytes) := by
  unfold packStart at h
  unfold mem_pack
  cases hfmt : checkstring L 2 args.head? with
  | error e' =>
      rw [hfmt] at h
      cases h
      rfl
  | ok fmt =>
      cases hpos : checkinteger L 3 args[1]? with
      | error e' =>
          rw [hfmt, hpos] at h
          cases h
          rfl
      | ok pos =>
          rw [hfmt, hpos] at h
          simp only [bind, Except.bind] at h ⊢
          split at h
          · cases h
          · cases h
            rw [if_neg ‹_›]

theorem result_ending (w : Written) (null : Bool) : packResult (w.ending null ()) = w.result := by
  unfold packResult Written.ending Written.result
  cases w.stop with
  | none => rfl
  | some e => cases e <;> rfl

theorem mem_pack_of_ok (M : Machine) {fmt : Bytes} {i : Nat} (h : packStart L m args = .ok (fmt, i)) :
    i ≤ m.array.bytes.length ∧
    mem_pack M L m args =
      ((perform m.null (callPieces M L args fmt i) m.array.bytes i).result,
        (perform m.null (callPieces M L args fmt i) m.array.bytes i).bytes) := by
  unfold packStart at h
  unfold mem_pack
  cases hfmt : checkstring L 2 args.head? with
  | error e' => rw [hfmt] at h; cases h
  | ok fmt' =>
      cases hpos : checkinteger L 3 args[1]? with
      | error e' => rw [hfmt, hpos] at h; cases h
      | ok pos =>
          rw [hfmt, hpos] at h
          simp only [bind, Except.bind] at h ⊢
          split at h
          · rename_i hi
            cases h
            have hnull : m.null = true → m.array.bytes.length = 0 := by
              intro hn
              rw [m.empty hn]
              rfl
            have hloop := packLoop_eq M L m.array.short rfl hnull hi (initheader_good M)
              (Nat.le_refl fmt.length) 3 (args.drop 2)
            refine ⟨hi, ?_⟩
            rw [if_pos hi, ← result_ending _ m.null]
            exact congrArg (fun r => (packResult r, r.2.bytes)) hloop
          · cases h

/-! ## Where a call writes -/

/-- What is returned of the arguments, from some argument on. A number at which packing stopped may
have become a string. -/
def Remaining (L : LuaNumerals) (args rest : List LuaValue) : Prop :=
  ∃ n, rest = args.drop n ∨ rest = (args.drop n).modifyHead (tostring L)

theorem Remaining.of_behind {opt : KOption} {rest rest' : List LuaValue}
    (h : Remaining L (behind opt rest) rest') : Remaining L rest rest' := by
  obtain ⟨n, hn⟩ := h
  unfold behind at hn
  split at hn
  · rw [← List.drop_one, List.drop_drop] at hn
    exact ⟨1 + n, hn⟩
  · exact ⟨n, hn⟩

/-- The arguments that a piece returns. -/
def Piece.remaining : Piece → List LuaValue
  | .skip _ rest => rest
  | .write _ rest => rest
  | .raise _ => []

/-- No argument is left behind an error. -/
theorem remaining_nil (args : List LuaValue) : Remaining L args [] :=
  ⟨args.length, Or.inl (List.drop_length).symm⟩

theorem remaining_self (args : List LuaValue) : Remaining L args args := ⟨0, Or.inl rfl⟩

theorem remaining_head (args : List LuaValue) : Remaining L args (args.modifyHead (tostring L)) :=
  ⟨0, Or.inr rfl⟩

theorem piecesOf_remaining {α : Type} {r : Except LuaError α} {pieces : α → List Piece}
    (h : ∀ a, ∀ p ∈ pieces a, Remaining L args p.remaining) :
    ∀ p ∈ piecesOf r pieces, Remaining L args p.remaining := by
  cases r with
  | error e => simpa [piecesOf, Piece.remaining] using remaining_nil args
  | ok a => exact h a

theorem guarded_remaining {cond : Bool} {arg : Nat} {message : Bytes} {pieces : List Piece}
    (h : ∀ p ∈ pieces, Remaining L args p.remaining) :
    ∀ p ∈ guarded cond arg message pieces, Remaining L args p.remaining := by
  cases cond with
  | false => simpa [guarded, Piece.remaining] using remaining_nil args
  | true => exact h

theorem item_remaining (islittle : Bool) (opt : KOption) (size arg : Nat) (rest : List LuaValue) :
    ∀ p ∈ item M L islittle opt size arg rest, Remaining L rest p.remaining := by
  have hself : Remaining L rest rest := remaining_self rest
  have hhead : Remaining L rest (rest.modifyHead (tostring L)) := remaining_head rest
  cases opt with
  | int | uint =>
      refine piecesOf_remaining fun n => guarded_remaining ?_
      simpa [Piece.remaining] using hself
  | float =>
      unfold item
      cases checknumber L arg rest.head? with
      | error e => simpa [Piece.remaining] using ⟨hself, remaining_nil rest⟩
      | ok x => simpa [Piece.remaining] using hself
  | char | string | zstr =>
      refine piecesOf_remaining fun s => guarded_remaining ?_
      simpa [Piece.remaining] using hhead
  | padding => simpa [item, Piece.remaining] using hself
  | paddalign | nop => simp [item]

theorem layout_remaining (ending : Ending) (ds : List Directive) (arg : Nat) (rest : List LuaValue)
    (i : Nat) : ∀ p ∈ layout M L ending ds arg rest i, Remaining L rest p.remaining := by
  induction ds generalizing arg rest i with
  | nil =>
      cases ending with
      | error e => simpa [layout, Piece.remaining] using remaining_nil rest
      | done | unread => simp [layout]
  | cons d ds ih =>
      intro p hp
      rw [layout] at hp
      rcases List.mem_append.mp hp with hp | hp
      · rcases List.mem_cons.mp hp with rfl | hp
        · exact remaining_self rest
        · exact item_remaining _ _ _ _ _ p hp
      · exact (ih _ _ _ p hp).of_behind

/-- Why not all is written. -/
theorem perform_stop {null : Bool} {pieces : List Piece} {bytes : Bytes} {i : Nat} {stop : PackStop}
    (h : (perform null pieces bytes i).stop = some stop) :
    (∃ e, stop = .error e) ∨
      ∃ p ∈ pieces, stop = .failed (perform null pieces bytes i).i p.remaining := by
  induction pieces generalizing bytes i with
  | nil => cases h
  | cons p pieces ih =>
      have hlater : ∀ {w : Written}, ((∃ e, stop = .error e) ∨ ∃ q ∈ pieces,
          stop = .failed w.i q.remaining) → (∃ e, stop = .error e) ∨
          ∃ q ∈ p :: pieces, stop = .failed w.i q.remaining := by
        rintro w (he | ⟨q, hq, hstop⟩)
        · exact Or.inl he
        · exact Or.inr ⟨q, List.mem_cons_of_mem p hq, hstop⟩
      cases p with
      | skip n rest | write bs rest =>
          rw [perform] at h ⊢
          split at h
          · rw [if_pos ‹_›]
            exact hlater (ih h)
          · rw [if_neg ‹_›]
            cases h
            exact Or.inr ⟨_, List.mem_cons_self, rfl⟩
      | raise e =>
          cases h
          exact Or.inl ⟨e, rfl⟩

/-- The pieces are there from a position on, and what they skip is as it was. -/
def Laid (old new : Bytes) : List Piece → Nat → Prop
  | [], _ => True
  | .skip n _ :: pieces, i => part new i n = part old i n ∧ Laid old new pieces (i + n)
  | .write bs _ :: pieces, i => part new i bs.length = bs ∧ Laid old new pieces (i + bs.length)
  | .raise _ :: _, _ => False

/-- There is no error, and there is room for everything. -/
def Complete (null : Bool) (bytes : Bytes) (pieces : List Piece) (i : Nat) : Prop :=
  (∀ e, .raise e ∉ pieces) ∧
    (pieces = [] ∨ null = false ∧ i + extent pieces ≤ bytes.length)

theorem perform_complete_iff {null : Bool} {pieces : List Piece} {bytes : Bytes} {i : Nat}
    (hi : i ≤ bytes.length) :
    (perform null pieces bytes i).stop = none ↔ Complete null bytes pieces i := by
  induction pieces generalizing bytes i with
  | nil => exact iff_of_true rfl ⟨by simp, Or.inl rfl⟩
  | cons p pieces ih =>
      -- a piece that fits leaves the rest the room behind it
      have hnext : ∀ {bytes' : Bytes}, bytes'.length = bytes.length → null = false →
          i + p.size ≤ bytes.length → (∀ e, p ≠ .raise e) →
          ((perform null pieces bytes' (i + p.size)).stop = none ↔
            Complete null bytes (p :: pieces) i) := by
        intro bytes' hlen hnull hroom hraise
        rw [ih (by omega), Complete, Complete, extent_cons, hlen, ← Nat.add_assoc]
        constructor
        · rintro ⟨herrors, hfits⟩
          refine ⟨fun e hmem => ?_, Or.inr ⟨hnull, ?_⟩⟩
          · rcases List.mem_cons.mp hmem with hp | hmem
            · exact hraise e hp.symm
            · exact herrors e hmem
          · rcases hfits with rfl | hfits
            · exact hroom
            · exact hfits.2
        · rintro ⟨herrors, hfits⟩
          refine ⟨fun e hmem => herrors e (List.mem_cons_of_mem p hmem), Or.inr ⟨hnull, ?_⟩⟩
          rcases hfits with hfits | hfits
          · cases hfits
          · exact hfits.2
      have hfull : ¬ (null = false ∧ i + p.size ≤ bytes.length) →
          ¬ Complete null bytes (p :: pieces) i := by
        rintro hno ⟨-, hfits⟩
        rcases hfits with hfits | hfits
        · cases hfits
        · rw [extent_cons] at hfits
          exact hno ⟨hfits.1, by omega⟩
      cases p with
      | skip n rest =>
          rw [perform]
          split
          · rename_i hfits
            exact hnext rfl hfits.1 hfits.2 (by simp)
          · exact iff_of_false (by simp) (hfull ‹_›)
      | write bs rest =>
          rw [perform]
          split
          · rename_i hfits
            exact hnext (length_memcpyTo hfits.2) hfits.1 hfits.2 (by simp)
          · exact iff_of_false (by simp) (hfull ‹_›)
      | raise e => exact iff_of_false (by simp [perform]) fun h => h.1 e List.mem_cons_self

/-- Only what lies behind a position matters of the old bytes. -/
theorem Laid.congr {old old' new : Bytes} {pieces : List Piece} {i : Nat}
    (hold : ∀ k, i ≤ k → old'[k]? = old[k]?) (h : Laid old' new pieces i) :
    Laid old new pieces i := by
  induction pieces generalizing i with
  | nil => trivial
  | cons p pieces ih =>
      cases p with
      | skip n rest =>
          refine ⟨?_, ih (fun k hk => hold k (by omega)) h.2⟩
          rw [h.1]
          exact part_congr fun k hk => hold (i + k) (by omega)
      | write bs rest => exact ⟨h.1, ih (fun k hk => hold k (by omega)) h.2⟩
      | raise e => exact h

theorem laid_perform {null : Bool} {pieces : List Piece} {bytes : Bytes} {i : Nat}
    (hi : i ≤ bytes.length) (h : (perform null pieces bytes i).stop = none) :
    Laid bytes (perform null pieces bytes i).bytes pieces i := by
  induction pieces generalizing bytes i with
  | nil => trivial
  | cons p pieces ih =>
      cases p with
      | skip n rest =>
          rw [perform] at h ⊢
          split at h
          · rename_i hfits
            rw [if_pos hfits]
            refine ⟨?_, ih hfits.2 h⟩
            exact part_congr fun k hk => perform_before (by omega)
          · cases h
      | write bs rest =>
          rw [perform] at h ⊢
          split at h
          · rename_i hfits
            have hlen := length_memcpyTo hfits.2
            rw [if_pos hfits]
            refine ⟨?_, (ih (by omega) h).congr fun k hk => getElem?_memcpyTo_after hi hk⟩
            calc part (perform null pieces (memcpyTo bytes i bs) (i + bs.length)).bytes i bs.length
                = part (memcpyTo bytes i bs) i bs.length :=
                  part_congr fun k hk => perform_before (by omega)
              _ = bs := part_memcpyTo_self hi
          · cases h
      | raise e => cases h

/-- Where `mem_pack` returns `true`, all pieces are written. -/
theorem mem_pack_true {next : LuaValue}
    (h : (mem_pack M L m args).1 = .returned [.boolean true, next]) :
    ∃ fmt i, packStart L m args = .ok (fmt, i) ∧
      Complete m.null m.array.bytes (callPieces M L args fmt i) i ∧
      next = integer (i + extent (callPieces M L args fmt i) + 1) ∧
      Laid m.array.bytes (mem_pack M L m args).2 (callPieces M L args fmt i) i := by
  cases hstart : packStart L m args with
  | error e =>
      rw [mem_pack_of_error hstart] at h
      cases h
  | ok start =>
      obtain ⟨hi, hcall⟩ :=
        mem_pack_of_ok M (show packStart L m args = .ok (start.1, start.2) from hstart)
      have hstop : (perform m.null (callPieces M L args start.1 start.2) m.array.bytes
          start.2).stop = none := by
        by_contra hne
        obtain ⟨stop, hstop⟩ := Option.ne_none_iff_exists'.mp hne
        rw [hcall] at h
        rcases perform_stop hstop with ⟨e, rfl⟩ | ⟨p, hp, rfl⟩
        · simp [Written.result, hstop] at h
        · simp [Written.result, hstop] at h
      refine ⟨start.1, start.2, rfl, (perform_complete_iff hi).mp hstop, ?_, ?_⟩
      · rw [hcall] at h
        simp only [Written.result, hstop, perform_extent hstop] at h
        cases h
        rfl
      · rw [hcall]
        exact laid_perform hi hstop

/-- The format and the position at which `mem_unpack` begins. -/
def unpackStart (L : LuaNumerals) (m : Memory) (args : List LuaValue) :
    Except LuaError (Bytes × Nat) := do
  let fmt ← checkstring L 2 args.head?
  let pos ← optinteger L 3 1 args[1]?
  if posrelatI pos m.array.bytes.length - 1 ≤ m.array.bytes.length then
    pure (fmt, posrelatI pos m.array.bytes.length - 1)
  else .error (.argument 3 (text "index out of bounds"))

theorem mem_unpack_of_error (M : Machine) {e : LuaError} (h : unpackStart L m args = .error e) :
    mem_unpack M L m args = .error e := by
  unfold unpackStart at h
  unfold mem_unpack
  cases hfmt : checkstring L 2 args.head? with
  | error e' =>
      rw [hfmt] at h
      cases h
      rfl
  | ok fmt =>
      cases hpos : optinteger L 3 1 args[1]? with
      | error e' =>
          rw [hfmt, hpos] at h
          cases h
          rfl
      | ok pos =>
          rw [hfmt, hpos] at h
          simp only [bind, Except.bind] at h ⊢
          split at h
          · cases h
          · cases h
            rw [if_neg ‹_›]

theorem mem_unpack_of_ok (M : Machine) {fmt : Bytes} {i : Nat}
    (h : unpackStart L m args = .ok (fmt, i)) :
    i ≤ m.array.bytes.length ∧
    mem_unpack M L m args =
      unpackResult (readItems M m.array (formatOf M fmt).ending (formatOf M fmt).directives i) := by
  unfold unpackStart at h
  unfold mem_unpack
  cases hfmt : checkstring L 2 args.head? with
  | error e' => rw [hfmt] at h; cases h
  | ok fmt' =>
      cases hpos : optinteger L 3 1 args[1]? with
      | error e' => rw [hfmt, hpos] at h; cases h
      | ok pos =>
          rw [hfmt, hpos] at h
          simp only [bind, Except.bind] at h ⊢
          split at h
          · rename_i hi
            cases h
            refine ⟨hi, ?_⟩
            rw [if_pos hi, unpackLoop_eq hi (initheader_good M)]
            rfl
          · cases h

/-- Whatever its arguments are, `mem_unpack` reads inside of the memory only and ends: with an
error, or with a value for each option that takes one and a position of the memory. -/
theorem mem_unpack_inside (M : Machine) (L : LuaNumerals) (m : Memory) (args : List LuaValue) :
    (∃ e, mem_unpack M L m args = .error e) ∨
      ∃ fmt i values j, unpackStart L m args = .ok (fmt, i) ∧
        mem_unpack M L m args = .returned (values ++ [integer (j + 1)]) ∧
        j ≤ m.array.bytes.length ∧
        values.length = (formatOf M fmt).directives.countP fun d => d.opt.consumes := by
  cases hstart : unpackStart L m args with
  | error e => exact Or.inl ⟨e, mem_unpack_of_error M hstart⟩
  | ok start =>
      obtain ⟨hi, hcall⟩ :=
        mem_unpack_of_ok M (show unpackStart L m args = .ok (start.1, start.2) from hstart)
      rw [hcall]
      rcases readItems_ends (M := M) (formatOf_good M start.1).1 (formatOf M start.1).directives hi
        with
        ⟨r, hr, hinside, hcount⟩ | ⟨e, he⟩
      · refine Or.inr ⟨start.1, start.2, r.1, r.2, rfl, ?_, hinside, hcount⟩
        exact congrArg unpackResult hr
      · exact Or.inl ⟨e, congrArg unpackResult he⟩

end LuaMem

end Poesie
