import Poesie.LuaMem

set_option autoImplicit false

/-! # Formats of the memory library

`memory.pack` and `memory.unpack` read a format option by option. An option has a kind, a size and
an alignment, and may change how the options behind it are read. What an option means does not
depend on where in the memory it is used, apart from the padding in front of it. A format is
therefore a list of directives, which an error may end (`readFormat`).
-/

namespace Poesie

open Wire

namespace LuaMem

inductive KOption where
  | int
  | uint
  | float
  | char
  | string
  | zstr
  | padding
  | paddalign
  | nop
  deriving DecidableEq, Repr

/-- What the options read so far have set. -/
structure Header where
  islittle : Bool
  maxalign : Nat
  deriving DecidableEq, Repr

/-- `INT_MAX` -/
def INT_MAX : Nat := 2 ^ 31 - 1

/-- `LUAMEM_MAXSIZE`, where a `size_t` is not smaller than an `int`. -/
def MAXSIZE : Nat := INT_MAX

def MAXINTSIZE : Nat := 16

def MAXALIGN : Nat := 8

/-- The size of a `lua_Integer`. -/
def SZINT : Nat := 8

/-! ## Numerals -/

def digit (c : UInt8) : Bool := 48 ≤ c.toNat && c.toNat ≤ 57

/-- The character that the format pointer points to. -/
def current (fmt : Bytes) : UInt8 := fmt.headD 0

/-- The loop of `getnum`, on a format that starts with a digit. -/
def getnumLoop (a : Nat) : Bytes → Nat × Bytes
  | [] => (a, [])
  | c :: fmt =>
      let a := a * 10 + (c.toNat - 48)
      if digit (current fmt) && a ≤ (MAXSIZE - 9) / 10 then getnumLoop a fmt else (a, fmt)

def getnum (fmt : Bytes) (df : Int) : Int × Bytes :=
  if digit (current fmt) then ((getnumLoop 0 fmt).1, (getnumLoop 0 fmt).2) else (df, fmt)

def getnumlimit (fmt : Bytes) (df : Int) : Except LuaError (Nat × Bytes) :=
  let sz := (getnum fmt df).1
  if (MAXINTSIZE : Int) < sz ∨ sz ≤ 0 then
    .error (.error (text "integral size (" ++ text (toString sz) ++ text ") out of limits [1," ++
      text (toString MAXINTSIZE) ++ text "]"))
  else .ok (sz.toNat, (getnum fmt df).2)

/-! ## Options -/

/-- An option, its size, and what is left of the format. -/
structure ReadOption where
  opt : KOption
  size : Nat
  h : Header
  fmt : Bytes
  deriving DecidableEq, Repr

/-- An option with a size that may be written behind it. -/
def sizedOption (opt : KOption) (df : Int) (h : Header) (fmt : Bytes) : Except LuaError ReadOption := do
  let (size, fmt) ← getnumlimit fmt df
  pure ⟨opt, size, h, fmt⟩

/-- `getoption`, with the sizes of a 64-bit machine. -/
def getoption (native : Bool) (h : Header) (opt : UInt8) (fmt : Bytes) : Except LuaError ReadOption :=
  match Char.ofNat opt.toNat with
  | 'b' => .ok ⟨.int, 1, h, fmt⟩
  | 'B' => .ok ⟨.uint, 1, h, fmt⟩
  | 'h' => .ok ⟨.int, 2, h, fmt⟩
  | 'H' => .ok ⟨.uint, 2, h, fmt⟩
  | 'l' => .ok ⟨.int, 8, h, fmt⟩
  | 'L' => .ok ⟨.uint, 8, h, fmt⟩
  | 'j' => .ok ⟨.int, 8, h, fmt⟩
  | 'J' => .ok ⟨.uint, 8, h, fmt⟩
  | 'T' => .ok ⟨.uint, 8, h, fmt⟩
  | 'f' => .ok ⟨.float, 4, h, fmt⟩
  | 'd' => .ok ⟨.float, 8, h, fmt⟩
  | 'n' => .ok ⟨.float, 8, h, fmt⟩
  | 'i' => sizedOption .int 4 h fmt
  | 'I' => sizedOption .uint 4 h fmt
  | 's' => sizedOption .string 8 h fmt
  | 'c' =>
      let size := (getnum fmt (-1)).1
      if size = -1 then .error (.error (text "missing size for format option 'c'"))
      else .ok ⟨.char, size.toNat, h, (getnum fmt (-1)).2⟩
  | 'z' => .ok ⟨.zstr, 0, h, fmt⟩
  | 'x' => .ok ⟨.padding, 1, h, fmt⟩
  | 'X' => .ok ⟨.paddalign, 0, h, fmt⟩
  | ' ' => .ok ⟨.nop, 0, h, fmt⟩
  | '<' => .ok ⟨.nop, 0, { h with islittle := true }, fmt⟩
  | '>' => .ok ⟨.nop, 0, { h with islittle := false }, fmt⟩
  | '=' => .ok ⟨.nop, 0, { h with islittle := native }, fmt⟩
  | '!' => do
      let (maxalign, fmt) ← getnumlimit fmt MAXALIGN
      pure ⟨.nop, 0, { h with maxalign }, fmt⟩
  | _ => .error (.error (text "invalid format option '" ++ [opt] ++ text "'"))

/-! ## Details -/

/-- What `getdetails` finds out about an option, and what it leaves. -/
structure Details where
  opt : KOption
  size : Nat
  ntoalign : Nat
  h : Header
  fmt : Bytes
  deriving DecidableEq, Repr

/-- The size to be aligned, and what is left of the format: `X` takes the size of the option behind
it. -/
def alignOf (native : Bool) (o : ReadOption) : Except LuaError (Nat × Header × Bytes) :=
  let invalid := .error (.argument 1 (text "invalid next option for option 'X'"))
  if o.opt = .paddalign then
    match o.fmt with
    | [] => invalid
    | next :: fmt => do
        let o' ← getoption native o.h next fmt
        if o'.opt = .char ∨ o'.size = 0 then invalid else pure (o'.size, o'.h, o'.fmt)
  else .ok (o.size, o.h, o.fmt)

def getdetails (native : Bool) (h : Header) (totalsize : Nat) (opt : UInt8) (fmt : Bytes) :
    Except LuaError Details := do
  let o ← getoption native h opt fmt
  let (align, h, fmt) ← alignOf native o
  if align ≤ 1 ∨ o.opt = .char then pure ⟨o.opt, o.size, 0, h, fmt⟩
  else
    let align := if h.maxalign < align then h.maxalign else align
    if align &&& (align - 1) ≠ 0 then
      .error (.argument 1 (text "format asks for alignment not power of 2"))
    else
      pure ⟨o.opt, o.size, (align - (totalsize &&& (align - 1))) &&& (align - 1), h, fmt⟩

/-! ## Directives -/

/-- An option as it is used, wherever that is. One that needs no alignment has alignment 1. -/
structure Directive where
  opt : KOption
  size : Nat
  islittle : Bool
  align : Nat
  deriving DecidableEq, Repr

/-- The padding in front of an item that comes at `totalsize`. -/
def gap (align totalsize : Nat) : Nat := (align - (totalsize &&& (align - 1))) &&& (align - 1)

/-- The directive that an option stands for, with the header and the format that it leaves. -/
def directive (native : Bool) (h : Header) (opt : UInt8) (fmt : Bytes) :
    Except LuaError (Directive × Header × Bytes) := do
  let o ← getoption native h opt fmt
  let (align, h, fmt) ← alignOf native o
  if align ≤ 1 ∨ o.opt = .char then pure (⟨o.opt, o.size, h.islittle, 1⟩, h, fmt)
  else
    let align := min align h.maxalign
    if align &&& (align - 1) ≠ 0 then
      .error (.argument 1 (text "format asks for alignment not power of 2"))
    else pure (⟨o.opt, o.size, h.islittle, align⟩, h, fmt)

/-- What `getdetails` makes of a directive. -/
def Directive.details (d : Directive) (totalsize : Nat) (h : Header) (fmt : Bytes) : Details :=
  ⟨d.opt, d.size, gap d.align totalsize, h, fmt⟩

theorem gap_one (totalsize : Nat) : gap 1 totalsize = 0 := by simp [gap]

theorem getdetails_eq (native : Bool) (h : Header) (totalsize : Nat) (opt : UInt8) (fmt : Bytes) :
    getdetails native h totalsize opt fmt =
      (directive native h opt fmt).map fun r => r.1.details totalsize r.2.1 r.2.2 := by
  unfold getdetails directive
  cases getoption native h opt fmt with
  | error e => rfl
  | ok o =>
      cases halign : alignOf native o with
      | error e => simp [halign, bind, Except.bind, Except.map]
      | ok r =>
          simp only [bind, Except.bind, halign]
          split
          · simp [pure, Except.pure, Except.map, Directive.details, gap_one]
          · rw [show (if r.2.1.maxalign < r.1 then r.2.1.maxalign else r.1) = min r.1 r.2.1.maxalign by
              split <;> omega]
            split <;> rfl

/-! ## What an option can be -/

theorem getnumLoop_le {a : Nat} (h : a ≤ (MAXSIZE - 9) / 10) (fmt : Bytes)
    (hdigit : digit (current fmt)) : (getnumLoop a fmt).1 ≤ INT_MAX := by
  induction fmt generalizing a with
  | nil => simp [getnumLoop, INT_MAX, MAXSIZE] at h ⊢; omega
  | cons c fmt ih =>
      have hc : c.toNat - 48 ≤ 9 := by
        simp [digit, current] at hdigit
        omega
      rw [getnumLoop]
      split
      · rename_i hnext
        simp only [Bool.and_eq_true, decide_eq_true_eq] at hnext
        exact ih hnext.2 hnext.1
      · simp only [MAXSIZE, INT_MAX] at h ⊢
        omega

theorem length_getnumLoop (a : Nat) (fmt : Bytes) :
    (getnumLoop a fmt).2.length ≤ fmt.length := by
  induction fmt generalizing a with
  | nil => exact Nat.le_refl _
  | cons c fmt ih =>
      rw [getnumLoop]
      split
      · exact Nat.le_succ_of_le (ih _)
      · exact Nat.le_succ _

/-- A numeral never leaves the range of an `int`. -/
theorem getnum_spec (fmt : Bytes) (df : Int) :
    ((getnum fmt df).1 = df ∨ 0 ≤ (getnum fmt df).1 ∧ (getnum fmt df).1 ≤ INT_MAX) ∧
      (getnum fmt df).2.length ≤ fmt.length := by
  unfold getnum
  split
  · have hle := getnumLoop_le (a := 0) (by decide) fmt ‹_›
    exact ⟨Or.inr ⟨by omega, by simpa using hle⟩, length_getnumLoop 0 fmt⟩
  · exact ⟨Or.inl rfl, Nat.le_refl _⟩

theorem getnumlimit_spec {fmt : Bytes} {df : Int} {r : Nat × Bytes}
    (h : getnumlimit fmt df = .ok r) :
    1 ≤ r.1 ∧ r.1 ≤ MAXINTSIZE ∧ r.2.length ≤ fmt.length := by
  have hlen := (getnum_spec fmt df).2
  simp only [getnumlimit] at h
  split at h
  · cases h
  · cases h
    refine ⟨?_, ?_, hlen⟩ <;> omega

/-- The sizes that an option of a kind can have. -/
def KOption.Size : KOption → Nat → Prop
  | .int, size | .uint, size | .string, size => 1 ≤ size ∧ size ≤ MAXINTSIZE
  | .float, size => size = 4 ∨ size = 8
  | .char, size => size ≤ INT_MAX
  | .padding, size => size = 1
  | .zstr, size | .paddalign, size | .nop, size => size = 0

theorem KOption.Size.le {opt : KOption} {size : Nat} (h : opt.Size size) : size ≤ INT_MAX := by
  cases opt <;> simp only [KOption.Size, MAXINTSIZE, INT_MAX] at h ⊢ <;> omega

/-- What is read of a format, from a header that is good. -/
structure ReadOption.Good (o : ReadOption) (fmt : Bytes) : Prop where
  size : o.opt.Size o.size
  maxalign : 1 ≤ o.h.maxalign ∧ o.h.maxalign ≤ MAXINTSIZE
  length : o.fmt.length ≤ fmt.length

theorem sizedOption_good {opt : KOption} {df : Int} {h : Header} {fmt : Bytes} {o : ReadOption}
    (ho : sizedOption opt df h fmt = .ok o) (hh : 1 ≤ h.maxalign ∧ h.maxalign ≤ MAXINTSIZE)
    (hsized : ∀ size, 1 ≤ size → size ≤ MAXINTSIZE → opt.Size size) : o.Good fmt := by
  unfold sizedOption at ho
  cases hnum : getnumlimit fmt df with
  | error e => rw [hnum] at ho; cases ho
  | ok r =>
      rw [hnum] at ho
      cases ho
      have hspec := getnumlimit_spec hnum
      exact ⟨hsized r.1 hspec.1 hspec.2.1, hh, hspec.2.2⟩

theorem getoption_good {native : Bool} {h : Header} {opt : UInt8} {fmt : Bytes} {o : ReadOption}
    (hh : 1 ≤ h.maxalign ∧ h.maxalign ≤ MAXINTSIZE) (ho : getoption native h opt fmt = .ok o) :
    o.Good fmt := by
  unfold getoption at ho
  split at ho
  all_goals first
    | exact sizedOption_good ho hh fun size hle hge => ⟨hle, hge⟩
    | (cases ho; exact ⟨by simp [KOption.Size, MAXINTSIZE], hh, Nat.le_refl _⟩)
    | cases ho
    | skip
  · -- the size of `c` is what `getnum` finds
    have hspec := getnum_spec fmt (-1)
    simp only at ho
    split at ho
    · cases ho
    · cases ho
      refine ⟨?_, hh, hspec.2⟩
      show (getnum fmt (-1)).1.toNat ≤ INT_MAX
      omega
  · cases hnum : getnumlimit fmt MAXALIGN with
    | error e => rw [hnum] at ho; cases ho
    | ok r =>
        rw [hnum] at ho
        cases ho
        have hspec := getnumlimit_spec hnum
        exact ⟨rfl, ⟨hspec.1, hspec.2.1⟩, hspec.2.2⟩

/-- What an option can be used as. -/
structure Directive.Good (d : Directive) : Prop where
  size : d.opt.Size d.size
  align : d.align ∈ [1, 2, 4, 8, 16]

theorem alignOf_good {native : Bool} {o : ReadOption} {fmt : Bytes} {r : Nat × Header × Bytes}
    (ho : o.Good fmt) (hr : alignOf native o = .ok r) :
    (1 ≤ r.2.1.maxalign ∧ r.2.1.maxalign ≤ MAXINTSIZE) ∧ r.2.2.length ≤ fmt.length := by
  unfold alignOf at hr
  split at hr
  · split at hr
    · cases hr
    · rename_i next rest hfmt
      cases hnext : getoption native o.h next rest with
      | error e => rw [hnext] at hr; cases hr
      | ok o' =>
          rw [hnext] at hr
          have hgood := getoption_good ho.maxalign hnext
          have hlen := ho.length
          rw [hfmt, List.length_cons] at hlen
          simp only [bind, Except.bind] at hr
          split at hr
          · cases hr
          · cases hr
            have hrest := hgood.length
            refine ⟨hgood.maxalign, ?_⟩
            show o'.fmt.length ≤ fmt.length
            omega
  · cases hr
    exact ⟨ho.maxalign, ho.length⟩

/-- The powers of two that an alignment can be. -/
theorem mem_of_and_pred {n : Nat} (hpos : 1 ≤ n) (hle : n ≤ 16) (h : n &&& (n - 1) = 0) :
    n ∈ [1, 2, 4, 8, 16] := by
  have hall : ∀ n ∈ List.range 17, 1 ≤ n → n &&& (n - 1) = 0 → n ∈ [1, 2, 4, 8, 16] := by decide
  exact hall n (by simp; omega) hpos h

theorem directive_good {native : Bool} {h : Header} {opt : UInt8} {fmt : Bytes}
    {r : Directive × Header × Bytes} (hh : 1 ≤ h.maxalign ∧ h.maxalign ≤ MAXINTSIZE)
    (hr : directive native h opt fmt = .ok r) :
    r.1.Good ∧ r.1.islittle = r.2.1.islittle ∧
      (1 ≤ r.2.1.maxalign ∧ r.2.1.maxalign ≤ MAXINTSIZE) ∧ r.2.2.length ≤ fmt.length := by
  unfold directive at hr
  cases ho : getoption native h opt fmt with
  | error e => rw [ho] at hr; cases hr
  | ok o =>
      have hgood := getoption_good hh ho
      rw [ho] at hr
      cases halign : alignOf native o with
      | error e => simp [bind, Except.bind, halign] at hr
      | ok a =>
          have hrest := alignOf_good hgood halign
          simp only [bind, Except.bind, halign] at hr
          split at hr
          · cases hr
            exact ⟨⟨hgood.size, by simp⟩, rfl, hrest⟩
          · split at hr
            · cases hr
            · cases hr
              refine ⟨⟨hgood.size, ?_⟩, rfl, hrest⟩
              have hmax := hrest.1
              simp only [MAXINTSIZE] at hmax
              exact mem_of_and_pred (n := min a.1 a.2.1.maxalign) (by omega) (by omega)
                (by simpa using ‹¬ (_ &&& _) ≠ 0›)

/-- The padding is the least one with which the item is aligned. -/
theorem gap_spec {align : Nat} (h : align ∈ [1, 2, 4, 8, 16]) (totalsize : Nat) :
    gap align totalsize < align ∧ align ∣ totalsize + gap align totalsize := by
  obtain ⟨k, rfl⟩ : ∃ k, align = 2 ^ k := by
    simp only [List.mem_cons, List.not_mem_nil, or_false] at h
    rcases h with rfl | rfl | rfl | rfl | rfl
    exacts [⟨0, rfl⟩, ⟨1, rfl⟩, ⟨2, rfl⟩, ⟨3, rfl⟩, ⟨4, rfl⟩]
  have hpos : 0 < 2 ^ k := Nat.pow_pos (by decide)
  have hlt := Nat.mod_lt totalsize hpos
  rw [gap, Nat.and_two_pow_sub_one_eq_mod, Nat.and_two_pow_sub_one_eq_mod]
  refine ⟨Nat.mod_lt _ hpos, ?_⟩
  rw [Nat.dvd_iff_mod_eq_zero, Nat.add_mod, Nat.mod_mod, ← Nat.add_mod]
  by_cases h0 : totalsize % 2 ^ k = 0
  · rw [h0, Nat.sub_zero, Nat.add_mod_right, h0]
  · rw [Nat.add_mod, Nat.mod_eq_of_lt (show 2 ^ k - totalsize % 2 ^ k < 2 ^ k by omega),
      show totalsize % 2 ^ k + (2 ^ k - totalsize % 2 ^ k) = 2 ^ k by omega, Nat.mod_self]

/-! ## Whole formats -/

/-- How the reading of a format ends. -/
inductive Ending where
  | done
  | error (e : LuaError)
  | unread
  deriving DecidableEq, Repr

structure Format where
  directives : List Directive
  ending : Ending
  deriving DecidableEq, Repr

/-- A format, option by option, with so many turns at most. -/
def readFormat (native : Bool) : Nat → Header → Bytes → Format
  | _, _, [] => ⟨[], .done⟩
  | 0, _, _ :: _ => ⟨[], .unread⟩
  | turns + 1, h, opt :: fmt =>
      match directive native h opt fmt with
      | .error e => ⟨[], .error e⟩
      | .ok (d, h, fmt) =>
          let rest := readFormat native turns h fmt
          ⟨d :: rest.directives, rest.ending⟩

/-- Every option takes a character at least, and what is read can be used. -/
theorem readFormat_good {native : Bool} {turns : Nat} {h : Header} {fmt : Bytes}
    (hh : 1 ≤ h.maxalign ∧ h.maxalign ≤ MAXINTSIZE) (hturns : fmt.length ≤ turns) :
    (readFormat native turns h fmt).ending ≠ .unread ∧
      ∀ d ∈ (readFormat native turns h fmt).directives, d.Good := by
  induction turns generalizing h fmt with
  | zero =>
      rw [List.length_eq_zero_iff.mp (Nat.le_zero.mp hturns)]
      simp [readFormat]
  | succ turns ih =>
      cases fmt with
      | nil => simp [readFormat]
      | cons opt fmt =>
          rw [readFormat]
          cases hd : directive native h opt fmt with
          | error e => simp
          | ok r =>
              obtain ⟨hgood, -, hmax, hlen⟩ := directive_good hh hd
              rw [List.length_cons] at hturns
              obtain ⟨hend, hrest⟩ := ih hmax (show r.2.2.length ≤ turns by omega)
              refine ⟨hend, ?_⟩
              intro d hmem
              rcases List.mem_cons.mp hmem with rfl | hmem
              · exact hgood
              · exact hrest d hmem

end LuaMem

end Poesie
