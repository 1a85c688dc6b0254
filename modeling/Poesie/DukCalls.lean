import Poesie.DukHeap

set_option autoImplicit false

/-! # Calls of Duktape outside of protected calls

The backend makes `process.argv` and reads the value that a script returns from outside of any
protected call. An error that such a call raises ends the process. Which calls raise one is up
to the objects that earlier scripts left behind: properties may be read-only, may have getters
and setters, or may belong to a proxy. The stack on which these calls work is that of
`ValueStack.lean`.

What functions and scripts do is a parameter (`DukCode`).
-/

namespace Poesie

open Wire Json SharedPtr Outcomes

/-- What scripts can change. -/
abbrev DukWorld := DukHeap × Heap

/-- A call from outside of any protected call. -/
abbrev Duk (α : Type) := VmProg DukHeap α

/-- How code ends that is run outside of any protected call. It may run for ever. -/
inductive CodeEnd (α : Type) where
  | gave (a : α)
  | threw
  | never

/-- What code does. Scripts and functions that are run under protection come to an end. -/
structure DukCode where
  getter : Nat → DukValue → DukWorld → CodeEnd DukValue × DukWorld
  setter : Nat → DukValue → DukValue → DukWorld → CodeEnd Unit × DukWorld
  /-- The trap `get` of the proxy, if it has one. -/
  trapGet : Nat → Bytes → DukWorld → CodeEnd (Option DukValue) × DukWorld
  /-- Whether the proxy has a trap `set`. One that refuses is an error. -/
  trapSet : Nat → Bytes → DukValue → DukWorld → CodeEnd Bool × DukWorld
  /-- The trap `ownKeys` of the proxy, if it has one. -/
  trapKeys : Nat → DukWorld → CodeEnd (Option (List Bytes)) × DukWorld
  /-- Whether memory for the index is already there in the array. -/
  slot : DukHeap → Nat → Nat → Bool
  /-- `duk_peval_lstring`: the result, or the error. -/
  eval : Bytes → DukWorld → Except DukValue DukValue × DukWorld
  /-- `duk_safe_to_string` -/
  safeToString : DukValue → DukWorld → Bytes × DukWorld

namespace Duk

variable {α : Type} (c : DukCode)

/-- Run code with nothing to catch what it throws. -/
def run (f : DukWorld → CodeEnd α × DukWorld) : Duk α := fun w =>
  match f w with
  | (.gave a, w') => (.returned a, w')
  | (.threw, w') => (.raised, w')
  | (.never, w') => (.stuck, w')

def inspect (f : DukHeap → α) : Duk α := fun w => (.returned (f w.1), w)

/-- `duk_push_array` and `duk_push_object` -/
def push (isArray : Bool) : Duk Nat := fun w =>
  (.returned w.1.next, (w.1.alloc isArray, w.2))

/-- `duk_push_c_function` -/
def pushFunction : Duk Nat := fun w => (.returned w.1.next, (w.1.allocFunction, w.2))

/-! ## Properties -/

/-- Read a property of an object that is not taken for a proxy. -/
def getPlain (o : Nat) (k : Bytes) : Duk (Bool × DukValue) := fun w =>
  match w.1.read o k with
  | .absent => (.returned (false, .undefined), w)
  | .limit => (.raised, w)
  | .value v => (.returned (true, v), w)
  | .getter f => (do
      let v ← run (c.getter f (.object o))
      pure (true, v) : Duk (Bool × DukValue)) w

/-- `duk_get_prop_string`, and whether there is such a property. A proxy without the trap passes
the call on to its target. -/
def getProp (o : Nat) (k : Bytes) : Duk (Bool × DukValue) := do
  match ← inspect fun h => (h.objects o).proxy with
  | none => getPlain c o k
  | some target =>
      match ← run (c.trapGet o k) with
      | some v => pure (true, v)
      | none => getPlain c target k

/-- Assign to a property of a value that is not taken for a proxy. -/
def putPlain (base : DukValue) (k : Bytes) (v : DukValue) : Duk Unit := fun w =>
  match w.1.write base k with
  | .store o => (.returned (), (w.1.store o k v, w.2))
  | .setter f => run (c.setter f base v) w
  | .refused => (.raised, w)

/-- `duk_put_prop_string` and `duk_put_prop_index` -/
def putProp (base : DukValue) (key : DukKey) (v : DukValue) : Duk Unit := do
  match ← inspect fun h => h.target base with
  | some (o, target) =>
      if ← run (c.trapSet o key.bytes v) then pure ()
      else putPlain c (.object target) key.bytes v
  | none =>
      -- the fast path comes before any prototype is asked
      match ← inspect fun h => h.fastPath c.slot base key with
      | some o => fun w => (.returned (), (w.1.store o key.bytes v, w.2))
      | none => putPlain c base key.bytes v

/-- `duk_enum`: the keys, and the object that their values are read from. -/
def enumerate (indicesOnly : Bool) (o : Nat) : Duk (Nat × List Bytes) := do
  match ← inspect fun h => (h.objects o).proxy with
  | none => inspect fun h => (o, h.enumKeys indicesOnly o)
  | some target =>
      match ← run (c.trapKeys o) with
      -- the values are read through the proxy then
      | some keys => pure (o, keys.eraseDups)
      | none => inspect fun h => (target, h.enumKeys indicesOnly target)

/-! ## When a call returns -/

/-- The look-up ends, and a getter that it runs returns. -/
def Readable (o : Nat) (k : Bytes) (w : DukWorld) : Prop :=
  match w.1.read o k with
  | .getter f => ∃ v, (c.getter f (.object o) w).1 = .gave v
  | .limit => False
  | .absent | .value _ => True

/-- The property can be read, if need be through a proxy whose trap returns. -/
def Gettable (o : Nat) (k : Bytes) (w : DukWorld) : Prop :=
  match (w.1.objects o).proxy with
  | none => Readable c o k w
  | some target =>
      ∃ r w₁, c.trapGet o k w = (.gave r, w₁) ∧ (r = none → Readable c target k w₁)

/-- The property is writable or can be added, or it has a setter that returns. -/
def Writable (base : DukValue) (k : Bytes) (v : DukValue) (w : DukWorld) : Prop :=
  match w.1.write base k with
  | .store _ => True
  | .setter f => (c.setter f base v w).1 = .gave ()
  | .refused => False

/-- The property can be assigned, if need be through a proxy whose trap returns. -/
def Assignable (base : DukValue) (key : DukKey) (v : DukValue) (w : DukWorld) : Prop :=
  match w.1.target base with
  | some (o, target) =>
      ∃ handled w₁, c.trapSet o key.bytes v w = (.gave handled, w₁) ∧
        (handled = false → Writable c (.object target) key.bytes v w₁)
  | none => (w.1.fastPath c.slot base key).isSome ∨ Writable c base key.bytes v w

/-- The keys can be listed: a proxy whose trap is asked for them returns them. -/
def Listable (o : Nat) (w : DukWorld) : Prop :=
  (w.1.objects o).proxy = none ∨ ∃ keys, (c.trapKeys o w).1 = .gave keys

variable {c}

theorem gives_inspect {α : Type} (f : DukHeap → α) (w : DukWorld) :
    (inspect f).Gives w (f w.1) w := rfl

/-- A look at the heap leaves the rest to run on what it saw. -/
theorem inspect_bind_apply {α β : Type} (f : DukHeap → α) (g : α → Duk β) (w : DukWorld) :
    (inspect f >>= g) w = g (f w.1) w := rfl

/-- Code that is run gives something exactly if it returns. -/
theorem gives_run_iff {α : Type} {f : DukWorld → CodeEnd α × DukWorld} {a : α}
    {w w' : DukWorld} : (run f).Gives w a w' ↔ f w = (.gave a, w') := by
  unfold Prog.Gives run
  rcases f w with ⟨r, w₁⟩
  cases r with
  | gave b => simp
  | threw => simp
  | never => simp

theorem returns_run_iff {α : Type} {f : DukWorld → CodeEnd α × DukWorld} {w : DukWorld} :
    (run f).Returns w ↔ ∃ a, (f w).1 = .gave a := by
  unfold Prog.Returns
  simp only [gives_run_iff]
  refine exists_congr fun a => ⟨?_, fun h => ⟨(f w).2, Prod.ext h rfl⟩⟩
  rintro ⟨w', h⟩
  rw [h]

/-- What follows code returns if the code does. -/
theorem returns_run_bind_iff {α β : Type} {f : DukWorld → CodeEnd α × DukWorld} {g : α → Duk β}
    {w : DukWorld} :
    Prog.Returns (run f >>= g) w ↔ ∃ a w₁, f w = (.gave a, w₁) ∧ (g a).Returns w₁ := by
  constructor
  · rintro ⟨b, w', h⟩
    obtain ⟨a, w₁, hfirst, hrest⟩ := Prog.gives_bind_iff.mp h
    exact ⟨a, w₁, gives_run_iff.mp hfirst, b, w', hrest⟩
  · rintro ⟨a, w₁, hf, hrest⟩
    exact (Prog.returns_bind_of_gives (gives_run_iff.mpr hf)).mpr hrest

theorem returns_getPlain_iff (o : Nat) (k : Bytes) (w : DukWorld) :
    (getPlain c o k).Returns w ↔ Readable c o k w := by
  unfold Readable
  cases h : w.1.read o k with
  | absent => exact iff_of_true ⟨_, w, by rw [Prog.Gives, getPlain, h]⟩ trivial
  | limit =>
      apply iff_of_false
      · rintro ⟨a, w', hgives⟩
        rw [Prog.Gives, getPlain, h] at hgives
        cases hgives
      · exact fun hfalse => hfalse
  | value v => exact iff_of_true ⟨_, w, by rw [Prog.Gives, getPlain, h]⟩ trivial
  | getter f =>
      have hrun : (getPlain c o k).Returns w ↔ (run (c.getter f (.object o)) >>= fun v =>
          (pure (true, v) : Duk (Bool × DukValue))).Returns w := by
        refine Prog.returns_congr ?_
        simp only [getPlain, h]
      rw [hrun, Prog.returns_bind_iff_left fun v w' => Prog.returns_pure _ w']
      exact returns_run_iff

theorem getProp_of_not_proxy {o : Nat} {w : DukWorld} (h : (w.1.objects o).proxy = none)
    (k : Bytes) : getProp c o k w = getPlain c o k w := by
  have hbind : getProp c o k w = (match (w.1.objects o).proxy with
      | none => getPlain c o k
      | some target => run (c.trapGet o k) >>= fun r =>
          match r with
          | some v => pure (true, v)
          | none => getPlain c target k) w := rfl
  rw [hbind, h]

theorem returns_getProp_iff (o : Nat) (k : Bytes) (w : DukWorld) :
    (getProp c o k).Returns w ↔ Gettable c o k w := by
  unfold getProp Gettable
  rw [Prog.returns_bind_of_gives (gives_inspect _ w)]
  cases (w.1.objects o).proxy with
  | none => exact returns_getPlain_iff o k w
  | some target =>
      refine returns_run_bind_iff.trans (exists₂_congr fun r w₁ => and_congr_right fun _ => ?_)
      cases r with
      | none => simp only [true_imp_iff, returns_getPlain_iff]
      | some v => exact iff_of_true (Prog.returns_pure _ w₁) (by simp)

theorem returns_putPlain_iff (base : DukValue) (k : Bytes) (v : DukValue) (w : DukWorld) :
    (putPlain c base k v).Returns w ↔ Writable c base k v w := by
  unfold Writable
  cases h : w.1.write base k with
  | store o => exact iff_of_true ⟨(), _, by rw [Prog.Gives, putPlain, h]⟩ trivial
  | setter f =>
      have hrun : (putPlain c base k v).Returns w ↔ (run (c.setter f base v)).Returns w :=
        Prog.returns_congr (by simp only [putPlain, h])
      rw [hrun, returns_run_iff]
      constructor
      · rintro ⟨u, hu⟩
        exact hu
      · exact fun hu => ⟨(), hu⟩
  | refused =>
      apply iff_of_false
      · rintro ⟨a, w', hgives⟩
        rw [Prog.Gives, putPlain, h] at hgives
        cases hgives
      · exact fun hfalse => hfalse

theorem returns_putProp_iff (base : DukValue) (key : DukKey) (v : DukValue) (w : DukWorld) :
    (putProp c base key v).Returns w ↔ Assignable c base key v w := by
  unfold putProp Assignable
  rw [Prog.returns_bind_of_gives (gives_inspect _ w)]
  cases w.1.target base with
  | some p =>
      refine returns_run_bind_iff.trans (exists₂_congr fun r w₁ => and_congr_right fun _ => ?_)
      cases r with
      | false => simp only [Bool.false_eq_true, if_false, true_imp_iff, returns_putPlain_iff]
      | true => exact iff_of_true (Prog.returns_pure _ w₁) (by simp)
  | none =>
      refine (Prog.returns_bind_of_gives (gives_inspect _ w)).trans ?_
      cases w.1.fastPath c.slot base key with
      | none => simp [returns_putPlain_iff]
      | some o => exact iff_of_true ⟨(), _, rfl⟩ (.inl rfl)

theorem returns_enumerate_iff (indicesOnly : Bool) (o : Nat) (w : DukWorld) :
    (enumerate c indicesOnly o).Returns w ↔ Listable c o w := by
  unfold enumerate Listable
  rw [Prog.returns_bind_of_gives (gives_inspect _ w)]
  cases hproxy : (w.1.objects o).proxy with
  | none => exact iff_of_true ⟨_, _, gives_inspect _ w⟩ (.inl rfl)
  | some target =>
      rw [Prog.returns_bind_iff_left, returns_run_iff]
      · simp
      · intro keys w'
        cases keys with
        | none => exact ⟨_, _, gives_inspect _ w'⟩
        | some keys => exact Prog.returns_pure _ w'

end Duk

end Poesie
