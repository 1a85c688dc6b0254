import Mathlib.Data.List.TakeWhile
import Poesie.Double
import Poesie.LocalData
import Poesie.SharedPtr

set_option autoImplicit false

/-! # Conversion of arguments into VM values

Each backend converts JSON values into values of its VM with a recursive function that also
collects the memory views it creates, in a list `createdViews` that belongs to the operation.
The five functions share their traversal (`convert`) and differ in how scalars are handed to
the VM, in whether `data()` is called at once, and in whether the list is passed by reference:
`JSONtoDukValue` takes it by value, so that each call works on a copy of its own.

The VMs themselves are outside the repository. What a converter asks of them is collected in
`VmApi`; a buffer value is identified by the view it points into.
-/

namespace Poesie

open Wire Json SharedPtr

/-- A view, by its name in the heap. -/
abbrev ViewId := Nat

/-- The views of a process, shared by pointers, and the memory their destructors act on. -/
abbrev Heap := Store MemoryViewImpl Mem

/-- A result that does not take the stack, in a reader that may run out of it. -/
def ended {α : Type} (r : Except CppException α) : ExceptT CppException Option α :=
  ExceptT.mk (some r)

theorem ended_eq_pure_iff {α : Type} {r : Except CppException α} {a : α} :
    ended r = pure a ↔ r = .ok a := Option.some_inj

/-! ## The converters -/

/-- The constructors of VM values. Making a string may throw. -/
structure VmApi (V : Type) where
  nil : V
  boolean : Bool → V
  int : Int → V
  double : Float64 → V
  string : Bytes → Except CppException V
  bytes : Bytes → V
  list : List V → V
  table : List (Bytes × V) → V
  buffer : ViewId → V

/-- A VM whose values carry nothing. -/
def VmApi.blank : VmApi Unit where
  nil := ()
  boolean _ := ()
  int _ := ()
  double _ := ()
  string _ := .ok ()
  bytes _ := ()
  list _ := ()
  table _ := ()
  buffer _ := ()

/-- What distinguishes the converters. -/
structure Converter (V : Type) where
  scalar : Json → Except CppException V
  /-- A binary that is not a view. -/
  plain : Bytes → Except CppException V
  key : Bytes → Except CppException Bytes
  list : List V → V
  table : List (Bytes × V) → V
  buffer : ViewId → V
  takesListByValue : Bool
  callsData : Bool

/-- `c_str()` -/
def cString (s : Bytes) : Bytes := s.takeWhile (· != 0)

/-- A string without a NUL byte is its own C string, and no other string is. -/
theorem cString_eq_self_iff (s : Bytes) : cString s = s ↔ 0 ∉ s := by
  rw [cString, List.takeWhile_eq_self_iff]
  constructor
  · intro h hmem
    exact absurd (h 0 hmem) (by decide)
  · intro h b hb
    rw [bne_iff_ne]
    rintro rfl
    exact h hb

theorem cString_of_notMem {s : Bytes} (h : 0 ∉ s) : cString s = s := (cString_eq_self_iff s).mpr h

section

variable {V : Type} (api : VmApi V)

/-- `get<double>()` of a number. -/
def getDouble : Json → Float64
  | numberInteger n => .ofInt n.toInt
  | numberUnsigned n => .ofInt n.toNat
  | numberFloat x => x
  | _ => ⟨0⟩

/-- `get<int>()` of an integer. -/
def getInt32 : Json → Int32
  | numberInteger n => n.toInt32
  | numberUnsigned n => getInt n
  | _ => 0

/-- The JavaScript backend. -/
def JSONtoDukValue : Converter V where
  scalar
    | boolean b => .ok (api.boolean b)
    | numberInteger n => .ok (api.double (getDouble (numberInteger n)))
    | numberUnsigned n => .ok (api.double (getDouble (numberUnsigned n)))
    | numberFloat x => .ok (api.double x)
    | string s => api.string (cString s)
    | _ => .ok api.nil
  plain b := .ok (api.bytes b)
  key k := .ok (cString k)
  list := api.list
  table := api.table
  buffer := api.buffer
  takesListByValue := true
  callsData := true

/-- The Lua backend. -/
def JSONToLuaObject : Converter V where
  scalar
    | boolean b => .ok (api.boolean b)
    | numberInteger n => .ok (api.int (getInt32 (numberInteger n)).toInt)
    | numberUnsigned n => .ok (api.int (getInt32 (numberUnsigned n)).toInt)
    | numberFloat x => .ok (api.double x)
    | string s => api.string s
    | _ => .ok api.nil
  plain b := api.string b
  key k := .ok k
  list := api.list
  table := api.table
  buffer := api.buffer
  takesListByValue := false
  callsData := true

/-- The Python backend. A key is a `py::str`, which may throw. -/
def from_json : Converter V where
  scalar
    | boolean b => .ok (api.boolean b)
    | numberUnsigned n => .ok (api.int n.toNat)
    | numberInteger n => .ok (api.int n.toInt)
    | numberFloat x => .ok (api.double x)
    | string s => api.string s
    | _ => .ok api.nil
  plain b := .ok (api.bytes b)
  key k := (api.string k).map fun _ => k
  list := api.list
  table := api.table
  buffer := api.buffer
  takesListByValue := false
  callsData := true

/-- The Ruby backend. -/
def json_to_mrb_value : Converter V where
  scalar
    | boolean b => .ok (api.boolean b)
    | numberInteger n => .ok (api.int (getInt32 (numberInteger n)).toInt)
    | numberUnsigned n => .ok (api.int (getInt32 (numberUnsigned n)).toInt)
    | numberFloat x => .ok (api.double x)
    | string s => api.string (cString s)
    | _ => .ok api.nil
  plain b := api.string b
  key k := .ok (cString k)
  list := api.list
  table := api.table
  buffer := api.buffer
  takesListByValue := false
  callsData := true

/-- The Jx9 backend, outside the VM. A resource points to the `MemoryView`, whose data is
prepared when the script first asks for it. -/
def JSONtoJx9Value : Converter V where
  scalar
    | boolean b => .ok (api.boolean b)
    | numberInteger n => .ok (api.int (getInt32 (numberInteger n)).toInt)
    | numberUnsigned n => .ok (api.int (getInt32 (numberUnsigned n)).toInt)
    | numberFloat x => .ok (api.double x)
    | string s => api.string (cString s)
    | _ => .ok api.nil
  plain b := api.string b
  key k := .ok (cString k)
  list := api.list
  table := api.table
  buffer := api.buffer
  takesListByValue := false
  callsData := false

end

/-! ## The traversal -/

/-- A step of a conversion: it works on `createdViews` and on the heap, and may throw. An
exception leaves both as they are at that moment. -/
def Conv (α : Type) : Type := List ViewId → Heap → Except Fault α × List ViewId × Heap

instance : Monad Conv where
  pure a := fun created s => (.ok a, created, s)
  bind f g := fun created s =>
    match f created s with
    | (.ok a, created', s') => g a created' s'
    | (.error e, created', s') => (.error e, created', s')

namespace Conv

variable {α V : Type}

/-- A result, or an exception. -/
def lift (r : Except CppException α) : Conv α := fun created s => (r.mapError .thrown, created, s)

/-- A call with the list of views as its argument. A list that is passed by value is copied,
and the copy is destroyed when the call is left, normally or by an exception. -/
def call (byValue : Bool) (body : Conv α) : Conv α := fun created s =>
  if byValue then
    match body created (s.retainAll created) with
    | (r, created', s') => (r, created, s'.releaseAll MemoryViewImpl.destroy created')
  else body created s

/-- Create a view, keep a copy of it in the list and hand its data to the VM. -/
def addView (m : Margo) (env : ViewId → Env) (c : Converter V) (j : Json) : Conv V :=
  fun created s =>
    match MemoryView.ofJson m j with
    | .error e => (.error e, created, s)
    | .ok v =>
        -- one pointer is the local variable, the other goes into the list
        let id := s.next
        let s := (s.make v).retain id
        let created := created ++ [id]
        let (outcome, v') :=
          if c.callsData then v.prepareLocalData m (env id) s.world else (.ok (), v)
        -- the local variable goes out of scope, also when `data()` throws
        let s := (s.put id v' s.world).release MemoryViewImpl.destroy id
        ((outcome.map fun _ => c.buffer id).mapError .thrown, created, s)

end Conv

section

variable {V : Type} (m : Margo) (env : ViewId → Env) (c : Converter V)

mutual

/-- The converter of a backend. -/
def convert : Json → Conv V
  | array items => Conv.call c.takesListByValue do
      let vs ← convertItems items
      pure (c.list vs)
  | object members => Conv.call c.takesListByValue do
      let vs ← convertMembers members
      pure (c.table vs)
  | binary b st => Conv.call c.takesListByValue
      (if isMemoryView (binary b st) then Conv.addView m env c (binary b st)
       else Conv.lift (c.plain b))
  | j => Conv.call c.takesListByValue (Conv.lift (c.scalar j))

/-- The elements of an array, or the arguments of an operation. -/
def convertItems : List Json → Conv (List V)
  | [] => pure []
  | j :: rest => do
      let v ← convert j
      let vs ← convertItems rest
      pure (v :: vs)

def convertMembers : List (Bytes × Json) → Conv (List (Bytes × V))
  | [] => pure []
  | (k, j) :: rest => do
      let v ← convert j
      let k' ← Conv.lift (c.key k)
      let vs ← convertMembers rest
      pure ((k', v) :: vs)

end

end

/-! ## What a conversion does to the list and the heap -/

namespace Conv

variable {α β : Type} {f : Conv α} {created created' : List ViewId} {s s' : Heap}

theorem bind_of_ok {a : α} (h : f created s = (.ok a, created', s')) (g : α → Conv β) :
    (f >>= g) created s = g a created' s' := by
  simp only [Bind.bind, h]

theorem bind_of_error {e : Fault} (h : f created s = (.error e, created', s'))
    (g : α → Conv β) : (f >>= g) created s = (.error e, created', s') := by
  simp only [Bind.bind, h]

/-- A call with the list by value: the caller's list stays, and the copy is destroyed with
what was added to it. -/
theorem call_true (f : Conv α) (created : List ViewId) (s : Heap) :
    Conv.call true f created s =
      ((f created (s.retainAll created)).1, created,
        (f created (s.retainAll created)).2.2.releaseAll MemoryViewImpl.destroy
          (f created (s.retainAll created)).2.1) := rfl

end Conv

/-- The list of views and the heap, before and after. -/
abbrev ConvRel : Type := List ViewId × Heap → List ViewId × Heap → Prop

/-- A step relates what it finds to what it leaves, whether it returns or throws. -/
def Conv.Steps {α : Type} (R : ConvRel) (f : Conv α) : Prop :=
  ∀ created s, R (created, s) (f created s).2

namespace Conv.Steps

variable {α β : Type} {R : ConvRel}

theorem pure (hrefl : ∀ x, R x x) (a : α) : Steps R (Pure.pure a : Conv α) :=
  fun created s => hrefl (created, s)

theorem lift (hrefl : ∀ x, R x x) (r : Except CppException α) : Steps R (Conv.lift r) :=
  fun created s => hrefl (created, s)

theorem bind (htrans : ∀ x y z, R x y → R y z → R x z) {f : Conv α} {g : α → Conv β}
    (hf : Steps R f) (hg : ∀ a, Steps R (g a)) : Steps R (f >>= g) := by
  intro created s
  have hfirst := hf created s
  rcases h : f created s with ⟨r, created', s'⟩
  rw [h] at hfirst
  cases r with
  | ok a =>
      rw [Conv.bind_of_ok h]
      exact htrans _ _ _ hfirst (hg a created' s')
  | error e =>
      rw [Conv.bind_of_error h]
      exact hfirst

end Conv.Steps

section

variable {V : Type} {m : Margo} {env : ViewId → Env} {c : Converter V} {R : ConvRel}

theorem steps_convertItems (hrefl : ∀ x, R x x) (htrans : ∀ x y z, R x y → R y z → R x z)
    (js : List Json) (hconvert : ∀ j ∈ js, (convert m env c j).Steps R) :
    (convertItems m env c js).Steps R := by
  induction js with
  | nil => exact .pure hrefl _
  | cons j rest ih =>
      rw [convertItems]
      exact .bind htrans (hconvert j (by simp)) fun v =>
        .bind htrans (ih fun i hi => hconvert i (by simp [hi])) fun vs => .pure hrefl _

theorem steps_convertMembers (hrefl : ∀ x, R x x) (htrans : ∀ x y z, R x y → R y z → R x z)
    {members : List (Bytes × Json)} (hconvert : ∀ p ∈ members, (convert m env c p.2).Steps R) :
    (convertMembers m env c members).Steps R := by
  induction members with
  | nil => exact .pure hrefl _
  | cons p rest ih =>
      rw [convertMembers]
      exact .bind htrans (hconvert p (by simp)) fun v => .bind htrans (.lift hrefl _) fun k =>
        .bind htrans (ih fun i hi => hconvert i (by simp [hi])) fun vs => .pure hrefl _

/-- A relation holds of a whole conversion when calls keep it and it holds where a view is
created. -/
theorem steps_convert (hrefl : ∀ x, R x x) (htrans : ∀ x y z, R x y → R y z → R x z)
    (hcall : ∀ {α : Type} (f : Conv α), f.Steps R → (Conv.call c.takesListByValue f).Steps R)
    (hadd : ∀ j, (Conv.call c.takesListByValue (Conv.addView m env c j)).Steps R) (j : Json) :
    (convert m env c j).Steps R := by
  have hscalar : ∀ r : Except CppException V,
      (Conv.call c.takesListByValue (Conv.lift r)).Steps R :=
    fun r => hcall _ (.lift hrefl r)
  induction j using Json.ind with
  | null => exact hscalar _
  | boolean b => exact hscalar _
  | numberInteger n => exact hscalar _
  | numberUnsigned n => exact hscalar _
  | numberFloat x => exact hscalar _
  | string s => exact hscalar _
  | binary b st =>
      rw [convert]
      by_cases hview : isMemoryView (binary b st) = true
      · rw [if_pos hview]
        exact hadd _
      · rw [if_neg hview]
        exact hscalar _
  | array items ih =>
      have hitems := steps_convertItems hrefl htrans items ih
      rw [convert]
      exact hcall _ (.bind htrans hitems fun vs => .pure hrefl _)
  | object members ih =>
      have hmembers := steps_convertMembers hrefl htrans ih
      rw [convert]
      exact hcall _ (.bind htrans hmembers fun vs => .pure hrefl _)

end

end Poesie
