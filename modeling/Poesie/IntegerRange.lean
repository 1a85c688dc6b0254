import Poesie.Jx9Values
import Poesie.VmTerm

set_option autoImplicit false

/-! # Integers on their way through a VM

JSON integers have 64 bits, and so have the integers of the VMs. The converters take them through
`int` on the way in, and the Jx9 backend on the way out. An integer keeps its value if it is one
of 32 bits, wherever it stands, and changes it otherwise.
-/

namespace Poesie

open Wire Json

/-- The value of an integer. -/
def Json.intValue? : Json → Option Int
  | numberInteger n => some n.toInt
  | numberUnsigned n => some n.toNat
  | _ => none

/-- An integer is made a number of its value exactly if it is of type `int`. -/
def IntKept (j : Json) (t : VmTerm) : Prop := ∀ n, j.intValue? = some n → (t = .int n ↔ InInt n)

theorem intKept_of_none {j : Json} (h : j.intValue? = none) (t : VmTerm) : IntKept j t := by
  intro n hn
  rw [h] at hn
  cases hn

/-- What the converters have in common that take integers as `int`. -/
structure Narrows (c : Converter VmTerm) : Prop where
  scalar : ∀ j t, j.Scalar → c.scalar j = .ok t → t.nodes = [t] ∧ IntKept j t
  plain : ∀ b t, c.plain b = .ok t → t.nodes = [t]
  buffer : ∀ id, c.buffer id = .buffer id
  list : c.list = .list
  table : c.table = .table

/-- `get<int>()` of an integer is its value exactly if it is of type `int`. -/
theorem intKept_getInt32 {j : Json} (h : ∀ n, j.intValue? = some n →
    (getInt32 j).toInt = n.bmod (2 ^ 32)) : IntKept j (.int (getInt32 j).toInt) := by
  intro n hn
  rw [VmTerm.int.injEq, h n hn, bmod_eq_self_iff]

theorem narrows_scalar {c : Converter VmTerm}
    (integer : ∀ j, j.intValue?.isSome → c.scalar j = .ok (.int (getInt32 j).toInt))
    (other : ∀ j t, j.intValue? = none → j.Scalar → c.scalar j = .ok t → t.nodes = [t]) (j : Json)
    (t : VmTerm) (hscalar : j.Scalar) (ht : c.scalar j = .ok t) : t.nodes = [t] ∧ IntKept j t := by
  cases hvalue : j.intValue? with
  | none => exact ⟨other j t hvalue hscalar ht, intKept_of_none hvalue t⟩
  | some n =>
      rw [integer j (by rw [hvalue]; rfl)] at ht
      cases ht
      refine ⟨rfl, intKept_getInt32 fun k hk => ?_⟩
      cases j with
      | numberInteger i =>
          cases hk
          exact getInt32_integer i
      | numberUnsigned i =>
          cases hk
          exact getInt32_unsigned i
      | _ => cases hk

theorem narrows_jx9 : Narrows (JSONtoJx9Value VmTerm.api) where
  scalar := narrows_scalar (fun j hj => by cases j <;> first | rfl | cases hj)
    (fun j t hj hscalar ht => by cases j <;> cases hj <;> cases ht <;> rfl)
  plain b t ht := by
    cases ht
    rfl
  buffer _ := rfl
  list := rfl
  table := rfl

theorem narrows_lua : Narrows (JSONToLuaObject VmTerm.api) where
  scalar := narrows_scalar (fun j hj => by cases j <;> first | rfl | cases hj)
    (fun j t hj hscalar ht => by cases j <;> cases hj <;> cases ht <;> rfl)
  plain b t ht := by
    cases ht
    rfl
  buffer _ := rfl
  list := rfl
  table := rfl

/-- Ruby takes scalars as Jx9 does. -/
theorem narrows_ruby : Narrows (json_to_mrb_value VmTerm.api) where
  scalar := narrows_jx9.scalar
  plain := narrows_jx9.plain
  buffer := narrows_jx9.buffer
  list := narrows_jx9.list
  table := narrows_jx9.table

namespace Narrows

variable {c : Converter VmTerm} (h : Narrows c)

include h

/-- Whatever is converted, each integer in it is made a number of its value exactly if it is of
type `int`. -/
theorem makes_convert {m : Margo} {env : ViewId → Env} (j : Json) :
    (convert m env c j).Makes (VmTerm.AtNodes IntKept j) := by
  refine Poesie.makes_convert (fun j t hscalar ht => ?_) (fun b st t ht => ?_) (fun b st id => ?_)
    (fun items ts hts => ?_) (fun members es hes => ?_) j
  · obtain ⟨hnodes, hkept⟩ := h.scalar j t hscalar ht
    exact VmTerm.atNodes_leaf hscalar.nodes_eq hnodes hkept
  · exact VmTerm.atNodes_leaf rfl (h.plain b t ht) (intKept_of_none rfl t)
  · rw [h.buffer]
    exact VmTerm.atNodes_leaf rfl rfl (intKept_of_none rfl _)
  · rw [h.list]
    exact VmTerm.atNodes_list (intKept_of_none rfl _) hts
  · rw [h.table]
    exact VmTerm.atNodes_table (intKept_of_none rfl _) (hes.imp fun p e he => he.2)

end Narrows

/-! ## Inside the Jx9 VM -/

namespace VmTerm

mutual

/-- The value that the calls make in a Jx9 VM. -/
def jx9 : VmTerm → Jx9Value
  | nil => jx9Api.nil
  | boolean b => jx9Api.boolean b
  | int n => jx9Api.int n
  | double x => jx9Api.double x
  | string s => .string s
  | bytes b => jx9Api.bytes b
  | list items => jx9Api.list (jx9Items items)
  | table entries => jx9Api.table (jx9Entries entries)
  | buffer view => jx9Api.buffer view

def jx9Items : List VmTerm → List Jx9Value
  | [] => []
  | t :: rest => jx9 t :: jx9Items rest

def jx9Entries : List (Bytes × VmTerm) → List (Bytes × Jx9Value)
  | [] => []
  | (k, t) :: rest => (k, jx9 t) :: jx9Entries rest

end

end VmTerm

/-- What is made inside the VM is made by the same calls as outside. -/
theorem exists_term_inside (j : Json) : ∃ t, (JSONtoJx9Value VmTerm.api).build j = .ok t ∧
    t.jx9 = JSONtoJx9ValueInside j ∧ t.AtNodes IntKept j := by
  refine Converter.exists_build (c := JSONtoJx9Value VmTerm.api) (P := fun _ => True)
    (R := fun j t => t.jx9 = JSONtoJx9ValueInside j ∧ t.AtNodes IntKept j)
    (fun b st _ => ⟨_, rfl, ?_, ?_⟩) (fun j _ hscalar => ?_) (fun items ts _ hts => ⟨?_, ?_⟩)
    (fun members _ p _ => ⟨_, rfl⟩) (fun members es _ hes => ⟨?_, ?_⟩) (j := j) (fun _ _ => trivial)
  -- a binary, a scalar, an array and an object, each first as a value and then at its nodes
  · rw [JSONtoJx9ValueInside]
    rfl
  · exact VmTerm.atNodes_leaf rfl rfl (intKept_of_none rfl _)
  · obtain ⟨t, ht, hinside⟩ : ∃ t, (JSONtoJx9Value VmTerm.api).scalar j = .ok t ∧
        t.jx9 = JSONtoJx9ValueInside j := by
      cases j with
      | array items => exact absurd hscalar id
      | object members => exact absurd hscalar id
      | binary b st => exact absurd hscalar id
      | _ => exact ⟨_, rfl, by rw [JSONtoJx9ValueInside]; rfl⟩
    obtain ⟨hnodes, hkept⟩ := narrows_jx9.scalar j t hscalar ht
    exact ⟨t, ht, hinside, VmTerm.atNodes_leaf hscalar.nodes_eq hnodes hkept⟩
  · have hitems : List.Forall₂ (fun j v => JSONtoJx9ValueInside j = v) items
        (VmTerm.jx9Items ts) := by
      induction hts with
      | nil => exact .nil
      | cons ht _ ih => exact .cons ht.1.symm ih
    rw [JSONtoJx9ValueInside, addElems_eq hitems]
    rfl
  · exact VmTerm.atNodes_list (intKept_of_none rfl _) (hts.imp fun j t ht => ht.2)
  · have hmembers : List.Forall₂ (fun (p : Bytes × Json) (e : Bytes × Jx9Value) =>
        cString p.1 = e.1 ∧ JSONtoJx9ValueInside p.2 = e.2) members (VmTerm.jx9Entries es) := by
      induction hes with
      | nil => exact .nil
      | cons he _ ih => exact .cons ⟨Except.ok.inj he.1, he.2.1.symm⟩ ih
    rw [JSONtoJx9ValueInside, addMembers_eq hmembers]
    rfl
  · exact VmTerm.atNodes_table (intKept_of_none rfl _) (hes.imp fun p e he => he.2.2)

/-! ## Out of the Jx9 VM -/

/-- A number of Jx9 with the value of a 64-bit integer: that integer, or made of a double. -/
def Jx9Value.Whole (v : Jx9Value) (n : Int) : Prop :=
  -2 ^ 63 ≤ n ∧ n < 2 ^ 63 ∧
    (v = .int (Int64.ofInt n) ∨ ∃ x, x.toInt? = some n ∧ v = .double x)

theorem intValue?_int_iff {n : Int} (hlow : -2 ^ 63 ≤ n) (hhigh : n < 2 ^ 63) :
    (Jx9ValueToJSON (.int (Int64.ofInt n))).intValue? = some n ↔ InInt n := by
  rw [Jx9ValueToJSON, Json.intValue?, Option.some_inj, Jx9Value.toInt_lowBits,
    Int64.toInt_ofInt_of_le hlow hhigh, bmod_eq_self_iff]

/-- It is converted to an integer of its value exactly if this is of type `int`. -/
theorem intValue?_whole_iff {v : Jx9Value} {n : Int} (h : v.Whole n) :
    (Jx9ValueToJSON v).intValue? = some n ↔ InInt n := by
  obtain ⟨hlow, hhigh, rfl | ⟨x, hx, rfl⟩⟩ := h
  · exact intValue?_int_iff hlow hhigh
  · rw [Jx9Value.double, hx]
    dsimp only
    split
    · exact intValue?_int_iff hlow hhigh
    · -- at the end of the range the double stays one
      have hout : ¬ InInt n := by
        unfold InInt
        omega
      exact iff_of_false (Option.some_ne_none n).symm hout

/-- **Integers through a VM.** Whatever is converted for Jx9, Lua or Ruby, outside of the VM or
inside, each integer in it is made a number of its value exactly if it is of type `int`. A
number of Jx9 with the value of an integer is converted back to that integer under the same
condition. -/
theorem integers_kept_iff (m : Margo) (env : ViewId → Env) (j : Json) (created : List ViewId)
    (s : Heap) (v : Jx9Value) (n : Int) (hv : v.Whole n) :
    (∀ c ∈ [JSONtoJx9Value VmTerm.api, JSONToLuaObject VmTerm.api, json_to_mrb_value VmTerm.api],
      ∀ t, (convert m env c j created s).1 = .ok t → t.AtNodes IntKept j) ∧
    (∃ t : VmTerm, t.jx9 = JSONtoJx9ValueInside j ∧ t.AtNodes IntKept j) ∧
    ((Jx9ValueToJSON v).intValue? = some n ↔ InInt n) := by
  refine ⟨fun c hc t ht => ?_, ?_, intValue?_whole_iff hv⟩
  · have hnarrows : Narrows c := by
      simp only [List.mem_cons, List.not_mem_nil, or_false] at hc
      rcases hc with rfl | rfl | rfl
      · exact narrows_jx9
      · exact narrows_lua
      · exact narrows_ruby
    exact hnarrows.makes_convert j created s t ht
  · obtain ⟨t, -, hinside, hkept⟩ := exists_term_inside j
    exact ⟨t, hinside, hkept⟩

theorem integers_kept_sample :
    (∀ c ∈ [JSONtoJx9Value VmTerm.api, JSONToLuaObject VmTerm.api, json_to_mrb_value VmTerm.api],
      ∀ t, (convert (Margo.loopback noName) (fun _ => Env.quiet) c
          (array [numberInteger (-5)]) [] (.empty fun _ => 0)).1 = .ok t →
        t.AtNodes IntKept (array [numberInteger (-5)])) ∧
    (∃ t : VmTerm, t.jx9 = JSONtoJx9ValueInside (array [numberInteger (-5)]) ∧
      t.AtNodes IntKept (array [numberInteger (-5)])) ∧
    ((Jx9ValueToJSON (.int (Int64.ofInt 7))).intValue? = some 7 ↔ InInt 7) :=
  integers_kept_iff _ _ _ _ _ _ 7 ⟨by decide, by decide, Or.inl rfl⟩

/-- The integer 2147483648 becomes negative on its way into each of the VMs, and on its way out
of Jx9. -/
theorem integer_2147483648_changes :
    (∀ c ∈ [JSONtoJx9Value VmTerm.api, JSONToLuaObject VmTerm.api, json_to_mrb_value VmTerm.api],
      (convert (Margo.loopback noName) (fun _ => Env.quiet) c (numberInteger 2147483648) []
        (.empty fun _ => 0)).1 = .ok (.int (-2147483648))) ∧
    JSONtoJx9ValueInside (numberInteger 2147483648) = .int (-2147483648) ∧
    (Jx9ValueToJSON (.int 2147483648)).intValue? = some (-2147483648) := by
  have hint : (getInt32 (numberInteger 2147483648)).toInt = -2147483648 := by decide
  refine ⟨?_, ?_, by decide⟩
  · simp only [List.mem_cons, List.not_mem_nil, or_false, forall_eq_or_imp, forall_eq]
    refine ⟨?_, ?_, ?_⟩ <;> exact congrArg (fun n => Except.ok (VmTerm.int n)) hint
  · rw [JSONtoJx9ValueInside, hint]
    exact congrArg Jx9Value.int (by decide)

end Poesie
