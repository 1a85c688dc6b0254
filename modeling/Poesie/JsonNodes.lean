import Mathlib.Data.List.Forall2
import Poesie.Double
import Poesie.OrderedMap

set_option autoImplicit false

/-! # What is inside a JSON value

`Json.Every` says something of a value and of all values in it. Two values that differ only in
how they store the same numbers are told apart by `=` and not by the equality of the library:
`EqInt` compares integers by value, `EqNum` all numbers.
-/

namespace Poesie

open Wire

namespace Json

/-! ## Nodes -/

mutual

/-- The value and all values in it. -/
def nodes : Json → List Json
  | array items => array items :: nodesOfItems items
  | object members => object members :: nodesOfMembers members
  | j => [j]

def nodesOfItems : List Json → List Json
  | [] => []
  | j :: rest => nodes j ++ nodesOfItems rest

def nodesOfMembers : List (Bytes × Json) → List Json
  | [] => []
  | (_, j) :: rest => nodes j ++ nodesOfMembers rest

end

example : (object [([107], array [null])]).nodes =
    [object [([107], array [null])], array [null], null] := by
  simp [nodes, nodesOfItems, nodesOfMembers]

theorem nodesOfItems_eq (items : List Json) : nodesOfItems items = items.flatMap nodes := by
  induction items with
  | nil => rfl
  | cons j rest ih => rw [nodesOfItems, ih, List.flatMap_cons]

theorem nodesOfMembers_eq (members : List (Bytes × Json)) :
    nodesOfMembers members = members.flatMap fun p => p.2.nodes := by
  induction members with
  | nil => rfl
  | cons p rest ih =>
      obtain ⟨k, j⟩ := p
      rw [nodesOfMembers, ih, List.flatMap_cons]

/-- The value and all values in it have a property. -/
def Every (P : Json → Prop) (j : Json) : Prop := ∀ n ∈ j.nodes, P n

section

variable {P Q : Json → Prop}

@[simp] theorem every_array {items : List Json} :
    (array items).Every P ↔ P (array items) ∧ ∀ j ∈ items, j.Every P := by
  simp only [Every, nodes, nodesOfItems_eq, List.mem_cons, List.mem_flatMap, forall_eq_or_imp]
  apply and_congr_right
  intro _
  constructor
  · intro h j hj n hn
    exact h n ⟨j, hj, hn⟩
  · rintro h n ⟨j, hj, hn⟩
    exact h j hj n hn

@[simp] theorem every_object {members : List (Bytes × Json)} :
    (object members).Every P ↔ P (object members) ∧ ∀ p ∈ members, p.2.Every P := by
  simp only [Every, nodes, nodesOfMembers_eq, List.mem_cons, List.mem_flatMap, forall_eq_or_imp]
  apply and_congr_right
  intro _
  constructor
  · intro h p hp n hn
    exact h n ⟨p, hp, hn⟩
  · rintro h n ⟨p, hp, hn⟩
    exact h p hp n hn

@[simp] theorem every_null : null.Every P ↔ P null := by simp [Every, nodes]

@[simp] theorem every_boolean {b : Bool} : (boolean b).Every P ↔ P (boolean b) := by
  simp [Every, nodes]

@[simp] theorem every_numberInteger {n : Int64} :
    (numberInteger n).Every P ↔ P (numberInteger n) := by simp [Every, nodes]

@[simp] theorem every_numberUnsigned {n : UInt64} :
    (numberUnsigned n).Every P ↔ P (numberUnsigned n) := by simp [Every, nodes]

@[simp] theorem every_numberFloat {x : Float64} :
    (numberFloat x).Every P ↔ P (numberFloat x) := by simp [Every, nodes]

@[simp] theorem every_string {s : Bytes} : (string s).Every P ↔ P (string s) := by
  simp [Every, nodes]

@[simp] theorem every_binary {b : Bytes} {st : Option UInt64} :
    (binary b st).Every P ↔ P (binary b st) := by simp [Every, nodes]

theorem Every.self {j : Json} (h : j.Every P) : P j := by
  cases j <;> simp_all

theorem Every.mono {j : Json} (hj : j.Every P) (h : ∀ n, P n → Q n) : j.Every Q :=
  fun n hn => h n (hj n hn)

end

/-! ## Kinds of nodes -/

/-- The value is no binary. -/
def NotBinary : Json → Prop
  | binary _ _ => False
  | _ => True

/-- What the strings, and the keys of objects, are. -/
def Texts (P : Bytes → Prop) : Json → Prop
  | string s => P s
  | object members => ∀ p ∈ members, P p.1
  | _ => True

/-- What the keys of objects are. -/
def Keys (P : Bytes → Prop) : Json → Prop
  | object members => ∀ p ∈ members, P p.1
  | _ => True

/-- The bytes are those of a text in UTF-8. -/
def Utf8 (s : Bytes) : Prop := (ByteArray.mk s.toArray).IsValidUTF8

instance (s : Bytes) : Decidable (Utf8 s) :=
  inferInstanceAs (Decidable (ByteArray.mk s.toArray).IsValidUTF8)

/-- What the floating-point numbers are. -/
def Floats (P : Float64 → Prop) : Json → Prop
  | numberFloat x => P x
  | _ => True

/-- What the integers are. -/
def Integers (P : Int → Prop) : Json → Prop
  | numberInteger n => P n.toInt
  | numberUnsigned n => P n.toNat
  | _ => True

/-- The range of `int` -/
def InInt (n : Int) : Prop := -2 ^ 31 ≤ n ∧ n < 2 ^ 31

instance (n : Int) : Decidable (InInt n) := inferInstanceAs (Decidable (_ ∧ _))

/-! ## Numbers by value -/

/-- An integer, as it is stored when it is parsed. -/
def integer (n : Int) : Json :=
  if n < 2 ^ 63 then numberInteger (Int64.ofInt n) else numberUnsigned (UInt64.ofNat n.toNat)

/-- A floating-point number, as an integer if it has the value of one. -/
def ofFloat (x : Float64) : Json :=
  match x.toInt? with
  | some n => if -2 ^ 63 ≤ n ∧ n < 2 ^ 64 then integer n else numberFloat x
  | none => numberFloat x

mutual

/-- Each integer in one form, and each floating-point number in the form `float` gives it. -/
def normal (float : Float64 → Json) : Json → Json
  | numberUnsigned n => integer n.toNat
  | numberFloat x => float x
  | array items => array (normalItems float items)
  | object members => object (normalMembers float members)
  | j => j

def normalItems (float : Float64 → Json) : List Json → List Json
  | [] => []
  | j :: rest => normal float j :: normalItems float rest

def normalMembers (float : Float64 → Json) : List (Bytes × Json) → List (Bytes × Json)
  | [] => []
  | (k, j) :: rest => (k, normal float j) :: normalMembers float rest

end

/-- Equality, with integers compared by value. -/
def EqInt (j j' : Json) : Prop := j.normal numberFloat = j'.normal numberFloat

/-- Equality, with numbers compared by value. -/
def EqNum (j j' : Json) : Prop := j.normal ofFloat = j'.normal ofFloat

section

variable {float : Float64 → Json}

theorem normalItems_eq (items : List Json) :
    normalItems float items = items.map (normal float) := by
  induction items with
  | nil => rfl
  | cons j rest ih => rw [normalItems, ih, List.map_cons]

theorem normalMembers_eq (members : List (Bytes × Json)) :
    normalMembers float members = members.map fun p => (p.1, p.2.normal float) := by
  induction members with
  | nil => rfl
  | cons p rest ih =>
      obtain ⟨k, j⟩ := p
      rw [normalMembers, ih, List.map_cons]

theorem normal_array (items : List Json) :
    (array items).normal float = array (items.map (normal float)) := by
  rw [normal, normalItems_eq]

theorem normal_object (members : List (Bytes × Json)) :
    (object members).normal float = object (members.map fun p => (p.1, p.2.normal float)) := by
  rw [normal, normalMembers_eq]

theorem integer_of_int64 (n : Int64) : integer n.toInt = numberInteger n := by
  have hlt : n.toInt < 2 ^ 63 := n.toInt_lt
  rw [integer, if_pos hlt, Int64.ofInt_toInt]

/-- The stored form of an integer is normal. -/
theorem normal_integer {n : Int} (h : n < 2 ^ 64) :
    (integer n).normal float = integer n := by
  by_cases hn : n < 2 ^ 63
  · rw [integer, if_pos hn]
    rfl
  · have hnat : (UInt64.ofNat n.toNat).toNat = n.toNat :=
      UInt64.toNat_ofNat_of_lt' (by show n.toNat < 2 ^ 64; omega)
    have hform : integer n = numberUnsigned (UInt64.ofNat n.toNat) := by rw [integer, if_neg hn]
    rw [hform, normal, hnat, Int.toNat_of_nonneg (by omega), hform]

end

/-- An unsigned number equals the stored form of its value. -/
theorem normal_integer_unsigned (float : Float64 → Json) (n : UInt64) :
    (integer n.toNat).normal float = (numberUnsigned n).normal float := by
  have hn : n.toNat < 2 ^ 64 := n.toNat_lt
  rw [normal_integer (by omega), normal]

/-- An integer that a double represents exactly is the value of that double. -/
theorem ofFloat_ofInt {n : Int} (h : n.natAbs ≤ 2 ^ 53) : ofFloat (.ofInt n) = integer n := by
  rw [ofFloat, Float64.toInt?_ofInt h]
  exact if_pos (by omega)

/-! ## Containers by value -/

section

variable {float : Float64 → Json}

theorem normal_array_of_forall₂ {items outs : List Json}
    (h : List.Forall₂ (fun j out => out.normal float = j.normal float) items outs) :
    (array outs).normal float = (array items).normal float := by
  rw [normal_array, normal_array, array.injEq]
  induction h with
  | nil => rfl
  | cons hj _ ih => rw [List.map_cons, List.map_cons, hj, ih]

/-- The members of an object, each converted under its key, and assigned in any order. -/
theorem normal_object_of_forall₂ {members outs entries : List (Bytes × Json)}
    (ascending : StdMap.Ascending members)
    (h : List.Forall₂ (fun p out => out.1 = p.1 ∧ out.2.normal float = p.2.normal float)
      members outs) (hperm : entries.Perm outs) :
    (object (entries.foldl (fun m e => StdMap.assign e.1 e.2 m) [])).normal float
      = (object members).normal float := by
  have hkeys : outs.map Prod.fst = members.map Prod.fst := by
    clear ascending hperm
    induction h with
    | nil => rfl
    | cons hp _ ih => rw [List.map_cons, List.map_cons, hp.1, ih]
  have houts : StdMap.Ascending outs := by
    rw [StdMap.ascending_iff, hkeys]
    exact StdMap.ascending_iff.mp ascending
  rw [StdMap.foldl_assign_eq hperm houts, normal_object, normal_object, object.injEq]
  clear ascending hperm hkeys houts
  induction h with
  | nil => rfl
  | cons hp _ ih => rw [List.map_cons, List.map_cons, hp.1, hp.2, ih]

end

/-- What is inside a stored value is a stored value. -/
theorem WellFormed.every {j : Json} (h : j.WellFormed) : j.Every WellFormed := by
  induction h with
  | array fits each ih => exact every_array.mpr ⟨.array fits each, ih⟩
  | object fits ascending keys each ih =>
      exact every_object.mpr ⟨.object fits ascending keys each, ih⟩
  | null => exact every_null.mpr .null
  | boolean b => exact every_boolean.mpr (.boolean b)
  | numberInteger n => exact every_numberInteger.mpr (.numberInteger n)
  | numberUnsigned n => exact every_numberUnsigned.mpr (.numberUnsigned n)
  | numberFloat x => exact every_numberFloat.mpr (.numberFloat x)
  | string fits => exact every_string.mpr (.string fits)
  | binary st fits => exact every_binary.mpr (.binary st fits)

/-- The keys of an object come by ascending key. -/
def KeysAscending : Json → Prop
  | object members => StdMap.Ascending members
  | _ => True

theorem WellFormed.keysAscending {j : Json} (h : j.WellFormed) : j.Every KeysAscending := by
  refine h.every.mono fun n hn => ?_
  cases hn with
  | object fits ascending keys each => exact ascending
  | _ => trivial

/-! ## What equality by value says -/

end Json

end Poesie
