import Poesie.Conversion
import Poesie.JsonNodes

set_option autoImplicit false

/-! # Conversion of values without binaries

Where there are no memory views to make, a conversion does nothing but build a VM value:
`Converter.build` is that value, and `convert_eq_build` says that it depends neither on the list
of views nor on the heap. `exists_build` proves a relation between each value and what is built
from it by the steps of the traversal.
-/

namespace Poesie

open Wire Json

/-- A value that is converted on its own. -/
def Json.Scalar : Json → Prop
  | array _ => False
  | object _ => False
  | binary _ _ => False
  | _ => True

theorem Json.Scalar.nodes_eq {j : Json} (h : j.Scalar) : j.nodes = [j] := by
  cases j with
  | array items => exact absurd h id
  | object members => exact absurd h id
  | _ => rfl

namespace Converter

variable {V : Type} (c : Converter V)

mutual

/-- The VM value that is made of a JSON value, when no binary is taken for a view. -/
def build : Json → Except CppException V
  | array items => do
      let vs ← buildItems items
      pure (c.list vs)
  | object members => do
      let vs ← buildMembers members
      pure (c.table vs)
  | binary b _ => c.plain b
  | j => c.scalar j

def buildItems : List Json → Except CppException (List V)
  | [] => pure []
  | j :: rest => do
      let v ← build j
      let vs ← buildItems rest
      pure (v :: vs)

def buildMembers : List (Bytes × Json) → Except CppException (List (Bytes × V))
  | [] => pure []
  | (k, j) :: rest => do
      let v ← build j
      let k' ← c.key k
      let vs ← buildMembers rest
      pure ((k', v) :: vs)

end

end Converter

/-- A binary is not taken for a view. -/
def NotView : Json → Prop
  | binary b st => isMemoryView (binary b st) = false
  | _ => True

/-! ## It is what the conversion gives -/

namespace Conv

variable {α β : Type}

/-- Whatever the list and the heap are, the step gives this result. -/
def Pure (f : Conv α) (r : Except CppException α) : Prop :=
  ∀ created s, (f created s).1 = r.mapError .thrown

theorem pure_pure (a : α) : Pure (Pure.pure a) (.ok a) := fun _ _ => rfl

theorem pure_lift (r : Except CppException α) : Pure (Conv.lift r) r := fun _ _ => rfl

theorem pure_bind {f : Conv α} {g : α → Conv β} {r : Except CppException α}
    {k : α → Except CppException β} (hf : Pure f r) (hg : ∀ a, Pure (g a) (k a)) :
    Pure (f >>= g) (r >>= k) := by
  intro created s
  have hfirst := hf created s
  rcases h : f created s with ⟨outcome, created', s'⟩
  rw [h] at hfirst
  cases r with
  | ok a =>
      have hok : outcome = .ok a := hfirst
      subst hok
      rw [Conv.bind_of_ok h]
      exact hg a created' s'
  | error e =>
      have herror : outcome = .error (.thrown e) := hfirst
      subst herror
      rw [Conv.bind_of_error h]
      rfl

theorem pure_call {byValue : Bool} {f : Conv α} {r : Except CppException α} (hf : Pure f r) :
    Pure (Conv.call byValue f) r := by
  intro created s
  cases byValue with
  | true =>
      rw [Conv.call_true]
      exact hf created _
  | false => exact hf created s

end Conv

section

variable {V : Type} {m : Margo} {env : ViewId → Env} {c : Converter V}

theorem pure_convertItems {items : List Json}
    (h : ∀ j ∈ items, (convert m env c j).Pure (c.build j)) :
    (convertItems m env c items).Pure (c.buildItems items) := by
  induction items with
  | nil => exact Conv.pure_pure []
  | cons j rest ih =>
      rw [convertItems, Converter.buildItems]
      refine Conv.pure_bind (h j (by simp)) fun v => ?_
      exact Conv.pure_bind (ih fun i hi => h i (by simp [hi])) fun vs => Conv.pure_pure _

theorem pure_convertMembers {members : List (Bytes × Json)}
    (h : ∀ p ∈ members, (convert m env c p.2).Pure (c.build p.2)) :
    (convertMembers m env c members).Pure (c.buildMembers members) := by
  induction members with
  | nil => exact Conv.pure_pure []
  | cons p rest ih =>
      rw [convertMembers, Converter.buildMembers]
      refine Conv.pure_bind (h p (by simp)) fun v => Conv.pure_bind (Conv.pure_lift _) fun k => ?_
      exact Conv.pure_bind (ih fun i hi => h i (by simp [hi])) fun vs => Conv.pure_pure _

/-- Without views, a conversion is the value it builds. -/
theorem convert_eq_build_of_notView {j : Json} (h : j.Every NotView) :
    (convert m env c j).Pure (c.build j) := by
  induction j using Json.ind with
  | null => exact Conv.pure_call (Conv.pure_lift _)
  | boolean b => exact Conv.pure_call (Conv.pure_lift _)
  | numberInteger n => exact Conv.pure_call (Conv.pure_lift _)
  | numberUnsigned n => exact Conv.pure_call (Conv.pure_lift _)
  | numberFloat x => exact Conv.pure_call (Conv.pure_lift _)
  | string s => exact Conv.pure_call (Conv.pure_lift _)
  | binary b st =>
      have hplain : ¬ isMemoryView (binary b st) = true := by simpa [NotView] using h.self
      rw [convert, Converter.build, if_neg hplain]
      exact Conv.pure_call (Conv.pure_lift _)
  | array items ih =>
      rw [every_array] at h
      rw [convert, Converter.build]
      have hitems := pure_convertItems fun j hj => ih j hj (h.2 j hj)
      exact Conv.pure_call (Conv.pure_bind hitems fun vs => Conv.pure_pure _)
  | object members ih =>
      rw [every_object] at h
      rw [convert, Converter.build]
      have hmembers := pure_convertMembers fun p hp => ih p hp (h.2 p hp)
      exact Conv.pure_call (Conv.pure_bind hmembers fun vs => Conv.pure_pure _)

theorem convert_eq_build {j : Json} (h : j.Every NotBinary) :
    (convert m env c j).Pure (c.build j) :=
  convert_eq_build_of_notView (h.mono fun j hj => by
    cases j with
    | binary b st => exact absurd hj id
    | _ => trivial)

end

/-! ## Integers as `int` -/

/-- `get<int>()` keeps the low 32 bits. -/
theorem getInt32_integer (n : Int64) :
    (getInt32 (numberInteger n)).toInt = n.toInt.bmod (2 ^ 32) := by
  rw [getInt32, Int64.toInt_toInt32]

theorem getInt32_unsigned (n : UInt64) :
    (getInt32 (numberUnsigned n)).toInt = (n.toNat : Int).bmod (2 ^ 32) := by
  have hbits : (getInt32 (numberUnsigned n)).toInt = (n.toUInt32.toNat : Int).bmod (2 ^ 32) :=
    BitVec.toInt_eq_toNat_bmod n.toUInt32.toBitVec
  rw [hbits, UInt64.toNat_toUInt32, Int.natCast_emod]
  exact Int.emod_bmod _ _

/-- The integers of that range, and no others, are not changed. -/
theorem bmod_eq_self_iff (n : Int) : n.bmod (2 ^ 32) = n ↔ InInt n := by
  unfold InInt
  constructor
  · intro h
    rw [← h]
    constructor
    · exact Int.le_bmod (by decide)
    · exact Int.bmod_lt (by decide)
  · rintro ⟨hlow, hhigh⟩
    exact Int.bmod_eq_of_le (by omega) (by omega)

/-! ## Relations between values and what is built from them -/

namespace Converter

variable {V : Type} {c : Converter V} {R : Json → V → Prop} {P : Json → Prop}

theorem exists_buildItems {items : List Json}
    (h : ∀ j ∈ items, ∃ v, c.build j = .ok v ∧ R j v) :
    ∃ vs, c.buildItems items = .ok vs ∧ List.Forall₂ R items vs := by
  induction items with
  | nil => exact ⟨[], rfl, .nil⟩
  | cons j rest ih =>
      obtain ⟨v, hv, hR⟩ := h j (by simp)
      obtain ⟨vs, hvs, hRs⟩ := ih fun i hi => h i (by simp [hi])
      refine ⟨v :: vs, ?_, .cons hR hRs⟩
      rw [buildItems, hv, hvs]
      rfl

theorem exists_buildMembers {members : List (Bytes × Json)}
    (hkeys : ∀ p ∈ members, ∃ k, c.key p.1 = .ok k)
    (h : ∀ p ∈ members, ∃ v, c.build p.2 = .ok v ∧ R p.2 v) :
    ∃ es, c.buildMembers members = .ok es ∧
      List.Forall₂ (fun p e => c.key p.1 = .ok e.1 ∧ R p.2 e.2) members es := by
  induction members with
  | nil => exact ⟨[], rfl, .nil⟩
  | cons p rest ih =>
      obtain ⟨k, hk⟩ := hkeys p (by simp)
      obtain ⟨v, hv, hR⟩ := h p (by simp)
      obtain ⟨es, hes, hRs⟩ := ih (fun q hq => hkeys q (by simp [hq]))
        fun q hq => h q (by simp [hq])
      refine ⟨(k, v) :: es, ?_, .cons ⟨hk, hR⟩ hRs⟩
      rw [buildMembers, hv, hk, hes]
      rfl

/-- Keys that are converted to themselves. -/
theorem forall₂_keys {members : List (Bytes × Json)} {es : List (Bytes × V)}
    (hkeys : ∀ p ∈ members, c.key p.1 = .ok p.1)
    (h : List.Forall₂ (fun p e => c.key p.1 = .ok e.1 ∧ R p.2 e.2) members es) :
    List.Forall₂ (fun p e => e.1 = p.1 ∧ R p.2 e.2) members es := by
  induction h with
  | nil => exact .nil
  | @cons p e members es he _ ih =>
      have hsame : Except.ok (ε := CppException) p.1 = .ok e.1 :=
        (hkeys p (by simp)).symm.trans he.1
      exact .cons ⟨(Except.ok.inj hsame).symm, he.2⟩ (ih fun q hq => hkeys q (by simp [hq]))

/-- A relation that the scalars and the containers of a VM keep holds of every value and what is
built from it. -/
theorem exists_build
    (plain : ∀ b st, P (binary b st) → ∃ v, c.plain b = .ok v ∧ R (binary b st) v)
    (scalar : ∀ j, P j → j.Scalar → ∃ v, c.scalar j = .ok v ∧ R j v)
    (list : ∀ items vs, P (array items) → List.Forall₂ R items vs → R (array items) (c.list vs))
    (key : ∀ members, P (object members) → ∀ p ∈ members, ∃ k, c.key p.1 = .ok k)
    (table : ∀ members es, P (object members) →
      List.Forall₂ (fun p e => c.key p.1 = .ok e.1 ∧ R p.2 e.2) members es →
      R (object members) (c.table es)) {j : Json} (h : j.Every P) :
    ∃ v, c.build j = .ok v ∧ R j v := by
  induction j using Json.ind with
  | null => exact scalar _ h.self trivial
  | boolean b => exact scalar _ h.self trivial
  | numberInteger n => exact scalar _ h.self trivial
  | numberUnsigned n => exact scalar _ h.self trivial
  | numberFloat x => exact scalar _ h.self trivial
  | string s => exact scalar _ h.self trivial
  | binary b st => exact plain b st h.self
  | array items ih =>
      rw [every_array] at h
      obtain ⟨vs, hvs, hR⟩ := exists_buildItems fun j hj => ih j hj (h.2 j hj)
      refine ⟨c.list vs, ?_, list items vs h.1 hR⟩
      rw [build, hvs]
      rfl
  | object members ih =>
      rw [every_object] at h
      obtain ⟨es, hes, hR⟩ := exists_buildMembers (key members h.1) fun p hp => ih p hp (h.2 p hp)
      refine ⟨c.table es, ?_, table members es h.1 hR⟩
      rw [build, hes]
      rfl

end Converter

end Poesie
