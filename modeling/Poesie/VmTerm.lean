import Poesie.Build

set_option autoImplicit false

/-! # VM values as terms

Some properties of a converter do not depend on what its VM makes of the calls. They are about
the calls: which constructor is called for each node of the JSON value, and with what. The term
of these calls is a VM value like any other, `VmTerm.api`, and its nodes correspond one by one
to those of the JSON value.
-/

namespace Poesie

open Wire Json

/-! ## What a conversion makes -/

namespace Conv

variable {α β : Type} {P : α → Prop} {Q : β → Prop}

/-- Whatever the list and the heap are, a result has the property. -/
def Makes (P : α → Prop) (f : Conv α) : Prop :=
  ∀ created s a, (f created s).1 = .ok a → P a

theorem makes_pure {a : α} (h : P a) : Makes P (Pure.pure a : Conv α) := by
  intro created s b hb
  exact Except.ok.inj hb ▸ h

theorem makes_lift {r : Except CppException α} (h : ∀ a, r = .ok a → P a) :
    Makes P (Conv.lift r) := by
  intro created s a ha
  cases r with
  | ok b => exact Except.ok.inj ha ▸ h b rfl
  | error e => cases ha

theorem makes_bind {f : Conv α} {g : α → Conv β} (hf : Makes P f)
    (hg : ∀ a, P a → Makes Q (g a)) : Makes Q (f >>= g) := by
  intro created s b hb
  rcases h : f created s with ⟨r, created', s'⟩
  cases r with
  | ok a =>
      rw [Conv.bind_of_ok h] at hb
      exact hg a (hf created s a (by rw [h])) created' s' b hb
  | error e =>
      rw [Conv.bind_of_error h] at hb
      cases hb

theorem makes_call {byValue : Bool} {f : Conv α} (hf : Makes P f) :
    Makes P (Conv.call byValue f) := by
  intro created s a ha
  cases byValue with
  | true => exact hf created _ a ha
  | false => exact hf created s a ha

/-- Of a view, the value that points into it is made. -/
theorem makes_addView {V : Type} {P : V → Prop} {m : Margo} {env : ViewId → Env}
    {c : Converter V} {j : Json} (h : ∀ id, P (c.buffer id)) :
    Makes P (Conv.addView m env c j) := by
  intro created s v hv
  have hbuffer : ∀ {r : Except CppException Unit} {id : ViewId},
      (r.map fun _ => c.buffer id).mapError Fault.thrown = .ok v → P v := by
    intro r id hr
    cases r with
    | ok u => exact Except.ok.inj hr ▸ h id
    | error e => cases hr
  unfold Conv.addView at hv
  cases hj : MemoryView.ofJson m j with
  | ok w =>
      simp only [hj] at hv
      exact hbuffer hv
  | error e =>
      simp only [hj] at hv
      cases hv

end Conv

section

variable {V : Type} {m : Margo} {env : ViewId → Env} {c : Converter V} {R : Json → V → Prop}

theorem makes_convertItems {items : List Json}
    (h : ∀ j ∈ items, (convert m env c j).Makes (R j)) :
    (convertItems m env c items).Makes (List.Forall₂ R items) := by
  induction items with
  | nil => exact Conv.makes_pure .nil
  | cons j rest ih =>
      rw [convertItems]
      refine Conv.makes_bind (h j (by simp)) fun v hv => ?_
      refine Conv.makes_bind (ih fun i hi => h i (by simp [hi])) fun vs hvs => ?_
      exact Conv.makes_pure (.cons hv hvs)

theorem makes_convertMembers {members : List (Bytes × Json)}
    (h : ∀ p ∈ members, (convert m env c p.2).Makes (R p.2)) :
    (convertMembers m env c members).Makes
      (List.Forall₂ (fun p e => c.key p.1 = .ok e.1 ∧ R p.2 e.2) members) := by
  induction members with
  | nil => exact Conv.makes_pure .nil
  | cons p rest ih =>
      rw [convertMembers]
      refine Conv.makes_bind (h p (by simp)) fun v hv => ?_
      refine Conv.makes_bind (P := fun k => c.key p.1 = .ok k)
        (Conv.makes_lift fun k hk => hk) fun k hk => ?_
      refine Conv.makes_bind (ih fun i hi => h i (by simp [hi])) fun es hes => ?_
      exact Conv.makes_pure (.cons ⟨hk, hv⟩ hes)

/-- A relation that scalars, binaries and containers keep holds of every value and what is made
of it. -/
theorem makes_convert (scalar : ∀ j v, j.Scalar → c.scalar j = .ok v → R j v)
    (plain : ∀ b st v, c.plain b = .ok v → R (binary b st) v)
    (buffer : ∀ b st id, R (binary b st) (c.buffer id))
    (list : ∀ items vs, List.Forall₂ R items vs → R (array items) (c.list vs))
    (table : ∀ members es,
      List.Forall₂ (fun p e => c.key p.1 = .ok e.1 ∧ R p.2 e.2) members es →
        R (object members) (c.table es)) (j : Json) :
    (convert m env c j).Makes (R j) := by
  induction j using Json.ind with
  | null => exact Conv.makes_call (Conv.makes_lift fun v => scalar _ v trivial)
  | boolean b => exact Conv.makes_call (Conv.makes_lift fun v => scalar _ v trivial)
  | numberInteger n => exact Conv.makes_call (Conv.makes_lift fun v => scalar _ v trivial)
  | numberUnsigned n => exact Conv.makes_call (Conv.makes_lift fun v => scalar _ v trivial)
  | numberFloat x => exact Conv.makes_call (Conv.makes_lift fun v => scalar _ v trivial)
  | string s => exact Conv.makes_call (Conv.makes_lift fun v => scalar _ v trivial)
  | binary b st =>
      rw [convert]
      refine Conv.makes_call ?_
      split
      · exact Conv.makes_addView (buffer b st)
      · exact Conv.makes_lift fun v => plain b st v
  | array items ih =>
      rw [convert]
      refine Conv.makes_call (Conv.makes_bind (makes_convertItems ih) fun vs hvs => ?_)
      exact Conv.makes_pure (list items vs hvs)
  | object members ih =>
      rw [convert]
      refine Conv.makes_call (Conv.makes_bind (makes_convertMembers ih) fun es hes => ?_)
      exact Conv.makes_pure (table members es hes)

end

/-! ## Terms -/

/-- The calls by which a VM value was made. -/
inductive VmTerm where
  | nil
  | boolean (b : Bool)
  | int (n : Int)
  | double (x : Float64)
  | string (s : Bytes)
  | bytes (b : Bytes)
  | list (items : List VmTerm)
  | table (entries : List (Bytes × VmTerm))
  | buffer (view : ViewId)

namespace VmTerm

def api : VmApi VmTerm where
  nil := nil
  boolean := boolean
  int := int
  double := double
  string s := .ok (string s)
  bytes := bytes
  list := list
  table := table
  buffer := buffer

mutual

/-- The term and all terms in it. -/
def nodes : VmTerm → List VmTerm
  | list items => list items :: nodesOfItems items
  | table entries => table entries :: nodesOfEntries entries
  | t => [t]

def nodesOfItems : List VmTerm → List VmTerm
  | [] => []
  | t :: rest => nodes t ++ nodesOfItems rest

def nodesOfEntries : List (Bytes × VmTerm) → List VmTerm
  | [] => []
  | (_, t) :: rest => nodes t ++ nodesOfEntries rest

end

variable {R : Json → VmTerm → Prop}

/-- Each node of the term is related to the one that stands at its place in the JSON value. -/
def AtNodes (R : Json → VmTerm → Prop) (j : Json) (t : VmTerm) : Prop :=
  List.Forall₂ R j.nodes t.nodes

theorem atNodes_leaf {j : Json} {t : VmTerm} (hj : j.nodes = [j]) (ht : t.nodes = [t])
    (h : R j t) : AtNodes R j t := by
  rw [AtNodes, hj, ht]
  exact .cons h .nil

theorem atNodes_list {items : List Json} {ts : List VmTerm} (hself : R (array items) (list ts))
    (h : List.Forall₂ (AtNodes R) items ts) : AtNodes R (array items) (list ts) := by
  have hitems : List.Forall₂ R (Json.nodesOfItems items) (nodesOfItems ts) := by
    clear hself
    induction h with
    | nil => exact .nil
    | cons hj _ ih => exact List.rel_append hj ih
  exact .cons hself hitems

theorem atNodes_table {members : List (Bytes × Json)} {es : List (Bytes × VmTerm)}
    (hself : R (object members) (table es))
    (h : List.Forall₂ (fun p e => AtNodes R p.2 e.2) members es) :
    AtNodes R (object members) (table es) := by
  have hmembers : List.Forall₂ R (Json.nodesOfMembers members) (nodesOfEntries es) := by
    clear hself
    induction h with
    | nil => exact .nil
    | cons hj _ ih => exact List.rel_append hj ih
  exact .cons hself hmembers

end VmTerm

end Poesie
