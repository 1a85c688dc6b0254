import Poesie.ReadBack

set_option autoImplicit false

/-! # Texts in VM values

The strings and the keys of a JSON value that are to be found in the VM value that was made of it.
How a VM value is looked at is a parameter, `TextView`.
-/

namespace Poesie

open Wire Json

theorem zero_notMem_cString (s : Bytes) : 0 ∉ cString s := by
  intro hmem
  exact absurd (List.mem_takeWhile_imp hmem) (by decide)

/-- Keys that are their own C strings. -/
theorem forall₂_cString {K : Type} {members : List (Bytes × Json)} {es : List (Bytes × K)}
    (hnul : ∀ p ∈ members, 0 ∉ p.1)
    (hkeys : List.Forall₂ (fun p e => e.1 = cString p.1) members es) :
    List.Forall₂ (fun p e => e.1 = p.1) members es := by
  induction hkeys with
  | nil => exact .nil
  | @cons p e members es hp _ ih =>
      have hself : cString p.1 = p.1 := cString_of_notMem (hnul p (by simp))
      exact .cons (hp.trans hself) (ih fun q hq => hnul q (by simp [hq]))

/-- How the values of a VM are looked at: which of them is a string, and is read as it, which key
is a text, and what is in an array and in an object. -/
structure TextView (V K : Type) where
  spells : Bytes → V → Prop
  spellsKey : Bytes → K → Prop
  elements : V → List V → Prop
  entries : V → List (K × V) → Prop

namespace TextView

variable {V K : Type} (view : TextView V K)

mutual

/-- The VM value has the strings and the keys of the JSON value, each in its place. -/
def Carries : Json → V → Prop
  | string s, v => view.spells s v
  | array items, v => ∃ vs : List V, view.elements v vs ∧ CarriesItems items vs
  | object members, v => ∃ es : List (K × V), view.entries v es ∧ CarriesMembers members es
  | _, _ => True

def CarriesItems : List Json → List V → Prop
  | [], vs => vs = []
  | j :: rest, vs => ∃ v vs', vs = v :: vs' ∧ Carries j v ∧ CarriesItems rest vs'

def CarriesMembers : List (Bytes × Json) → List (K × V) → Prop
  | [], es => es = []
  | (k, j) :: rest, es => ∃ e es', es = e :: es' ∧ view.spellsKey k e.1 ∧ Carries j e.2 ∧
      CarriesMembers rest es'

end

variable {view}

theorem carriesItems_iff {items : List Json} {vs : List V} :
    view.CarriesItems items vs ↔ List.Forall₂ view.Carries items vs := by
  induction items generalizing vs with
  | nil => rw [CarriesItems, List.forall₂_nil_left_iff]
  | cons j rest ih =>
      rw [CarriesItems, List.forall₂_cons_left_iff]
      constructor
      · rintro ⟨v, vs', rfl, hv, hrest⟩
        exact ⟨v, vs', hv, ih.mp hrest, rfl⟩
      · rintro ⟨v, vs', hv, hrest, rfl⟩
        exact ⟨v, vs', rfl, hv, ih.mpr hrest⟩

theorem carriesMembers_iff {members : List (Bytes × Json)} {es : List (K × V)} :
    view.CarriesMembers members es ↔
      List.Forall₂ (fun p e => view.spellsKey p.1 e.1 ∧ view.Carries p.2 e.2) members es := by
  induction members generalizing es with
  | nil => rw [CarriesMembers, List.forall₂_nil_left_iff]
  | cons p rest ih =>
      obtain ⟨k, j⟩ := p
      rw [CarriesMembers, List.forall₂_cons_left_iff]
      constructor
      · rintro ⟨e, es', rfl, hkey, hv, hrest⟩
        exact ⟨e, es', ⟨hkey, hv⟩, ih.mp hrest, rfl⟩
      · rintro ⟨e, es', ⟨hkey, hv⟩, hrest, rfl⟩
        exact ⟨e, es', rfl, hkey, hv, ih.mpr hrest⟩

/-- An array with these elements. -/
theorem carries_array_iff {v : V} {vs : List V} {items : List Json} {Q : Json → Prop}
    (helements : ∀ vs', view.elements v vs' ↔ vs' = vs)
    (hitems : List.Forall₂ (fun j v => view.Carries j v ↔ Q j) items vs) :
    view.Carries (array items) v ↔ ∀ j ∈ items, Q j := by
  rw [← forall₂_iff_forall hitems, Carries]
  constructor
  · rintro ⟨vs', helem, hcarries⟩
    rw [(helements vs').mp helem] at hcarries
    exact carriesItems_iff.mp hcarries
  · intro hcarries
    exact ⟨vs, (helements vs).mpr rfl, carriesItems_iff.mpr hcarries⟩

/-- An object whose keys are spelled if `G` holds, in one way, and only then. -/
theorem carries_object_iff {v : V} {members : List (Bytes × Json)} {G : Prop} {Q : Json → Prop}
    (sound : ∀ es, view.entries v es →
      List.Forall₂ (fun p e => view.spellsKey p.1 e.1) members es → G)
    (complete : G → ∃ es, view.entries v es ∧
      List.Forall₂ (fun p e => view.spellsKey p.1 e.1) members es ∧
      (∀ es', view.entries v es' →
        List.Forall₂ (fun p e => view.spellsKey p.1 e.1) members es' → es' = es) ∧
      List.Forall₂ (fun p e => view.Carries p.2 e.2 ↔ Q p.2) members es) :
    view.Carries (object members) v ↔ G ∧ ∀ p ∈ members, Q p.2 := by
  rw [Carries]
  constructor
  · rintro ⟨es', hentries', hcarries⟩
    rw [carriesMembers_iff] at hcarries
    have hkeys' := hcarries.imp fun p e h => h.1
    have hG := sound es' hentries' hkeys'
    obtain ⟨es, -, -, unique, hmembers⟩ := complete hG
    rw [unique es' hentries' hkeys'] at hcarries
    exact ⟨hG, (forall₂_iff_forall hmembers).mp (hcarries.imp fun p e h => h.2)⟩
  · rintro ⟨hG, heach⟩
    obtain ⟨es, hentries, hkeys, -, hmembers⟩ := complete hG
    have hvalues := (forall₂_iff_forall hmembers).mpr heach
    exact ⟨es, hentries, carriesMembers_iff.mpr (forall₂_inter hkeys hvalues)⟩

end TextView

/-- Strings and keys without NUL bytes, and keys of some kind. -/
def Json.Clean (P : Bytes → Prop) (j : Json) : Prop := Texts (fun s => 0 ∉ s) j ∧ Keys P j

theorem Json.every_clean_of_scalar {P : Bytes → Prop} {j : Json} (hj : j.Scalar)
    (htexts : Texts (fun s => 0 ∉ s) j) : j.Every (Clean P) := by
  cases j <;> simp_all [Clean, Keys, Scalar]

end Poesie
