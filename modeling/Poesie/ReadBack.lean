import Poesie.Build

set_option autoImplicit false

/-! # Reading values back

The readers of the backends descend into a VM value with as much stack as there is. `Back` says
that a reader, given enough of it, finds the JSON value that a VM value was made of. It holds of
a container once it holds of what is in it.
-/

namespace Poesie

open Wire Json

/-! ## Lists side by side -/

section

variable {α β γ : Type} {R : α → β → Prop} {S : β → γ → Prop} {T : α → γ → Prop}

theorem forall₂_exists {xs : List α} {ys : List β} (h : List.Forall₂ R xs ys) :
    ∀ x ∈ xs, ∃ y ∈ ys, R x y := by
  induction h with
  | nil => simp
  | @cons x y xs ys hxy _ ih =>
      intro z hz
      rcases List.mem_cons.mp hz with rfl | hz
      · exact ⟨y, by simp, hxy⟩
      · obtain ⟨w, hw, hR⟩ := ih z hz
        exact ⟨w, by simp [hw], hR⟩

/-- A list for which each element has a partner. -/
theorem exists_forall₂ {xs : List α} (h : ∀ x ∈ xs, ∃ y, R x y) : ∃ ys, List.Forall₂ R xs ys := by
  induction xs with
  | nil => exact ⟨[], .nil⟩
  | cons x xs ih =>
      obtain ⟨y, hy⟩ := h x (by simp)
      obtain ⟨ys, hys⟩ := ih fun x hx => h x (by simp [hx])
      exact ⟨y :: ys, .cons hy hys⟩

theorem forall₂_trans (h : ∀ x y z, R x y → S y z → T x z) {xs : List α} {ys : List β}
    {zs : List γ} (hxy : List.Forall₂ R xs ys) (hyz : List.Forall₂ S ys zs) :
    List.Forall₂ T xs zs := by
  induction hxy generalizing zs with
  | nil =>
      rw [List.forall₂_nil_left_iff] at hyz
      rw [hyz]
      exact .nil
  | cons hR _ ih =>
      obtain ⟨z, zs', hS, hrest, rfl⟩ := List.forall₂_cons_left_iff.mp hyz
      exact .cons (h _ _ _ hR hS) (ih hrest)

theorem forall₂_inter {R' : α → β → Prop} {xs : List α} {ys : List β} (h : List.Forall₂ R xs ys)
    (h' : List.Forall₂ R' xs ys) : List.Forall₂ (fun x y => R x y ∧ R' x y) xs ys := by
  induction h with
  | nil => exact .nil
  | cons hxy _ ih =>
      obtain ⟨hxy', hrest⟩ := List.forall₂_cons.mp h'
      exact .cons ⟨hxy, hxy'⟩ (ih hrest)

theorem foldl_concat (xs ys : List α) :
    ys.foldl (fun out y => out ++ [y]) xs = xs ++ ys := by
  induction ys generalizing xs with
  | nil => rw [List.foldl_nil, List.append_nil]
  | cons y ys ih => rw [List.foldl_cons, ih, List.append_assoc, List.singleton_append]

theorem map_eq_map_iff {f : β → γ} {g : α → γ} {xs : List α} {ys : List β} :
    ys.map f = xs.map g ↔ List.Forall₂ (fun x y => f y = g x) xs ys := by
  rw [← List.forall₂_eq_eq_eq, List.forall₂_map_left_iff, List.forall₂_map_right_iff]
  exact ⟨List.Forall₂.flip, List.Forall₂.flip⟩

/-- What holds of the pairs says something of the elements on the left. -/
theorem forall₂_iff_forall {Q : α → Prop} {xs : List α} {ys : List β}
    (h : List.Forall₂ (fun x y => R x y ↔ Q x) xs ys) :
    List.Forall₂ R xs ys ↔ ∀ x ∈ xs, Q x := by
  induction h with
  | nil => simp
  | cons hxy _ ih => rw [List.forall₂_cons, hxy, ih, List.forall_mem_cons]

end

/-! ## Reading with enough stack -/

variable {V : Type} (reads : Nat → V → Json → Prop) (float : Float64 → Json)

/-- With enough stack, the value is read as `j`. -/
def ReadAs (v : V) (j : Json) : Prop := ∃ least, ∀ depth, least ≤ depth → reads depth v j

/-- The value is read as one that equals `j`, up to how numbers are stored. -/
def Back (j : Json) (v : V) : Prop :=
  ∃ out, ReadAs reads v out ∧ out.normal float = j.normal float

variable {reads float}

/-- A value that is read in one step. -/
theorem readAs_of_succ {v : V} {j : Json} (h : ∀ depth, reads (depth + 1) v j) :
    ReadAs reads v j := by
  refine ⟨1, fun depth hdepth => ?_⟩
  obtain ⟨d, rfl⟩ : ∃ d, depth = d + 1 := ⟨depth - 1, by omega⟩
  exact h d

/-- Enough stack for all elements. -/
theorem readAll {items : List Json} {vs : List V} (h : List.Forall₂ (Back reads float) items vs) :
    ∃ outs least, (∀ depth, least ≤ depth → List.Forall₂ (reads depth) vs outs) ∧
      List.Forall₂ (fun j out => out.normal float = j.normal float) items outs := by
  induction h with
  | nil => exact ⟨[], 0, fun _ _ => .nil, .nil⟩
  | cons hv _ ih =>
      obtain ⟨out, ⟨least, hread⟩, heq⟩ := hv
      obtain ⟨outs, least', hreads, heqs⟩ := ih
      refine ⟨out :: outs, max least least', fun depth hdepth => ?_, .cons heq heqs⟩
      exact .cons (hread depth (by omega)) (hreads depth (by omega))

/-- An array is read back when its elements are, and there is enough for the loop over them. -/
theorem back_array_of_le (enough : Nat) {v : V} {items : List Json} {vs : List V}
    (step : ∀ depth outs, enough ≤ depth → List.Forall₂ (reads depth) vs outs →
      reads (depth + 1) v (array outs))
    (h : List.Forall₂ (Back reads float) items vs) : Back reads float (array items) v := by
  obtain ⟨outs, least, hread, heq⟩ := readAll h
  refine ⟨array outs, ⟨max least enough + 1, fun depth hdepth => ?_⟩, normal_array_of_forall₂ heq⟩
  obtain ⟨d, rfl⟩ : ∃ d, depth = d + 1 := ⟨depth - 1, by omega⟩
  exact step d outs (by omega) (hread d (by omega))

theorem back_array {v : V} {items : List Json} {vs : List V}
    (step : ∀ depth outs, List.Forall₂ (reads depth) vs outs → reads (depth + 1) v (array outs))
    (h : List.Forall₂ (Back reads float) items vs) : Back reads float (array items) v :=
  back_array_of_le 0 (fun depth outs _ hreads => step depth outs hreads) h

/-- The entries of a table: each key, and what its value is read as. -/
def EntryReads (reads : Nat → V → Json → Prop) (depth : Nat) (e : Bytes × V)
    (out : Bytes × Json) : Prop := out.1 = e.1 ∧ reads depth e.2 out.2

/-- Enough stack for the values of all entries. -/
theorem readEntries {members : List (Bytes × Json)} {es : List (Bytes × V)}
    (h : List.Forall₂ (fun p e => e.1 = p.1 ∧ Back reads float p.2 e.2) members es) :
    ∃ outs least, List.Forall₂ (fun (e : Bytes × V) (out : Bytes × Json) =>
        ∀ depth, least ≤ depth → EntryReads reads depth e out) es outs ∧
      List.Forall₂ (fun p out => out.1 = p.1 ∧ out.2.normal float = p.2.normal float)
        members outs := by
  induction h with
  | nil => exact ⟨[], 0, .nil, .nil⟩
  | @cons p e members es hp _ ih =>
      obtain ⟨hkey, out, ⟨least, hread⟩, heq⟩ := hp
      obtain ⟨outs, least', hreads, heqs⟩ := ih
      refine ⟨(e.1, out) :: outs, max least least', .cons (fun depth hdepth => ?_) ?_,
        .cons ⟨hkey, heq⟩ heqs⟩
      · exact ⟨rfl, hread depth (by omega)⟩
      · exact hreads.imp fun e out h depth hdepth => h depth (by omega)

/-- An object is read back when the values of its members are, in whatever order the table lists
them, and there is enough for the loop over them. -/
theorem back_object_of_le (enough : Nat) {v : V} {members : List (Bytes × Json)}
    {es listed : List (Bytes × V)} (ascending : StdMap.Ascending members)
    (h : List.Forall₂ (fun p e => e.1 = p.1 ∧ Back reads float p.2 e.2) members es)
    (hperm : listed.Perm es)
    (step : ∀ depth outs, enough ≤ depth → List.Forall₂ (EntryReads reads depth) listed outs →
      reads (depth + 1) v (object (outs.foldl (fun m e => StdMap.assign e.1 e.2 m) []))) :
    Back reads float (object members) v := by
  obtain ⟨outs, least, hread, heq⟩ := readEntries h
  obtain ⟨listedOuts, hlisted, houts⟩ := List.perm_comp_forall₂ hperm hread
  refine ⟨_, ⟨max least enough + 1, fun depth hdepth => ?_⟩,
    normal_object_of_forall₂ ascending heq houts⟩
  obtain ⟨d, rfl⟩ : ∃ d, depth = d + 1 := ⟨depth - 1, by omega⟩
  exact step d listedOuts (by omega) (hlisted.imp fun e out h => h d (by omega))

theorem back_object {v : V} {members : List (Bytes × Json)} {es listed : List (Bytes × V)}
    (ascending : StdMap.Ascending members)
    (h : List.Forall₂ (fun p e => e.1 = p.1 ∧ Back reads float p.2 e.2) members es)
    (hperm : listed.Perm es)
    (step : ∀ depth outs, List.Forall₂ (EntryReads reads depth) listed outs →
      reads (depth + 1) v (object (outs.foldl (fun m e => StdMap.assign e.1 e.2 m) []))) :
    Back reads float (object members) v :=
  back_object_of_le 0 ascending h hperm fun depth outs _ hreads => step depth outs hreads

/-- The keys of a table that was made of an object. -/
theorem keys_of_forall₂ {α β : Type} {R : α → β → Prop} {members : List (Bytes × α)}
    {es : List (Bytes × β)} (h : List.Forall₂ (fun p e => e.1 = p.1 ∧ R p.2 e.2) members es) :
    es.map Prod.fst = members.map Prod.fst := by
  induction h with
  | nil => rfl
  | cons hp _ ih => rw [List.map_cons, List.map_cons, hp.1, ih]

theorem distinct_of_forall₂ {α β : Type} {R : α → β → Prop} {members : List (Bytes × α)}
    {es : List (Bytes × β)} (distinct : StdMap.Distinct members)
    (h : List.Forall₂ (fun p e => e.1 = p.1 ∧ R p.2 e.2) members es) : StdMap.Distinct es := by
  rw [StdMap.distinct_iff, keys_of_forall₂ h]
  exact StdMap.distinct_iff.mp distinct

/-- A key of the table is one of the object. -/
theorem key_of_forall₂ {α β : Type} {R : α → β → Prop} {members : List (Bytes × α)}
    {es : List (Bytes × β)} {P : Bytes → Prop} (hP : ∀ p ∈ members, P p.1)
    (h : List.Forall₂ (fun p e => e.1 = p.1 ∧ R p.2 e.2) members es) : ∀ e ∈ es, P e.1 := by
  intro e he
  have hmem : e.1 ∈ members.map Prod.fst := keys_of_forall₂ h ▸ List.mem_map_of_mem he
  obtain ⟨p, hp, heq⟩ := List.mem_map.mp hmem
  exact heq ▸ hP p hp

end Poesie
