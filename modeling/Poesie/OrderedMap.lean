import Poesie.Json

set_option autoImplicit false

/-! # Ordered maps filled in any order

`StdMap.assign` puts a new key into its place. A map that is filled with the entries of another
one, in whatever order, is that map.
-/

namespace StdMap

variable {K V : Type} [LT K] [DecidableLT K] [DecidableEq K]

/-- The entries come by ascending key. -/
def Ascending (m : List (K × V)) : Prop := m.Pairwise fun p q => p.1 < q.1

/-- No two entries have the same key. -/
def Distinct (m : List (K × V)) : Prop := m.Pairwise fun p q => p.1 ≠ q.1

omit [DecidableLT K] [DecidableEq K] in
theorem ascending_iff {m : List (K × V)} :
    Ascending m ↔ (m.map Prod.fst).Pairwise fun a b => a < b := List.pairwise_map.symm

omit [LT K] [DecidableLT K] [DecidableEq K] in
theorem distinct_iff {m : List (K × V)} : Distinct m ↔ (m.map Prod.fst).Nodup :=
  List.pairwise_map.symm

theorem assign_perm {k : K} (v : V) {m : List (K × V)} (h : ∀ p ∈ m, p.1 ≠ k) :
    (assign k v m).Perm ((k, v) :: m) := by
  induction m with
  | nil => exact List.Perm.refl _
  | cons p m ih =>
      obtain ⟨k', v'⟩ := p
      have hne : k ≠ k' := fun he => h (k', v') (by simp) he.symm
      by_cases hlt : k < k'
      · rw [assign, if_pos hlt]
      · rw [assign, if_neg hlt, if_neg hne]
        calc ((k', v') :: assign k v m).Perm ((k', v') :: (k, v) :: m) :=
              (ih fun p hp => h p (by simp [hp])).cons _
          _ |>.Perm ((k, v) :: (k', v') :: m) := List.Perm.swap _ _ _

/-- The keys of a map after an assignment. -/
theorem mem_assign {k : K} {v : V} {m : List (K × V)} {p : K × V} (h : p ∈ assign k v m) :
    p = (k, v) ∨ p ∈ m := by
  induction m with
  | nil => exact Or.inl (by simpa [assign] using h)
  | cons q m ih =>
      obtain ⟨k', v'⟩ := q
      by_cases hlt : k < k'
      · rw [assign, if_pos hlt] at h
        simpa using h
      · by_cases heq : k = k'
        · rw [assign, if_neg hlt, if_pos heq] at h
          rcases List.mem_cons.mp h with rfl | h
          · exact Or.inl rfl
          · exact Or.inr (by simp [h])
        · rw [assign, if_neg hlt, if_neg heq] at h
          rcases List.mem_cons.mp h with rfl | h
          · exact Or.inr (by simp)
          · exact (ih h).imp_right fun hm => by simp [hm]

theorem mem_foldl_assign {xs acc : List (K × V)} {p : K × V}
    (h : p ∈ xs.foldl (fun m p => assign p.1 p.2 m) acc) : p ∈ xs ∨ p ∈ acc := by
  induction xs generalizing acc with
  | nil => exact Or.inr h
  | cons q xs ih =>
      rcases ih h with hmem | hmem
      · exact Or.inl (List.mem_cons_of_mem _ hmem)
      · rcases mem_assign hmem with rfl | hmem
        · exact Or.inl List.mem_cons_self
        · exact Or.inr hmem

omit [LT K] [DecidableLT K] in
theorem lookup_cons_eq [BEq K] [LawfulBEq K] (k : K) (p : K × V) (m : List (K × V)) :
    (p :: m).lookup k = if k = p.1 then some p.2 else m.lookup k := by
  obtain ⟨k', v⟩ := p
  rw [List.lookup_cons]
  by_cases heq : k = k'
  · rw [if_pos heq, beq_iff_eq.mpr heq]
  · rw [if_neg heq, beq_eq_false_iff_ne.mpr heq]

/-- What an assignment changes. -/
theorem lookup_assign [BEq K] [LawfulBEq K] (k k' : K) (v : V) (m : List (K × V)) :
    (assign k v m).lookup k' = if k' = k then some v else m.lookup k' := by
  induction m with
  | nil => rw [assign, lookup_cons_eq]
  | cons p m ih =>
      obtain ⟨k₀, v₀⟩ := p
      by_cases hlt : k < k₀
      · rw [assign, if_pos hlt, lookup_cons_eq]
      · by_cases heq : k = k₀
        · subst heq
          rw [assign, if_neg hlt, if_pos rfl, lookup_cons_eq, lookup_cons_eq]
          by_cases heq' : k' = k
          · rw [if_pos heq', if_pos heq']
          · rw [if_neg heq', if_neg heq', if_neg heq']
        · rw [assign, if_neg hlt, if_neg heq, lookup_cons_eq, lookup_cons_eq, ih]
          by_cases heq' : k' = k
          · rw [if_pos heq', if_neg (heq' ▸ heq), if_pos heq']
          · rw [if_neg heq', if_neg heq']

/-- The last entry of a key stays. -/
theorem lookup_foldl_assign [BEq K] [LawfulBEq K] (k : K) (xs acc : List (K × V)) :
    (xs.foldl (fun m p => assign p.1 p.2 m) acc).lookup k =
      (xs.reverse.lookup k).or (acc.lookup k) := by
  induction xs generalizing acc with
  | nil => rw [List.foldl_nil, List.reverse_nil, List.lookup_nil, Option.none_or]
  | cons p xs ih =>
      rw [List.foldl_cons, ih, List.reverse_cons, List.lookup_append, Option.or_assoc,
        lookup_assign, lookup_cons_eq]
      by_cases heq : k = p.1
      · rw [if_pos heq, if_pos heq, Option.some_or]
      · rw [if_neg heq, if_neg heq, List.lookup_nil, Option.none_or]

section

variable [Std.Trichotomous (fun a b : K => a < b)]
  [Trans (fun a b : K => a < b) (fun a b : K => a < b) (fun a b : K => a < b)]

theorem Ascending.assign {m : List (K × V)} (h : Ascending m) (k : K) (v : V) :
    Ascending (assign k v m) := by
  induction m with
  | nil => exact List.pairwise_singleton _ _
  | cons p m ih =>
      obtain ⟨k', v'⟩ := p
      obtain ⟨hhead, htail⟩ := List.pairwise_cons.mp h
      by_cases hlt : k < k'
      · rw [StdMap.assign, if_pos hlt]
        refine List.pairwise_cons.mpr ⟨fun q hq => ?_, h⟩
        rcases List.mem_cons.mp hq with rfl | hq
        · exact hlt
        · exact Trans.trans (r := fun a b : K => a < b) (s := fun a b : K => a < b) hlt
            (hhead q hq)
      · by_cases heq : k = k'
        · rw [StdMap.assign, if_neg hlt, if_pos heq]
          subst heq
          exact List.pairwise_cons.mpr ⟨hhead, htail⟩
        · rw [StdMap.assign, if_neg hlt, if_neg heq]
          refine List.pairwise_cons.mpr ⟨fun q hq => ?_, ih htail⟩
          have hgt : k' < k := by
            by_contra hngt
            exact heq (Std.Trichotomous.trichotomous (r := fun a b : K => a < b) k k' hlt hngt)
          rcases mem_assign hq with rfl | hq
          · exact hgt
          · exact hhead q hq

theorem ascending_foldl_assign {xs acc : List (K × V)} (h : Ascending acc) :
    Ascending (xs.foldl (fun m p => assign p.1 p.2 m) acc) := by
  induction xs generalizing acc with
  | nil => exact h
  | cons p xs ih => exact ih (h.assign p.1 p.2)

omit [Std.Trichotomous (fun a b : K => a < b)]
  [Trans (fun a b : K => a < b) (fun a b : K => a < b) (fun a b : K => a < b)] in
/-- New keys only add entries. -/
theorem foldl_assign_perm {xs acc : List (K × V)} (h : Distinct xs)
    (hacc : ∀ p ∈ acc, ∀ q ∈ xs, p.1 ≠ q.1) :
    (xs.foldl (fun m p => assign p.1 p.2 m) acc).Perm (acc ++ xs) := by
  induction xs generalizing acc with
  | nil => rw [List.append_nil]; exact List.Perm.refl _
  | cons q xs ih =>
      obtain ⟨hq, hxs⟩ := List.pairwise_cons.mp h
      have hstep := assign_perm q.2 fun p hp => hacc p hp q (by simp)
      have hkeys : ∀ p ∈ assign q.1 q.2 acc, ∀ r ∈ xs, p.1 ≠ r.1 := by
        intro p hp r hr
        rcases mem_assign hp with rfl | hp
        · exact hq r hr
        · exact hacc p hp r (by simp [hr])
      rw [List.foldl_cons]
      calc (xs.foldl (fun m p => assign p.1 p.2 m) (assign q.1 q.2 acc)).Perm
            (assign q.1 q.2 acc ++ xs) := ih hxs hkeys
        _ |>.Perm (q :: acc ++ xs) := hstep.append_right xs
        _ |>.Perm (acc ++ q :: xs) := List.perm_middle.symm

variable [Std.Asymm (fun a b : K => a < b)]

omit [DecidableLT K] [DecidableEq K] [Std.Trichotomous (fun a b : K => a < b)]
  [Trans (fun a b : K => a < b) (fun a b : K => a < b) (fun a b : K => a < b)] in
theorem Ascending.distinct {m : List (K × V)} (h : Ascending m) : Distinct m :=
  h.imp fun {p q} hlt he => by
    have hlt' : p.1 < p.1 := by
      rw [he] at hlt ⊢
      exact hlt
    exact Std.Asymm.asymm (r := fun a b : K => a < b) _ _ hlt' hlt'

omit [DecidableLT K] [DecidableEq K] [LT K] [Std.Trichotomous (fun a b : K => a < b)]
  [Trans (fun a b : K => a < b) (fun a b : K => a < b) (fun a b : K => a < b)]
  [Std.Asymm (fun a b : K => a < b)] in
theorem Distinct.mem_iff_lookup [BEq K] [LawfulBEq K] {m : List (K × V)} (h : Distinct m) {k : K}
    {v : V} : (k, v) ∈ m ↔ m.lookup k = some v := by
  rw [List.lookup_eq_some_iff]
  constructor
  · intro hmem
    obtain ⟨before, after, rfl⟩ := List.append_of_mem hmem
    refine ⟨before, after, rfl, fun p hp => ?_⟩
    have hne : p.1 ≠ k := (List.pairwise_append.mp h).2.2 p hp (k, v) (by simp)
    simpa using hne.symm
  · rintro ⟨before, after, rfl, -⟩
    simp

omit [DecidableLT K] [DecidableEq K] [Std.Trichotomous (fun a b : K => a < b)]
  [Trans (fun a b : K => a < b) (fun a b : K => a < b) (fun a b : K => a < b)] in
/-- Maps that say the same of each key are the same. -/
theorem Ascending.ext_lookup [BEq K] [LawfulBEq K] {m m' : List (K × V)} (h : Ascending m)
    (h' : Ascending m') (hlookup : ∀ k, m.lookup k = m'.lookup k) : m = m' := by
  have hnodup : ∀ {m : List (K × V)}, Ascending m → m.Nodup := fun hm =>
    hm.distinct.imp fun hne heq => hne (by rw [heq])
  have hperm : m.Perm m' := by
    refine (List.perm_ext_iff_of_nodup (hnodup h) (hnodup h')).mpr fun p => ?_
    rw [h.distinct.mem_iff_lookup, h'.distinct.mem_iff_lookup, hlookup]
  exact hperm.eq_of_pairwise (fun p q _ _ hpq hqp =>
    absurd hqp (Std.Asymm.asymm (r := fun a b : K => a < b) _ _ hpq)) h h'

/-- The entries of a map, assigned in any order, make the map again. -/
theorem foldl_assign_eq {xs ms : List (K × V)} (h : xs.Perm ms) (hms : Ascending ms) :
    xs.foldl (fun m p => assign p.1 p.2 m) [] = ms := by
  have hxs : Distinct xs := (h.pairwise_iff fun hpq he => hpq he.symm).mpr hms.distinct
  have hperm : (xs.foldl (fun m p => assign p.1 p.2 m) []).Perm ms := by
    have hfold : (xs.foldl (fun m p => assign p.1 p.2 m) []).Perm ([] ++ xs) :=
      foldl_assign_perm hxs (by simp)
    exact hfold.trans h
  refine hperm.eq_of_pairwise (fun p q _ _ hpq hqp => ?_)
    (ascending_foldl_assign List.Pairwise.nil) hms
  exact absurd hqp (Std.Asymm.asymm (r := fun a b : K => a < b) _ _ hpq)

end

end StdMap
