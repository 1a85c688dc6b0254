import Poesie.Jx9Map
import Poesie.ReadBack

set_option autoImplicit false

/-! # Values through Jx9

The two functions `JSONtoJx9Value`, outside and inside the VM, make the same of a value without
binaries. `Jx9ValueToJSON` reads it back as it was, unless there is an empty object in it, or an
object with a key that is empty or looks like an integer without being the numeral of one.
-/

namespace Poesie

open Wire Json

/-! ## Inside and outside -/

theorem addElems_eq {items : List Json} {vs : List Jx9Value}
    (h : List.Forall₂ (fun j v => JSONtoJx9ValueInside j = v) items vs) (v : Jx9Value) :
    addElems items v = vs.foldl Jx9Value.addElem v := by
  induction h generalizing v with
  | nil => rfl
  | cons hj _ ih => rw [addElems, hj, ih, List.foldl_cons]

theorem addMembers_eq {members : List (Bytes × Json)} {es : List (Bytes × Jx9Value)}
    (h : List.Forall₂ (fun p e => cString p.1 = e.1 ∧ JSONtoJx9ValueInside p.2 = e.2) members es)
    (v : Jx9Value) : addMembers members v = es.foldl Jx9Value.addStrkeyElem v := by
  induction h generalizing v with
  | nil => rfl
  | @cons p e members es he _ ih =>
      obtain ⟨k, j⟩ := p
      obtain ⟨k', w⟩ := e
      obtain ⟨hk, hw⟩ := he
      rw [addMembers, List.foldl_cons, ← ih]
      dsimp only at hk hw ⊢
      rw [hk, hw]

/-- Inside the VM, a value is built as outside, with no binary taken for a view. -/
theorem build_eq_inside (j : Json) :
    (JSONtoJx9Value jx9Api).build j = .ok (JSONtoJx9ValueInside j) := by
  obtain ⟨v, hv, hsame⟩ := Converter.exists_build (c := JSONtoJx9Value jx9Api)
    (R := fun j v => JSONtoJx9ValueInside j = v) (P := fun _ => True)
    (fun b st _ => ⟨_, rfl, by rw [JSONtoJx9ValueInside]⟩)
    (fun j _ hscalar => by
      cases j with
      | array items => exact absurd hscalar id
      | object members => exact absurd hscalar id
      | binary b st => exact absurd hscalar id
      | _ => exact ⟨_, rfl, by rw [JSONtoJx9ValueInside] <;> rfl⟩)
    (fun items vs _ hvs => by
      rw [JSONtoJx9ValueInside, addElems_eq hvs]
      rfl)
    (fun members _ p _ => ⟨_, rfl⟩)
    (fun members es _ hes => by
      rw [JSONtoJx9ValueInside, addMembers_eq (hes.imp fun p e he => ⟨Except.ok.inj he.1, he.2⟩)]
      rfl) (j := j) (fun _ _ => trivial)
  rw [hv, hsame]

/-! ## Reading back -/

/-- What Jx9 keeps of an object: it has a member, and plain keys. -/
def Json.Plain : Json → Prop
  | object members => members ≠ [] ∧ ∀ p ∈ members, PlainKey p.1
  | _ => True

theorem arrayWalk_eq (entries : Jx9Map.Entries) :
    arrayWalk entries = entries.map fun entry => Jx9ValueToJSON entry.2 := by
  induction entries with
  | nil => rfl
  | cons entry rest ih =>
      obtain ⟨key, value⟩ := entry
      rw [arrayWalk, ih, List.map_cons]

theorem objectWalk_eq (entries : Jx9Map.Entries) (members : List (Bytes × Json)) :
    objectWalk entries members =
      (entries.map fun entry => (entry.1.cString, Jx9ValueToJSON entry.2)).foldl
        (fun m e => StdMap.assign e.1 e.2 m) members := by
  induction entries generalizing members with
  | nil => rfl
  | cons entry rest ih =>
      obtain ⟨key, value⟩ := entry
      rw [objectWalk, ih, List.map_cons, List.foldl_cons]

namespace Jx9Value

/-- A value comes back if it is plain in all its parts, and only then. -/
def Mirrors (j : Json) (v : Jx9Value) : Prop := (Jx9ValueToJSON v).EqNum j ↔ j.Every Plain

/-- What the round trip is about: no binary, integers and whole numbers of type `int`, and texts
without NUL bytes. -/
structure Kept (j : Json) : Prop where
  notBinary : NotBinary j
  integers : Integers InInt j
  wholes : Floats (fun x => ∀ n, x.toInt? = some n → InInt n) j
  texts : Texts (fun s => 0 ∉ s) j
  wellFormed : j.WellFormed

/-- The elements of an array come back in order. -/
theorem toJson_list (vs : List Jx9Value) (fits : vs.length < 2 ^ 64) :
    Jx9ValueToJSON (jx9Api.list vs) = array (vs.map Jx9ValueToJSON) := by
  have hvalues : (Jx9Map.indexed vs).map (fun entry => Jx9ValueToJSON entry.2)
      = vs.map Jx9ValueToJSON := by
    rw [Jx9Map.indexed, List.map_map, ← List.zipIdx_map_fst 0 vs, List.map_map, List.zipIdx_map_fst]
    rfl
  rw [jx9Api_list fits, Jx9ValueToJSON, arrayWalk_eq, hvalues]

theorem mirrors_list {items : List Json} {vs : List Jx9Value} (fits : items.length < 2 ^ 64)
    (h : List.Forall₂ Mirrors items vs) : Mirrors (array items) (jx9Api.list vs) := by
  have hread := toJson_list vs (h.length_eq ▸ fits)
  rw [Mirrors, hread, EqNum, normal_array, normal_array, array.injEq, every_array, List.map_map,
    map_eq_map_iff]
  exact (forall₂_iff_forall h).trans (iff_and_self.mpr fun _ => trivial)

/-- The members of an object with plain keys come back in order. -/
theorem toJson_table {members : List (Bytes × Json)} {es : List (Bytes × Jx9Value)}
    {R : Json → Jx9Value → Prop} (ascending : StdMap.Ascending members)
    (hnul : ∀ p ∈ members, 0 ∉ p.1) (hne : members ≠ []) (hplain : ∀ p ∈ members, PlainKey p.1)
    (h : List.Forall₂ (fun p e => e.1 = p.1 ∧ R p.2 e.2) members es) :
    Jx9ValueToJSON (jx9Api.table es) = object (es.map fun e => (e.1, Jx9ValueToJSON e.2)) := by
  have hnul' := key_of_forall₂ (P := fun k => 0 ∉ k) hnul h
  have hplain' := key_of_forall₂ (P := PlainKey) hplain h
  have hfilled : es.isEmpty = false := by
    rw [List.isEmpty_eq_false_iff]
    rintro rfl
    exact hne (List.forall₂_nil_right_iff.mp h)
  have hkeys : (es.map fun e => (e.1, Jx9ValueToJSON e.2)).map Prod.fst
      = members.map Prod.fst := by
    rw [List.map_map, ← keys_of_forall₂ h]
    rfl
  have hascending : StdMap.Ascending (es.map fun e => (e.1, Jx9ValueToJSON e.2)) := by
    rw [StdMap.ascending_iff, hkeys]
    exact StdMap.ascending_iff.mp ascending
  have hlisted : (es.map fun e => (jx9Key e.1, e.2)).map
        (fun entry => (entry.1.cString, Jx9ValueToJSON entry.2))
      = es.map fun e => (e.1, Jx9ValueToJSON e.2) := by
    rw [List.map_map]
    refine List.map_congr_left fun e he => ?_
    exact Prod.ext (cString_jx9Key (hnul' e he) (hplain' e he)) rfl
  rw [jx9Api_table hnul' hplain' (distinct_of_forall₂ ascending.distinct h), hfilled,
    Bool.not_false, Jx9ValueToJSON, objectWalk_eq, hlisted,
    StdMap.foldl_assign_eq (List.Perm.refl _) hascending]

/-- The first key is the least, so none is empty if it is not. -/
theorem keys_ne_nil {V : Type} {e : Bytes × V} {rest : List (Bytes × V)}
    (hascending : StdMap.Ascending (e :: rest)) (hfirst : e.1 ≠ []) :
    ∀ e' ∈ e :: rest, e'.1 ≠ [] := by
  intro e' he'
  rcases List.mem_cons.mp he' with rfl | hrest
  · exact hfirst
  · intro hnil
    have hlt : e.1 < e'.1 := (List.pairwise_cons.mp hascending).1 e' hrest
    rw [hnil] at hlt
    exact List.not_lt_nil _ hlt

/-- An object that comes back is not empty, and has plain keys. -/
theorem plain_of_eqNum {members : List (Bytes × Json)} {es : List (Bytes × Jx9Value)}
    {R : Json → Jx9Value → Prop} (ascending : StdMap.Ascending members)
    (hnul : ∀ p ∈ members, 0 ∉ p.1)
    (h : List.Forall₂ (fun p e => e.1 = p.1 ∧ R p.2 e.2) members es)
    (heq : (Jx9ValueToJSON (jx9Api.table es)).EqNum (object members)) : (object members).Plain := by
  have hkeys := keys_of_forall₂ h
  have hascending : StdMap.Ascending es := by
    rw [StdMap.ascending_iff, hkeys]
    exact StdMap.ascending_iff.mp ascending
  obtain ⟨entries, htable, hentries⟩ := foldl_addStrkeyElem es false []
  rw [EqNum, show jx9Api.table es = _ from htable] at heq
  cases hobject : (false || (List.isEmpty ([] : Jx9Map.Entries) &&
      es.head?.any fun e => !e.1.isEmpty)) with
  | false =>
      rw [hobject, Jx9ValueToJSON, normal_array, normal_object] at heq
      cases heq
  | true =>
      rw [hobject, Jx9ValueToJSON, objectWalk_eq, normal_object, normal_object,
        object.injEq] at heq
      obtain ⟨e, hhead, hfirst⟩ : ∃ e, es.head? = some e ∧ e.1 ≠ [] := by
        simpa [Option.any_eq_true] using hobject
      obtain ⟨rest, rfl⟩ : ∃ rest, es = e :: rest := List.head?_eq_some_iff.mp hhead
      have hne : ∀ e' ∈ e :: rest, e'.1 ≠ [] := keys_ne_nil hascending hfirst
      refine ⟨?_, fun p hp => ⟨?_, fun hint => ?_⟩⟩
      · rintro rfl
        cases h
      · obtain ⟨e', he', hkey, -⟩ := forall₂_exists h p hp
        exact hkey ▸ hne e' he'
      · -- the key was read from an entry, and that entry was stored under a key of the object
        have hmem : (p.1, p.2.normal ofFloat) ∈ members.map fun q => (q.1, q.2.normal ofFloat) :=
          List.mem_map_of_mem hp
        rw [← heq] at hmem
        obtain ⟨q, hq, hsame⟩ := List.mem_map.mp hmem
        rcases StdMap.mem_foldl_assign hq with hq | hq
        · obtain ⟨entry, hentry, rfl⟩ := List.mem_map.mp hq
          have hcString : entry.1.cString = p.1 := (Prod.mk.inj hsame).1
          rcases hentries hne entry hentry with ⟨e', he', hkey⟩ | ⟨e', he', -⟩
          · rw [hkey, jx9Key] at hcString
            split at hcString
            · exact ⟨_, hcString.symm⟩
            · next hblob =>
              have hnul' : 0 ∉ e'.1 := key_of_forall₂ (P := fun k => 0 ∉ k) hnul h e' he'
              have hsame' : e'.1 = p.1 := (cString_of_notMem hnul').symm.trans hcString
              rw [hsame'] at hblob
              exact absurd hint hblob
          · exact absurd he' List.not_mem_nil
        · exact absurd hq List.not_mem_nil

theorem mirrors_table {members : List (Bytes × Json)} {es : List (Bytes × Jx9Value)}
    (ascending : StdMap.Ascending members) (hnul : ∀ p ∈ members, 0 ∉ p.1)
    (h : List.Forall₂ (fun p e => e.1 = p.1 ∧ Mirrors p.2 e.2) members es) :
    Mirrors (object members) (jx9Api.table es) := by
  have hvalues : (object members).Plain → ((Jx9ValueToJSON (jx9Api.table es)).EqNum
      (object members) ↔ ∀ p ∈ members, p.2.Every Plain) := by
    rintro ⟨hne, hplain⟩
    have heach := forall₂_iff_forall (Q := fun p => p.2.Every Plain)
      (R := fun p (e : Bytes × Jx9Value) =>
        (e.1, (Jx9ValueToJSON e.2).normal ofFloat) = (p.1, p.2.normal ofFloat))
      (h.imp fun p e he => by
        rw [Prod.mk.injEq, and_iff_right he.1]
        exact he.2)
    rw [toJson_table ascending hnul hne hplain h, EqNum, normal_object, normal_object,
      object.injEq, List.map_map, map_eq_map_iff]
    exact heach
  rw [Mirrors, every_object]
  constructor
  · intro heq
    have hplain := plain_of_eqNum ascending hnul h heq
    exact ⟨hplain, (hvalues hplain).mp heq⟩
  · rintro ⟨hplain, heach⟩
    exact (hvalues hplain).mpr heach

/-- `jx9_value_to_int` keeps the low 32 bits. -/
theorem toInt_lowBits (n : Int64) : n.toInt32.toInt64.toInt = n.toInt.bmod (2 ^ 32) := by
  rw [Int32.toInt_toInt64, Int64.toInt_toInt32]

/-- A number of type `int` comes back. -/
theorem mirrors_int {j : Json} {n : Int} (hj : j.Every Plain) (hn : InInt n)
    (heq : (integer n).normal ofFloat = j.normal ofFloat) :
    Mirrors j (.int (Int64.ofInt n)) := by
  have hvalue : (Int64.ofInt n).toInt = n := by
    unfold InInt at hn
    exact Int64.toInt_ofInt_of_le (by omega) (by omega)
  have hread : Jx9ValueToJSON (.int (Int64.ofInt n)) = integer n := by
    rw [Jx9ValueToJSON, ← integer_of_int64, toInt_lowBits, hvalue, (bmod_eq_self_iff n).mpr hn]
  refine iff_of_true ?_ hj
  rw [hread, EqNum, heq]

theorem mirrors_scalar {j : Json} (hkept : Kept j) (hscalar : j.Scalar) :
    ∃ v, (JSONtoJx9Value jx9Api).scalar j = .ok v ∧ Mirrors j v := by
  have hplain : j.Every Plain := by
    cases j <;> simp_all [Plain, Scalar]
  cases j with
  | null => exact ⟨_, rfl, iff_of_true rfl hplain⟩
  | boolean b => exact ⟨_, rfl, iff_of_true rfl hplain⟩
  | numberInteger n =>
      have hn : InInt n.toInt := hkept.integers
      refine ⟨_, rfl, ?_⟩
      rw [getInt32_integer, (bmod_eq_self_iff _).mpr hn]
      exact mirrors_int hplain hn (by rw [integer_of_int64])
  | numberUnsigned n =>
      have hn : InInt n.toNat := hkept.integers
      refine ⟨_, rfl, ?_⟩
      rw [getInt32_unsigned, (bmod_eq_self_iff _).mpr hn]
      exact mirrors_int hplain hn (normal_integer_unsigned _ n)
  | numberFloat x =>
      refine ⟨_, rfl, ?_⟩
      show Mirrors (numberFloat x) (.double x)
      cases hx : x.toInt? with
      | none =>
          have hreal : double x = .real x := by rw [double, hx]
          rw [hreal]
          exact iff_of_true rfl hplain
      | some n =>
          have hn : InInt n := hkept.wholes n hx
          have hbounds : -2 ^ 31 ≤ n ∧ n < 2 ^ 31 := hn
          have hint : double x = .int (Int64.ofInt n) := by
            rw [double, hx]
            exact if_pos (by omega)
          have hfloat : (numberFloat x).normal ofFloat = integer n := by
            rw [normal, ofFloat, hx]
            exact if_pos (by omega)
          rw [hint]
          exact mirrors_int hplain hn (by rw [hfloat, normal_integer (by omega)])
  | string s =>
      have hnul : 0 ∉ s := hkept.texts
      refine ⟨_, rfl, iff_of_true ?_ hplain⟩
      show (Json.string (cString (cString s))).EqNum (Json.string s)
      rw [cString_of_notMem hnul, cString_of_notMem hnul]
      rfl
  | binary b st => exact absurd hscalar id
  | array items => exact absurd hscalar id
  | object members => exact absurd hscalar id

/-- What is built from a value mirrors it. -/
theorem mirrors_build {j : Json} (h : j.Every Kept) :
    ∃ v, (JSONtoJx9Value jx9Api).build j = .ok v ∧ Mirrors j v := by
  refine Converter.exists_build (fun b st h => absurd h.notBinary id)
    (fun j hj => mirrors_scalar hj) (fun items vs hj => mirrors_list ?_)
    (fun members _ p _ => ⟨_, rfl⟩)
    (fun members es hj hes => ?_) h
  · cases hj.wellFormed with
    | array fits each => exact fits
  · cases hj.wellFormed with
    | object fits ascending keys each =>
        have hkeys : ∀ p ∈ members, (JSONtoJx9Value jx9Api).key p.1 = .ok p.1 :=
          fun p hp => congrArg Except.ok (cString_of_notMem (hj.texts p hp))
        exact mirrors_table ascending hj.texts (Converter.forall₂_keys hkeys hes)

end Jx9Value

/-- **Round trip through Jx9.** Whatever views and heap there are, a value without binaries is
converted, outside the VM to the same as inside. It is read back as one that equals it if and only
if each object in it has a member and only plain keys. -/
theorem Jx9ValueToJSON_JSONtoJx9Value_iff (j : JsonValue) (notBinary : j.tree.Every NotBinary)
    (ints : j.tree.Every (Integers InInt))
    (wholes : j.tree.Every (Floats fun x => ∀ n, x.toInt? = some n → InInt n))
    (noNul : j.tree.Every (Texts fun s => 0 ∉ s)) (m : Margo) (env : ViewId → Env)
    (created : List ViewId) (s : Heap) :
    ∃ v, (convert m env (JSONtoJx9Value jx9Api) j.tree created s).1 = .ok v ∧
      JSONtoJx9ValueInside j.tree = v ∧
        ((Jx9ValueToJSON v).EqNum j.tree ↔ j.tree.Every Plain) := by
  have hkept : j.tree.Every Jx9Value.Kept := fun n hn =>
    ⟨notBinary n hn, ints n hn, wholes n hn, noNul n hn, j.wellFormed.every n hn⟩
  obtain ⟨v, hv, hmirrors⟩ := Jx9Value.mirrors_build hkept
  have hinside : JSONtoJx9ValueInside j.tree = v :=
    Except.ok.inj ((build_eq_inside j.tree).symm.trans hv)
  refine ⟨v, ?_, hinside, hmirrors⟩
  rw [convert_eq_build notBinary created s, hv]
  rfl

/-- An empty object comes back as an array. -/
theorem jx9_round_trip_of_empty :
    ∃ v, (convert (Margo.loopback noName) (fun _ => Env.quiet) (JSONtoJx9Value jx9Api)
        (object []) [] (.empty fun _ => 0)).1 = .ok v ∧
      Jx9ValueToJSON v = array [] ∧ ¬ (Jx9ValueToJSON v).EqNum (object []) := by
  refine ⟨.hashmap false [], rfl, rfl, ?_⟩
  rw [Jx9ValueToJSON, arrayWalk, EqNum, normal_array, normal_object]
  exact Json.noConfusion

/-- An object with a numeral for a key, an array with a null and a whole number in it. -/
def jx9Sample : JsonValue where
  tree := object [([49, 50], array [null, numberFloat (.ofInt 1)]), ([97, 98], array [])]
  wellFormed := .object (by decide)
    (.cons (by simp; decide) (List.pairwise_singleton _ _)) (by simp) (by
      simp only [List.mem_cons, List.not_mem_nil, or_false, forall_eq_or_imp, forall_eq]
      refine ⟨.array (by decide) ?_, .array (by decide) (by simp)⟩
      simp only [List.mem_cons, List.not_mem_nil, or_false, forall_eq_or_imp, forall_eq]
      exact ⟨.null, .numberFloat _⟩)

theorem jx9_round_trip_sample :
    ∃ v, (convert (Margo.loopback noName) (fun _ => Env.quiet) (JSONtoJx9Value jx9Api)
        jx9Sample.tree [] (.empty fun _ => 0)).1 = .ok v ∧
      JSONtoJx9ValueInside jx9Sample.tree = v ∧
        ((Jx9ValueToJSON v).EqNum jx9Sample.tree ↔ jx9Sample.tree.Every Plain) :=
  Jx9ValueToJSON_JSONtoJx9Value_iff jx9Sample (by simp [jx9Sample, NotBinary])
    (by simp [jx9Sample, Integers]) (by
      have hone : (Float64.ofInt 1).toInt? = some 1 := Float64.toInt?_ofInt (by decide)
      simp [jx9Sample, Floats, hone, InInt])
    (by simp [jx9Sample, Texts]) _ _ _ _

end Poesie
