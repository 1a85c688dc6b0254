import Poesie.LuaTable
import Poesie.ReadBack

set_option autoImplicit false

/-! # Values through Lua

`JSONToLuaObject` makes tables of arrays and of objects, and `LuaObjectToJSON` reads them back.
What sol2 and Lua do with the constructors is a parameter, `LuaLaws`: an entry whose value is nil
is absent. So a null in a container is lost, and a container that has become empty is read as an
array. A value comes back exactly when this happens nowhere in it.
-/

namespace Poesie

open Wire Json

variable {O : Type}

/-- What Lua keeps of a container: there is no null in it, and an object has a member. -/
def Json.Filled : Json → Prop
  | array items => ∀ j ∈ items, j ≠ null
  | object members => members ≠ [] ∧ ∀ p ∈ members, p.2 ≠ null
  | _ => True

namespace LuaObjects

variable (objects : LuaObjects O)

def isNil (o : O) : Bool := (objects.node o).isNil

/-- A number that is the given index. -/
def IsIndex (i : Nat) (key : O) : Prop := objects.isIndex i key = true

/-- A string that is the given key. -/
def IsKey (k : Bytes) (key : O) : Prop :=
  objects.node key = .string k ∧ objects.asString key = .ok k

end LuaObjects

/-- What sol2 tells of the values it makes. A table that is filled from index 1 upwards lists its
indices in increasing order, one with other keys in some order. -/
structure LuaLaws (api : VmApi O) (objects : LuaObjects O) : Prop where
  nil : objects.node api.nil = .nil
  boolean : ∀ b, objects.node (api.boolean b) = .boolean b
  int : ∀ n : Int, InInt n → objects.node (api.int n) = .number (.ofInt n)
  double : ∀ x, objects.node (api.double x) = .number x
  string : ∀ s, ∃ o, api.string s = .ok o ∧ objects.node o = .string s
  list : ∀ vs, ∃ entries, objects.node (api.list vs) = .table entries ∧
    List.Forall₂ (fun e entry => objects.IsIndex e.2 entry.1 ∧ entry.2 = e.1)
      ((vs.zipIdx 1).filter fun e => !objects.isNil e.1) entries
  table : ∀ es, StdMap.Distinct es → ∃ entries listed,
    objects.node (api.table es) = .table entries ∧
    listed.Perm (es.filter fun e => !objects.isNil e.2) ∧
      List.Forall₂ (fun e entry => objects.IsKey e.1 entry.1 ∧ entry.2 = e.2) listed entries

/-- What the converter takes and keeps: no binary, and integers of type `int`. -/
structure LuaLaws.Kept (j : Json) : Prop where
  notBinary : NotBinary j
  integers : Integers InInt j
  keys : KeysAscending j

namespace LuaObjects

variable (objects : LuaObjects O)

/-- The reader of the Lua backend. -/
def reads (depth : Nat) (o : O) (j : Json) : Prop := LuaObjectToJSON objects depth o = pure j

/-- A value comes back if it is filled in all its parts, and only then; nil stands for null. -/
structure Mirrors (j : Json) (o : O) : Prop where
  nil_iff : objects.isNil o = true ↔ j = null
  back_iff : Back objects.reads ofFloat j o ↔ j.Every Filled

variable {objects}

/-- It suffices that the value is read with some stack. -/
theorem back_iff_exists {j : Json} {o : O} : Back objects.reads ofFloat j o ↔
    ∃ out depth, objects.reads depth o out ∧ out.normal ofFloat = j.normal ofFloat := by
  constructor
  · rintro ⟨out, ⟨least, hread⟩, heq⟩
    exact ⟨out, least, hread least (Nat.le_refl _), heq⟩
  · rintro ⟨out, depth, hread, heq⟩
    exact ⟨out, ⟨depth, fun _ hle => LuaObjectToJSON_of_le hle hread⟩, heq⟩

theorem back_iff_exists_succ {j : Json} {o : O} : Back objects.reads ofFloat j o ↔
    ∃ out depth, objects.reads (depth + 1) o out ∧ out.normal ofFloat = j.normal ofFloat := by
  rw [back_iff_exists]
  constructor
  · rintro ⟨out, depth, hread, heq⟩
    exact ⟨out, depth, LuaObjectToJSON_succ hread, heq⟩
  · rintro ⟨out, depth, hread, heq⟩
    exact ⟨out, depth + 1, hread, heq⟩

/-- What is not nil was made of no null. -/
theorem Mirrors.ne_null {j : Json} {o : O} (h : objects.Mirrors j o)
    (ho : objects.isNil o = false) : j ≠ null := by
  intro hnull
  rw [h.nil_iff.mpr hnull] at ho
  exact Bool.noConfusion ho

theorem Mirrors.not_isNil {j : Json} {o : O} (h : objects.Mirrors j o) (hj : j ≠ null) :
    (!objects.isNil o) = true := by
  have hne : objects.isNil o ≠ true := fun ho => hj (h.nil_iff.mp ho)
  simpa using hne

/-- Keys that count up make an array. -/
theorem isArray_of_indices {vs : List O} {first : Nat} {entries : List (O × O)}
    (h : List.Forall₂ (fun e entry => objects.IsIndex e.2 entry.1 ∧ entry.2 = e.1)
      (vs.zipIdx first) entries) : objects.isArray first entries = true := by
  induction vs generalizing first entries with
  | nil =>
      rw [List.zipIdx_nil, List.forall₂_nil_left_iff] at h
      rw [h]
      rfl
  | cons v vs ih =>
      rw [List.zipIdx_cons, List.forall₂_cons_left_iff] at h
      obtain ⟨entry, rest, ⟨hkey, -⟩, hrest, rfl⟩ := h
      have hfirst : objects.isIndex first entry.1 = true := hkey
      show (objects.isIndex first entry.1 && objects.isArray (first + 1) rest) = true
      rw [hfirst, ih hrest]
      rfl

/-- One key that is a string makes an object. -/
theorem isArray_of_key {listed : List (Bytes × O)} {entries : List (O × O)}
    (h : List.Forall₂ (fun e entry => objects.IsKey e.1 entry.1 ∧ entry.2 = e.2) listed entries) :
    objects.isArray 1 entries = true ↔ listed = [] := by
  induction h with
  | nil => exact iff_of_true rfl rfl
  | @cons e entry listed entries hentry _ _ =>
      have hfirst : objects.isIndex 1 entry.1 = false := by
        rw [isIndex, hentry.1.1]
        rfl
      apply iff_of_false
      · show ¬ (objects.isIndex 1 entry.1 && objects.isArray 2 entries) = true
        rw [hfirst]
        exact Bool.false_ne_true
      · exact List.cons_ne_nil _ _

end LuaObjects

namespace LuaLaws

open LuaObjects

variable {api : VmApi O} {objects : LuaObjects O} (laws : LuaLaws api objects)

include laws

/-- An array that comes back has no null in it, and its elements come back. -/
theorem filled_of_back_list {items : List Json} {vs : List O}
    (h : List.Forall₂ objects.Mirrors items vs)
    (hback : Back objects.reads ofFloat (array items) (api.list vs)) :
    (array items).Every Filled := by
  obtain ⟨entries, hnode, hentries⟩ := laws.list vs
  obtain ⟨out, depth, hread, heq⟩ := back_iff_exists_succ.mp hback
  rw [reads, LuaObjectToJSON_table_iff hnode] at hread
  split at hread
  · obtain ⟨outs, rfl, houts⟩ := hread
    rw [normal_array, normal_array, array.injEq] at heq
    -- as many elements have come back as there were, so none was nil
    have hlength : ((vs.zipIdx 1).filter fun e => !objects.isNil e.1).length
        = (vs.zipIdx 1).length := by
      have hmap : outs.length = items.length := by simpa using congrArg List.length heq
      rw [hentries.length_eq, houts.length_eq, hmap, h.length_eq, List.length_zipIdx]
    have hsome := List.length_filter_eq_length_iff.mp hlength
    rw [List.filter_eq_self.mpr hsome] at hentries
    have hreads : List.Forall₂ (objects.reads depth) vs outs := by
      have hzip : List.Forall₂ (fun e out => objects.reads depth e.1 out) (vs.zipIdx 1) outs :=
        forall₂_trans (fun e entry out he hout => he.2 ▸ hout) hentries houts
      rw [← List.forall₂_map_left_iff, List.zipIdx_map_fst] at hzip
      exact hzip
    rw [every_array]
    refine ⟨fun j hj => ?_, fun j hj => ?_⟩
    · obtain ⟨v, hv, hmirrors⟩ := forall₂_exists h j hj
      rw [← List.zipIdx_map_fst 1 vs] at hv
      obtain ⟨e, he, rfl⟩ := List.mem_map.mp hv
      exact hmirrors.ne_null (by simpa using hsome e he)
    · have hboth : List.Forall₂ (fun j out => (∃ v, objects.Mirrors j v ∧
          objects.reads depth v out) ∧ out.normal ofFloat = j.normal ofFloat) items outs :=
        List.Forall₂.mp (fun _ _ h h' => ⟨h, h'⟩)
          (forall₂_trans (fun _ v _ hj hout => ⟨v, hj, hout⟩) h hreads) (map_eq_map_iff.mp heq)
      obtain ⟨out, -, ⟨v, hmirrors, hread⟩, hout⟩ := forall₂_exists hboth j hj
      exact hmirrors.back_iff.mp (back_iff_exists.mpr ⟨out, depth, hread, hout⟩)
  · obtain ⟨outs, rfl, -⟩ := hread
    rw [normal_object, normal_array] at heq
    cases heq

/-- An array without nulls whose elements come back comes back. -/
theorem back_list_of_filled {items : List Json} {vs : List O}
    (h : List.Forall₂ objects.Mirrors items vs) (hfilled : (array items).Every Filled) :
    Back objects.reads ofFloat (array items) (api.list vs) := by
  obtain ⟨entries, hnode, hentries⟩ := laws.list vs
  rw [every_array] at hfilled
  have hsome : ∀ e ∈ vs.zipIdx 1, (!objects.isNil e.1) = true := by
    intro e he
    obtain ⟨j, hj, hmirrors⟩ := forall₂_exists h.flip e.1 (List.fst_mem_of_mem_zipIdx he)
    exact hmirrors.not_isNil (hfilled.1 j hj)
  rw [List.filter_eq_self.mpr hsome] at hentries
  have hback : List.Forall₂ (Back objects.reads ofFloat) items vs := by
    have hboth := (List.forall₂_and_left _ _).mpr ⟨hfilled.2, h⟩
    exact hboth.imp fun j v hj => hj.2.back_iff.mpr hj.1
  refine back_array (fun depth outs hreads => ?_) hback
  rw [reads, LuaObjectToJSON_table_iff hnode, if_pos (isArray_of_indices hentries)]
  have hzip : List.Forall₂ (fun e out => objects.reads depth e.1 out) (vs.zipIdx 1) outs := by
    rw [← List.forall₂_map_left_iff, List.zipIdx_map_fst]
    exact hreads
  have hvalues : List.Forall₂ (fun (entry : O × O) (e : O × Nat) => entry.2 = e.1)
      entries (vs.zipIdx 1) := (hentries.imp fun _ _ he => he.2).flip
  exact ⟨outs, rfl, forall₂_trans (fun _ _ _ he hout => he ▸ hout) hvalues hzip⟩

/-- The table that is made of an array. -/
theorem mirrors_list {items : List Json} {vs : List O}
    (h : List.Forall₂ objects.Mirrors items vs) : objects.Mirrors (array items) (api.list vs) := by
  obtain ⟨entries, hnode, -⟩ := laws.list vs
  refine ⟨?_, laws.filled_of_back_list h, laws.back_list_of_filled h⟩
  rw [isNil, hnode]
  exact iff_of_false Bool.false_ne_true (by simp)

/-- An object that comes back has members, none of them null, and these come back. -/
theorem filled_of_back_table {members : List (Bytes × Json)} {es : List (Bytes × O)}
    (ascending : StdMap.Ascending members)
    (h : List.Forall₂ (fun p e => e.1 = p.1 ∧ objects.Mirrors p.2 e.2) members es)
    (hback : Back objects.reads ofFloat (object members) (api.table es)) :
    (object members).Every Filled := by
  have hdistinct := distinct_of_forall₂ ascending.distinct h
  obtain ⟨entries, listed, hnode, hperm, hentries⟩ := laws.table es hdistinct
  obtain ⟨out, depth, hread, heq⟩ := back_iff_exists_succ.mp hback
  rw [reads, LuaObjectToJSON_table_iff hnode] at hread
  split at hread
  · obtain ⟨outs, rfl, -⟩ := hread
    rw [normal_object, normal_array] at heq
    cases heq
  · next harray =>
    obtain ⟨outs, rfl, houts⟩ := hread
    rw [normal_object, normal_object, object.injEq] at heq
    have hreads : List.Forall₂ (EntryReads objects.reads depth) listed outs :=
      forall₂_trans (fun e entry out he hout =>
        ⟨Except.ok.inj (hout.1.symm.trans he.1.2), he.2 ▸ hout.2⟩) hentries houts
    have hlisted : StdMap.Distinct listed :=
      (hperm.pairwise_iff fun hpq he => hpq he.symm).mpr (hdistinct.filter _)
    have hassigned : (outs.foldl (fun m e => StdMap.assign e.1 e.2 m) []).Perm outs :=
      StdMap.foldl_assign_perm (distinct_of_forall₂ hlisted hreads) (by simp)
    -- as many members have come back as there were, so none was nil
    have hlength : (es.filter fun e => !objects.isNil e.2).length = es.length := by
      have hmap := congrArg List.length heq
      rw [List.length_map, List.length_map, hassigned.length_eq] at hmap
      rw [← hperm.length_eq, hreads.length_eq, hmap, h.length_eq]
    have hsome := List.length_filter_eq_length_iff.mp hlength
    rw [List.filter_eq_self.mpr hsome] at hperm
    rw [every_object]
    refine ⟨⟨?_, fun p hp => ?_⟩, fun p hp => ?_⟩
    · rintro rfl
      rw [List.forall₂_nil_left_iff] at h
      rw [h, List.perm_nil] at hperm
      exact harray ((isArray_of_key hentries).mpr hperm)
    · obtain ⟨e, he, -, hmirrors⟩ := forall₂_exists h p hp
      exact hmirrors.ne_null (by simpa using hsome e he)
    · obtain ⟨e, he, hkey, hmirrors⟩ := forall₂_exists h p hp
      obtain ⟨out, hout, hkey', hread⟩ := forall₂_exists hreads e (hperm.mem_iff.mpr he)
      have hmem : (out.1, out.2.normal ofFloat) ∈
          members.map fun q => (q.1, q.2.normal ofFloat) :=
        heq ▸ List.mem_map_of_mem (hassigned.mem_iff.mpr hout)
      obtain ⟨q, hq, hsame⟩ := List.mem_map.mp hmem
      obtain ⟨hfst, hsnd⟩ := Prod.mk.inj hsame
      have hpq : q = p := List.inj_on_of_nodup_map (StdMap.distinct_iff.mp ascending.distinct) hq hp
        (by rw [hfst, hkey', hkey])
      rw [← hpq] at hmirrors ⊢
      exact hmirrors.back_iff.mp (back_iff_exists.mpr ⟨out.2, depth, hread, hsnd.symm⟩)

/-- An object with members, none of them null, comes back if these do. -/
theorem back_table_of_filled {members : List (Bytes × Json)} {es : List (Bytes × O)}
    (ascending : StdMap.Ascending members)
    (h : List.Forall₂ (fun p e => e.1 = p.1 ∧ objects.Mirrors p.2 e.2) members es)
    (hfilled : (object members).Every Filled) :
    Back objects.reads ofFloat (object members) (api.table es) := by
  obtain ⟨entries, listed, hnode, hperm, hentries⟩ :=
    laws.table es (distinct_of_forall₂ ascending.distinct h)
  rw [every_object] at hfilled
  obtain ⟨⟨hmembers, hvalues⟩, hevery⟩ := hfilled
  -- no value is nil, so each entry stays in the table
  have hsome : ∀ e ∈ es, (!objects.isNil e.2) = true := by
    intro e he
    obtain ⟨p, hp, -, hmirrors⟩ := forall₂_exists h.flip e he
    exact hmirrors.not_isNil (hvalues p hp)
  rw [List.filter_eq_self.mpr hsome] at hperm
  have hback : List.Forall₂ (fun p e => e.1 = p.1 ∧ Back objects.reads ofFloat p.2 e.2)
      members es := by
    have hboth := (List.forall₂_and_left _ _).mpr ⟨hevery, h⟩
    exact hboth.imp fun p e hp => ⟨hp.2.1, hp.2.2.back_iff.mpr hp.1⟩
  refine back_object ascending hback hperm fun depth outs hreads => ?_
  -- the first key is a string
  have harray : ¬ objects.isArray 1 entries = true := by
    rw [isArray_of_key hentries]
    rintro rfl
    have hlength := h.length_eq
    rw [List.nil_perm] at hperm
    rw [hperm] at hlength
    exact hmembers (List.length_eq_zero_iff.mp hlength)
  rw [reads, LuaObjectToJSON_table_iff hnode, if_neg harray]
  have hlisted : List.Forall₂ (fun (entry : O × O) (e : Bytes × O) =>
      objects.asString entry.1 = .ok e.1 ∧ entry.2 = e.2) entries listed :=
    (hentries.imp fun _ _ he => ⟨he.1.2, he.2⟩).flip
  exact ⟨outs, rfl, forall₂_trans (fun _ _ _ he hout =>
    ⟨he.1.trans (congrArg Except.ok hout.1.symm), he.2 ▸ hout.2⟩) hlisted hreads⟩

/-- The table that is made of an object. -/
theorem mirrors_table {members : List (Bytes × Json)} {es : List (Bytes × O)}
    (ascending : StdMap.Ascending members)
    (h : List.Forall₂ (fun p e => e.1 = p.1 ∧ objects.Mirrors p.2 e.2) members es) :
    objects.Mirrors (object members) (api.table es) := by
  obtain ⟨entries, listed, hnode, -⟩ := laws.table es (distinct_of_forall₂ ascending.distinct h)
  refine ⟨?_, laws.filled_of_back_table ascending h, laws.back_table_of_filled ascending h⟩
  rw [isNil, hnode]
  exact iff_of_false Bool.false_ne_true (by simp)

omit laws in
/-- A value that is read in one step, and is not nil. -/
theorem mirrors_of_read {j : Json} {o : O} (out : Json) (hscalar : j.Scalar) (hnull : j ≠ null)
    (hnil : objects.isNil o = false) (hread : ∀ depth, objects.reads (depth + 1) o out)
    (heq : out.normal ofFloat = j.normal ofFloat) : objects.Mirrors j o := by
  have hfilled : j.Every Filled := by
    cases j <;> simp_all [Filled, Scalar]
  constructor
  · rw [hnil]
    exact iff_of_false Bool.false_ne_true hnull
  · exact iff_of_true ⟨out, readAs_of_succ hread, heq⟩ hfilled

theorem mirrors_int {j : Json} {n : Int} (hscalar : j.Scalar) (hnull : j ≠ null) (hn : InInt n)
    (hj : (integer n).normal ofFloat = j.normal ofFloat) : objects.Mirrors j (api.int n) := by
  have hnode := laws.int n hn
  refine mirrors_of_read (numberFloat (.ofInt n)) hscalar hnull ?_ (fun depth => ?_) ?_
  · rw [isNil, hnode]
    rfl
  · rw [reads, LuaObjectToJSON, hnode]
  · rw [normal, ofFloat_ofInt (by unfold InInt at hn; omega), ← hj, normal_integer]
    unfold InInt at hn
    omega

theorem mirrors_scalar {j : Json} (hkept : Kept j) (hscalar : j.Scalar) :
    ∃ o, (JSONToLuaObject api).scalar j = .ok o ∧ objects.Mirrors j o := by
  cases j with
  | null =>
      refine ⟨_, rfl, ?_, ?_⟩
      · rw [isNil, laws.nil]
        exact iff_of_true rfl rfl
      · refine iff_of_true ⟨null, readAs_of_succ fun depth => ?_, rfl⟩ (by simp [Filled])
        rw [reads, LuaObjectToJSON, laws.nil]
  | boolean b =>
      refine ⟨_, rfl, mirrors_of_read (Json.boolean b) trivial (by simp) ?_ (fun depth => ?_) rfl⟩
      · rw [isNil, laws.boolean]
        rfl
      · rw [reads, LuaObjectToJSON, laws.boolean]
  | numberInteger n =>
      have hn : InInt n.toInt := hkept.integers
      refine ⟨_, rfl, ?_⟩
      rw [getInt32_integer, (bmod_eq_self_iff _).mpr hn]
      exact laws.mirrors_int trivial (by simp) hn (by rw [integer_of_int64])
  | numberUnsigned n =>
      have hn : InInt n.toNat := hkept.integers
      refine ⟨_, rfl, ?_⟩
      rw [getInt32_unsigned, (bmod_eq_self_iff _).mpr hn]
      exact laws.mirrors_int trivial (by simp) hn (normal_integer_unsigned _ n)
  | numberFloat x =>
      refine ⟨_, rfl, mirrors_of_read (numberFloat x) trivial (by simp) ?_
        (fun depth => ?_) rfl⟩
      · rw [isNil, laws.double]
        rfl
      · rw [reads, LuaObjectToJSON, laws.double]
  | string s =>
      obtain ⟨o, ho, hnode⟩ := laws.string s
      refine ⟨o, ho, mirrors_of_read (Json.string s) trivial (by simp) ?_
        (fun depth => ?_) rfl⟩
      · rw [isNil, hnode]
        rfl
      · rw [reads, LuaObjectToJSON, hnode]
  | binary b st => exact absurd hscalar id
  | array items => exact absurd hscalar id
  | object members => exact absurd hscalar id

/-- What is built from a value mirrors it. -/
theorem mirrors_build {j : Json} (h : j.Every Kept) :
    ∃ o, (JSONToLuaObject api).build j = .ok o ∧ objects.Mirrors j o := by
  refine Converter.exists_build (fun b st h => absurd h.notBinary id)
    (fun j hj => laws.mirrors_scalar hj) (fun items vs _ => laws.mirrors_list)
    (fun members _ p _ => ⟨p.1, rfl⟩)
    (fun members es hj hes => ?_) h
  exact laws.mirrors_table hj.keys (Converter.forall₂_keys (fun p _ => rfl) hes)

end LuaLaws

/-- **Round trip through Lua.** Whatever views and heap there are, a value without binaries is
converted. It is read back, with enough stack, as one that equals it, if and only if no array and
no object in it has a null for an element, and no object in it is empty. -/
theorem LuaObjectToJSON_JSONToLuaObject_iff (api : VmApi O) (objects : LuaObjects O)
    (laws : LuaLaws api objects) (j : JsonValue) (notBinary : j.tree.Every NotBinary)
    (ints : j.tree.Every (Integers InInt)) (m : Margo) (env : ViewId → Env)
    (created : List ViewId) (s : Heap) :
    ∃ o, (convert m env (JSONToLuaObject api) j.tree created s).1 = .ok o ∧
      ((∃ out least, (∀ depth, least ≤ depth → LuaObjectToJSON objects depth o = pure out) ∧
        out.EqNum j.tree) ↔ j.tree.Every Filled) := by
  have hkept : j.tree.Every LuaLaws.Kept := fun n hn =>
    ⟨notBinary n hn, ints n hn, j.wellFormed.keysAscending n hn⟩
  obtain ⟨o, ho, hmirrors⟩ := laws.mirrors_build hkept
  refine ⟨o, ?_, ?_⟩
  · rw [convert_eq_build notBinary created s, ho]
    rfl
  · rw [← hmirrors.back_iff]
    constructor
    · rintro ⟨out, least, hread, heq⟩
      exact ⟨out, ⟨least, hread⟩, heq⟩
    · rintro ⟨out, ⟨least, hread⟩, heq⟩
      exact ⟨out, least, hread, heq⟩

/-! ## A Lua that meets the laws -/

/-- Values as trees; a table lists its entries in the order in which they were assigned. -/
inductive LuaTree where
  | nil
  | boolean (b : Bool)
  | integer (n : Int)
  | float (x : Float64)
  | string (s : Bytes)
  | table (entries : List (LuaTree × LuaTree))
  | userdata (view : ViewId)

namespace LuaTree

def node : LuaTree → LuaNode LuaTree
  | nil => .nil
  | boolean b => .boolean b
  | integer n => .number (.ofInt n)
  | float x => .number x
  | string s => .string s
  | table entries => .table entries
  | userdata _ => .userdata

def objects : LuaObjects LuaTree where
  node := node
  asSize
    | integer n => n.toNat
    | _ => 0
  asString
    | string s => .ok s
    | integer n => .ok (text (toString n))
    | _ => .error (.sol (text "string expected"))

/-- Tables that leave out what is nil. -/
def api : VmApi LuaTree where
  nil := nil
  boolean := boolean
  int := integer
  double := float
  string s := .ok (string s)
  bytes := string
  list vs := table (((vs.zipIdx 1).filter fun e => !objects.isNil e.1).map fun e =>
    (integer e.2, e.1))
  table es := table ((es.filter fun e => !objects.isNil e.2).map fun e => (string e.1, e.2))
  buffer := userdata

/-- A list that is made into entries. -/
theorem forall₂_map {α : Type} {entry : α → LuaTree × LuaTree}
    {R : α → LuaTree × LuaTree → Prop} (h : ∀ a, R a (entry a)) (xs : List α) :
    List.Forall₂ R xs (xs.map entry) :=
  List.forall₂_map_right_iff.mpr (List.forall₂_same.mpr fun a _ => h a)

theorem laws : LuaLaws api objects where
  nil := rfl
  boolean _ := rfl
  int _ _ := rfl
  double _ := rfl
  string s := ⟨string s, rfl, rfl⟩
  list vs := by
    refine ⟨_, rfl, forall₂_map (fun e => ⟨?_, rfl⟩) _⟩
    show (true && (e.2 : Int).toNat == e.2) = true
    simp
  table es _ := ⟨_, _, rfl, List.Perm.refl _, forall₂_map (fun _ => ⟨⟨rfl, rfl⟩, rfl⟩) _⟩

end LuaTree

/-- An empty object and a null in an array come back as an array of one empty array. -/
theorem lua_round_trip_loses :
    ∃ v, (convert (Margo.loopback noName) (fun _ => Env.quiet) (JSONToLuaObject LuaTree.api)
        (array [object [], null]) [] (.empty fun _ => 0)).1 = .ok v ∧
      (∀ depth, 2 ≤ depth →
        LuaObjectToJSON LuaTree.objects depth v = pure (array [array []])) ∧
      ¬ (array [array []]).EqNum (array [object [], null]) := by
  refine ⟨.table [(.integer 1, .table [])], rfl, fun depth hdepth => ?_, ?_⟩
  · exact LuaObjectToJSON_of_le hdepth rfl
  · simp [EqNum, normal_array]

/-- A table with an array, a string and a number in it. -/
def luaSample : JsonValue where
  tree := object [([97], array [boolean false, numberInteger (-7)]), ([98], string [0, 255])]
  wellFormed := .object (by decide)
    (.cons (by simp; decide) (List.pairwise_singleton _ _)) (by simp) (by
      simp only [List.mem_cons, List.not_mem_nil, or_false, forall_eq_or_imp, forall_eq]
      refine ⟨.array (by decide) ?_, .string (by decide)⟩
      simp only [List.mem_cons, List.not_mem_nil, or_false, forall_eq_or_imp, forall_eq]
      exact ⟨.boolean _, .numberInteger _⟩)

theorem lua_round_trip_sample :
    ∃ o, (convert (Margo.loopback noName) (fun _ => Env.quiet) (JSONToLuaObject LuaTree.api)
        luaSample.tree [] (.empty fun _ => 0)).1 = .ok o ∧
      ((∃ out least, (∀ depth, least ≤ depth →
          LuaObjectToJSON LuaTree.objects depth o = pure out) ∧ out.EqNum luaSample.tree) ↔
        luaSample.tree.Every Filled) :=
  LuaObjectToJSON_JSONToLuaObject_iff LuaTree.api LuaTree.objects LuaTree.laws luaSample
    (by simp [luaSample, NotBinary]) (by simp [luaSample, Integers, InInt]) _ _ _ _

end Poesie
