import Poesie.LuaOrder

set_option autoImplicit false

/-! # When a Lua table is an array

The order in which Lua lists the entries of a table decides whether `LuaObjectToJSON` makes an
array of it, and which entries an object has. The order makes no difference to a table whose keys
count up from 1 in no other order, and to one that is no array in any order and has no two
entries of the hash part, of one string form, that look different.
-/

namespace Poesie

open Wire Json

namespace LuaTables

variable {O : Type} {lua : LuaTables O} {objects : LuaObjects O}

/-! ## Sequences -/

/-- The integer that a key is, or 0. -/
def number (lua : LuaTables O) (e : O × O) : Int := (lua.integer? e.1).getD 0

/-- The numbers from 1 on. -/
def upTo (n : Nat) : List Int := (List.range n).map fun (i : Nat) => (i : Int) + 1

theorem upTo_ascends (n : Nat) : (upTo n).Pairwise (· < ·) := by
  rw [upTo, List.pairwise_map]
  refine List.pairwise_lt_range.imp fun hlt => ?_
  omega

namespace IsSequence

variable {entries : List (O × O)} (h : lua.IsSequence entries)
include h

theorem positive {e : O × O} (he : e ∈ entries) :
    ∃ n, lua.integer? e.1 = some n ∧ 0 < n := by
  have hmem : lua.integer? e.1 ∈
      (List.range entries.length).map fun (i : Nat) => some ((i : Int) + 1) :=
    h.mem_iff.mp (List.mem_map.mpr ⟨e, he, rfl⟩)
  obtain ⟨i, -, hi⟩ := List.mem_map.mp hmem
  exact ⟨i + 1, hi.symm, by omega⟩

theorem numbers : (entries.map lua.number).Perm (upTo entries.length) := by
  have hperm := h.map (Option.getD · 0)
  rw [List.map_map, List.map_map] at hperm
  exact hperm

/-- The number of a key is what the key is as a `size_t`. -/
theorem asSize {e : O × O} (he : e ∈ entries) :
    (lua.node e.1).isNumber = true ∧ (lua.asSize e.1 : Int) = lua.number e ∧
      lua.integer? e.1 = some (lua.number e) := by
  obtain ⟨n, hn, hpositive⟩ := h.positive he
  obtain ⟨hnumber, hsize⟩ := lua.size e.1 n hn hpositive
  refine ⟨hnumber, ?_, ?_⟩
  · rw [hsize, number, hn, Option.getD_some]
    omega
  · rw [number, hn, Option.getD_some]

end IsSequence

/-! ## Sequences in order -/

section

variable {t : O} {entries : List (O × O)}

/-- The hash part by ascending keys. -/
def sortedHash (lua : LuaTables O) (t : O) (entries : List (O × O)) : List (O × O) :=
  (entries.drop (lua.held t)).mergeSort fun e e' => lua.number e ≤ lua.number e'

theorem sortedHash_perm : (lua.sortedHash t entries).Perm (entries.drop (lua.held t)) :=
  List.mergeSort_perm _ _

theorem sortedHash_ascends :
    (lua.sortedHash t entries).Pairwise fun e e' => lua.number e ≤ lua.number e' := by
  refine (List.pairwise_mergeSort (fun a b c => ?_) (fun a b => ?_) _).imp fun hle => ?_
  · simp only [decide_eq_true_eq]
    omega
  · simp only [Bool.or_eq_true, decide_eq_true_eq]
    omega
  · simpa using hle

theorem getElem?_upTo {n i : Nat} {x : Int} (h : (upTo n)[i]? = some x) : x = (i : Int) + 1 := by
  rw [upTo, List.getElem?_map] at h
  obtain ⟨i', hi', hx⟩ := Option.map_eq_some_iff.mp h
  obtain ⟨hlt, hget⟩ := List.getElem?_eq_some_iff.mp hi'
  rw [← hx, ← hget, List.getElem_range]

namespace IsSequence

variable (h : lua.IsSequence entries)
include h

/-- An entry that has to come before another one has the smaller number. -/
theorem number_lt {e e' : O × O} (he' : e' ∈ entries)
    (hlt : ∀ n', lua.integer? e'.1 = some n' → 0 < n' →
      ∃ n, lua.integer? e.1 = some n ∧ n < n') : lua.number e < lua.number e' := by
  obtain ⟨n', hn', hpositive⟩ := h.positive he'
  obtain ⟨n, hn, hnn'⟩ := hlt n' hn' hpositive
  rwa [number, number, hn, hn']

theorem numbers_sorted : ((entries.take (lua.held t) ++ lua.sortedHash t entries).map
    lua.number).Perm (upTo entries.length) :=
  ((listed_perm sortedHash_perm).map _).trans h.numbers

theorem ascends (hnode : lua.node t = .table entries) :
    ((entries.take (lua.held t) ++ lua.sortedHash t entries).map lua.number).Pairwise
      (· < ·) := by
  have hdistinct : ((entries.take (lua.held t) ++ lua.sortedHash t entries).map
      lua.number).Nodup :=
    h.numbers_sorted.nodup_iff.mpr ((upTo_ascends _).imp fun hlt => hlt.ne)
  obtain ⟨harray, hhash⟩ := lua.arrayPart t entries hnode
  rw [List.pairwise_map, List.pairwise_append]
  refine ⟨?front, ?back, ?across⟩
  case front =>
    exact harray.imp_of_mem fun {e e'} _ he' hlt => h.number_lt (List.mem_of_mem_take he') hlt
  case back =>
    have hne : (lua.sortedHash t entries).Pairwise fun e e' => lua.number e ≠ lua.number e' := by
      rw [List.map_append] at hdistinct
      exact List.pairwise_map.mp (List.nodup_append.mp hdistinct).2.1
    exact (sortedHash_ascends.and hne).imp fun hboth => lt_of_le_of_ne hboth.1 hboth.2
  case across =>
    intro e he e' he'
    have he' : e' ∈ entries.drop (lua.held t) := sortedHash_perm.mem_iff.mp he'
    exact h.number_lt (List.mem_of_mem_drop he') (hhash e he e' he')

/-- The number at each place, with the hash part sorted. -/
theorem number_sorted (hnode : lua.node t = .table entries) {i : Nat} {e : O × O}
    (he : (entries.take (lua.held t) ++ lua.sortedHash t entries)[i]? = some e) :
    lua.number e = (i : Int) + 1 := by
  -- two ascending lists of the same numbers
  have heq := h.numbers_sorted.eq_of_pairwise (fun a b _ _ hab hba => absurd hba (lt_asymm hab))
    (h.ascends hnode) (upTo_ascends _)
  apply getElem?_upTo (n := entries.length)
  rw [← heq, List.getElem?_map, he, Option.map_some]

end IsSequence

/-- The keys of a sequence count up in the order of their numbers. -/
theorem canCount_of_isSequence (hnode : lua.node t = .table entries) (h : lua.IsSequence entries) :
    lua.CanCount t entries := by
  refine ⟨lua.sortedHash t entries, sortedHash_perm, LuaObjects.isArray_of_isIndex fun i e he => ?_⟩
  have hmem : e ∈ entries := (listed_perm sortedHash_perm).mem_iff.mp (List.mem_of_getElem? he)
  obtain ⟨hnumber, hsize, -⟩ := h.asSize hmem
  have hplace := h.number_sorted hnode he
  rw [LuaObjects.isIndex, hnumber, Bool.true_and, beq_iff_eq]
  omega

end

/-- The element at each place of a sequence is the value at the number of the place. -/
theorem number_of_isArray {entries listed : List (O × O)} (h : lua.IsSequence entries)
    (hperm : listed.Perm entries) (harray : lua.isArray 1 listed = true) {i : Nat} {e : O × O}
    (he : listed[i]? = some e) : lua.integer? e.1 = some ((i : Int) + 1) := by
  have hmem : e ∈ entries := hperm.mem_iff.mp (List.mem_of_getElem? he)
  obtain ⟨-, hsize, hinteger⟩ := h.asSize hmem
  have hindex := LuaObjects.asSize_of_isIndex (LuaObjects.isIndex_of_isArray harray he)
  rw [hinteger, ← hsize, hindex]
  congr 1
  omega

/-! ## When the order does not matter -/

section

variable {t : O} {entries : List (O × O)}

/-- A table is read as an array if and only if its keys count up as they are listed. -/
theorem isArray_of_read {depth : Nat} {j : Json} (hnode : objects.node t = .table entries)
    (hread : LuaObjectToJSON objects depth t = pure j) :
    (∃ items, j = array items) ↔ objects.isArray 1 entries = true := by
  cases depth with
  | zero => cases hread
  | succ depth =>
      rw [LuaObjectToJSON_table_iff hnode] at hread
      split at hread
      · obtain ⟨items, rfl, -⟩ := hread
        exact iff_of_true ⟨items, rfl⟩ ‹_›
      · obtain ⟨members, rfl, -⟩ := hread
        refine iff_of_false ?_ ‹_›
        rintro ⟨items, hitems⟩
        cases hitems

/-- The elements of an array are what the values are read as. -/
theorem element_of_read {depth : Nat} {items : List Json} (hnode : objects.node t = .table entries)
    (hread : LuaObjectToJSON objects depth t = pure (array items)) {i : Nat} {item : Json}
    (hitem : items[i]? = some item) : ∃ e, entries[i]? = some e ∧
      ∃ depth', LuaObjectToJSON objects depth' e.2 = pure item := by
  have harray := (isArray_of_read hnode hread).mp ⟨items, rfl⟩
  cases depth with
  | zero => cases hread
  | succ depth =>
      rw [LuaObjectToJSON_table_iff hnode, if_pos harray] at hread
      obtain ⟨items', hitems', hforall⟩ := hread
      cases hitems'
      obtain ⟨hlt, hget⟩ := List.getElem?_eq_some_iff.mp hitem
      have hlt' : i < entries.length := hforall.length_eq ▸ hlt
      refine ⟨entries[i], List.getElem?_eq_getElem hlt', depth, ?_⟩
      rw [← hget]
      exact hforall.get hlt' hlt

theorem detectsArray_of_settled
    (hsettled : ∀ t' entries', Relation.ReflTransGen lua.Element t t' →
      lua.node t' = .table entries' → lua.Convertible t' → lua.Settled t' entries')
    (hnode : lua.node t = .table entries) : lua.DetectsArray t entries := by
  have hown : ∀ {objects}, lua.Relists objects → ∀ {depth j},
      LuaObjectToJSON objects depth t = pure j → lua.Settled t entries :=
    fun h _ _ hread => hsettled t entries .refl hnode
      (LuaObjects.convertible_iff.mpr ⟨_, _, h.read_back hsettled hread⟩)
  -- whatever the order, the table is read as an array if its keys are 1 to n
  have hsequence : ∀ {objects}, lua.Relists objects → ∀ {depth j},
      LuaObjectToJSON objects depth t = pure j → ∃ listed, objects.node t = .table listed ∧
        listed.Perm entries ∧ (lua.isArray 1 listed = true ↔ lua.IsSequence entries) := by
    intro objects h depth j hread
    obtain ⟨hash, hhash, hlisted⟩ := h.table t entries hnode
    refine ⟨_, hlisted, listed_perm hhash, ?_⟩
    obtain ⟨hsequence, -⟩ := hown h hread
    constructor
    · exact fun harray => (hsequence ⟨hash, hhash, harray⟩).1
    · intro hsequence'
      obtain ⟨hash', hhash', harray⟩ := canCount_of_isSequence hnode hsequence'
      have hshort := (hsequence ⟨hash', hhash', harray⟩).2
      rwa [perm_eq_of_short hhash hshort, ← perm_eq_of_short hhash' hshort]
  constructor
  case same =>
    intro objects objects' h h' depth j hread
    exact ⟨depth, h'.read hsettled (h.read_back hsettled hread)⟩
  case array_iff =>
    intro objects h depth j hread
    obtain ⟨listed, hlisted, -, hiff⟩ := hsequence h hread
    rw [isArray_of_read hlisted hread, h.isArray, hiff]
  case element =>
    intro objects h depth items hread i item hitem
    obtain ⟨listed, hlisted, hperm, hiff⟩ := hsequence h hread
    have harray := (isArray_of_read hlisted hread).mp ⟨items, rfl⟩
    rw [h.isArray] at harray
    obtain ⟨e, he, hvalue⟩ := element_of_read hlisted hread hitem
    exact ⟨e, hperm.mem_iff.mp (List.mem_of_getElem? he),
      number_of_isArray (hiff.mp harray) hperm harray he, hvalue⟩

/-! ## When it does -/

/-- A table that is converted in some order is so in a given one. -/
theorem read_listing (hnode : lua.node t = .table entries) (hconvertible : lua.Convertible t)
    {hash : List (O × O)} (hhash : hash.Perm (entries.drop (lua.held t))) :
    ∃ depth j,
      LuaObjectToJSON (lua.listing t (entries.take (lua.held t) ++ hash)) depth t = pure j := by
  obtain ⟨depth, j, hread⟩ := LuaObjects.convertible_iff.mp hconvertible
  obtain ⟨j', hread'⟩ := (relists_refl lua).converts (relists_listing hnode hhash) hread
  exact ⟨depth, j', hread'⟩

theorem sequence_of_detects (hnode : lua.node t = .table entries)
    (hconvertible : lua.Convertible t) (h : lua.DetectsArray t entries)
    (hcount : lua.CanCount t entries) :
    lua.IsSequence entries ∧ (entries.drop (lua.held t)).length ≤ 1 := by
  obtain ⟨hash, hhash, harray⟩ := hcount
  obtain ⟨depth, j, hread⟩ := read_listing hnode hconvertible hhash
  have hrelists := relists_listing hnode hhash
  have hitems : ∃ items, j = array items :=
    (isArray_of_read (node_listing lua t _) hread).mpr ((hrelists.isArray 1 _).trans harray)
  refine ⟨(h.array_iff _ hrelists depth j hread).mp hitems, ?_⟩
  rw [← hhash.length_eq]
  by_contra hlong
  match hash, hlong with
  | x :: y :: rest, _ =>
      -- the other way round they are no array
      have hswap : (y :: x :: rest).Perm (entries.drop (lua.held t)) :=
        (List.Perm.swap x y rest).trans hhash
      obtain ⟨depth', hread'⟩ := h.same _ _ hrelists (relists_listing hnode hswap) depth j hread
      have harray' := (isArray_of_read (node_listing lua t _) hread').mp hitems
      have hswapped : (lua.listing t (entries.take (lua.held t) ++ y :: x :: rest)).isArray 1
          (entries.take (lua.held t) ++ y :: x :: rest) =
            lua.isArray 1 (entries.take (lua.held t) ++ y :: x :: rest) :=
        (relists_listing hnode hswap).isArray 1 _
      rw [hswapped, LuaObjects.isArray_append, Bool.and_eq_true] at harray'
      rw [LuaObjects.isArray_append, Bool.and_eq_true] at harray
      rw [LuaObjects.not_isArray_swap harray.2] at harray'
      exact Bool.false_ne_true harray'.2
  | [], hlong => exact hlong (by simp)
  | [x], hlong => exact hlong (by simp)

/-- The member of the entry that is listed last. -/
theorem last_member {depth : Nat} {form : Bytes} {listed : List (O × O)} {e : O × O} {j : Json}
    (hnode : objects.node t = .table (listed ++ [e])) (hform : objects.asString e.1 = .ok form)
    (hobject : ¬ objects.isArray 1 (listed ++ [e]) = true)
    (hread : LuaObjectToJSON objects depth t = pure j) :
    ∃ members item, j = object members ∧ members.lookup form = some item ∧
      ∃ depth', LuaObjectToJSON objects depth' e.2 = pure item := by
  cases depth with
  | zero => cases hread
  | succ depth =>
      rw [LuaObjectToJSON_table_iff hnode, if_neg hobject] at hread
      obtain ⟨members, rfl, hmembers⟩ := hread
      have hlast := valueAt_lookup hmembers form
      rw [valueAt_concat hform] at hlast
      cases hlookup : (members.foldl (fun m e => StdMap.assign e.1 e.2 m) []).lookup form with
      | none =>
          rw [hlookup] at hlast
          cases hlast
      | some item =>
          rw [hlookup, Option.rel_some_some] at hlast
          exact ⟨_, item, rfl, hlookup, depth, hlast⟩

theorem alike_of_detects (hnode : lua.node t = .table entries) (hconvertible : lua.Convertible t)
    (hbase : ∀ objects, lua.Relists objects → ∀ e ∈ entries, ∀ depth item,
      LuaObjectToJSON objects depth e.2 = pure item →
        ∃ depth', LuaObjectToJSON lua.toLuaObjects depth' e.2 = pure item)
    (h : lua.DetectsArray t entries) (hcount : ¬ lua.CanCount t entries) {e e' : O × O}
    (he : e ∈ entries.drop (lua.held t)) (he' : e' ∈ entries.drop (lua.held t))
    (hforms : lua.asString e.1 = lua.asString e'.1) : lua.Alike e.2 e'.2 := by
  have hobject : ∀ hash, hash.Perm (entries.drop (lua.held t)) →
      ¬ lua.isArray 1 (entries.take (lua.held t) ++ hash) = true := fun hash hhash harray =>
    hcount ⟨hash, hhash, harray⟩
  obtain ⟨form, hform⟩ : ∃ form, lua.asString e.1 = .ok form := by
    obtain ⟨depth, j, hread⟩ := LuaObjects.convertible_iff.mp hconvertible
    obtain ⟨member, hform, -⟩ := ((relists_refl lua).converts_table_iff hnode).mp
      ⟨j, LuaObjectToJSON_succ hread⟩ e (List.mem_of_mem_drop he)
    exact ⟨member.1, hform⟩
  -- each of the two is listed last in some order
  have hlast : ∀ e ∈ entries.drop (lua.held t), lua.asString e.1 = .ok form →
      ∃ objects depth members item, lua.Relists objects ∧
        LuaObjectToJSON objects depth t = pure (object members) ∧
        members.lookup form = some item ∧
        ∃ depth', LuaObjectToJSON lua.toLuaObjects depth' e.2 = pure item := by
    intro e he hform
    obtain ⟨before, after, heq⟩ := List.append_of_mem he
    have hhash : (before ++ after ++ [e]).Perm (entries.drop (lua.held t)) := by
      rw [heq]
      calc (before ++ after ++ [e]).Perm (e :: (before ++ after)) := List.perm_append_singleton _ _
        _ |>.Perm (before ++ e :: after) := List.perm_middle.symm
    obtain ⟨depth, j, hread⟩ := read_listing hnode hconvertible hhash
    have hrelists := relists_listing hnode hhash
    have hobject' := hobject _ hhash
    rw [← List.append_assoc] at hread hrelists hobject'
    rw [← hrelists.isArray] at hobject'
    obtain ⟨members, item, rfl, hlookup, depth', hitem⟩ :=
      last_member (node_listing lua t _) (hrelists.asString ▸ hform) hobject' hread
    exact ⟨_, depth, members, item, hrelists, hread, hlookup,
      hbase _ hrelists e (List.mem_of_mem_drop he) depth' item hitem⟩
  obtain ⟨objects, depth, members, item, hrelists, hread, hlookup, d, hitem⟩ := hlast e he hform
  obtain ⟨objects', depth', members', item', hrelists', hread', hlookup', d', hitem'⟩ :=
    hlast e' he' (hforms ▸ hform)
  have hitems : item = item' := by
    obtain ⟨depth'', hsame⟩ := h.same _ _ hrelists hrelists' depth _ hread
    have heq := LuaObjectToJSON_of_le (Nat.le_max_left depth'' depth') hsame
    rw [LuaObjectToJSON_of_le (Nat.le_max_right depth'' depth') hread', Limited.pure_inj,
      object.injEq] at heq
    rw [heq, hlookup] at hlookup'
    exact Option.some.inj hlookup'
  exact (alike_iff (LuaObjectToJSON_of_le (Nat.le_max_left d d') hitem)
    (LuaObjectToJSON_of_le (Nat.le_max_right d d') hitem')).mpr hitems

theorem settled_of_detects
    (hdetects : ∀ t' entries', Relation.ReflTransGen lua.Element t t' →
      lua.node t' = .table entries' → lua.DetectsArray t' entries')
    (hnode : lua.node t = .table entries) (hconvertible : lua.Convertible t) :
    lua.Settled t entries := by
  have hown := hdetects t entries .refl hnode
  refine ⟨sequence_of_detects hnode hconvertible hown, fun hcount e he e' he' hforms => ?_⟩
  refine alike_of_detects hnode hconvertible (fun objects h e he depth item hitem => ?_) hown
    hcount he he' hforms
  rcases (lua.node e.2).table_or_plain with ⟨entries', hnode'⟩ | ⟨j, hplain⟩
  · have helement : lua.Element t e.2 := ⟨entries, hnode, e.1, he⟩
    exact (hdetects e.2 entries' (.single helement) hnode').same _ _ h (relists_refl lua) depth item
      hitem
  · cases depth with
    | zero => cases hitem
    | succ depth =>
        rw [LuaObjectToJSON_plain_iff (h.plain_read hplain)] at hitem
        exact ⟨1, (LuaObjectToJSON_plain_iff hplain).mpr hitem⟩

end

end LuaTables

/-- **Arrays and the order of entries.** In every order of their entries, the tables in a value
are read as the same JSON, and as arrays exactly if their keys are the integers from 1 on, if and
only if each of them that is converted meets one of two conditions. If its keys can count up from 1
in some order, they are these integers, and no two entries are in the hash part. Otherwise entries
of the hash part with one string form have values that look alike. -/
theorem array_detection_iff {O : Type} (lua : LuaTables O) (o : O) :
    (∀ t entries, Relation.ReflTransGen lua.Element o t → lua.node t = .table entries →
      lua.DetectsArray t entries) ↔
    ∀ t entries, Relation.ReflTransGen lua.Element o t → lua.node t = .table entries →
      lua.Convertible t → lua.Settled t entries := by
  constructor
  · intro hdetects t entries ht hnode hconvertible
    exact LuaTables.settled_of_detects (fun t' entries' ht' => hdetects t' entries' (ht.trans ht'))
      hnode hconvertible
  · intro hsettled t entries ht hnode
    exact LuaTables.detectsArray_of_settled
      (fun t' entries' ht' => hsettled t' entries' (ht.trans ht')) hnode

/-- The table `{[2]=20, [1]=10}`, all of it in the hash part, and integers. -/
def twoThenOne : LuaTables (Option Int) where
  node
    | none => .table [(some 2, some 20), (some 1, some 10)]
    | some n => .number (.ofInt n)
  asSize
    | none => 0
    | some n => n.toNat
  asString
    | none => .error (.sol (text "string expected"))
    | some n => .ok (text (toString n))
  held _ := 0
  integer? := id
  size k n hk _ := by
    obtain rfl : k = some n := hk
    exact ⟨rfl, rfl⟩
  form k hk := by
    cases k with
    | none => cases hk
    | some n => exact ⟨_, rfl⟩
  arrayPart t entries _ := by simp

/-- It is read as an object. -/
theorem two_then_one_is_no_array :
    ¬ ∀ t entries, Relation.ReflTransGen twoThenOne.Element none t →
      twoThenOne.node t = .table entries → twoThenOne.DetectsArray t entries := by
  intro hdetects
  have hread : LuaObjectToJSON twoThenOne.toLuaObjects 2 none =
      pure (object [(text "1", numberFloat (.ofInt 10)), (text "2", numberFloat (.ofInt 20))]) :=
    rfl
  have hsequence : twoThenOne.IsSequence [(some 2, some 20), (some 1, some 10)] :=
    List.Perm.swap (some 1) (some 2) []
  obtain ⟨items, hitems⟩ := ((hdetects none _ .refl rfl).array_iff twoThenOne.toLuaObjects
    (LuaTables.relists_refl twoThenOne) 2 _ hread).mpr hsequence
  cases hitems

end Poesie
