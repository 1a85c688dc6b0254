import Poesie.LuaAlike
import Poesie.ReadBack
import Poesie.ValueGraphs

set_option autoImplicit false

/-! # The order of the entries of a Lua table

Lua lists the entries in the array part of a table by their index, and behind them those in the
hash part, in an order that it leaves open. `LuaObjectToJSON` takes a table for an array if the
keys count up as they are listed, and of two entries with one string form it keeps the one that is
listed last.
-/

namespace Poesie

open Wire Json

/-- The values of a Lua state, with what Lua and sol2 guarantee of keys. -/
structure LuaTables (O : Type) extends LuaObjects O where
  /-- How many entries are in the array part of a table. -/
  held : O → Nat
  /-- The integer that a key is. A float key with an integral value has become one. -/
  integer? : O → Option Int
  size : ∀ k n, integer? k = some n → 0 < n → (node k).isNumber = true ∧ asSize k = n.toNat
  form : ∀ k, (node k).isNumber = true → ∃ s, asString k = .ok s
  /-- The indices in the array part ascend. Positive integers in the hash part are larger. -/
  arrayPart : ∀ t entries, node t = .table entries →
    (entries.take (held t)).Pairwise (fun e e' => ∀ n', integer? e'.1 = some n' → 0 < n' →
      ∃ n, integer? e.1 = some n ∧ n < n') ∧
    ∀ e ∈ entries.take (held t), ∀ e' ∈ entries.drop (held t), ∀ n',
      integer? e'.1 = some n' → 0 < n' → ∃ n, integer? e.1 = some n ∧ n < n'

namespace LuaTables

variable {O : Type} (lua : LuaTables O)

/-- The same values, with the hash parts of the tables in other orders. -/
structure Relists (objects : LuaObjects O) : Prop where
  asSize : objects.asSize = lua.asSize
  asString : objects.asString = lua.asString
  table : ∀ t entries, lua.node t = .table entries → ∃ hash,
    hash.Perm (entries.drop (lua.held t)) ∧
      objects.node t = .table (entries.take (lua.held t) ++ hash)
  plain : ∀ o, (∀ entries, lua.node o ≠ .table entries) → objects.node o = lua.node o

/-- The keys are the integers from 1 to the number of entries. -/
def IsSequence (entries : List (O × O)) : Prop :=
  (entries.map fun e => lua.integer? e.1).Perm
    ((List.range entries.length).map fun (i : Nat) => some ((i : Int) + 1))

/-- What should hold of a table that is converted, in every order of the entries. -/
structure DetectsArray (t : O) (entries : List (O × O)) : Prop where
  same : ∀ objects objects', lua.Relists objects → lua.Relists objects' → ∀ depth j,
    LuaObjectToJSON objects depth t = pure j → ∃ depth', LuaObjectToJSON objects' depth' t = pure j
  array_iff : ∀ objects, lua.Relists objects → ∀ depth j,
    LuaObjectToJSON objects depth t = pure j → ((∃ items, j = array items) ↔ lua.IsSequence entries)
  element : ∀ objects, lua.Relists objects → ∀ depth items,
    LuaObjectToJSON objects depth t = pure (array items) → ∀ (i : Nat) item,
      items[i]? = some item → ∃ e ∈ entries, lua.integer? e.1 = some ((i : Int) + 1) ∧
        ∃ depth', LuaObjectToJSON objects depth' e.2 = pure item

/-- In some order the keys count up from 1, as numbers that are rounded. -/
def CanCount (t : O) (entries : List (O × O)) : Prop :=
  ∃ hash, hash.Perm (entries.drop (lua.held t)) ∧
    lua.isArray 1 (entries.take (lua.held t) ++ hash) = true

/-- The order of the entries does not matter. -/
structure Settled (t : O) (entries : List (O × O)) : Prop where
  sequence : lua.CanCount t entries →
    lua.IsSequence entries ∧ (entries.drop (lua.held t)).length ≤ 1
  alike : ¬ lua.CanCount t entries → ∀ e ∈ entries.drop (lua.held t),
    ∀ e' ∈ entries.drop (lua.held t), lua.asString e.1 = lua.asString e'.1 → lua.Alike e.2 e'.2

end LuaTables

/-! ## Counting keys -/

namespace LuaObjects

variable {O : Type} {objects : LuaObjects O}

theorem isArray_append (n : Nat) (xs ys : List (O × O)) :
    objects.isArray n (xs ++ ys) =
      (objects.isArray n xs && objects.isArray (n + xs.length) ys) := by
  induction xs generalizing n with
  | nil => rfl
  | cons x xs ih =>
      rw [List.cons_append, isArray, isArray, ih, Bool.and_assoc, List.length_cons]
      congr 3
      omega

/-- The key at each place is the number of the place. -/
theorem isIndex_of_isArray {n i : Nat} {entries : List (O × O)} {e : O × O}
    (h : objects.isArray n entries = true) (he : entries[i]? = some e) :
    objects.isIndex (n + i) e.1 = true := by
  induction entries generalizing n i with
  | nil => cases he
  | cons x rest ih =>
      rw [isArray, Bool.and_eq_true] at h
      cases i with
      | zero =>
          cases he
          exact h.1
      | succ i =>
          have hrest := ih h.2 (by simpa using he)
          rwa [show n + 1 + i = n + (i + 1) by omega] at hrest

theorem isArray_of_isIndex {n : Nat} {entries : List (O × O)}
    (h : ∀ i e, entries[i]? = some e → objects.isIndex (n + i) e.1 = true) :
    objects.isArray n entries = true := by
  induction entries generalizing n with
  | nil => rfl
  | cons x rest ih =>
      rw [isArray, Bool.and_eq_true]
      refine ⟨h 0 x rfl, ih fun i e he => ?_⟩
      have hnext := h (i + 1) e (by simpa using he)
      rwa [show n + (i + 1) = n + 1 + i by omega] at hnext

theorem asSize_of_isIndex {n : Nat} {key : O} (h : objects.isIndex n key = true) :
    objects.asSize key = n := by
  rw [isIndex, Bool.and_eq_true] at h
  exact beq_iff_eq.mp h.2

/-- Two entries that follow one another do not count up the other way round. -/
theorem not_isArray_swap {n : Nat} {x y : O × O} {rest : List (O × O)}
    (h : objects.isArray n (x :: y :: rest) = true) :
    objects.isArray n (y :: x :: rest) = false := by
  have hy : objects.asSize y.1 = n + 1 := asSize_of_isIndex (isIndex_of_isArray h (i := 1) rfl)
  rw [Bool.eq_false_iff]
  intro hswap
  have hy' : objects.asSize y.1 = n + 0 := asSize_of_isIndex (isIndex_of_isArray hswap rfl)
  omega

end LuaObjects

/-! ## Relisted tables -/

namespace LuaTables

variable {O : Type} {lua : LuaTables O} {objects objects' : LuaObjects O}

theorem relists_refl (lua : LuaTables O) : lua.Relists lua.toLuaObjects where
  asSize := rfl
  asString := rfl
  table t entries hnode := ⟨_, List.Perm.refl _, by rw [List.take_append_drop, hnode]⟩
  plain _ _ := rfl

open Classical in
/-- The values with one table relisted. -/
noncomputable def listing (lua : LuaTables O) (t : O) (entries : List (O × O)) : LuaObjects O :=
  { lua.toLuaObjects with node := fun o => if o = t then .table entries else lua.node o }

theorem relists_listing {t : O} {entries hash : List (O × O)} (hnode : lua.node t = .table entries)
    (hhash : hash.Perm (entries.drop (lua.held t))) :
    lua.Relists (lua.listing t (entries.take (lua.held t) ++ hash)) where
  asSize := rfl
  asString := rfl
  table t' entries' hnode' := by
    by_cases heq : t' = t
    · subst heq
      rw [hnode, LuaNode.table.injEq] at hnode'
      subst hnode'
      exact ⟨hash, hhash, if_pos rfl⟩
    · obtain ⟨hash', hhash', hlisted⟩ := (relists_refl lua).table t' entries' hnode'
      exact ⟨hash', hhash', (if_neg heq).trans hlisted⟩
  plain o hplain := if_neg fun (heq : o = t) => hplain entries (heq ▸ hnode)

theorem node_listing (lua : LuaTables O) (t : O) (entries : List (O × O)) :
    (lua.listing t entries).node t = .table entries := if_pos rfl

namespace Relists

variable (h : lua.Relists objects)
include h

theorem isNumber (key : O) : (objects.node key).isNumber = (lua.node key).isNumber := by
  rcases (lua.node key).table_or_plain with ⟨entries, hnode⟩ | ⟨j, hplain⟩
  · obtain ⟨hash, -, hlisted⟩ := h.table key entries hnode
    rw [hlisted, hnode]
    rfl
  · rw [h.plain key (LuaNode.ne_table_of_plain hplain)]

theorem isArray (n : Nat) (entries : List (O × O)) :
    objects.isArray n entries = lua.isArray n entries := by
  induction entries generalizing n with
  | nil => rfl
  | cons e rest ih =>
      rw [LuaObjects.isArray, LuaObjects.isArray, LuaObjects.isIndex, LuaObjects.isIndex,
        h.isNumber, h.asSize, ih]

theorem valueAt (form : Bytes) (entries : List (O × O)) :
    objects.valueAt form entries = lua.valueAt form entries := by
  unfold LuaObjects.valueAt LuaObjects.spelled
  rw [h.asString]

theorem plain_read {o : O} {j : Json} (hplain : (lua.node o).plain = some j) :
    (objects.node o).plain = some j := by
  rw [h.plain o (LuaNode.ne_table_of_plain hplain), hplain]

/-- A key that counts has a string form. -/
theorem form_of_isArray {n : Nat} {entries : List (O × O)} (harray : lua.isArray n entries = true)
    {e : O × O} (he : e ∈ entries) : ∃ s, objects.asString e.1 = .ok s := by
  obtain ⟨i, hi⟩ := List.mem_iff_getElem?.mp he
  have hindex := LuaObjects.isIndex_of_isArray harray hi
  rw [LuaObjects.isIndex, Bool.and_eq_true] at hindex
  rw [h.asString]
  exact lua.form e.1 hindex.1

end Relists

/-! ## Conversion in another order -/

theorem listed_perm {t : O} {entries hash : List (O × O)}
    (hhash : hash.Perm (entries.drop (lua.held t))) :
    (entries.take (lua.held t) ++ hash).Perm entries := by
  have hperm := hhash.append_left (entries.take (lua.held t))
  rwa [List.take_append_drop] at hperm

/-- A table is converted if and only if each of its entries could be made a member. -/
theorem Relists.converts_table_iff (h : lua.Relists objects) {depth : Nat} {t : O}
    {listed : List (O × O)} (hlisted : objects.node t = .table listed) :
    (∃ j, LuaObjectToJSON objects (depth + 1) t = pure j) ↔
      ∀ e ∈ listed, ∃ member, MemberRead objects depth e member := by
  simp only [LuaObjectToJSON_table_iff hlisted]
  split
  · next harray =>
      -- no string form is asked for here, but keys that count have one
      rw [h.isArray] at harray
      constructor
      · rintro ⟨j, items, rfl, hitems⟩ e he
        obtain ⟨item, -, hitem⟩ := forall₂_exists hitems e he
        obtain ⟨s, hs⟩ := h.form_of_isArray harray he
        exact ⟨(s, item), hs, hitem⟩
      · intro hmember
        have hvalue : ∀ e ∈ listed, ∃ item, LuaObjectToJSON objects depth e.2 = pure item := by
          intro e he
          obtain ⟨member, -, hitem⟩ := hmember e he
          exact ⟨member.2, hitem⟩
        obtain ⟨items, hitems⟩ := exists_forall₂ hvalue
        exact ⟨_, items, rfl, hitems⟩
  · constructor
    · rintro ⟨j, members, rfl, hmembers⟩ e he
      obtain ⟨member, -, hmember⟩ := forall₂_exists hmembers e he
      exact ⟨member, hmember⟩
    · intro hmember
      obtain ⟨members, hmembers⟩ := exists_forall₂ hmember
      exact ⟨_, members, rfl, hmembers⟩

/-- A value that is converted in one order is converted in every order. -/
theorem Relists.converts (h : lua.Relists objects) (h' : lua.Relists objects') {depth : Nat}
    {o : O} {j : Json} (hread : LuaObjectToJSON objects depth o = pure j) :
    ∃ j', LuaObjectToJSON objects' depth o = pure j' := by
  induction depth generalizing o j with
  | zero => cases hread
  | succ depth ih =>
      rcases (lua.node o).table_or_plain with ⟨entries, hnode⟩ | ⟨j₀, hplain⟩
      · obtain ⟨hash, hhash, hlisted⟩ := h.table o entries hnode
        obtain ⟨hash', hhash', hlisted'⟩ := h'.table o entries hnode
        have hmember := (h.converts_table_iff hlisted).mp ⟨j, hread⟩
        refine (h'.converts_table_iff hlisted').mpr fun e he => ?_
        -- both orders have the same entries
        have he : e ∈ entries := (listed_perm hhash').mem_iff.mp he
        obtain ⟨member, hform, hitem⟩ := hmember e ((listed_perm hhash).mem_iff.mpr he)
        obtain ⟨item, hitem'⟩ := ih hitem
        rw [h.asString, ← h'.asString] at hform
        exact ⟨(member.1, item), hform, hitem'⟩
      · exact ⟨j₀, (LuaObjectToJSON_plain_iff (h'.plain_read hplain)).mpr rfl⟩

/-- The last entries of a form, in two orders: the same one of the array part, or any two of the
hash part. -/
theorem valueAt_perm (objects : LuaObjects O) (front : List (O × O)) {back back' : List (O × O)}
    (h : back'.Perm back) (form : Bytes) :
    objects.valueAt form (front ++ back') = objects.valueAt form (front ++ back) ∨
      ∃ e ∈ back, ∃ e' ∈ back, objects.asString e.1 = .ok form ∧ objects.asString e'.1 = .ok form ∧
        objects.valueAt form (front ++ back) = some e.2 ∧
        objects.valueAt form (front ++ back') = some e'.2 := by
  have hspelled : ∀ key, objects.spelled form key = true → objects.asString key = .ok form := by
    intro key hkey
    rw [LuaObjects.spelled] at hkey
    cases hs : objects.asString key with
    | error e => rw [hs] at hkey; cases hkey
    | ok s =>
        rw [hs] at hkey
        rw [beq_iff_eq.mp hkey]
  simp only [LuaObjects.valueAt, List.reverse_append, List.find?_append]
  -- the last entry with that form wins, and only the order behind the front changes
  cases hfound : back.reverse.find? fun e => objects.spelled form e.1 with
  | none =>
      have hnone : back'.reverse.find? (fun e => objects.spelled form e.1) = none := by
        rw [List.find?_eq_none] at hfound ⊢
        intro e he
        exact hfound e (by simpa using h.mem_iff.mp (by simpa using he))
      rw [hnone]
      exact .inl rfl
  | some e =>
      have he : e ∈ back := by simpa using List.mem_of_find?_eq_some hfound
      have hform := List.find?_some hfound
      cases hfound' : back'.reverse.find? fun e => objects.spelled form e.1 with
      | none =>
          rw [List.find?_eq_none] at hfound'
          exact absurd hform (hfound' e (by simpa using h.mem_iff.mpr he))
      | some e' =>
          have he' : e' ∈ back := h.mem_iff.mp (by simpa using List.mem_of_find?_eq_some hfound')
          have hform' := List.find?_some hfound'
          exact .inr ⟨e, he, e', he', hspelled _ hform, hspelled _ hform', rfl, rfl⟩

/-- The value of the entry that is listed last. -/
theorem valueAt_concat {objects : LuaObjects O} {entries : List (O × O)} {e : O × O} {form : Bytes}
    (h : objects.asString e.1 = .ok form) :
    objects.valueAt form (entries ++ [e]) = some e.2 := by
  rw [LuaObjects.valueAt, List.reverse_concat, List.find?_cons, spelled_of_form h, beq_self_eq_true]
  rfl

theorem mem_of_valueAt {objects : LuaObjects O} {entries : List (O × O)} {form : Bytes} {v : O}
    (h : objects.valueAt form entries = some v) : ∃ e ∈ entries, e.2 = v := by
  obtain ⟨e, hfound, hv⟩ := Option.map_eq_some_iff.mp h
  exact ⟨e, by simpa using List.mem_of_find?_eq_some hfound, hv⟩

theorem perm_eq_of_short {α : Type} {xs ys : List α} (h : xs.Perm ys) (hshort : ys.length ≤ 1) :
    xs = ys := by
  match ys, hshort with
  | [], _ => exact h.eq_nil
  | [y], _ => exact List.perm_singleton.mp h

section

variable {depth : Nat} {o : O} {entries hash : List (O × O)} {j : Json}

/-- A table that is listed in the same order is read as the same if its values are. -/
theorem Relists.read_same (h : lua.Relists objects) (hnode : lua.node o = .table entries)
    (hlisted : objects.node o = .table entries)
    (hvalue : ∀ e ∈ entries, ∀ item, LuaObjectToJSON lua.toLuaObjects depth e.2 = pure item →
      LuaObjectToJSON objects depth e.2 = pure item)
    (hread : LuaObjectToJSON lua.toLuaObjects (depth + 1) o = pure j) :
    LuaObjectToJSON objects (depth + 1) o = pure j := by
  rw [LuaObjectToJSON_table_iff hnode] at hread
  rw [LuaObjectToJSON_table_iff hlisted, h.isArray]
  split at hread
  · rw [if_pos ‹_›]
    obtain ⟨items, hj, hitems⟩ := hread
    refine ⟨items, hj, ?_⟩
    exact ((List.forall₂_and_left _ _).mpr ⟨fun e he => he, hitems⟩).imp fun e item hboth =>
      hvalue e hboth.1 item hboth.2
  · rw [if_neg ‹_›]
    obtain ⟨members, hj, hmembers⟩ := hread
    refine ⟨members, hj, ?_⟩
    refine ((List.forall₂_and_left _ _).mpr ⟨fun e he => he, hmembers⟩).imp fun e m hboth => ?_
    exact ⟨h.asString ▸ hboth.2.1, hvalue e hboth.1 m.2 hboth.2.2⟩

/-- The last entries of one form, in the two orders, are read as the same if those of the hash part
look alike. -/
theorem Relists.last_read (h : lua.Relists objects)
    (hhash : hash.Perm (entries.drop (lua.held o)))
    (halike : ∀ e ∈ entries.drop (lua.held o), ∀ e' ∈ entries.drop (lua.held o),
      lua.asString e.1 = lua.asString e'.1 → lua.Alike e.2 e'.2)
    (hitem : ∀ e ∈ entries, ∃ item, LuaObjectToJSON objects depth e.2 = pure item ∧
      LuaObjectToJSON lua.toLuaObjects depth e.2 = pure item) (form : Bytes) :
    Option.Rel (fun v v' => ∃ item, LuaObjectToJSON objects depth v = pure item ∧
        LuaObjectToJSON lua.toLuaObjects depth v' = pure item)
      (objects.valueAt form (entries.take (lua.held o) ++ hash)) (lua.valueAt form entries) := by
  have hlast := valueAt_perm lua.toLuaObjects (entries.take (lua.held o)) hhash form
  rw [List.take_append_drop] at hlast
  rw [h.valueAt]
  rcases hlast with heq | ⟨e, he, e', he', hform, hform', hlast, hlast'⟩
  · -- the same entry is last in both orders
    rw [heq]
    cases hfound : lua.valueAt form entries with
    | none => exact .none
    | some v =>
        obtain ⟨e, he, rfl⟩ := mem_of_valueAt hfound
        exact .some (hitem e he)
  · -- two entries of the hash part, which look alike
    rw [hlast, hlast']
    obtain ⟨item, -, hread⟩ := hitem e (List.mem_of_mem_drop he)
    obtain ⟨item', hread'', hread'⟩ := hitem e' (List.mem_of_mem_drop he')
    have heq : item' = item := (alike_iff hread' hread).mp
      (halike e' he' e he (hform'.trans hform.symm))
    rw [heq] at hread''
    exact .some ⟨item, hread'', hread⟩

/-- A table that is an array in no order is read as the same in every order, if its values are and
those of the hash part with one string form look alike. -/
theorem Relists.read_object (h : lua.Relists objects) (hnode : lua.node o = .table entries)
    (hhash : hash.Perm (entries.drop (lua.held o)))
    (hlisted : objects.node o = .table (entries.take (lua.held o) ++ hash))
    (hcount : ¬ lua.CanCount o entries)
    (halike : ∀ e ∈ entries.drop (lua.held o), ∀ e' ∈ entries.drop (lua.held o),
      lua.asString e.1 = lua.asString e'.1 → lua.Alike e.2 e'.2)
    (hvalue : ∀ e ∈ entries, ∀ item, LuaObjectToJSON lua.toLuaObjects depth e.2 = pure item →
      LuaObjectToJSON objects depth e.2 = pure item)
    (hread : LuaObjectToJSON lua.toLuaObjects (depth + 1) o = pure j) :
    LuaObjectToJSON objects (depth + 1) o = pure j := by
  -- neither order starts with 1 to n
  have hobject : ¬ lua.isArray 1 entries = true := fun harray =>
    hcount ⟨_, List.Perm.refl _, by rwa [List.take_append_drop]⟩
  have hobject' : ¬ objects.isArray 1 (entries.take (lua.held o) ++ hash) = true := fun harray =>
    hcount ⟨hash, hhash, by rwa [h.isArray] at harray⟩
  obtain ⟨j', hread'⟩ := (relists_refl lua).converts h hread
  rw [hread']
  rw [LuaObjectToJSON_table_iff hnode, if_neg hobject] at hread
  rw [LuaObjectToJSON_table_iff hlisted, if_neg hobject'] at hread'
  obtain ⟨members, rfl, hmembers⟩ := hread
  obtain ⟨members', rfl, hmembers'⟩ := hread'
  have hitem : ∀ e ∈ entries, ∃ item, LuaObjectToJSON objects depth e.2 = pure item ∧
      LuaObjectToJSON lua.toLuaObjects depth e.2 = pure item := by
    intro e he
    obtain ⟨member, -, -, hitem⟩ := forall₂_exists hmembers e he
    exact ⟨member.2, hvalue e he _ hitem, hitem⟩
  rw [Limited.pure_inj, objects_eq_iff (fun v v' j j' hj hj' => ?_) hmembers' hmembers]
  · exact h.last_read hhash halike hitem
  · rw [hj, hj']
    simp only [Limited.pure_inj]
    constructor
    · rintro ⟨item, rfl, rfl⟩
      rfl
    · rintro rfl
      exact ⟨j, rfl, rfl⟩

end

/-- Where no order matters, what is read in one order is read in every order. -/
theorem Relists.read (h : lua.Relists objects) {depth : Nat} {o : O} {j : Json}
    (hsettled : ∀ t entries, Relation.ReflTransGen lua.Element o t → lua.node t = .table entries →
      lua.Convertible t → lua.Settled t entries)
    (hread : LuaObjectToJSON lua.toLuaObjects depth o = pure j) :
    LuaObjectToJSON objects depth o = pure j := by
  induction depth generalizing o j with
  | zero => cases hread
  | succ depth ih =>
      rcases (lua.node o).table_or_plain with ⟨entries, hnode⟩ | ⟨j₀, hplain⟩
      · obtain ⟨hash, hhash, hlisted⟩ := h.table o entries hnode
        have hvalue : ∀ e ∈ entries, ∀ item,
            LuaObjectToJSON lua.toLuaObjects depth e.2 = pure item →
              LuaObjectToJSON objects depth e.2 = pure item := by
          intro e he item hitem
          refine ih (fun t entries' ht => ?_) hitem
          exact hsettled t entries' (.head ⟨entries, hnode, e.1, he⟩ ht)
        have hconvertible : lua.Convertible o := LuaObjects.convertible_iff.mpr ⟨_, _, hread⟩
        obtain ⟨hsequence, halike⟩ := hsettled o entries .refl hnode hconvertible
        by_cases hcount : lua.CanCount o entries
        · -- there is only one order
          rw [perm_eq_of_short hhash (hsequence hcount).2, List.take_append_drop] at hlisted
          exact h.read_same hnode hlisted hvalue hread
        · exact h.read_object hnode hhash hlisted hcount (halike hcount) hvalue hread
      · rw [LuaObjectToJSON_plain_iff hplain] at hread
        exact (LuaObjectToJSON_plain_iff (h.plain_read hplain)).mpr hread

/-- And what is read in any order is read in the given one. -/
theorem Relists.read_back (h : lua.Relists objects) {depth : Nat} {o : O} {j : Json}
    (hsettled : ∀ t entries, Relation.ReflTransGen lua.Element o t → lua.node t = .table entries →
      lua.Convertible t → lua.Settled t entries)
    (hread : LuaObjectToJSON objects depth o = pure j) :
    LuaObjectToJSON lua.toLuaObjects depth o = pure j := by
  obtain ⟨j', hread'⟩ := h.converts (relists_refl lua) hread
  have hsame := h.read hsettled hread'
  rw [hread, Limited.pure_inj] at hsame
  rw [hread', hsame]

end LuaTables

end Poesie
