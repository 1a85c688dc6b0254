import Poesie.LuaTable
import Poesie.OrderedMap

set_option autoImplicit false

/-! # Lua values that look alike

Two values have the same JSON if they look alike: as plain values of one kind, as arrays whose
elements look alike, or as objects that have look-alikes under the same keys. Of the entries whose
keys have the same string form, an object has the last one.
-/

namespace Poesie

open Wire Json

variable {O : Type}

/-- The JSON of a value that is no table. -/
def LuaNode.plain : LuaNode O → Option Json
  | .nil => some null
  | .boolean b => some (Json.boolean b)
  | .number x => some (numberFloat x)
  | .string s => some (Json.string s)
  | .table _ => none
  | .function => some (Json.string (text "<function>"))
  | .userdata => some (Json.string (text "<userdata>"))
  | .thread => some (Json.string (text "<thread>"))
  | .lightuserdata => some (Json.string (text "<lightuserdata>"))
  | .other => some (Json.string (text "<unknown>"))

theorem LuaNode.table_or_plain (n : LuaNode O) :
    (∃ entries, n = .table entries) ∨ ∃ j, n.plain = some j := by
  cases n with
  | table entries => exact .inl ⟨entries, rfl⟩
  | nil | boolean b | number x | string s | function | userdata | thread | lightuserdata
  | other => exact .inr ⟨_, rfl⟩

theorem LuaNode.ne_table_of_plain {n : LuaNode O} {j : Json} (h : n.plain = some j)
    (entries : List (O × O)) : n ≠ .table entries := by
  rintro rfl
  cases h

/-- A table is never read as what a plain value is read as. -/
theorem LuaNode.plain_scalar {n : LuaNode O} {j : Json} (h : n.plain = some j) :
    (∀ items, j ≠ array items) ∧ ∀ members, j ≠ object members := by
  cases n with
  | table entries => cases h
  | nil | boolean b | number x | string s | function | userdata | thread | lightuserdata
  | other =>
      cases h
      simp

namespace LuaObjects

variable (objects : LuaObjects O)

/-- Whether the key has this string form. -/
def spelled (form : Bytes) (key : O) : Bool :=
  match objects.asString key with
  | .ok s => s == form
  | .error _ => false

/-- The value of the last entry whose key has this string form. -/
def valueAt (form : Bytes) (entries : List (O × O)) : Option O :=
  (entries.reverse.find? fun e => objects.spelled form e.1).map Prod.snd

/-- The values look alike, as deep as they are compared. -/
def AlikeAt : Nat → O → O → Prop
  | 0, _, _ => False
  | depth + 1, v, v' =>
      match objects.node v, objects.node v' with
      | .table entries, .table entries' =>
          if objects.isArray 1 entries && objects.isArray 1 entries' then
            List.Forall₂ (fun e e' => AlikeAt depth e.2 e'.2) entries entries'
          else
            objects.isArray 1 entries = objects.isArray 1 entries' ∧
              ∀ form, Option.Rel (AlikeAt depth) (objects.valueAt form entries)
                (objects.valueAt form entries')
      | n, n' => n.plain = n'.plain

/-- The values look alike. -/
def Alike (v v' : O) : Prop := ∃ depth, objects.AlikeAt depth v v'

variable {objects}

theorem alikeAt_table_iff {depth : Nat} {v v' : O} {entries entries' : List (O × O)}
    (hnode : objects.node v = .table entries) (hnode' : objects.node v' = .table entries') :
    objects.AlikeAt (depth + 1) v v' ↔
      if objects.isArray 1 entries && objects.isArray 1 entries' then
        List.Forall₂ (fun e e' => objects.AlikeAt depth e.2 e'.2) entries entries'
      else
        objects.isArray 1 entries = objects.isArray 1 entries' ∧
          ∀ form, Option.Rel (objects.AlikeAt depth) (objects.valueAt form entries)
            (objects.valueAt form entries') := by
  rw [AlikeAt, hnode, hnode']

theorem alikeAt_plain_iff {depth : Nat} {v v' : O} {j : Json}
    (hplain : (objects.node v).plain = some j) :
    objects.AlikeAt (depth + 1) v v' ↔ (objects.node v').plain = some j := by
  rw [AlikeAt]
  split
  · next hnode _ =>
      rw [hnode] at hplain
      cases hplain
  · rw [hplain]
    exact eq_comm

theorem not_alikeAt_table_plain {depth : Nat} {v v' : O} {entries : List (O × O)} {j : Json}
    (hnode : objects.node v = .table entries) (hplain : (objects.node v').plain = some j) :
    ¬ objects.AlikeAt (depth + 1) v v' := by
  rw [AlikeAt, hnode]
  split
  · next hnode' =>
      rw [hnode'] at hplain
      cases hplain
  · rw [hplain]
    exact fun h => by cases h

end LuaObjects

/-! ## What is read of them -/

section

variable {objects : LuaObjects O}

theorem LuaObjectToJSON_plain_iff {depth : Nat} {v : O} {j j' : Json}
    (hplain : (objects.node v).plain = some j') :
    LuaObjectToJSON objects (depth + 1) v = pure j ↔ j = j' := by
  have hread : LuaObjectToJSON objects (depth + 1) v = pure j' := by
    rw [LuaObjectToJSON]
    cases hnode : objects.node v with
    | table entries =>
        rw [hnode] at hplain
        cases hplain
    | nil | boolean b | number x | string s | function | userdata | thread | lightuserdata
    | other =>
        rw [hnode] at hplain
        cases hplain
        rfl
  rw [hread, Limited.pure_inj]
  exact eq_comm

/-- What a table is read as is no plain value. -/
theorem ne_plain_of_table {depth : Nat} {v v' : O} {entries : List (O × O)} {j j' : Json}
    (hnode : objects.node v = .table entries)
    (hread : LuaObjectToJSON objects (depth + 1) v = pure j)
    (hplain : (objects.node v').plain = some j') : j ≠ j' := by
  have hscalar := LuaNode.plain_scalar hplain
  rw [LuaObjectToJSON_table_iff hnode] at hread
  split at hread
  · obtain ⟨items, rfl, -⟩ := hread
    exact (hscalar.1 items).symm
  · obtain ⟨members, rfl, -⟩ := hread
    exact (hscalar.2 _).symm

theorem spelled_of_form {form s : Bytes} {key : O} (h : objects.asString key = .ok s) :
    objects.spelled form key = (s == form) := by
  rw [LuaObjects.spelled, h]

/-- An object has, under each key, what the last entry of that form is read as. -/
theorem valueAt_lookup {depth : Nat} {entries : List (O × O)} {members : List (Bytes × Json)}
    (h : List.Forall₂ (MemberRead objects depth) entries members) (form : Bytes) :
    Option.Rel (fun v j => LuaObjectToJSON objects depth v = pure j)
      (objects.valueAt form entries)
      ((members.foldl (fun m e => StdMap.assign e.1 e.2 m) []).lookup form) := by
  have hfind : ∀ {entries : List (O × O)} {members : List (Bytes × Json)},
      List.Forall₂ (MemberRead objects depth) entries members →
      Option.Rel (fun v j => LuaObjectToJSON objects depth v = pure j)
        ((entries.find? fun e => objects.spelled form e.1).map Prod.snd) (members.lookup form) := by
    intro entries members h
    induction h with
    | nil => exact .none
    | @cons e m es ms hread _ ih =>
        rw [List.find?_cons, spelled_of_form hread.1, StdMap.lookup_cons_eq]
        by_cases heq : form = m.1
        · rw [if_pos heq, beq_iff_eq.mpr heq.symm]
          exact .some hread.2
        · rw [if_neg heq, beq_eq_false_iff_ne.mpr (Ne.symm heq)]
          exact ih
  rw [StdMap.lookup_foldl_assign, List.lookup_nil, Option.or_none]
  exact hfind (List.forall₂_reverse_iff.mpr h)

theorem rel_imp {α β : Type} {R S : α → β → Prop} (hRS : ∀ a b, R a b → S a b) {a : Option α}
    {b : Option β} (h : Option.Rel R a b) : Option.Rel S a b := by
  cases h with
  | some hab => exact .some (hRS _ _ hab)
  | none => exact .none

/-- What two options are read as is the same if they are related by what says so. -/
theorem rel_iff_eq {α β γ : Type} {R : α → γ → Prop} {R' : β → γ → Prop} {S : α → β → Prop}
    (hS : ∀ a b x y, R a x → R' b y → (S a b ↔ x = y)) {a : Option α} {b : Option β}
    {x y : Option γ} (ha : Option.Rel R a x) (hb : Option.Rel R' b y) :
    Option.Rel S a b ↔ x = y := by
  cases ha with
  | none =>
      cases hb with
      | none => simp
      | some hb => simp
  | some ha =>
      cases hb with
      | none => simp
      | some hb => rw [Option.rel_some_some, Option.some.injEq, hS _ _ _ _ ha hb]

/-- Two objects, made of two tables, are the same if the last entries of each form are read as the
same. -/
theorem objects_eq_iff {objects' : LuaObjects O} {depth depth' : Nat}
    {entries entries' : List (O × O)} {members members' : List (Bytes × Json)} {S : O → O → Prop}
    (hS : ∀ v v' j j', LuaObjectToJSON objects depth v = pure j →
      LuaObjectToJSON objects' depth' v' = pure j' → (S v v' ↔ j = j'))
    (h : List.Forall₂ (MemberRead objects depth) entries members)
    (h' : List.Forall₂ (MemberRead objects' depth') entries' members') :
    object (members.foldl (fun m e => StdMap.assign e.1 e.2 m) []) =
        object (members'.foldl (fun m e => StdMap.assign e.1 e.2 m) []) ↔
      ∀ form, Option.Rel S (objects.valueAt form entries) (objects'.valueAt form entries') := by
  have hascending : ∀ xs : List (Bytes × Json),
      StdMap.Ascending (xs.foldl (fun m e => StdMap.assign e.1 e.2 m) []) := fun _ =>
    StdMap.ascending_foldl_assign List.Pairwise.nil
  have hlookup : ∀ form, Option.Rel S (objects.valueAt form entries)
      (objects'.valueAt form entries') ↔
        (members.foldl (fun m e => StdMap.assign e.1 e.2 m) []).lookup form =
          (members'.foldl (fun m e => StdMap.assign e.1 e.2 m) []).lookup form := fun form =>
    rel_iff_eq hS (valueAt_lookup h form) (valueAt_lookup h' form)
  rw [object.injEq, forall_congr' hlookup]
  constructor
  · intro heq form
    rw [heq]
  · exact (hascending members).ext_lookup (hascending members')

/-- Two arrays are the same if their elements are read as the same. -/
theorem items_eq_iff {depth : Nat} {entries entries' : List (O × O)} {items items' : List Json}
    {S : O → O → Prop}
    (hS : ∀ v v' j j', LuaObjectToJSON objects depth v = pure j →
      LuaObjectToJSON objects depth v' = pure j' → (S v v' ↔ j = j'))
    (h : List.Forall₂ (fun e item => LuaObjectToJSON objects depth e.2 = pure item) entries items)
    (h' : List.Forall₂ (fun e item => LuaObjectToJSON objects depth e.2 = pure item) entries'
      items') :
    List.Forall₂ (fun e e' => S e.2 e'.2) entries entries' ↔ items = items' := by
  induction h generalizing entries' items' with
  | nil =>
      cases h' with
      | nil => simp
      | cons _ _ => simp
  | cons hitem _ ih =>
      cases h' with
      | nil => simp
      | cons hitem' hrest' =>
          rw [List.forall₂_cons, List.cons.injEq, hS _ _ _ _ hitem hitem', ih hrest']

/-- Two tables that look alike are read as the same, and no others are, if this holds of the values
in them. -/
theorem alike_tables_iff {depth : Nat} {v v' : O} {entries entries' : List (O × O)} {j j' : Json}
    (hnode : objects.node v = .table entries) (hnode' : objects.node v' = .table entries')
    (hS : ∀ v v' j j', LuaObjectToJSON objects depth v = pure j →
      LuaObjectToJSON objects depth v' = pure j' → (objects.AlikeAt depth v v' ↔ j = j'))
    (h : LuaObjectToJSON objects (depth + 1) v = pure j)
    (h' : LuaObjectToJSON objects (depth + 1) v' = pure j') :
    objects.AlikeAt (depth + 1) v v' ↔ j = j' := by
  rw [LuaObjects.alikeAt_table_iff hnode hnode']
  rw [LuaObjectToJSON_table_iff hnode] at h
  rw [LuaObjectToJSON_table_iff hnode'] at h'
  by_cases harray : objects.isArray 1 entries
  · rw [if_pos harray] at h
    obtain ⟨items, rfl, hitems⟩ := h
    by_cases harray' : objects.isArray 1 entries'
    · -- two arrays
      rw [if_pos harray'] at h'
      obtain ⟨items', rfl, hitems'⟩ := h'
      rw [harray, harray', Bool.and_self, if_pos rfl, items_eq_iff hS hitems hitems',
        array.injEq]
    · -- an array and an object
      rw [if_neg harray'] at h'
      obtain ⟨members', rfl, -⟩ := h'
      rw [if_neg (by simp [harray'])]
      exact iff_of_false (fun h => harray' (h.1 ▸ harray)) fun h => by cases h
  · rw [if_neg harray] at h
    obtain ⟨members, rfl, hmembers⟩ := h
    rw [if_neg (by simp [harray])]
    by_cases harray' : objects.isArray 1 entries'
    · -- an object and an array
      rw [if_pos harray'] at h'
      obtain ⟨items', rfl, -⟩ := h'
      exact iff_of_false (fun h => harray (h.1.trans harray')) fun h => by cases h
    · rw [if_neg harray'] at h'
      obtain ⟨members', rfl, hmembers'⟩ := h'
      rw [objects_eq_iff hS hmembers hmembers']
      exact and_iff_right ((Bool.eq_false_iff.mpr harray).trans
        (Bool.eq_false_iff.mpr harray').symm)

/-- What looks alike is read as the same, and nothing else is. -/
theorem alikeAt_iff {depth : Nat} {v v' : O} {j j' : Json}
    (h : LuaObjectToJSON objects depth v = pure j)
    (h' : LuaObjectToJSON objects depth v' = pure j') : objects.AlikeAt depth v v' ↔ j = j' := by
  induction depth generalizing v v' j j' with
  | zero => cases h
  | succ depth ih =>
      rcases (objects.node v).table_or_plain with ⟨entries, hnode⟩ | ⟨j₀, hplain⟩
      · rcases (objects.node v').table_or_plain with ⟨entries', hnode'⟩ | ⟨j₀', hplain'⟩
        · exact alike_tables_iff hnode hnode' (fun _ _ _ _ => ih) h h'
        · refine iff_of_false (LuaObjects.not_alikeAt_table_plain hnode hplain') ?_
          rw [(LuaObjectToJSON_plain_iff hplain').mp h']
          exact ne_plain_of_table hnode h hplain'
      · rw [LuaObjects.alikeAt_plain_iff hplain, (LuaObjectToJSON_plain_iff hplain).mp h]
        rcases (objects.node v').table_or_plain with ⟨entries', hnode'⟩ | ⟨j₀', hplain'⟩
        · refine iff_of_false (fun hplain' => ?_) (ne_plain_of_table hnode' h' hplain).symm
          rw [hnode'] at hplain'
          cases hplain'
        · rw [(LuaObjectToJSON_plain_iff hplain').mp h', hplain', Option.some.injEq]
          exact eq_comm

/-- What looks alike does so however deep it is compared. -/
theorem alikeAt_succ {depth : Nat} {v v' : O} (h : objects.AlikeAt depth v v') :
    objects.AlikeAt (depth + 1) v v' := by
  induction depth generalizing v v' with
  | zero => exact h.elim
  | succ depth ih =>
      rcases (objects.node v).table_or_plain with ⟨entries, hnode⟩ | ⟨j, hplain⟩
      · rcases (objects.node v').table_or_plain with ⟨entries', hnode'⟩ | ⟨j', hplain'⟩
        · rw [LuaObjects.alikeAt_table_iff hnode hnode'] at h ⊢
          split
          · rw [if_pos ‹_›] at h
            exact h.imp fun _ _ => ih
          · rw [if_neg ‹_›] at h
            exact ⟨h.1, fun form => rel_imp (fun _ _ => ih) (h.2 form)⟩
        · exact absurd h (LuaObjects.not_alikeAt_table_plain hnode hplain')
      · rw [LuaObjects.alikeAt_plain_iff hplain] at h ⊢
        exact h

theorem alikeAt_of_le {depth depth' : Nat} (hle : depth ≤ depth') {v v' : O}
    (h : objects.AlikeAt depth v v') : objects.AlikeAt depth' v v' := by
  induction hle with
  | refl => exact h
  | step _ ih => exact alikeAt_succ ih

theorem alike_iff {depth : Nat} {v v' : O} {j j' : Json}
    (h : LuaObjectToJSON objects depth v = pure j)
    (h' : LuaObjectToJSON objects depth v' = pure j') : objects.Alike v v' ↔ j = j' := by
  constructor
  · rintro ⟨depth', halike⟩
    exact (alikeAt_iff (LuaObjectToJSON_of_le (Nat.le_max_left depth depth') h)
      (LuaObjectToJSON_of_le (Nat.le_max_left depth depth') h')).mp
        (alikeAt_of_le (Nat.le_max_right depth depth') halike)
  · intro heq
    exact ⟨depth, (alikeAt_iff h h').mpr heq⟩

end

end Poesie
