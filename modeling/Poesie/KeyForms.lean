import Poesie.LuaValues
import Poesie.OrderedMap
import Poesie.PythonValues
import Poesie.ValueGraphs

set_option autoImplicit false

/-! # Entries under one key

A JSON object has strings for keys, and a Lua table or a Python dictionary has keys of any type.
The converters make a string of each key and assign to the member of that name. Two keys with the
same string form get one member, and the entry that comes first is lost.
-/

namespace Poesie

open Wire Json

variable {O E F : Type}

/-- There is one member for each entry, and it is what the entry is read as. -/
def OnePerEntry (R : E → Bytes × Json → Prop) (entries : List E)
    (members : List (Bytes × Json)) : Prop :=
  ∃ listed : List (Bytes × Json), listed.Perm members ∧ List.Forall₂ R entries listed

theorem OnePerEntry.length_eq {R : E → Bytes × Json → Prop} {entries : List E}
    {members : List (Bytes × Json)} (h : OnePerEntry R entries members) :
    members.length = entries.length := by
  obtain ⟨listed, hperm, hlisted⟩ := h
  rw [← hperm.length_eq, hlisted.length_eq]

/-- No two entries have keys with the same string form. -/
def FormsDiffer (form : E → F) (entries : List E) : Prop :=
  entries.Pairwise fun e e' => form e ≠ form e'

section

variable {R : E → Bytes × Json → Prop} {form : E → F} {given : Bytes → F} {entries : List E}
  {listed : List (Bytes × Json)}

/-- What is read under the string forms of the keys has distinct keys if these are distinct. -/
theorem formsDiffer_iff (hgiven : Function.Injective given) (hR : ∀ e m, R e m → form e = given m.1)
    (h : List.Forall₂ R entries listed) : FormsDiffer form entries ↔ StdMap.Distinct listed := by
  have hforms : entries.map form = listed.map fun m => given m.1 := by
    induction h with
    | nil => rfl
    | cons hentry _ ih => rw [List.map_cons, List.map_cons, hR _ _ hentry, ih]
  calc FormsDiffer form entries
      ↔ (entries.map form).Pairwise (· ≠ ·) := by
        rw [FormsDiffer, List.pairwise_map]
    _ ↔ (listed.map fun m => given m.1).Pairwise (· ≠ ·) := by
        rw [hforms]
    _ ↔ StdMap.Distinct listed := by
        rw [List.pairwise_map]
        simp only [ne_eq, hgiven.eq_iff, StdMap.Distinct]

/-- The members that the loop leaves are one for each entry if and only if no two keys have the
same string form. -/
theorem onePerEntry_iff (hgiven : Function.Injective given) (hR : ∀ e m, R e m → form e = given m.1)
    (h : List.Forall₂ R entries listed) :
    OnePerEntry R entries (listed.foldl (fun m e => StdMap.assign e.1 e.2 m) []) ↔
      FormsDiffer form entries := by
  constructor
  · -- the members are distinct, and one for each entry
    rintro ⟨listed', hperm, h'⟩
    have hascending : StdMap.Ascending (listed.foldl (fun m e => StdMap.assign e.1 e.2 m) []) :=
      StdMap.ascending_foldl_assign List.Pairwise.nil
    have hdistinct : StdMap.Distinct listed' :=
      (hperm.pairwise_iff fun hpq he => hpq he.symm).mpr hascending.distinct
    exact (formsDiffer_iff hgiven hR h').mpr hdistinct
  · -- nothing is assigned twice
    intro hforms
    have hperm : (listed.foldl (fun m e => StdMap.assign e.1 e.2 m) []).Perm ([] ++ listed) :=
      StdMap.foldl_assign_perm ((formsDiffer_iff hgiven hR h).mp hforms) (by simp)
    exact ⟨listed, hperm.symm, h⟩

end

theorem ok_injective : Function.Injective (Except.ok : Bytes → Except CppException Bytes) :=
  fun _ _ h => Except.ok.inj h

/-! ## Lua -/

namespace LuaObjects

variable (objects : LuaObjects O)

/-- Each table in the value that becomes an object has a member for each of its entries, if the
value is converted. -/
def KeepsEntries (o : O) : Prop :=
  ∀ depth j, LuaObjectToJSON objects depth o = pure j →
    ∀ t, Relation.ReflTransGen objects.Element o t →
      ∀ entries, objects.node t = .table entries →
        ∀ depth members, LuaObjectToJSON objects (depth + 1) t = pure (object members) →
          OnePerEntry (MemberRead objects depth) entries members

/-- In no table in the value that is no array two keys have the same string form. -/
def NoClash (o : O) : Prop :=
  ∀ t, Relation.ReflTransGen objects.Element o t →
    ∀ entries, objects.node t = .table entries → objects.isArray 1 entries = false →
      FormsDiffer (fun entry => objects.asString entry.1) entries

variable {objects}

theorem keepsEntries_iff {o : O} :
    objects.KeepsEntries o ↔ (objects.Convertible o → objects.NoClash o) := by
  constructor
  · intro hkeeps hconvertible t ht entries hnode hobject
    obtain ⟨depth, j, hj⟩ := convertible_iff.mp hconvertible
    -- what is within a value that is converted is converted, at a depth of its own
    obtain ⟨depth', j', hj'⟩ := convertible_iff.mp (hconvertible.within ht)
    have hread := LuaObjectToJSON_succ hj'
    obtain ⟨members, rfl, hmembers⟩ : ∃ members,
        j' = object (members.foldl (fun m e => StdMap.assign e.1 e.2 m) []) ∧
          List.Forall₂ (MemberRead objects depth') entries members := by
      have htable := (LuaObjectToJSON_table_iff hnode).mp hread
      rwa [if_neg (by simp [hobject])] at htable
    exact (onePerEntry_iff ok_injective (fun _ _ hmember => hmember.1) hmembers).mp
      (hkeeps depth j hj t ht entries hnode depth' _ hread)
  · intro hforms depth j hj t ht entries hnode depth' members hread
    have htable := (LuaObjectToJSON_table_iff hnode).mp hread
    split at htable
    · obtain ⟨items, hitems, -⟩ := htable
      cases hitems
    · next hobject =>
        obtain ⟨listed, hobject', hlisted⟩ := htable
        rw [object.inj hobject']
        exact (onePerEntry_iff ok_injective (fun _ _ hmember => hmember.1) hlisted).mpr
          (hforms (convertible_iff.mpr ⟨depth, j, hj⟩) t ht entries hnode (by simpa using hobject))

end LuaObjects

/-! ## Python -/

namespace PyObjects

variable (objects : PyObjects O)

/-- An element of a list or a tuple, or a value of a dictionary. -/
def Element (t v : O) : Prop :=
  (objects.node t = .sequence ∧ ∃ elements, Limited.Lists (objects.next t) 0 elements ∧
    v ∈ elements) ∨
  (objects.node t = .dict ∧ ∃ keys, Limited.Lists (objects.next t) 0 keys ∧
    ∃ key ∈ keys, objects.getItem t key = pure v)

/-- Each dictionary in the object becomes a JSON object with a member for each of its keys, if
the object is converted. -/
def KeepsEntries (o : O) : Prop :=
  ∀ rounds depth j, to_json objects rounds depth o = pure j →
    ∀ t, Relation.ReflTransGen objects.Element o t → objects.node t = .dict →
      ∀ keys, Limited.Lists (objects.next t) 0 keys →
        ∀ rounds depth members, to_json objects rounds (depth + 1) t = pure (object members) →
          OnePerEntry (objects.EntryRead rounds depth t) keys members

/-- In no dictionary in the object two keys have the same string form. -/
def NoClash (o : O) : Prop :=
  ∀ t, Relation.ReflTransGen objects.Element o t → objects.node t = .dict →
    ∀ keys, Limited.Lists (objects.next t) 0 keys → FormsDiffer objects.str keys

variable {objects}

/-- A convertible object is read at some depth. -/
theorem to_json_of_convertible {o : O} (h : objects.Convertible o) :
    ∃ rounds depth j, to_json objects rounds (depth + 1) o = pure j := by
  obtain ⟨rounds, depth, j, hj⟩ := convertible_iff.mp h
  cases depth with
  | zero => cases hj
  | succ depth => exact ⟨rounds, depth, j, hj⟩

theorem Convertible.element {t v : O} (h : objects.Convertible t) (hv : objects.Element t v) :
    objects.Convertible v := by
  obtain ⟨rounds, depth, j, hj⟩ := to_json_of_convertible h
  rcases hv with ⟨hnode, elements, hlists, hmem⟩ | ⟨hnode, keys, hlists, key, hmem, hvalue⟩
  · obtain ⟨-, items, -, hitems⟩ := (to_json_sequence_iff hnode hlists).mp hj
    obtain ⟨item, -, hitem⟩ := forall₂_exists hitems v hmem
    exact convertible_iff.mpr ⟨rounds, depth, item, hitem⟩
  · obtain ⟨-, members, -, hmembers⟩ := (to_json_dict_iff hnode hlists).mp hj
    obtain ⟨member, -, value, hgiven, hread, -⟩ := forall₂_exists hmembers key hmem
    obtain rfl : v = value := Limited.pure_inj.mp (hvalue.symm.trans hgiven)
    exact convertible_iff.mpr ⟨rounds, depth, member.2, hread⟩

theorem Convertible.within {o t : O} (h : objects.Convertible o)
    (ht : Relation.ReflTransGen objects.Element o t) : objects.Convertible t := by
  induction ht with
  | refl => exact h
  | tail _ hv ih => exact ih.element hv

theorem pure_injective : Function.Injective (pure : Bytes → PyResult Bytes) :=
  fun _ _ h => Limited.pure_inj.mp h

/-- The string form of a key is the name of the member that it is read as. -/
theorem EntryRead.form {rounds depth : Nat} {o key : O} {member : Bytes × Json}
    (h : objects.EntryRead rounds depth o key member) : objects.str key = pure member.1 := by
  obtain ⟨value, -, -, hname⟩ := h
  exact hname

theorem keepsEntries_iff {o : O} :
    objects.KeepsEntries o ↔ (objects.Convertible o → objects.NoClash o) := by
  constructor
  · intro hkeeps hconvertible t ht hnode keys hlists
    obtain ⟨rounds, depth, j, hj⟩ := convertible_iff.mp hconvertible
    obtain ⟨rounds', depth', j', hread⟩ := to_json_of_convertible (hconvertible.within ht)
    obtain ⟨-, members, rfl, hmembers⟩ := (to_json_dict_iff hnode hlists).mp hread
    exact (onePerEntry_iff pure_injective (fun _ _ hmember => hmember.form) hmembers).mp
      (hkeeps rounds depth j hj t ht hnode keys hlists rounds' depth' _ hread)
  · intro hforms rounds depth j hj t ht hnode keys hlists rounds' depth' members hread
    obtain ⟨-, listed, hobject, hlisted⟩ := (to_json_dict_iff hnode hlists).mp hread
    rw [object.inj hobject]
    exact (onePerEntry_iff pure_injective (fun _ _ hmember => hmember.form) hlisted).mpr
      (hforms (convertible_iff.mpr ⟨rounds, depth, j, hj⟩) t ht hnode keys hlists)

end PyObjects

/-- **Entries that get lost.** All entries of the tables and dictionaries in a value become
members of their own, if the value is converted, if and only if in none of them two keys have the
same string form. -/
theorem entries_kept_iff {L P : Type} (lua : LuaObjects L) (o : L) (python : PyObjects P) (q : P) :
    (lua.KeepsEntries o ↔ (lua.Convertible o → lua.NoClash o)) ∧
    (python.KeepsEntries q ↔ (python.Convertible q → python.NoClash q)) :=
  ⟨LuaObjects.keepsEntries_iff, PyObjects.keepsEntries_iff⟩

/-- The tables `{["1"]="a", [1]="b"}` and `{"1": "a", 1: "b"}` lose an entry. -/
theorem numeral_and_number_clash :
    ¬ LuaTree.objects.KeepsEntries (.table
      [(.string (text "1"), .string (text "a")), (.integer 1, .string (text "b"))]) ∧
    ¬ PyTree.objects.KeepsEntries (.dict
      [(.str (text "1"), .str (text "a")), (.int 1, .str (text "b"))]) := by
  constructor
  · intro hkeeps
    have hone := hkeeps 2 (object [(text "1", string (text "b"))]) rfl _ .refl _ rfl 1
      [(text "1", string (text "b"))] rfl
    exact absurd hone.length_eq (by decide)
  · intro hkeeps
    have hone := hkeeps 3 2 (object [(text "1", string (text "b"))]) rfl _ .refl rfl
      [.str (text "1"), .int 1] ⟨rfl, rfl, rfl⟩ 3 1 [(text "1", string (text "b"))] rfl
    exact absurd hone.length_eq (by decide)

end Poesie
