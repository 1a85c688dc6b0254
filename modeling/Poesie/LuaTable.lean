import Poesie.Conversion
import Poesie.Limited

set_option autoImplicit false

/-! # Lua values as JSON

`LuaObjectToJSON` finds out by the keys of a table whether it is an array: a table is one whose
keys count up from 1 in the order in which Lua lists them. What sol2 tells of a value and of a
key is a parameter, `LuaObjects`.
-/

namespace Poesie

open Wire Json

/-- A value, by its `sol::type`. A number comes as the double that `as<double>()` gives; a table
lists its entries in the order of `lua_next`. -/
inductive LuaNode (O : Type) where
  | nil
  | boolean (b : Bool)
  | number (x : Float64)
  | string (s : Bytes)
  | table (entries : List (O × O))
  | function
  | userdata
  | thread
  | lightuserdata
  | other

namespace LuaNode

variable {O : Type}

def isNil : LuaNode O → Bool
  | nil => true
  | _ => false

def isNumber : LuaNode O → Bool
  | number _ => true
  | _ => false

end LuaNode

/-- The values of a Lua state. -/
structure LuaObjects (O : Type) where
  node : O → LuaNode O
  /-- `key.as<std::size_t>()` -/
  asSize : O → Nat
  /-- `key.as<std::string>()` -/
  asString : O → Except CppException Bytes

namespace LuaObjects

variable {O : Type} (objects : LuaObjects O)

/-- The key is the number that an array has next. -/
def isIndex (expected : Nat) (key : O) : Bool :=
  (objects.node key).isNumber && objects.asSize key == expected

/-- `is_array`, from an expected index on. -/
def isArray (expected : Nat) : List (O × O) → Bool
  | [] => true
  | (key, _) :: rest => objects.isIndex expected key && isArray (expected + 1) rest

end LuaObjects

section

variable {O : Type} (objects : LuaObjects O)

/-- `LuaObjectToJSON`, with room for `depth` nested calls on the stack. There is no result where
the stack does not suffice. -/
def LuaObjectToJSON : Nat → O → ExceptT CppException Option Json
  | 0, _ => ExceptT.mk none
  | depth + 1, o =>
      match objects.node o with
      | .nil => pure null
      | .boolean b => pure (boolean b)
      | .number x => pure (numberFloat x)
      | .string s => pure (string s)
      | .table entries =>
          if objects.isArray 1 entries then do
            let out ← entries.mapM fun entry => LuaObjectToJSON depth entry.2
            pure (array out)
          else do
            let out ← entries.foldlM (fun out (entry : O × O) => do
              let key ← ended (objects.asString entry.1)
              let value ← LuaObjectToJSON depth entry.2
              pure (StdMap.assign key value out)) []
            pure (object out)
      | .function => pure (string (text "<function>"))
      | .userdata => pure (string (text "<userdata>"))
      | .thread => pure (string (text "<thread>"))
      | .lightuserdata => pure (string (text "<lightuserdata>"))
      | .other => pure (string (text "<unknown>"))

variable {objects}

/-- An entry is read as a member of an object: its key as a string, its value by a recursive
call. -/
def MemberRead (objects : LuaObjects O) (depth : Nat) (entry : O × O) (member : Bytes × Json) :
    Prop :=
  objects.asString entry.1 = .ok member.1 ∧ LuaObjectToJSON objects depth entry.2 = pure member.2

/-- The loop over the entries of a table that is no array. -/
theorem foldlM_members_iff {depth : Nat} {entries : List (O × O)} {acc out : List (Bytes × Json)} :
    entries.foldlM (fun out (entry : O × O) => do
        let key ← ended (objects.asString entry.1)
        let value ← LuaObjectToJSON objects depth entry.2
        pure (StdMap.assign key value out)) acc = (pure out : ExceptT CppException Option _) ↔
      ∃ members, List.Forall₂ (MemberRead objects depth) entries members ∧
        out = members.foldl (fun m e => StdMap.assign e.1 e.2 m) acc := by
  refine Limited.foldlM_eq_pure_iff fun acc entry out => ?_
  simp only [Limited.bind_eq_pure_iff, ended_eq_pure_iff, Limited.pure_inj]
  constructor
  · rintro ⟨key, hkey, value, hvalue, rfl⟩
    exact ⟨(key, value), ⟨hkey, hvalue⟩, rfl⟩
  · rintro ⟨member, ⟨hkey, hvalue⟩, rfl⟩
    exact ⟨_, hkey, _, hvalue, rfl⟩

/-- What a table is read as. -/
theorem LuaObjectToJSON_table_iff {depth : Nat} {o : O} {entries : List (O × O)} {j : Json}
    (hnode : objects.node o = .table entries) :
    LuaObjectToJSON objects (depth + 1) o = pure j ↔
      if objects.isArray 1 entries then
        ∃ items, j = array items ∧ List.Forall₂ (fun entry item =>
          LuaObjectToJSON objects depth entry.2 = pure item) entries items
      else
        ∃ members, j = object (members.foldl (fun m e => StdMap.assign e.1 e.2 m) []) ∧
          List.Forall₂ (MemberRead objects depth) entries members := by
  rw [LuaObjectToJSON, hnode]
  dsimp only
  split
  · simp only [Limited.bind_eq_pure_iff, Limited.mapM_eq_pure_iff, Limited.pure_inj]
    constructor
    · rintro ⟨items, hitems, rfl⟩
      exact ⟨items, rfl, hitems⟩
    · rintro ⟨items, rfl, hitems⟩
      exact ⟨items, hitems, rfl⟩
  · rw [Limited.bind_eq_pure_iff]
    constructor
    · rintro ⟨out, hout, hj⟩
      obtain ⟨members, hmembers, rfl⟩ := foldlM_members_iff.mp hout
      exact ⟨members, (Limited.pure_inj.mp hj).symm, hmembers⟩
    · rintro ⟨members, rfl, hmembers⟩
      exact ⟨_, foldlM_members_iff.mpr ⟨members, hmembers, rfl⟩, rfl⟩

/-- A conversion that ends does not change with more stack. -/
theorem LuaObjectToJSON_succ {depth : Nat} {o : O} {j : Json}
    (h : LuaObjectToJSON objects depth o = pure j) :
    LuaObjectToJSON objects (depth + 1) o = pure j := by
  induction depth generalizing o j with
  | zero => exact absurd h (by simp [LuaObjectToJSON, ExceptT.mk, pure, ExceptT.pure])
  | succ depth ih =>
      cases hnode : objects.node o with
      | table entries =>
          rw [LuaObjectToJSON_table_iff hnode] at h ⊢
          split at h
          · rw [if_pos ‹_›]
            obtain ⟨items, hj, hitems⟩ := h
            exact ⟨items, hj, hitems.imp fun _ _ => ih⟩
          · rw [if_neg ‹_›]
            obtain ⟨members, hj, hmembers⟩ := h
            exact ⟨members, hj, hmembers.imp fun _ _ hentry => ⟨hentry.1, ih hentry.2⟩⟩
      | _ =>
          rw [LuaObjectToJSON, hnode] at h ⊢
          exact h

theorem LuaObjectToJSON_of_le {depth depth' : Nat} {o : O} {j : Json} (hle : depth ≤ depth')
    (h : LuaObjectToJSON objects depth o = pure j) :
    LuaObjectToJSON objects depth' o = pure j := by
  induction hle with
  | refl => exact h
  | step _ ih => exact LuaObjectToJSON_succ ih

end

end Poesie
