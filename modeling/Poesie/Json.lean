import Poesie.Wire

set_option autoImplicit false

/-! # JSON values

The values of `nlohmann::json`. Numbers keep the three storage types of the library (signed,
unsigned, floating point), a floating-point number is its 64-bit pattern, strings are byte
strings, and a binary carries an optional subtype. An object is a `std::map`: its members
are listed by ascending key, which `Json.WellFormed` states together with the fact that
every size fits in a `size_t`.
-/

/-! ## Ordered maps -/

namespace StdMap

variable {K V W : Type} [LT K] [DecidableLT K] [DecidableEq K]

/-- `std::map::emplace`: insert in key order, an entry already there stays as it is. -/
def emplace (k : K) (v : V) : List (K × V) → List (K × V)
  | [] => [(k, v)]
  | (k', v') :: rest =>
      if k < k' then (k, v) :: (k', v') :: rest
      else if k = k' then (k', v') :: rest
      else (k', v') :: emplace k v rest

/-- `m[k] = v`: insert in key order, an entry already there gets the new value. -/
def assign (k : K) (v : V) : List (K × V) → List (K × V)
  | [] => [(k, v)]
  | (k', v') :: rest =>
      if k < k' then (k, v) :: (k', v') :: rest
      else if k = k' then (k, v) :: rest
      else (k', v') :: assign k v rest

/-- The value stored under `k`. -/
def find? (k : K) : List (K × V) → Option V
  | [] => none
  | (k', v') :: rest => if k = k' then some v' else find? k rest

omit [LT K] [DecidableLT K] in
theorem mem_of_find? {k : K} {v : V} {m : List (K × V)} (h : find? k m = some v) :
    ∃ p ∈ m, p.2 = v := by
  induction m with
  | nil => cases h
  | cons p m ih =>
      rw [find?] at h
      by_cases hk : k = p.1
      · rw [if_pos hk] at h
        exact ⟨p, by simp, Option.some.inj h⟩
      · rw [if_neg hk] at h
        obtain ⟨q, hq, hv⟩ := ih h
        exact ⟨q, by simp [hq], hv⟩

variable [Std.Asymm (fun a b : K => a < b)] [Std.Irrefl (fun a b : K => a < b)]

theorem emplace_of_lt {k : K} (v : V) {m : List (K × V)} (h : ∀ p ∈ m, p.1 < k) :
    emplace k v m = m ++ [(k, v)] := by
  induction m with
  | nil => rfl
  | cons p m ih =>
      obtain ⟨k', v'⟩ := p
      have hk : k' < k := h (k', v') (by simp)
      have hlt : ¬ k < k' := Std.Asymm.asymm _ _ hk
      have hne : k ≠ k' := fun he => Std.Irrefl.irrefl (r := fun a b : K => a < b) k' (he ▸ hk)
      rw [emplace, if_neg hlt, if_neg hne, ih (fun p hp => h p (by simp [hp])),
        List.cons_append]

/-- Emplacing entries by ascending key rebuilds the list of entries. -/
theorem foldl_emplace (f : V → W) (ms : List (K × V)) (acc : List (K × W))
    (hms : ms.Pairwise (fun p q => p.1 < q.1)) (hacc : ∀ p ∈ acc, ∀ q ∈ ms, p.1 < q.1) :
    ms.foldl (fun m p => emplace p.1 (f p.2) m) acc
      = acc ++ ms.map (fun p => (p.1, f p.2)) := by
  induction ms generalizing acc with
  | nil => simp
  | cons q ms ih =>
      obtain ⟨hq, hms⟩ := List.pairwise_cons.mp hms
      have hlast : ∀ p ∈ acc, p.1 < q.1 := fun p hp => hacc p hp q (by simp)
      rw [List.foldl_cons, emplace_of_lt _ hlast, ih _ hms, List.map_cons, List.append_assoc,
        List.singleton_append]
      intro p hp r hr
      rcases List.mem_append.mp hp with hp | hp
      · exact hacc p hp r (by simp [hr])
      · rw [List.mem_singleton.mp hp]
        exact hq r hr

end StdMap

namespace Poesie

open Wire

/-! ## Values -/

/-- A double, by its bit pattern. -/
structure Float64 where
  bits : UInt64
  deriving DecidableEq, Repr

/-- A `nlohmann::json` value. -/
inductive Json where
  | null
  | boolean (b : Bool)
  | numberInteger (n : Int64)
  | numberUnsigned (n : UInt64)
  | numberFloat (x : Float64)
  | string (s : Bytes)
  | binary (bytes : Bytes) (subtype : Option UInt64)
  | array (items : List Json)
  | object (members : List (Bytes × Json))

namespace Json

/-- Induction over a value, with the elements of arrays and the members of objects as the
immediate subvalues. -/
theorem ind {P : Json → Prop} (null : P null) (boolean : ∀ b, P (boolean b))
    (numberInteger : ∀ n, P (numberInteger n)) (numberUnsigned : ∀ n, P (numberUnsigned n))
    (numberFloat : ∀ x, P (numberFloat x)) (string : ∀ s, P (string s))
    (binary : ∀ b st, P (binary b st))
    (array : ∀ items, (∀ j ∈ items, P j) → P (array items))
    (object : ∀ members, (∀ p ∈ members, P p.2) → P (object members)) (j : Json) : P j := by
  refine @Json.rec P (fun items => ∀ j ∈ items, P j) (fun members => ∀ p ∈ members, P p.2)
    (fun p => P p.2) null boolean numberInteger numberUnsigned numberFloat string binary array
    object
    ?_ ?_ ?_ ?_ ?_ j
  · intro j hj
    cases hj
  · intro j rest hj hrest i hi
    rcases List.mem_cons.mp hi with rfl | hi
    · exact hj
    · exact hrest i hi
  · intro p hp
    cases hp
  · intro p rest hp hrest q hq
    rcases List.mem_cons.mp hq with rfl | hq
    · exact hp
    · exact hrest q hq
  · intro k j hj
    exact hj

/-- What every stored value satisfies: sizes fit in a `size_t`, and the members of an object
come by strictly ascending key. -/
inductive WellFormed : Json → Prop
  | null : WellFormed null
  | boolean (b : Bool) : WellFormed (boolean b)
  | numberInteger (n : Int64) : WellFormed (numberInteger n)
  | numberUnsigned (n : UInt64) : WellFormed (numberUnsigned n)
  | numberFloat (x : Float64) : WellFormed (numberFloat x)
  | string {s : Bytes} (fits : s.length < 2 ^ 64) : WellFormed (string s)
  | binary {b : Bytes} (st : Option UInt64) (fits : b.length < 2 ^ 64) :
      WellFormed (binary b st)
  | array {items : List Json} (fits : items.length < 2 ^ 64)
      (each : ∀ j ∈ items, WellFormed j) : WellFormed (array items)
  | object {members : List (Bytes × Json)} (fits : members.length < 2 ^ 64)
      (ascending : members.Pairwise (fun p q => p.1 < q.1))
      (keys : ∀ p ∈ members, p.1.length < 2 ^ 64)
      (each : ∀ p ∈ members, WellFormed p.2) : WellFormed (object members)

mutual

/-- Every binary node carries a subtype. -/
def allSubtyped : Json → Bool
  | binary _ st => st.isSome
  | array items => allSubtypedItems items
  | object members => allSubtypedMembers members
  | _ => true

def allSubtypedItems : List Json → Bool
  | [] => true
  | j :: rest => allSubtyped j && allSubtypedItems rest

def allSubtypedMembers : List (Bytes × Json) → Bool
  | [] => true
  | (_, j) :: rest => allSubtyped j && allSubtypedMembers rest

end

theorem allSubtypedItems_iff (items : List Json) :
    allSubtypedItems items = true ↔ ∀ j ∈ items, j.allSubtyped = true := by
  induction items with
  | nil => simp [allSubtypedItems]
  | cons j rest ih => simp [allSubtypedItems, ih]

theorem allSubtypedMembers_iff (members : List (Bytes × Json)) :
    allSubtypedMembers members = true ↔ ∀ p ∈ members, p.2.allSubtyped = true := by
  induction members with
  | nil => simp [allSubtypedMembers]
  | cons p rest ih =>
      obtain ⟨k, j⟩ := p
      simp [allSubtypedMembers, ih]

end Json

/-- A JSON value as a program holds it. -/
structure JsonValue where
  tree : Json
  wellFormed : tree.WellFormed

end Poesie
