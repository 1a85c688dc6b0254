import Poesie.Result

set_option autoImplicit false

/-! # The JSON wire codec

`saveJSON` writes the node type, then the node's content; `loadJSON` reads the type and
assigns the content to its target. The loops of the decoder run over counts read from the
stream, its recursion is bounded by `fuel`, for which the number of unread bytes is always
enough: every nested value starts with a type byte.

The decoder gives every binary a subtype, since `saveJSON` writes `subtype()` whether or not
there is one. `restamp` is that effect, and `load_save` says that it is the only difference
between what is written and what is read back.
-/

namespace Poesie

open Wire

/-- `binary_t::subtype()`: the largest value when there is no subtype. -/
def subtypeValue : Option UInt64 → UInt64
  | some st => st
  | none => 18446744073709551615

namespace Json

instance : Inhabited Json := ⟨null⟩

end Json

open Json

/-! ## Encoder -/

mutual

/-- `saveJSON` -/
def saveJSON (ar : Archive) : Json → Bytes
  | null => ar.char.put 0
  | numberInteger n => ar.char.put 5 ++ ar.int64.put n
  | numberUnsigned n => ar.char.put 6 ++ ar.uint64.put n
  | numberFloat x => ar.char.put 7 ++ ar.float64.put x
  | string s => ar.char.put 3 ++ putString ar.uint64 s
  | boolean b => ar.char.put 4 ++ ar.boolean.put b
  | array items => ar.char.put 2 ++ (putSize ar.uint64 items.length ++ saveItems ar items)
  | object members =>
      ar.char.put 1 ++ (putSize ar.uint64 members.length ++ saveMembers ar members)
  | binary b st =>
      ar.char.put 8 ++ (putSize ar.uint64 b.length ++ (ar.uint64.put (subtypeValue st) ++ b))

def saveItems (ar : Archive) : List Json → Bytes
  | [] => []
  | j :: rest => saveJSON ar j ++ saveItems ar rest

def saveMembers (ar : Archive) : List (Bytes × Json) → Bytes
  | [] => []
  | (k, j) :: rest => (putString ar.uint64 k ++ saveJSON ar j) ++ saveMembers ar rest

end

/-! ## Decoder -/

/-- `loadJSON` into a target that holds `val`. A null leaves the target as it is. -/
def loadJSON (ar : Archive) : Nat → Json → Load Json
  | 0, _ => Reader.tooDeep
  | fuel + 1, val => do
      let t ← Reader.prim ar.char
      match t with
      -- the target is not assigned
      | 0 => pure val
      | 5 => do
          let v ← Reader.prim ar.int64
          pure (numberInteger v)
      | 6 => do
          let v ← Reader.prim ar.uint64
          pure (numberUnsigned v)
      | 7 => do
          let v ← Reader.prim ar.float64
          pure (numberFloat v)
      | 3 => do
          let v ← readString ar.uint64
          pure (string v)
      | 4 => do
          let v ← Reader.prim ar.boolean
          pure (boolean v)
      | 2 => do
          let s ← readSize ar.uint64
          let items ← Reader.loop (fun items => do
            let w ← loadJSON ar fuel null
            pure (items ++ [w])) s []
          pure (array items)
      | 1 => do
          let s ← readSize ar.uint64
          let members ← Reader.loop (fun members => do
            let key ← readString ar.uint64
            let w ← loadJSON ar fuel null
            pure (StdMap.emplace key w members)) s []
          pure (object members)
      | 8 => do
          let s ← readSize ar.uint64
          let st ← Reader.prim ar.uint64
          let v ← Reader.take s
          -- the binary gets a subtype whether or not it had one
          pure (binary v (some st))
      | _ => Reader.throw (.poesie (text "Invalid json type found when deserializing"))

/-- Decode into a fresh `JsonWrapper`. -/
def loadFresh (ar : Archive) : Load Json := fun bs => loadJSON ar (bs.length + 1) null bs

/-- The fuel is never the reason to stop: a nested value starts with a type byte, so there
are fewer unread bytes at every level down. -/
theorem bounded_loadJSON (ar : Archive) (fuel : Nat) (val : Json) :
    Bounded (loadJSON ar fuel val) fuel := by
  induction fuel generalizing val with
  | zero => exact fun bs h => absurd h (Nat.not_lt_zero _)
  | succ fuel ih =>
      have hitem : ∀ items : List Json, Bounded (do
          let w ← loadJSON ar fuel null
          (pure (items ++ [w]) : Load (List Json))) fuel := fun items =>
        Bounded.bind (ih null) (fun w => Bounded.pure _ _)
      have hmember : ∀ members : List (Bytes × Json), Bounded (do
          let key ← readString ar.uint64
          let w ← loadJSON ar fuel null
          (pure (StdMap.emplace key w members) : Load (List (Bytes × Json)))) fuel :=
        fun members => Bounded.bind (Bounded.string _ _) fun key =>
          Bounded.bind (ih null) fun w => Bounded.pure _ _
      -- the tag is read first, which leaves one byte less for the rest
      apply Bounded.prim_bind
      intro t
      split
      · exact Bounded.pure _ _
      · exact Bounded.bind (Bounded.prim _ _) fun v => Bounded.pure _ _
      · exact Bounded.bind (Bounded.prim _ _) fun v => Bounded.pure _ _
      · exact Bounded.bind (Bounded.prim _ _) fun v => Bounded.pure _ _
      · exact Bounded.bind (Bounded.string _ _) fun v => Bounded.pure _ _
      · exact Bounded.bind (Bounded.prim _ _) fun v => Bounded.pure _ _
      · apply Bounded.bind (Bounded.size _ _)
        intro s
        exact Bounded.bind (Bounded.loop hitem s []) fun items => Bounded.pure _ _
      · apply Bounded.bind (Bounded.size _ _)
        intro s
        exact Bounded.bind (Bounded.loop hmember s []) fun members => Bounded.pure _ _
      · apply Bounded.bind (Bounded.size _ _)
        intro s
        apply Bounded.bind (Bounded.prim _ _)
        intro st
        exact Bounded.bind (Bounded.take _ _) fun v => Bounded.pure _ _
      · exact Bounded.throw _ _

/-- Decoding ends with a value or an exception, on any bytes. -/
theorem loadFresh_ne_depth (ar : Archive) (bs : Bytes) : loadFresh ar bs ≠ .error .depth :=
  (bounded_loadJSON ar (bs.length + 1) null bs (Nat.lt_succ_self _)).1

/-! ## What decoding makes of an encoded value -/

mutual

/-- The value with a subtype on every binary. -/
def restamp : Json → Json
  | binary b st => binary b (some (subtypeValue st))
  | array items => array (restampItems items)
  | object members => object (restampMembers members)
  | j => j

def restampItems : List Json → List Json
  | [] => []
  | j :: rest => restamp j :: restampItems rest

def restampMembers : List (Bytes × Json) → List (Bytes × Json)
  | [] => []
  | (k, j) :: rest => (k, restamp j) :: restampMembers rest

end

theorem saveItems_eq (ar : Archive) (items : List Json) :
    saveItems ar items = items.flatMap (saveJSON ar) := by
  induction items with
  | nil => rfl
  | cons j rest ih => rw [saveItems, ih, List.flatMap_cons]

theorem saveMembers_eq (ar : Archive) (members : List (Bytes × Json)) :
    saveMembers ar members
      = members.flatMap (fun p => putString ar.uint64 p.1 ++ saveJSON ar p.2) := by
  induction members with
  | nil => rfl
  | cons p rest ih =>
      obtain ⟨k, j⟩ := p
      rw [saveMembers, ih, List.flatMap_cons]

theorem restampItems_eq (items : List Json) : restampItems items = items.map restamp := by
  induction items with
  | nil => rfl
  | cons j rest ih => rw [restampItems, ih, List.map_cons]

theorem restampMembers_eq (members : List (Bytes × Json)) :
    restampMembers members = members.map (fun p => (p.1, restamp p.2)) := by
  induction members with
  | nil => rfl
  | cons p rest ih =>
      obtain ⟨k, j⟩ := p
      rw [restampMembers, ih, List.map_cons]

theorem saveJSON_pos (ar : Archive) (j : Json) : 0 < (saveJSON ar j).length := by
  have hc : 0 < ar.char.width := ar.char.width_pos
  cases j <;> simp only [saveJSON, List.length_append, ar.char.put_length] <;> omega

/-- The loop over the items of an array, once each item is read back. -/
theorem reads_items (ar : Archive) {k : Nat} (items : List Json)
    (each : ∀ j ∈ items, Reads (loadJSON ar k null) (saveJSON ar j) (restamp j)) :
    Reads (Reader.loop (fun items => do
        let w ← loadJSON ar k null
        pure (items ++ [w])) items.length [])
      (items.flatMap (saveJSON ar)) (items.map restamp) := by
  have hloop := Reads.loop
    (fun items => do
      let w ← loadJSON ar k null
      pure (items ++ [w]))
    (saveJSON ar) (fun items j => items ++ [restamp j]) items
    (fun acc j hj => Reads.map (f := fun w => acc ++ [w]) (each j hj)) []
  rw [foldl_snoc, List.nil_append] at hloop
  exact hloop

/-- The loop over the members of an object. The keys ascend, so each member is put behind those
already there. -/
theorem reads_members (ar : Archive) {k : Nat} {members : List (Bytes × Json)}
    (ascending : members.Pairwise fun p q => p.1 < q.1)
    (keys : ∀ p ∈ members, p.1.length < 2 ^ 64)
    (each : ∀ p ∈ members, Reads (loadJSON ar k null) (saveJSON ar p.2) (restamp p.2)) :
    Reads (Reader.loop (fun members => do
        let key ← readString ar.uint64
        let w ← loadJSON ar k null
        pure (StdMap.emplace key w members)) members.length [])
      (members.flatMap fun p => putString ar.uint64 p.1 ++ saveJSON ar p.2)
      (members.map fun p => (p.1, restamp p.2)) := by
  have hloop := Reads.loop
    (fun members => do
      let key ← readString ar.uint64
      let w ← loadJSON ar k null
      pure (StdMap.emplace key w members))
    (fun p : Bytes × Json => putString ar.uint64 p.1 ++ saveJSON ar p.2)
    (fun m p => StdMap.emplace p.1 (restamp p.2) m) members
    (fun acc p hp => Reads.bind (Reads.string ar.uint64 (keys p hp))
      (Reads.map (f := fun w => StdMap.emplace p.1 w acc) (each p hp))) []
  rw [StdMap.foldl_emplace restamp members [] ascending (by simp), List.nil_append] at hloop
  exact hloop

/-- **The codec.** What `saveJSON` wrote for a value, `loadJSON` reads as the restamped value,
whatever follows. The induction is on the value, and the fuel is the length of its encoding. -/
theorem reads_loadJSON (ar : Archive) {j : Json} (h : j.WellFormed) :
    ∀ fuel, (saveJSON ar j).length ≤ fuel →
      Reads (loadJSON ar fuel null) (saveJSON ar j) (restamp j) := by
  -- an encoding is never empty, so the fuel suffices for the call itself
  have hpos : ∀ j fuel, (saveJSON ar j).length ≤ fuel → ∃ k, fuel = k + 1 := by
    intro j fuel hf
    have := saveJSON_pos ar j
    exact ⟨fuel - 1, by omega⟩
  have hw := ar.char.width_pos
  induction h with
  | null =>
      intro fuel hf
      obtain ⟨k, rfl⟩ := hpos _ fuel hf
      have henc : saveJSON ar null = ar.char.put 0 ++ [] := (List.append_nil _).symm
      rw [henc]
      exact Reads.bind (Reads.prim ar.char 0) (Reads.pure null)
  | boolean b =>
      intro fuel hf
      obtain ⟨k, rfl⟩ := hpos _ fuel hf
      exact Reads.bind (Reads.prim ar.char 4) (Reads.map (f := boolean) (Reads.prim ar.boolean b))
  | numberInteger n =>
      intro fuel hf
      obtain ⟨k, rfl⟩ := hpos _ fuel hf
      exact Reads.bind (Reads.prim ar.char 5)
        (Reads.map (f := numberInteger) (Reads.prim ar.int64 n))
  | numberUnsigned n =>
      intro fuel hf
      obtain ⟨k, rfl⟩ := hpos _ fuel hf
      exact Reads.bind (Reads.prim ar.char 6)
        (Reads.map (f := numberUnsigned) (Reads.prim ar.uint64 n))
  | numberFloat x =>
      intro fuel hf
      obtain ⟨k, rfl⟩ := hpos _ fuel hf
      exact Reads.bind (Reads.prim ar.char 7)
        (Reads.map (f := numberFloat) (Reads.prim ar.float64 x))
  | string fits =>
      intro fuel hf
      obtain ⟨k, rfl⟩ := hpos _ fuel hf
      exact Reads.bind (Reads.prim ar.char 3) (Reads.map (f := string) (Reads.string _ fits))
  | @binary b st fits =>
      intro fuel hf
      obtain ⟨k, rfl⟩ := hpos _ fuel hf
      refine Reads.bind (Reads.prim ar.char 8) (Reads.bind (Reads.size ar.uint64 fits) ?_)
      exact Reads.bind (Reads.prim ar.uint64 (subtypeValue st))
        (Reads.map (f := fun v => binary v (some (subtypeValue st))) (Reads.take b))
  | @array items fits each ih =>
      intro fuel hf
      obtain ⟨k, rfl⟩ := hpos _ fuel hf
      simp only [saveJSON, saveItems_eq, restamp, restampItems_eq] at hf ⊢
      simp only [List.length_append, ar.char.put_length] at hf
      refine Reads.bind (Reads.prim ar.char 2) (Reads.bind (Reads.size ar.uint64 fits) ?_)
      -- the encoding of an element is a part of this one
      have hloop := reads_items ar items fun j hj => by
        have hj' := length_le_flatMap (saveJSON ar) hj
        exact ih j hj k (by omega)
      exact Reads.map (f := array) hloop
  | @object members fits ascending keys each ih =>
      intro fuel hf
      obtain ⟨k, rfl⟩ := hpos _ fuel hf
      simp only [saveJSON, saveMembers_eq, restamp, restampMembers_eq] at hf ⊢
      simp only [List.length_append, ar.char.put_length] at hf
      refine Reads.bind (Reads.prim ar.char 1) (Reads.bind (Reads.size ar.uint64 fits) ?_)
      have hloop := reads_members ar ascending keys fun p hp => by
        have hp' := length_le_flatMap
          (fun p : Bytes × Json => putString ar.uint64 p.1 ++ saveJSON ar p.2) hp
        simp only [List.length_append] at hp'
        exact ih p hp k (by omega)
      exact Reads.map (f := object) hloop

/-- Decoding an encoded value gives the restamped value and leaves what follows unread. -/
theorem loadFresh_saveJSON (ar : Archive) {j : Json} (h : j.WellFormed) :
    Reads (loadFresh ar) (saveJSON ar j) (restamp j) := by
  intro rest
  exact reads_loadJSON ar h _ (by simp only [List.length_append]; omega) rest

/-- Decoding changes a value exactly when one of its binaries has no subtype. -/
theorem restamp_eq_iff (j : Json) : restamp j = j ↔ j.allSubtyped = true := by
  induction j using Json.ind with
  | binary b st => cases st <;> simp [restamp, allSubtyped, subtypeValue]
  | array items ih =>
      rw [restamp, restampItems_eq, allSubtyped, allSubtypedItems_iff, array.injEq]
      constructor
      · intro h j hj
        exact (ih j hj).mp (map_eq_self_iff.mp h j hj)
      · intro h
        exact map_eq_self_iff.mpr fun j hj => (ih j hj).mpr (h j hj)
  | object members ih =>
      rw [restamp, restampMembers_eq, allSubtyped, allSubtypedMembers_iff, object.injEq]
      constructor
      · intro h p hp
        exact (ih p hp).mp (congrArg Prod.snd (map_eq_self_iff.mp h p hp))
      · intro h
        exact map_eq_self_iff.mpr fun p hp => Prod.ext rfl ((ih p hp).mpr (h p hp))
  | _ => simp [restamp, allSubtyped]

/-- **Round trip.** A value comes back from the wire unchanged, with what follows it unread,
if and only if every binary in it carries a subtype. -/
theorem loadFresh_saveJSON_eq_iff (ar : Archive) (j : JsonValue) (rest : Bytes) :
    loadFresh ar (saveJSON ar j.tree ++ rest) = .ok (j.tree, rest)
      ↔ j.tree.allSubtyped = true := by
  rw [loadFresh_saveJSON ar j.wellFormed rest, ← restamp_eq_iff]
  simp

/-- A binary without a subtype comes back with the subtype `2^64 - 1`. -/
theorem loadFresh_saveJSON_binary :
    ¬ ∀ (j : JsonValue) (rest : Bytes),
      loadFresh Archive.native (saveJSON Archive.native j.tree ++ rest)
        = .ok (j.tree, rest) := by
  intro h
  have hread : loadFresh Archive.native (saveJSON Archive.native (binary [7] none) ++ [])
      = .ok (binary [7] (some 18446744073709551615), []) := rfl
  have hbad := h ⟨binary [7] none, .binary none (by decide)⟩ []
  rw [hread] at hbad
  simp at hbad

/-! ## Targets -/

/-- What a value is decoded into, with the value it holds beforehand. -/
inductive Wrapper where
  | json (m_object : Json)
  | jsonRef (m_object : Json)
  | constJsonRef (m_object : Json)

def Wrapper.m_object : Wrapper → Json
  | json j => j
  | jsonRef j => j
  | constJsonRef j => j

/-- `load`, which is the same for the three wrappers. -/
def load (ar : Archive) (wrapper : Wrapper) : Load Json := fun bs =>
  loadJSON ar (bs.length + 1) wrapper.m_object bs

/-- The type byte a value starts with. -/
def typeByte (ar : Archive) (bs : Bytes) : UInt8 := ar.char.get (bs.take ar.char.width)

/-- Every type but that of null is assigned to the target. -/
theorem loadJSON_of_typeByte_ne {ar : Archive} {bs : Bytes} (h : typeByte ar bs ≠ 0) (fuel : Nat)
    (val val' : Json) : loadJSON ar fuel val bs = loadJSON ar fuel val' bs := by
  cases fuel with
  | zero => rfl
  | succ fuel =>
      by_cases hlen : ar.char.width ≤ bs.length
      · have ht : (Reader.prim ar.char : Load UInt8) bs
            = .ok (typeByte ar bs, bs.drop ar.char.width) := Reader.prim_of_le ar.char hlen
        rw [loadJSON, Reader.bind_of_ok ht, loadJSON, Reader.bind_of_ok ht]
        refine congrFun ?_ (bs.drop ar.char.width)
        generalize typeByte ar bs = t at h
        split
        · exact absurd rfl h
        all_goals rfl
      · have ht : (Reader.prim ar.char : Load UInt8) bs = .error .short :=
          Reader.prim_of_lt ar.char (by omega)
        rw [loadJSON, Reader.bind_of_error ht, loadJSON, Reader.bind_of_error ht]

/-- A null leaves the target as it was. -/
theorem loadJSON_of_typeByte_eq {ar : Archive} {bs : Bytes} (h : typeByte ar bs = 0)
    (hlen : ar.char.width ≤ bs.length) (fuel : Nat) (val : Json) :
    loadJSON ar (fuel + 1) val bs = .ok (val, bs.drop ar.char.width) := by
  have ht : (Reader.prim ar.char : Load UInt8) bs
      = .ok (typeByte ar bs, bs.drop ar.char.width) := Reader.prim_of_le ar.char hlen
  rw [loadJSON, Reader.bind_of_ok ht, h]
  rfl

/-- A value that is decoded has a type byte. -/
theorem typeByte_of_loadFresh {ar : Archive} {bs : Bytes} {r : Json × Bytes}
    (h : loadFresh ar bs = .ok r) : ar.char.width ≤ bs.length := by
  by_contra hlen
  have ht : (Reader.prim ar.char : Load UInt8) bs = .error .short :=
    Reader.prim_of_lt ar.char (by omega)
  rw [loadFresh, loadJSON, Reader.bind_of_error ht] at h
  cases h

/-- **Targets.** Where decoding succeeds, two targets end up the same, and as a fresh wrapper
does, if and only if what is decoded is no null or both held null beforehand. -/
theorem load_eq_load_iff (ar : Archive) (bs : Bytes) (r : Json × Bytes)
    (h : loadFresh ar bs = .ok r) (w₁ w₂ : Wrapper) :
    (load ar w₁ bs = load ar w₂ bs ∧ load ar w₁ bs = loadFresh ar bs) ↔
      typeByte ar bs ≠ 0 ∨ (w₁.m_object = null ∧ w₂.m_object = null) := by
  have hlen := typeByte_of_loadFresh h
  by_cases h0 : typeByte ar bs = 0
  · have hval : ∀ val, loadJSON ar (bs.length + 1) val bs = .ok (val, bs.drop ar.char.width) :=
      loadJSON_of_typeByte_eq h0 hlen bs.length
    rw [load, load, loadFresh, hval, hval, hval]
    simp only [Except.ok.injEq, Prod.mk.injEq, and_true, ne_eq, h0, not_true, false_or]
    constructor
    · rintro ⟨he, hnull⟩
      exact ⟨hnull, he ▸ hnull⟩
    · rintro ⟨h₁, h₂⟩
      exact ⟨h₁.trans h₂.symm, h₁⟩
  · constructor
    · intro _
      exact Or.inl h0
    · intro _
      exact ⟨loadJSON_of_typeByte_ne h0 _ _ _, loadJSON_of_typeByte_ne h0 _ _ _⟩

/-- An object with an array in it, where a null and a string are. -/
def objectWithNull : Json := object [(text "k", array [null, boolean true, string (text "s")])]

def nestedBytes : Bytes := saveJSON Archive.native objectWithNull

/-- It is decoded into whatever was there, a null inside of it as well. -/
theorem load_eq_load_nested :
    load Archive.native (.jsonRef (array [boolean false])) nestedBytes
        = load Archive.native (.json (string (text "old"))) nestedBytes ∧
      load Archive.native (.jsonRef (array [boolean false])) nestedBytes
        = loadFresh Archive.native nestedBytes :=
  (load_eq_load_iff Archive.native nestedBytes (objectWithNull, []) rfl _ _).mpr
    (.inl (by decide))

/-- A null is decoded into a target that holds `true`, which stays. -/
theorem load_null_keeps_target :
    ¬ ∀ (bs : Bytes) (r : Json × Bytes), loadFresh Archive.native bs = .ok r →
      ∀ w₁ w₂ : Wrapper, load Archive.native w₁ bs = load Archive.native w₂ bs ∧
        load Archive.native w₁ bs = loadFresh Archive.native bs := by
  intro h
  have hbad := (h [0] (null, []) rfl (.jsonRef (boolean true)) (.json null)).1
  have hleft : load Archive.native (.jsonRef (boolean true)) [0] = .ok (boolean true, []) := rfl
  have hright : load Archive.native (.json null) [0] = .ok (null, []) := rfl
  rw [hleft, hright] at hbad
  cases hbad

end Poesie
