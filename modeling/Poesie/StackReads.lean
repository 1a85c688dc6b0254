import Poesie.StackValues

set_option autoImplicit false

/-! # Values read from the stack

What `dukValueToJSON` finds at a slot where a value lies that was made of fresh objects. It is
the JSON value that the value stands for, and the stack is left as it was.
-/

namespace Poesie

open Wire Json SharedPtr Outcomes

/-! ## Keys that are enumerated -/

theorem arrayIndex_indexKey {i : Nat} (h : i < 2 ^ 32 - 1) : arrayIndex (indexKey i) = some i := by
  have hvalue : (indexKey i).foldl (fun n c => 10 * n + (c.toNat - 48)) 0 = i := by
    rw [indexKey, Nat.toString_eq_repr]
    exact foldl_text_repr i
  rw [arrayIndex, hvalue, if_pos ⟨rfl, h⟩]

theorem keys_elements (vs : List DukValue) :
    (elements vs).map Prod.fst = (List.range vs.length).map indexKey := by
  rw [elements, List.map_map, List.range_eq_range', ← List.zipIdx_map_snd 0 vs, List.map_map]
  rfl

theorem distinct_elements (vs : List DukValue) : StdMap.Distinct (elements vs) := by
  rw [StdMap.distinct_iff, keys_elements]
  exact List.nodup_range.map fun _ _ h => indexKey_injective h

theorem isSymbol_indexKey (i : Nat) : isSymbol (indexKey i) = false := by
  unfold isSymbol
  cases hkey : indexKey i with
  | nil => rfl
  | cons b rest =>
      have hdigit : 48 ≤ b.toNat ∧ b.toNat ≤ 57 := by
        refine digit_of_mem_text_repr (n := i) b ?_
        rw [← Nat.toString_eq_repr, show text (toString i) = b :: rest from hkey]
        exact List.mem_cons_self
      have hne : b ≠ 0xff := by
        rintro rfl
        exact absurd hdigit.2 (by decide)
      have hlow : ¬ (0x80 : UInt8) ≤ b := by
        rw [UInt8.le_iff_toNat_le]
        exact fun h => absurd (Nat.le_trans h hdigit.2) (by decide)
      simp [hne, hlow]

/-- The first byte of a text in UTF-8 is not that of a symbol. -/
theorem isSymbol_of_utf8 {k : Bytes} (h : Utf8 k) : isSymbol k = false := by
  unfold isSymbol
  cases k with
  | nil => rfl
  | cons b rest =>
      have hfirst : b.IsUTF8FirstByte := h.isUTF8FirstByte_getElem_zero (Nat.succ_pos rest.length)
      rw [List.head?_cons, Option.any_some]
      by_contra hsymbol
      rw [Bool.not_eq_false] at hsymbol
      have hcases : b = 0xff ∨ b = 0x80 ∨ b = 0x81 ∨ b = 0x82 := by
        simp only [Bool.or_eq_true, Bool.and_eq_true, beq_iff_eq, decide_eq_true_eq,
          UInt8.le_iff_toNat_le, ← UInt8.toNat_inj] at hsymbol ⊢
        simp at hsymbol ⊢
        omega
      rcases hcases with rfl | rfl | rfl | rfl <;> exact absurd hfirst (by decide)

theorem eraseDups_eq_self {α : Type} [BEq α] [LawfulBEq α] {xs : List α} (h : xs.Nodup) :
    xs.eraseDups = xs := by
  induction xs with
  | nil => rfl
  | cons x xs ih =>
      obtain ⟨hx, hxs⟩ := List.nodup_cons.mp h
      have hfilter : xs.filter (fun y => !y == x) = xs := by
        rw [List.filter_eq_self]
        intro y hy
        have hne : y ≠ x := fun heq => hx (heq ▸ hy)
        simpa using hne
      rw [List.eraseDups_cons, hfilter, ih hxs]

namespace DukHeap

variable {h : DukHeap} {o : Nat} {isArray : Bool} {es : List (Bytes × DukValue)}

theorem sortEnumKeys_perm (keys : List Bytes) : (sortEnumKeys keys).Perm keys :=
  List.perm_insertionSort _ _

/-- An object lists its own keys. -/
theorem enumKeys_object (hobject : h.objects o = h.freshObject false (es.map plain))
    (distinct : StdMap.Distinct es) : (h.enumKeys false o).Perm (es.map Prod.fst) := by
  have hkeys : (((es.map plain).filter fun e =>
      e.2.enumerable && (!false || (arrayIndex e.1).isSome)).map (·.1)) = es.map Prod.fst := by
    rw [List.filter_eq_self.mpr, keys_plain]
    intro e he
    obtain ⟨e', -, rfl⟩ := List.mem_map.mp he
    rfl
  have hnodup : (sortEnumKeys (es.map Prod.fst)).Nodup :=
    (sortEnumKeys_perm _).nodup_iff.mpr (StdMap.distinct_iff.mp distinct)
  have hlist : h.enumKeys false o = sortEnumKeys (es.map Prod.fst) := by
    unfold enumKeys
    rw [if_neg Bool.false_ne_true]
    dsimp only
    rw [List.flatMap_singleton, hobject]
    dsimp only [freshObject]
    rw [hkeys, eraseDups_eq_self hnodup]
  rw [hlist]
  exact sortEnumKeys_perm _

/-- An array lists its indices in order. -/
theorem enumKeys_array {vs : List DukValue} (hpristine : h.Pristine)
    (hobject : h.objects o = h.freshObject true ((elements vs).map plain))
    (hcount : vs.length < 2 ^ 31) : h.enumKeys true o = (elements vs).map Prod.fst := by
  have hindex : ∀ i ∈ List.range vs.length, arrayIndex (indexKey i) = some i := fun i hi =>
    arrayIndex_indexKey (by have := List.mem_range.mp hi; omega)
  have hkeys : ((((elements vs).map plain).filter fun e =>
      e.2.enumerable && (!true || (arrayIndex e.1).isSome)).map (·.1))
        = (elements vs).map Prod.fst := by
    rw [List.filter_eq_self.mpr, keys_plain]
    intro e he
    have hmem : e.1 ∈ (elements vs).map Prod.fst := by
      rw [← keys_plain]
      exact List.mem_map_of_mem he
    rw [keys_elements] at hmem
    obtain ⟨i, hi, hkey⟩ := List.mem_map.mp hmem
    obtain ⟨e', -, rfl⟩ := List.mem_map.mp he
    rw [← hkey, hindex i hi]
    rfl
  have hsorted : sortEnumKeys ((elements vs).map Prod.fst) = (elements vs).map Prod.fst := by
    refine List.Pairwise.insertionSort_eq ?_
    rw [keys_elements, List.pairwise_map]
    refine List.pairwise_lt_range.imp_of_mem fun {i k} hi hk hlt => ?_
    rw [hindex i hi, hindex k hk]
    exact Nat.le_of_lt hlt
  -- the prototypes of an array have no indices that are listed
  have hrest : (h.freshPrototypes true).flatMap (fun p =>
      sortEnumKeys (((h.objects p).own.filter fun e =>
        e.2.enumerable && (!true || (arrayIndex e.1).isSome)).map (·.1))) = [] := by
    rw [List.flatMap_eq_nil_iff]
    intro p hp
    have hnone : ((h.objects p).own.filter fun e =>
        e.2.enumerable && (!true || (arrayIndex e.1).isSome)) = [] := by
      rw [List.filter_eq_nil_iff]
      intro e he hlisted
      rw [Bool.not_true, Bool.false_or, Bool.and_eq_true] at hlisted
      rw [hpristine.unlisted p hp e he hlisted.1] at hlisted
      exact Bool.false_ne_true hlisted.2
    rw [hnone]
    rfl
  have hnodup : ((elements vs).map Prod.fst).Nodup := StdMap.distinct_iff.mp (distinct_elements vs)
  have hchain : h.chain o = o :: h.freshPrototypes true := by
    rw [chain, hobject]
    rfl
  unfold enumKeys
  rw [if_pos rfl, hchain]
  dsimp only
  rw [List.flatMap_cons, hrest, List.append_nil, hobject]
  dsimp only [freshObject]
  rw [hkeys, hsorted, eraseDups_eq_self hnodup]

theorem lookup_plain (distinct : StdMap.Distinct es) {e : Bytes × DukValue} (he : e ∈ es) :
    (es.map plain).lookup e.1 = some ⟨.data e.2 true, true⟩ := by
  induction es with
  | nil => cases he
  | cons e' es ih =>
      obtain ⟨hne, hrest⟩ := List.pairwise_cons.mp distinct
      rw [List.map_cons, List.lookup_cons]
      rcases List.mem_cons.mp he with rfl | he
      · rw [show (plain e).1 = e.1 from rfl, beq_self_eq_true]
        rfl
      · have hkey : (e.1 == (plain e').1) = false := beq_false_of_ne (hne e he).symm
        rw [hkey]
        exact ih hrest he

/-- An own property is found at once. -/
theorem find_own (hobject : h.objects o = h.freshObject isArray (es.map plain))
    (distinct : StdMap.Distinct es) {e : Bytes × DukValue} (he : e ∈ es) :
    h.find e.1 prototypeChainSanity (h.chain o) = .property o ⟨.data e.2 true, true⟩ := by
  have hlookup : (h.objects o).own.lookup e.1 = some ⟨.data e.2 true, true⟩ := by
    rw [hobject]
    exact lookup_plain distinct he
  unfold chain find
  rw [hlookup]

end DukHeap

namespace Duk

variable {c : DukCode} {h : DukHeap} {o : Nat} {isArray : Bool} {es : List (Bytes × DukValue)}

/-- The property is still there, it holds the value, and nothing is run to read it. -/
structure Listed (c : DukCode) (w : DukWorld) (o : Nat) (e : Bytes × DukValue) : Prop where
  found : ∀ rest, w.1.nextKey o (e.1 :: rest) = some (e.1, rest)
  source : w.1.source o e.1 = .plain
  read : (getProp c o e.1).Gives w (true, e.2) w

theorem listed_of_fresh (hobject : h.objects o = h.freshObject isArray (es.map DukHeap.plain))
    (distinct : StdMap.Distinct es) {e : Bytes × DukValue} (he : e ∈ es) (m : Heap) :
    Listed c (h, m) o e := by
  have hfind := DukHeap.find_own hobject distinct he
  have hproxy : (h.objects o).proxy = none := by
    rw [hobject]
    rfl
  refine ⟨fun rest => ?_, ?_, ?_⟩
  · rw [DukHeap.nextKey, DukHeap.hasProp, hfind, Bool.or_true, if_pos rfl]
  · rw [DukHeap.source, hproxy, if_neg (by simp), DukHeap.read, hfind]
  · unfold Prog.Gives
    rw [getProp_of_not_proxy hproxy, getPlain, DukHeap.read, hfind]

/-- The keys of a fresh object are enumerated, and read from the object itself. -/
theorem gives_enumerate {indicesOnly : Bool}
    (hobject : h.objects o = h.freshObject isArray (es.map DukHeap.plain)) (m : Heap) :
    (enumerate c indicesOnly o).Gives (h, m) (o, h.enumKeys indicesOnly o) (h, m) := by
  have hproxy : (h.objects o).proxy = none := by
    rw [hobject]
    rfl
  refine Prog.gives_bind_iff.mpr ⟨none, (h, m), ?_, rfl⟩
  rw [← hproxy]
  exact gives_inspect _ _

end Duk

namespace DukStack

/-! ## Room -/

section

variable (z : DukSizes)

mutual

/-- For how many values the stack must have room when a value is read. A container needs it for
its enumerator, on top of that for each key with its value and what is nested in this, and for the
end of the enumeration. -/
def readNeed : Json → Nat
  | array items => max (z.room (.enum false)) (1 + itemsReadNeed items)
  | object members => max (z.room (.enum false)) (1 + membersReadNeed members)
  | _ => 0

def itemsReadNeed : List Json → Nat
  | [] => z.room .exhausted
  | j :: rest => max (max (z.room (.next .plain)) (2 + readNeed j)) (itemsReadNeed rest)

def membersReadNeed : List (Bytes × Json) → Nat
  | [] => z.room .exhausted
  | (_, j) :: rest => max (max (z.room (.next .plain)) (2 + readNeed j)) (membersReadNeed rest)

end

end

mutual

/-- How many calls of `dukValueToJSON` are inside of one another. -/
def nesting : Json → Nat
  | array items => 1 + itemsNesting items
  | object members => 1 + membersNesting members
  | _ => 1

def itemsNesting : List Json → Nat
  | [] => 0
  | j :: rest => max (nesting j) (itemsNesting rest)

def membersNesting : List (Bytes × Json) → Nat
  | [] => 0
  | (_, j) :: rest => max (nesting j) (membersNesting rest)

end

variable {c : DukCode} {z : DukSizes} {t : DukThread}

theorem add_itemsReadNeed_le_iff (n limit : Nat) (items : List Json) :
    n + itemsReadNeed z items ≤ limit ↔ n + z.room .exhausted ≤ limit ∧
      ∀ j ∈ items, n + z.room (.next .plain) ≤ limit ∧ n + 2 + readNeed z j ≤ limit := by
  induction items with
  | nil => simp [itemsReadNeed]
  | cons j rest ih =>
      rw [itemsReadNeed, List.forall_mem_cons, and_left_comm, ← ih]
      omega

theorem add_membersReadNeed_le_iff (n limit : Nat) (members : List (Bytes × Json)) :
    n + membersReadNeed z members ≤ limit ↔ n + z.room .exhausted ≤ limit ∧
      ∀ p ∈ members, n + z.room (.next .plain) ≤ limit ∧ n + 2 + readNeed z p.2 ≤ limit := by
  induction members with
  | nil => simp [membersReadNeed]
  | cons p rest ih =>
      rw [membersReadNeed, List.forall_mem_cons, and_left_comm, ← ih]
      omega

theorem itemsNesting_le_iff (depth : Nat) (items : List Json) :
    itemsNesting items ≤ depth ↔ ∀ j ∈ items, nesting j ≤ depth := by
  induction items with
  | nil => simp [itemsNesting]
  | cons j rest ih => rw [itemsNesting, List.forall_mem_cons, Nat.max_le, ih]

theorem membersNesting_le_iff (depth : Nat) (members : List (Bytes × Json)) :
    membersNesting members ≤ depth ↔ ∀ p ∈ members, nesting p.2 ≤ depth := by
  induction members with
  | nil => simp [membersNesting]
  | cons p rest ih => rw [membersNesting, List.forall_mem_cons, Nat.max_le, ih]

/-- What can be read could be pushed. -/
theorem pushNeed_le (j : Json) : pushNeed z j ≤ 1 + readNeed z j := by
  have hput : putNeed z ≤ z.room (.next .plain) := Nat.max_le.mpr ⟨z.put_le _, z.put_le _⟩
  induction j using Json.ind with
  | array items ih =>
      have hitems : itemsNeed z items ≤ 1 + itemsReadNeed z items := by
        induction items with
        | nil => exact Nat.zero_le _
        | cons j rest ihrest =>
            have hfirst := ih j (by simp)
            have hrest := ihrest fun i hi => ih i (by simp [hi])
            rw [itemsNeed, itemsReadNeed]
            omega
      rw [pushNeed, readNeed]
      omega
  | object members ih =>
      have hmembers : membersNeed z members ≤ 1 + membersReadNeed z members := by
        induction members with
        | nil => exact Nat.zero_le _
        | cons p rest ihrest =>
            have hfirst := ih p (by simp)
            have hrest := ihrest fun q hq => ih q (by simp [hq])
            rw [membersNeed, membersReadNeed]
            omega
      rw [pushNeed, readNeed]
      omega
  | _ => exact Nat.le_add_right 1 _

/-! ## The loop -/

theorem gives_replace_top {w : DukWorld} {below : List DukItem} (item item' : DukItem) :
    (replace (-1) item').Gives ⟨w, below ++ [item]⟩ () ⟨w, below ++ [item']⟩ := by
  have hindex : normalize (-1) (below ++ [item]).length = some below.length := by
    rw [List.length_append, List.length_singleton]
    exact normalize_of_neg (i := 1) (by omega) (by omega)
  unfold Prog.Gives replace
  dsimp only
  rw [hindex]
  simp

/-- A key and its value are pushed. -/
theorem exactly_next {w : DukWorld} {o : Nat} {e : Bytes × DukValue}
    (hlisted : Duk.Listed c w o e) (below : List DukItem) (rest : List Bytes) :
    (next c z (-1)).Exactly ⟨w, below ++ [DukItem.enumerator o (e.1 :: rest)]⟩
      (below.length + 1 + z.room .exhausted ≤ w.1.limit ∧
        below.length + 1 + z.room (.next .plain) ≤ w.1.limit) fun found t' => found = true ∧
          t' = ⟨w, below ++ [DukItem.enumerator o rest, .value (.string e.1), .value e.2]⟩ := by
  have hkey : (Duk.inspect fun h => h.nextKey o (e.1 :: rest)).Gives w (some (e.1, rest)) w := by
    rw [← hlisted.found rest]
    exact Duk.gives_inspect _ w
  refine .bind_of_gives (gives_itemAt_top rfl) ?_
  refine ((exactly_needFor fun _ => .exhausted).bind
    (D := below.length + 1 + z.room (.next .plain) ≤ w.1.limit) fun _ t' ht => ?_).congr ?_
      fun _ _ h => h
  · rw [ht]
    refine .bind_of_gives (gives_inWorld hkey) (.bind_of_gives (gives_replace_top _ _) ?_)
    refine ((exactly_needFor fun h => .next (h.source o e.1)).bind (D := True)
      fun _ t' ht => ?_).congr ?_ fun _ _ h => h
    · rw [ht]
      refine .bind_of_gives (gives_inWorld hlisted.read) (.of_gives rfl ⟨rfl, ?_⟩)
      simp
    · rw [and_true, hlisted.source]
      simp
  · simp

/-- After the last key, nothing is pushed. -/
theorem exactly_next_nil {w : DukWorld} {below : List DukItem} {o : Nat} :
    (next c z (-1)).Exactly ⟨w, below ++ [DukItem.enumerator o []]⟩
      (below.length + 1 + z.room .exhausted ≤ w.1.limit) fun found t' => found = false ∧
        t' = ⟨w, below ++ [DukItem.enumerator o []]⟩ := by
  refine .bind_of_gives (gives_itemAt_top rfl) ?_
  refine ((exactly_needFor fun _ => .exhausted).bind (D := True) fun _ t' ht => ?_).congr ?_
    fun _ _ h => h
  · rw [ht]
    have hkey : (Duk.inspect fun h => h.nextKey o []).Gives w none w := rfl
    refine .bind_of_gives (gives_inWorld hkey) (.bind_of_gives (gives_replace_top _ _) ?_)
    exact .of_gives rfl ⟨rfl, rfl⟩
  · simp

/-- The loop reads one entry after the other, if the body leaves the stack as it was before the
entry was pushed. -/
theorem exactly_whileNext {ι ρ β : Type} {P : ι → Bytes × DukValue → Prop} {S : ι → ρ → Prop}
    {C : ι → Prop} {add : β → ρ → β} {body : β → DukStack β} {w : DukWorld}
    {below : List DukItem} {o : Nat} {xs : List ι} {entries : List (Bytes × DukValue)}
    (hentries : List.Forall₂ P xs entries) (hlisted : ∀ e ∈ entries, Duk.Listed c w o e)
    (hbody : below.length + 1 + z.room (.next .plain) ≤ w.1.limit → ∀ x ∈ xs, ∀ e, P x e →
      ∀ keys out, (body out).Exactly
        ⟨w, below ++ [DukItem.enumerator o keys, .value (.string e.1), .value e.2]⟩ (C x)
        fun out' t' => t' = ⟨w, below ++ [DukItem.enumerator o keys]⟩ ∧
          ∃ r, S x r ∧ out' = add out r)
    {n : Nat} (hn : entries.length < n) (out : β) :
    (whileNext c z body n out).Exactly ⟨w, below ++ [DukItem.enumerator o (entries.map Prod.fst)]⟩
      (below.length + 1 + z.room .exhausted ≤ w.1.limit ∧
        ∀ x ∈ xs, below.length + 1 + z.room (.next .plain) ≤ w.1.limit ∧ C x) fun out' t' =>
          t' = ⟨w, below ++ [DukItem.enumerator o []]⟩ ∧
            ∃ rs, List.Forall₂ S xs rs ∧ out' = rs.foldl add out := by
  induction hentries generalizing n out with
  | nil =>
      obtain ⟨n, rfl⟩ : ∃ k, n = k + 1 := ⟨n - 1, by omega⟩
      rw [whileNext]
      refine (exactly_next_nil.bind (D := True) fun found t' h => ?_).congr (by simp)
        fun _ _ h => h
      rw [h.1, h.2]
      exact .pure ⟨rfl, [], .nil, rfl⟩
  | @cons x e xs entries hx hrest ih =>
      obtain ⟨n, rfl⟩ : ∃ k, n = k + 1 := ⟨n - 1, by omega⟩
      rw [List.length_cons] at hn
      have hrest := fun out => ih (fun e he => hlisted e (List.mem_cons_of_mem _ he))
        (fun hroom x hx => hbody hroom x (List.mem_cons_of_mem _ hx)) (n := n) (by omega) out
      rw [whileNext]
      refine ((exactly_next (hlisted e (by simp)) _ _).also.bind
        (D := C x ∧ below.length + 1 + z.room .exhausted ≤ w.1.limit ∧
          ∀ y ∈ xs, below.length + 1 + z.room (.next .plain) ≤ w.1.limit ∧ C y)
        fun found t' h => ?_).congr ?_ fun _ _ h => h
      · obtain ⟨⟨-, hroom⟩, rfl, rfl⟩ := h
        rw [if_pos rfl]
        refine (hbody hroom x (by simp) e hx _ out).bind fun out' t' h => ?_
        obtain ⟨rfl, r, hr, rfl⟩ := h
        refine (hrest (add out r)).congr Iff.rfl ?_
        rintro out' t' ⟨ht, rs, hrs, hout⟩
        exact ⟨ht, r :: rs, .cons hr hrs, hout⟩
      · rw [List.forall_mem_cons]
        tauto

/-! ## Reading a value -/

variable (c z) in
/-- At any slot where the value lies it is read, exactly if both stacks have room, and the stack
is left as it is. -/
def ReadsBack (j : Json) : Prop := ∀ (t : DukThread) (index : Int) (depth lo : Nat) (v : DukValue),
  t.world.1.Pristine → Holds t.world.1 lo j v →
  (itemAt index).Gives t (some (.value v)) t → t.stack.length ≤ t.world.1.limit →
  (dukValueToJSON c z depth index).Exactly t
    (t.stack.length + readNeed z j ≤ t.world.1.limit ∧ nesting j ≤ depth) fun out t' =>
      t' = t ∧ out.normal ofFloat = j.normal ofFloat

theorem readsBack_scalar {j : Json} (hj : j.Scalar) (hkept : Kept j) : ReadsBack c z j := by
  intro t index depth lo v _ hholds hslot hroom
  have hneed : readNeed z j = 0 ∧ nesting j = 1 := by
    cases j with
    | array items => exact absurd hj id
    | object members => exact absurd hj id
    | _ => exact ⟨rfl, rfl⟩
  cases depth with
  | zero => exact .stuck fun h => by omega
  | succ depth =>
      obtain rfl : v = dukScalar j := (holds_scalar_iff hj).mp hholds
      rw [dukValueToJSON]
      refine .bind_of_gives hslot ?_
      have hdone : ∀ out : Json, out.normal ofFloat = j.normal ofFloat →
          (Pure.pure out : DukStack Json).Exactly t
            (t.stack.length + readNeed z j ≤ t.world.1.limit ∧ nesting j ≤ depth + 1)
            fun out t' => t' = t ∧ out.normal ofFloat = j.normal ofFloat := by
        intro out hout
        refine (Prog.Exactly.pure
          (Q := fun out t' => t' = t ∧ out.normal ofFloat = j.normal ofFloat)
          ⟨rfl, hout⟩).congr (iff_of_true trivial ?_) fun _ _ h => h
        omega
      cases j with
      | array items => exact absurd hj id
      | object members => exact absurd hj id
      | binary b st => exact absurd hj id
      | null => exact hdone null rfl
      | boolean b => exact hdone (boolean b) rfl
      | numberInteger n =>
          refine hdone (numberFloat (.ofInt n.toInt)) ?_
          exact (ofFloat_ofInt hkept.integers).trans (integer_of_int64 n)
      | numberUnsigned n =>
          exact hdone (numberFloat (.ofInt n.toNat)) (ofFloat_ofInt hkept.integers)
      | numberFloat x => exact hdone (numberFloat x) rfl
      | string s =>
          refine hdone (string (cString s)) ?_
          rw [cString_of_notMem hkept.texts.1]

theorem gives_isArray {o : Nat} {isArray : Bool} {own : List (Bytes × DukProperty)}
    (hobject : t.world.1.objects o = t.world.1.freshObject isArray own) :
    (inWorld (Duk.inspect fun h => (h.objects o).isArray)).Gives t isArray t := by
  have harray : (t.world.1.objects o).isArray = isArray := by
    rw [hobject]
    rfl
  unfold Prog.Gives inWorld Duk.inspect
  dsimp only
  rw [harray]

/-- The enumerator of a fresh object. -/
theorem exactly_enumerate {index : Int} {o : Nat} {isArray indicesOnly : Bool}
    {es : List (Bytes × DukValue)} {keys : List Bytes}
    (hslot : (itemAt index).Gives t (some (.value (.object o))) t)
    (hobject : t.world.1.objects o = t.world.1.freshObject isArray (es.map DukHeap.plain))
    (hkeys : t.world.1.enumKeys indicesOnly o = keys) (htexts : ∀ k ∈ keys, isSymbol k = false) :
    (enumerate c z index indicesOnly).Exactly t
      (t.stack.length + z.room (.enum false) ≤ t.world.1.limit)
      fun _ t' => t' = ⟨t.world, t.stack ++ [DukItem.enumerator o keys]⟩ := by
  have hfilter : keys.filter (fun k => !isSymbol k) = keys := by
    rw [List.filter_eq_self]
    intro k hk
    rw [htexts k hk]
    rfl
  have hproxy : (t.world.1.objects o).proxy.isSome = false := by
    rw [hobject]
    rfl
  have hcopy : (copyKeys z o).Gives t () t := by
    refine Prog.gives_bind_iff.mpr ⟨false, t, ?_, rfl⟩
    rw [← hproxy]
    exact gives_inWorld (Duk.gives_inspect (fun h => (h.objects o).proxy.isSome) t.world)
  refine .bind_of_gives hslot ?_
  refine ((exactly_needFor fun h => .enum (h.objects o).proxy.isSome).bind (D := True)
    fun _ t' ht => ?_).congr (by rw [and_true, hproxy]) fun _ _ h => h
  rw [ht]
  refine .bind_of_gives (gives_inWorld (Duk.gives_enumerate hobject t.world.2))
    (.bind_of_gives hcopy (.of_gives rfl ?_))
  rw [hkeys, hfilter]

theorem gives_rounds {w : DukWorld} {below : List DukItem} {o : Nat} {keys : List Bytes} :
    rounds.Gives ⟨w, below ++ [DukItem.enumerator o keys]⟩ (keys.length + 1)
      ⟨w, below ++ [DukItem.enumerator o keys]⟩ :=
  Prog.gives_bind_iff.mpr ⟨_, _, gives_itemAt_top rfl, rfl⟩

/-- An entry is read and popped. -/
theorem exactly_readEntry {β : Type} {below : List DukItem} {o depth lo : Nat}
    {keys : List Bytes} {k : Bytes} {v : DukValue} {j : Json} (hj : ReadsBack c z j)
    (hpristine : t.world.1.Pristine) (hholds : Holds t.world.1 lo j v)
    (hstack : t.stack = below ++ [DukItem.enumerator o keys, .value (.string k), .value v])
    (hroom : below.length + 1 + z.room (.next .plain) ≤ t.world.1.limit) (f : Json → β) :
    Prog.Exactly
      (dukValueToJSON c z depth (-1) >>= fun out => pop 2 >>= fun _ => Pure.pure (f out)) t
      (below.length + 1 + 2 + readNeed z j ≤ t.world.1.limit ∧ nesting j ≤ depth) fun b t' =>
        t' = ⟨t.world, below ++ [DukItem.enumerator o keys]⟩ ∧
          ∃ out, out.normal ofFloat = j.normal ofFloat ∧ b = f out := by
  have hnext := z.next_pos .plain
  have hlength : t.stack.length = below.length + 3 := by rw [hstack]; simp
  have hentry : t.stack = (below ++ [DukItem.enumerator o keys])
      ++ [DukItem.value (.string k), .value v] := by rw [hstack]; simp
  have hvalue : t.stack = (below ++ [DukItem.enumerator o keys, .value (.string k)])
      ++ [DukItem.value v] := by rw [hstack]; simp
  have hread := hj t (-1) depth lo v hpristine hholds (gives_itemAt_top hvalue) (by omega)
  refine (hread.bind (D := True) fun out t' h => ?_).congr ?_ fun _ _ h => h
  · rw [h.1]
    exact .bind_of_gives (gives_pop _ [.value (.string k), .value v] hentry rfl)
      (.pure ⟨rfl, out, h.2, rfl⟩)
  · rw [and_true, hlength]

/-- The loop over what a container holds, between its enumerator and the `pop` of it. -/
theorem exactly_readContainer {ι ρ β : Type} {P : ι → Bytes × DukValue → Prop}
    (S : ι → ρ → Prop) (C : ι → Prop) (add : β → ρ → β) {body : β → DukStack β}
    {index : Int} {o : Nat} {isArray indicesOnly : Bool} {es entries : List (Bytes × DukValue)}
    {xs : List ι}
    (hslot : (itemAt index).Gives t (some (.value (.object o))) t)
    (hobject : t.world.1.objects o = t.world.1.freshObject isArray (es.map DukHeap.plain))
    (distinct : StdMap.Distinct es) (hentries : List.Forall₂ P xs entries)
    (hperm : entries.Perm es)
    (hkeys : t.world.1.enumKeys indicesOnly o = entries.map Prod.fst)
    (htexts : ∀ e ∈ entries, isSymbol e.1 = false)
    (hbody : t.stack.length + 1 + z.room (.next .plain) ≤ t.world.1.limit → ∀ x ∈ xs, ∀ e,
      P x e → ∀ keys out, (body out).Exactly
        ⟨t.world, t.stack ++ [DukItem.enumerator o keys, .value (.string e.1), .value e.2]⟩ (C x)
        fun out' t' =>
          t' = ⟨t.world, t.stack ++ [DukItem.enumerator o keys]⟩ ∧ ∃ r, S x r ∧ out' = add out r)
    (out : β) (f : β → Json) :
    Prog.Exactly (do
      enumerate c z index indicesOnly
      let n ← rounds
      let out ← whileNext c z body n out
      pop 1
      Pure.pure (f out)) t
      (t.stack.length + z.room (.enum false) ≤ t.world.1.limit ∧
        t.stack.length + 1 + z.room .exhausted ≤ t.world.1.limit ∧
        ∀ x ∈ xs, t.stack.length + 1 + z.room (.next .plain) ≤ t.world.1.limit ∧ C x) fun j t' =>
          t' = t ∧ ∃ rs, List.Forall₂ S xs rs ∧ j = f (rs.foldl add out) := by
  have htexts' : ∀ k ∈ entries.map Prod.fst, isSymbol k = false := by
    intro k hk
    obtain ⟨e, he, rfl⟩ := List.mem_map.mp hk
    exact htexts e he
  have hlisted : ∀ e ∈ entries, Duk.Listed c t.world o e :=
    fun e he => Duk.listed_of_fresh hobject distinct (hperm.mem_iff.mp he) t.world.2
  refine (exactly_enumerate hslot hobject hkeys htexts').bind fun _ t' h => ?_
  rw [h]
  refine .bind_of_gives gives_rounds ?_
  refine ((exactly_whileNext hentries hlisted hbody (by simp) out).bind
    (D := True) fun out' t' h => ?_).congr (and_true _).to_iff fun _ _ h => h
  obtain ⟨rfl, rs, hrs, rfl⟩ := h
  exact .bind_of_gives (gives_pop t.stack [.enumerator o []] rfl rfl)
    (.pure ⟨rfl, rs, hrs, rfl⟩)

/-- What is asked of each element is asked of the whole. -/
theorem room_iff {ι : Type} {xs : List ι} {n enum rest need nested depth limit : Nat}
    {next : Prop} {room deep : ι → Prop}
    (hlist : n + 1 + need ≤ limit ↔ n + 1 + rest ≤ limit ∧ ∀ x ∈ xs, next ∧ room x)
    (hdeep : nested ≤ depth ↔ ∀ x ∈ xs, deep x) :
    (n + enum ≤ limit ∧ n + 1 + rest ≤ limit ∧ ∀ x ∈ xs, next ∧ room x ∧ deep x) ↔
      n + max enum (1 + need) ≤ limit ∧ 1 + nested ≤ depth + 1 := by
  have hboth : (∀ x ∈ xs, next ∧ room x ∧ deep x) ↔
      (∀ x ∈ xs, next ∧ room x) ∧ ∀ x ∈ xs, deep x :=
    ⟨fun h => ⟨fun x hx => ⟨(h x hx).1, (h x hx).2.1⟩, fun x hx => (h x hx).2.2⟩,
      fun h x hx => ⟨(h.1 x hx).1, (h.1 x hx).2, h.2 x hx⟩⟩
  rw [hboth, ← and_assoc (b := ∀ x ∈ xs, next ∧ room x), ← hlist, ← hdeep]
  omega

theorem readsBack_array {items : List Json} (hitems : ∀ j ∈ items, ReadsBack c z j)
    (hcounted : items.length < 2 ^ 31) : ReadsBack c z (array items) := by
  intro t index depth lo v hpristine hholds hslot hroom
  rw [readNeed, nesting]
  cases depth with
  | zero => exact .stuck fun h => by omega
  | succ depth =>
      obtain ⟨o, vs, -, -, rfl, hobject, hvalues⟩ := hholds
      rw [holdsItems_iff] at hvalues
      have hkeys := DukHeap.enumKeys_array hpristine hobject (hvalues.length_eq ▸ hcounted)
      have htexts : ∀ e ∈ elements vs, isSymbol e.1 = false := by
        intro e he
        obtain ⟨i, -, hkey⟩ := List.mem_map.mp (keys_elements vs ▸ List.mem_map_of_mem he)
        rw [← hkey]
        exact isSymbol_indexKey i
      -- an array lists its indices, so the values come in their order
      have hentries : List.Forall₂ (fun j (e : Bytes × DukValue) =>
          Holds t.world.1 (o + 1) j e.2) items (elements vs) := by
        have hvs : (elements vs).map Prod.snd = vs := by
          rw [elements, List.map_map]
          exact List.zipIdx_map_fst 0 vs
        rw [← hvs, List.forall₂_map_right_iff] at hvalues
        exact hvalues
      rw [dukValueToJSON]
      refine .bind_of_gives hslot (.bind_of_gives (gives_isArray hobject) ?_)
      rw [if_pos rfl]
      refine (exactly_readContainer (fun j out => out.normal ofFloat = j.normal ofFloat)
        (fun j => t.stack.length + 1 + 2 + readNeed z j ≤ t.world.1.limit ∧ nesting j ≤ depth)
        (fun out j => out ++ [j]) hslot hobject (distinct_elements vs) hentries (.refl _) hkeys
        htexts (fun hroom j hj e he keys out => exactly_readEntry
          (t := ⟨t.world, t.stack ++ [DukItem.enumerator o keys, .value (.string e.1), .value e.2]⟩)
          (hitems j hj) hpristine he rfl hroom fun j => out ++ [j]) [] array).congr ?_ ?_
      · have hlist := add_itemsReadNeed_le_iff (z := z) (t.stack.length + 1) t.world.1.limit items
        have hdeep := itemsNesting_le_iff depth items
        exact room_iff hlist hdeep
      · rintro - t' ⟨rfl, rs, hrs, rfl⟩
        rw [foldl_concat, List.nil_append]
        exact ⟨rfl, normal_array_of_forall₂ hrs⟩

/-- An entry of an object: its key is read before its value. -/
theorem exactly_readMember {below : List DukItem} {o depth lo : Nat} {keys : List Bytes}
    {k : Bytes} {v : DukValue} {p : Bytes × Json} (hj : ReadsBack c z p.2)
    (hkey : cString k = p.1) (hpristine : t.world.1.Pristine) (hholds : Holds t.world.1 lo p.2 v)
    (hstack : t.stack = below ++ [DukItem.enumerator o keys, .value (.string k), .value v])
    (hroom : below.length + 1 + z.room (.next .plain) ≤ t.world.1.limit)
    (out : List (Bytes × Json)) :
    Prog.Exactly (do
      let key ← getString (-2)
      let j ← dukValueToJSON c z depth (-1)
      pop 2
      Pure.pure (StdMap.assign key j out)) t
      (below.length + 1 + 2 + readNeed z p.2 ≤ t.world.1.limit ∧ nesting p.2 ≤ depth)
      fun out' t' =>
        t' = ⟨t.world, below ++ [DukItem.enumerator o keys]⟩ ∧ ∃ r : Bytes × Json,
          (r.1 = p.1 ∧ r.2.normal ofFloat = p.2.normal ofFloat) ∧
            out' = StdMap.assign r.1 r.2 out := by
  have hstring : (getString (-2)).Gives t p.1 t := by
    have hentry : t.stack = (below ++ [DukItem.enumerator o keys])
        ++ [DukItem.value (.string k), .value v] := by rw [hstack]; simp
    refine Prog.gives_bind_iff.mpr ⟨_, _, gives_itemAt_second hentry, ?_⟩
    rw [← hkey]
    rfl
  refine .bind_of_gives hstring ?_
  refine (exactly_readEntry hj hpristine hholds hstack hroom
    fun j => StdMap.assign p.1 j out).congr Iff.rfl ?_
  rintro out' t' ⟨ht, j, hread, rfl⟩
  exact ⟨ht, (p.1, j), ⟨rfl, hread⟩, rfl⟩

theorem readsBack_object {members : List (Bytes × Json)}
    (hmembers : ∀ p ∈ members, ReadsBack c z p.2) (hkeys : ∀ p ∈ members, 0 ∉ p.1 ∧ Utf8 p.1)
    (ascending : StdMap.Ascending members) : ReadsBack c z (object members) := by
  intro t index depth lo v hpristine hholds hslot hroom
  rw [readNeed, nesting]
  cases depth with
  | zero => exact .stuck fun h => by omega
  | succ depth =>
      obtain ⟨o, es, -, -, rfl, hobject, hvalues⟩ := hholds
      rw [holdsMembers_iff] at hvalues
      have distinct : StdMap.Distinct es := distinct_of_forall₂ ascending.distinct hvalues
      have hplain := key_of_forall₂ (P := fun k => 0 ∉ k ∧ Utf8 k) hkeys hvalues
      -- the entries in the order in which they are enumerated, and the members along with them
      obtain ⟨entries, hlisted, hperm⟩ : ∃ entries : List (Bytes × DukValue),
          t.world.1.enumKeys false o = entries.map Prod.fst ∧ entries.Perm es := by
        have h := DukHeap.enumKeys_object hobject distinct
        exact (congrFun₂ (List.eq_map_comp_perm Prod.fst) _ _).mpr h
      obtain ⟨listed, hentries, hmembersPerm⟩ := List.perm_comp_forall₂ hperm hvalues.flip
      rw [dukValueToJSON]
      refine .bind_of_gives hslot (.bind_of_gives (gives_isArray hobject) ?_)
      rw [if_neg Bool.false_ne_true]
      refine (exactly_readContainer
        (fun p (r : Bytes × Json) => r.1 = p.1 ∧ r.2.normal ofFloat = p.2.normal ofFloat)
        (fun p => t.stack.length + 1 + 2 + readNeed z p.2 ≤ t.world.1.limit ∧
          nesting p.2 ≤ depth)
        (fun m r => StdMap.assign r.1 r.2 m) hslot hobject distinct hentries.flip hperm hlisted
        (fun e he => isSymbol_of_utf8 (hplain e (hperm.mem_iff.mp he)).2)
        (fun hroom p hp e he keys out => ?_) [] object).congr ?_ ?_
      · have hmem : p ∈ members := hmembersPerm.mem_iff.mp hp
        have hkey : cString e.1 = p.1 := by
          rw [he.1]
          exact cString_of_notMem (hkeys p hmem).1
        exact exactly_readMember
          (t := ⟨t.world, t.stack ++ [DukItem.enumerator o keys, .value (.string e.1), .value e.2]⟩)
          (hmembers p hmem) hkey hpristine he.2 rfl hroom out
      · have hlist := add_membersReadNeed_le_iff (z := z) (t.stack.length + 1) t.world.1.limit
          members
        have hdeep := membersNesting_le_iff depth members
        simp only [hmembersPerm.mem_iff]
        exact room_iff hlist hdeep
      · rintro - t' ⟨rfl, rs, hrs, rfl⟩
        obtain ⟨outs, houts, hrs'⟩ := List.perm_comp_forall₂ hmembersPerm.symm hrs
        exact ⟨rfl, normal_object_of_forall₂ ascending houts hrs'.symm⟩

theorem readsBack {j : Json} (hj : j.Every Kept) (hcounted : j.Every Counted) :
    ReadsBack c z j := by
  induction j using Json.ind with
  | array items ih =>
      have heach := (every_array.mp hj).2
      obtain ⟨hself, hcounts⟩ := every_array.mp hcounted
      exact readsBack_array (fun i hi => ih i hi (heach i hi) (hcounts i hi)) hself
  | object members ih =>
      obtain ⟨hself, heach⟩ := every_object.mp hj
      have hcounts := (every_object.mp hcounted).2
      exact readsBack_object (fun p hp => ih p hp (heach p hp) (hcounts p hp)) hself.texts
        hself.ascending
  | binary b st => exact absurd hj.self.notBinary id
  | _ => exact readsBack_scalar trivial hj.self

/-! ## The round trip -/

/-- A value is pushed and read from the slot where it lies, with so many nested calls at most. -/
def roundTrip (c : DukCode) (z : DukSizes) (m : Margo) (env : ViewId → Env) (depth : Nat)
    (j : Json) (created : List ViewId) : DukStack Json := do
  JSONtoDukValue c z m env j created
  dukValueToJSON c z depth (-1)

/-- What was pushed is read back. -/
theorem Pushed.reads {j : Json} {t₁ : DukThread} (h : Pushed j t t₁) (hj : j.Every Kept)
    (hcounted : j.Every Counted) (hroom : t.stack.length + 1 ≤ t.world.1.limit)
    (hpristine : t.world.1.Pristine) (depth : Nat) :
    (dukValueToJSON c z depth (-1)).Exactly t₁
      (t.stack.length + 1 + readNeed z j ≤ t.world.1.limit ∧ nesting j ≤ depth) fun out t' =>
        t' = t₁ ∧ out.normal ofFloat = j.normal ofFloat := by
  obtain ⟨hgrows, v, hstack, hholds⟩ := h
  have hlength : t₁.stack.length = t.stack.length + 1 := by rw [hstack]; simp
  have hpristine₁ : t₁.world.1.Pristine := hpristine.grows hgrows fun _ _ _ => id
  have hread := readsBack (c := c) (z := z) hj hcounted t₁ (-1) depth _ v hpristine₁ hholds
    (gives_itemAt_top hstack) (by rw [hlength, hgrows.limit]; exact hroom)
  exact hread.congr (by rw [hlength, hgrows.limit]) fun _ _ h => h

theorem exactly_roundTrip {m : Margo} {env : ViewId → Env} {j : Json} (hj : j.Every Kept)
    (created : List ViewId) (hpristine : t.world.1.Pristine) (depth : Nat) :
    (roundTrip c z m env depth j created).Exactly t
      (t.stack.length + 1 + readNeed z j ≤ t.world.1.limit ∧ j.Every Counted ∧ nesting j ≤ depth)
      fun out t' => out.EqNum j ∧ ∃ v, t'.stack = t.stack ++ [DukItem.value v] := by
  have hpushes : Pushes c z m env j := pushes hj
  have hpush := hpushes t created hpristine
  constructor
  · rintro ⟨hroom, hcounted, hdeep⟩
    have hneed := pushNeed_le (z := z) j
    obtain ⟨u, t₁, hfirst⟩ := hpush.returns ⟨by omega, hcounted⟩
    obtain ⟨-, hpushed⟩ := hpush.ensures u t₁ hfirst
    have hread := hpushed.reads (c := c) (z := z) hj hcounted (by omega) hpristine depth
    obtain ⟨out, t', hgives, rfl, hout⟩ := hread.gives ⟨hroom, hdeep⟩
    obtain ⟨v, hstack, -⟩ := hpushed.top
    exact ⟨out, t', Prog.gives_bind_iff.mpr ⟨u, t', hfirst, hgives⟩, hout, v, hstack⟩
  · rintro ⟨out, t', hgives⟩
    obtain ⟨u, t₁, hfirst, hrest⟩ := Prog.gives_bind_iff.mp hgives
    obtain ⟨⟨hone, hcounted⟩, hpushed⟩ := hpush.ensures u t₁ hfirst
    have hread := hpushed.reads (c := c) (z := z) hj hcounted hone hpristine depth
    obtain ⟨hroom, hdeep⟩ := hread.only ⟨out, t', hrest⟩
    exact ⟨hroom, hcounted, hdeep⟩

end DukStack

open DukStack

/-- **Round trip through JavaScript.** A value without binaries and without keys `__proto__` is
pushed, and read from its slot as one that equals it, if and only if the value stack has room for
what is nested in it, an `int` can count the elements of each array, and the C stack takes a call
for each level. Wherever it is read, it is read as one that equals it, and one value more lies on
the stack. -/
theorem dukValueToJSON_JSONtoDukValue_iff (j : JsonValue) (notBinary : j.tree.Every NotBinary)
    (ints : j.tree.Every (Integers fun n => n.natAbs ≤ 2 ^ 53))
    (texts : j.tree.Every (Texts fun s => 0 ∉ s ∧ Utf8 s))
    (keys : j.tree.Every (Keys fun k => k ≠ text "__proto__")) (c : DukCode) (z : DukSizes)
    (m : Margo) (env : ViewId → Env) (depth : Nat) (created : List ViewId) (t : DukThread)
    (pristine : t.world.1.Pristine) :
    ((∃ out t', (roundTrip c z m env depth j.tree created).Gives t out t' ∧ out.EqNum j.tree) ↔
      t.stack.length + 1 + readNeed z j.tree ≤ t.world.1.limit ∧ j.tree.Every Counted ∧
        nesting j.tree ≤ depth) ∧
    ∀ out t', (roundTrip c z m env depth j.tree created).Gives t out t' →
      out.EqNum j.tree ∧ ∃ v, t'.stack = t.stack ++ [DukItem.value v] := by
  have hkept : j.tree.Every DukStack.Kept := fun n hn =>
    ⟨notBinary n hn, ints n hn, texts n hn, keys n hn, j.wellFormed.keysAscending n hn⟩
  have htrip : (roundTrip c z m env depth j.tree created).Exactly t _ _ :=
    exactly_roundTrip hkept created pristine depth
  refine ⟨⟨?_, fun hroom => ?_⟩, fun out t' => htrip.holds⟩
  · rintro ⟨out, t', hgives, -⟩
    exact htrip.only ⟨out, t', hgives⟩
  · obtain ⟨out, t', hgives, heq, -⟩ := htrip.gives hroom
    exact ⟨out, t', hgives, heq⟩

/-! ## Nested arrays -/

/-- Arrays in one another, with an empty one inside. -/
def nested : Nat → Json
  | 0 => array []
  | n + 1 => array [nested n]

/-- Each array needs room for its enumerator, for a key and for a value, and the last one for an
enumeration that finds nothing. -/
theorem readNeed_nested (n : Nat) : readNeed dukSizes (nested n) = 3 * n + 5 := by
  induction n with
  | zero => rfl
  | succ n ih =>
      rw [nested, readNeed, itemsReadNeed, itemsReadNeed, ih]
      show max 5 (1 + max (max 6 (2 + (3 * n + 5))) 4) = 3 * (n + 1) + 5
      omega

theorem nested_kept (n : Nat) : (nested n).Every DukStack.Kept := by
  induction n with
  | zero => simpa [nested] using ⟨trivial, trivial, trivial, trivial, trivial⟩
  | succ n ih => simpa [nested] using ⟨⟨trivial, trivial, trivial, trivial, trivial⟩, ih⟩

/-- Arrays that are nested deep enough do not fit on the stack. -/
theorem not_returns_nested {c : DukCode} {m : Margo} {env : ViewId → Env} {t : DukThread}
    {n : Nat} (pristine : t.world.1.Pristine) (h : t.world.1.limit < t.stack.length + 3 * n + 6)
    (depth : Nat) : ¬ (roundTrip c dukSizes m env depth (nested n) []).Returns t := by
  intro hreturns
  have hroom := ((exactly_roundTrip (nested_kept n) [] pristine depth).only hreturns).1
  rw [readNeed_nested] at hroom
  omega

/-- The prototypes of objects and of arrays, and nothing else. The stack is as large as that of a
fresh heap: `DUK_VALSTACK_INTERNAL_EXTRA` values more than the built-in objects. -/
def builtins : DukHeap where
  objects o :=
    if o = 0 then ⟨false, none, [(text "__proto__", ⟨.accessor (some 0) (some 0), false⟩)], [],
      true, none⟩
    else ⟨true, none, [(text "length", ⟨.data (.number ⟨0⟩) true, false⟩)], [0], true, none⟩
  next := 2
  globalObject := 0
  arrayPrototypes := [1, 0]
  objectPrototypes := [0]
  functionPrototypes := [0]
  primitivePrototypes _ := []
  limit := 112

/-- The end of a chain is reached before the limit. -/
theorem find_nil (h : DukHeap) (k : Bytes) (n : Nat) : h.find k n [] = .absent := by
  unfold DukHeap.find
  rfl

theorem find_builtins {k : Bytes} (hk : k ≠ text "__proto__") (n : Nat) :
    builtins.find k (n + 1) [0] = .absent := by
  have hnone : (builtins.objects 0).own.lookup k = none :=
    DukHeap.lookup_eq_none (by simpa [builtins] using hk)
  unfold DukHeap.find
  rw [hnone]
  exact find_nil _ _ _

theorem pristine_builtins : builtins.Pristine where
  older isArray p hp := by
    have hmem : p = 1 ∨ p = 0 := by
      cases isArray <;> simp [DukHeap.freshPrototypes, builtins] at hp <;> omega
    show p < 2
    omega
  settable isArray k hk sanity hsanity := by
    obtain rfl : sanity = 9997 + 2 := Nat.succ_injective hsanity
    -- `length` is the one name the prototype of arrays holds itself
    cases isArray with
    | false => exact .inl (find_builtins hk _)
    | true =>
        by_cases hlength : k = text "length"
        · refine .inr ⟨1, .number ⟨0⟩, false, ?_⟩
          rw [hlength]
          unfold DukHeap.find
          rfl
        · left
          have hnone : (builtins.objects 1).own.lookup k = none :=
            DukHeap.lookup_eq_none (by simpa [builtins] using hlength)
          have hchain : builtins.freshPrototypes true = [1, 0] := rfl
          rw [hchain]
          unfold DukHeap.find
          rw [hnone]
          exact find_builtins hk _
  unlisted p hp e he hlisted := by
    have hmem : p = 1 ∨ p = 0 := by simpa [builtins] using hp
    rcases hmem with rfl | rfl
    · obtain rfl := List.mem_singleton.mp he
      exact absurd hlisted Bool.false_ne_true
    · obtain rfl := List.mem_singleton.mp he
      exact absurd hlisted Bool.false_ne_true

/-- Functions that do nothing. -/
def inert : DukCode where
  getter _ _ w := (.gave .undefined, w)
  setter _ _ _ w := (.gave (), w)
  trapGet _ _ w := (.gave none, w)
  trapSet _ _ _ w := (.gave false, w)
  trapKeys _ w := (.gave none, w)
  slot _ _ _ := false
  eval _ w := (.ok .undefined, w)
  safeToString _ w := ([], w)

/-- Thirty-seven arrays in one another do not fit on an empty stack, however many nested calls the
C stack takes. -/
theorem round_trip_of_nested :
    ¬ ∃ depth out t', (roundTrip inert dukSizes (Margo.loopback noName) (fun _ => .quiet) depth
        (nested 36) []).Gives ⟨(builtins, .empty fun _ => 0), []⟩ out t' ∧
          out.EqNum (nested 36) := by
  rintro ⟨depth, out, t', hgives, -⟩
  exact not_returns_nested pristine_builtins (by decide) depth ⟨out, t', hgives⟩

/-- An object with a null and an empty object in an array, and a number in it. -/
def dukSample : JsonValue where
  tree := object [([97], array [null, object []]), ([98], numberInteger (-7))]
  wellFormed := .object (by decide)
    (.cons (by simp; decide) (List.pairwise_singleton _ _)) (by simp) (by
      simp only [List.mem_cons, List.not_mem_nil, or_false, forall_eq_or_imp, forall_eq]
      refine ⟨.array (by decide) ?_, .numberInteger _⟩
      simp only [List.mem_cons, List.not_mem_nil, or_false, forall_eq_or_imp, forall_eq]
      exact ⟨.null, .object (by decide) .nil (by simp) (by simp)⟩)

theorem stack_round_trip_sample :
    ((∃ out t', (roundTrip inert dukSizes (Margo.loopback noName) (fun _ => .quiet) 3
        dukSample.tree []).Gives ⟨(builtins, .empty fun _ => 0), []⟩ out t' ∧
          out.EqNum dukSample.tree) ↔
      0 + 1 + readNeed dukSizes dukSample.tree ≤ 112 ∧ dukSample.tree.Every Counted ∧
        nesting dukSample.tree ≤ 3) ∧
    ∀ out t', (roundTrip inert dukSizes (Margo.loopback noName) (fun _ => .quiet) 3
        dukSample.tree []).Gives ⟨(builtins, .empty fun _ => 0), []⟩ out t' →
      out.EqNum dukSample.tree ∧ ∃ v, t'.stack = [] ++ [DukItem.value v] :=
  dukValueToJSON_JSONtoDukValue_iff dukSample (by simp [dukSample, NotBinary])
    (by simp [dukSample, Integers]) (by
      have h97 : Utf8 [97] := by decide
      have h98 : Utf8 [98] := by decide
      simp [dukSample, Texts, h97, h98])
    (by simp [dukSample, Keys]; decide) inert dukSizes _ _ 3 []
    ⟨(builtins, .empty fun _ => 0), []⟩ pristine_builtins

end Poesie
