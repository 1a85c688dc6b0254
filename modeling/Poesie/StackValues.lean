import Poesie.JsonNodes
import Poesie.Numeral
import Poesie.ReadBack
import Poesie.ValueStack

set_option autoImplicit false

/-! # Values through JavaScript

`JSONtoDukValue` leaves one value on the stack, whose objects are fresh (`Holds`), and
`dukValueToJSON` reads it back and leaves the stack as it was. Neither asks Duktape for room, so
both do this as long as the stack has it, at whatever depth.
-/

namespace Poesie

open Wire Json SharedPtr Outcomes

namespace DukStack

variable {α β : Type} {c : DukCode} {z : DukSizes} {t t' : DukThread}

/-! ## Calls on the stack -/

theorem exactly_need (n : Nat) :
    (need n).Exactly t (t.stack.length + n ≤ t.world.1.limit) fun _ t' => t' = t := by
  constructor
  · intro h
    refine ⟨(), t, ?_, rfl⟩
    unfold Prog.Gives need
    rw [if_pos h]
  · rintro ⟨u, t', h⟩
    by_contra hroom
    unfold Prog.Gives need at h
    rw [if_neg hroom] at h
    cases h

theorem exactly_needFor (use : DukHeap → DukUse) :
    (needFor z use).Exactly t (t.stack.length + z.room (use t.world.1) ≤ t.world.1.limit)
      fun _ t' => t' = t :=
  have hsame : needFor z use t = need (z.room (use t.world.1)) t := rfl
  .of_eq hsame (exactly_need _)

theorem gives_inWorld {f : Duk α} {a : α} {w : DukWorld} (h : f.Gives t.world a w) :
    (inWorld f).Gives t a { t with world := w } := by
  have h : f t.world = (.returned a, w) := h
  unfold Prog.Gives inWorld
  rw [h]

theorem exactly_push (v : DukValue) : (push v).Exactly t (t.stack.length + 1 ≤ t.world.1.limit)
    fun _ t' => t' = { t with stack := t.stack ++ [DukItem.value v] } := by
  refine ((exactly_need 1).bind (D := True) fun _ t' ht => ?_).congr
    (Iff.of_eq (and_true _)) fun _ _ h => h
  rw [ht]
  exact .of_gives rfl rfl

/-- A fresh object, and the index of it. -/
theorem exactly_pushObject (isArray : Bool) :
    (pushObject isArray).Exactly t (t.stack.length + 1 ≤ t.world.1.limit) fun i t' =>
      i = t.stack.length ∧ t' = ⟨(t.world.1.alloc isArray, t.world.2),
        t.stack ++ [DukItem.value (.object t.world.1.next)]⟩ := by
  refine ((exactly_need 1).bind (D := True) fun _ t' ht => ?_).congr
    (Iff.of_eq (and_true _)) fun _ _ h => h
  rw [ht]
  have hpush : (Duk.push isArray).Gives t.world t.world.1.next
      (t.world.1.alloc isArray, t.world.2) := rfl
  refine .bind_of_gives (gives_inWorld hpush) (.of_gives rfl ⟨?_, rfl⟩)
  simp

theorem normalize_of_nonneg {i height : Nat} (h : i < height) :
    normalize i height = some i := by
  have hsign : ¬ (i : Int) < 0 := by omega
  rw [normalize, if_neg hsign, if_pos (by omega), Int.toNat_natCast]

theorem normalize_of_neg {i height : Nat} (hi : 0 < i) (h : i ≤ height) :
    normalize (-i) height = some (height - i) := by
  have hsign : -(i : Int) < 0 := by omega
  have hindex : ((height : Int) + -i).toNat = height - i := by omega
  rw [normalize, if_pos hsign, if_pos (by omega), hindex]

theorem gives_itemAt {index : Int} {i : Nat} {item : DukItem}
    (hindex : normalize index t.stack.length = some i) (hitem : t.stack[i]? = some item) :
    (itemAt index).Gives t (some item) t := by
  unfold Prog.Gives itemAt
  rw [hindex, Option.bind_some, hitem]

/-- The item on top. -/
theorem gives_itemAt_top {below : List DukItem} {item : DukItem}
    (hstack : t.stack = below ++ [item]) : (itemAt (-1)).Gives t (some item) t := by
  have hlength : t.stack.length = below.length + 1 := by rw [hstack]; simp
  refine gives_itemAt (normalize_of_neg (i := 1) (by omega) (by omega)) ?_
  rw [hlength, Nat.add_sub_cancel, hstack, List.getElem?_concat_length]

/-- The item below the one on top. -/
theorem gives_itemAt_second {below : List DukItem} {item above : DukItem}
    (hstack : t.stack = below ++ [item, above]) : (itemAt (-2)).Gives t (some item) t := by
  have hlength : t.stack.length = below.length + 2 := by rw [hstack]; simp
  refine gives_itemAt (normalize_of_neg (i := 2) (by omega) (by omega)) ?_
  rw [hlength, Nat.add_sub_cancel, hstack, List.getElem?_append_right (Nat.le_refl _)]
  simp

theorem gives_pop (below above : List DukItem) {n : Nat} (hstack : t.stack = below ++ above)
    (hn : above.length = n) : (pop n).Gives t () { t with stack := below } := by
  have hlength : t.stack.length = below.length + n := by rw [hstack, List.length_append, hn]
  unfold Prog.Gives pop
  rw [if_pos (by omega), hlength, Nat.add_sub_cancel, hstack, List.take_left]

end DukStack

/-! ## Fresh objects -/

namespace DukHeap

variable {h h' h'' : DukHeap}

/-- The prototypes of a fresh object. -/
def freshPrototypes (h : DukHeap) (isArray : Bool) : List Nat :=
  if isArray then h.arrayPrototypes else h.objectPrototypes

/-- A fresh object with these own properties. -/
def freshObject (h : DukHeap) (isArray : Bool) (own : List (Bytes × DukProperty)) : DukObject :=
  ⟨isArray, none, own, h.freshPrototypes isArray, true, none⟩

/-- A property that was put. -/
def plain (e : Bytes × DukValue) : Bytes × DukProperty := (e.1, ⟨.data e.2 true, true⟩)

/-- The built-in prototypes, as far as they matter to fresh objects: but for `__proto__`, they
have no accessors and nothing that is read-only, and they have no indices that are enumerated. -/
structure Pristine (h : DukHeap) : Prop where
  older : ∀ isArray, ∀ p ∈ h.freshPrototypes isArray, p < h.next
  settable : ∀ isArray k, k ≠ text "__proto__" → ∀ sanity, sanity + 1 = prototypeChainSanity →
    h.find k sanity (h.freshPrototypes isArray) = .absent ∨
      ∃ p v e, h.find k sanity (h.freshPrototypes isArray) = .property p ⟨.data v true, e⟩
  unlisted : ∀ p ∈ h.arrayPrototypes, ∀ e ∈ (h.objects p).own, e.2.enumerable = true →
    arrayIndex e.1 = none

/-- Objects are added, and of those that there are only some change. -/
structure Grows (changed : Nat → Prop) (h h' : DukHeap) : Prop where
  next_le : h.next ≤ h'.next
  limit : h'.limit = h.limit
  prototypes : h'.freshPrototypes = h.freshPrototypes
  objects : ∀ p < h.next, ¬ changed p → h'.objects p = h.objects p

theorem Grows.refl (changed : Nat → Prop) (h : DukHeap) : Grows changed h h :=
  ⟨Nat.le_refl _, rfl, rfl, fun _ _ _ => rfl⟩

theorem Grows.trans {changed : Nat → Prop} (h₁ : Grows changed h h')
    (h₂ : Grows changed h' h'') : Grows changed h h'' where
  next_le := h₁.next_le.trans h₂.next_le
  limit := h₂.limit.trans h₁.limit
  prototypes := h₂.prototypes.trans h₁.prototypes
  objects p hp hc :=
    (h₂.objects p (Nat.lt_of_lt_of_le hp h₁.next_le) hc).trans (h₁.objects p hp hc)

theorem Grows.mono {P Q : Nat → Prop} (h₁ : Grows P h h') (hPQ : ∀ p < h.next, P p → Q p) :
    Grows Q h h' where
  next_le := h₁.next_le
  limit := h₁.limit
  prototypes := h₁.prototypes
  objects p hp hc := h₁.objects p hp fun hP => hc (hPQ p hp hP)

/-- What is found along a chain depends on the objects of the chain only. -/
theorem find_congr {k : Bytes} {sanity : Nat} {chain : List Nat}
    (hsame : ∀ p ∈ chain, h'.objects p = h.objects p) :
    h'.find k sanity chain = h.find k sanity chain := by
  induction chain generalizing sanity with
  | nil =>
      unfold find
      rfl
  | cons p chain ih =>
      have hrest := fun sanity => @ih sanity fun q hq => hsame q (by simp [hq])
      unfold find
      rw [hsame p (by simp)]
      cases (h.objects p).own.lookup k with
      | some property => rfl
      | none =>
          cases sanity with
          | zero => rfl
          | succ sanity => exact hrest sanity

theorem Pristine.grows {changed : Nat → Prop} (hpristine : h.Pristine)
    (hgrows : Grows changed h h')
    (hkept : ∀ isArray, ∀ p ∈ h.freshPrototypes isArray, ¬ changed p) : h'.Pristine := by
  have hsame : ∀ isArray, ∀ p ∈ h.freshPrototypes isArray, h'.objects p = h.objects p :=
    fun isArray p hp => hgrows.objects p (hpristine.older isArray p hp) (hkept isArray p hp)
  refine ⟨fun isArray p hp => ?_, fun isArray k hk sanity hsanity => ?_, fun p hp => ?_⟩
  · rw [hgrows.prototypes] at hp
    exact Nat.lt_of_lt_of_le (hpristine.older isArray p hp) hgrows.next_le
  · rw [hgrows.prototypes, find_congr (hsame isArray)]
    exact hpristine.settable isArray k hk sanity hsanity
  · have harray : h'.arrayPrototypes = h.arrayPrototypes := congrFun hgrows.prototypes true
    rw [harray] at hp
    rw [hsame true p hp]
    exact hpristine.unlisted p hp

theorem grows_alloc (isArray : Bool) : Grows (fun _ => False) h (h.alloc isArray) where
  next_le := Nat.le_succ _
  limit := rfl
  prototypes := rfl
  objects _ hp _ := Function.update_of_ne (Nat.ne_of_lt hp) _ _

theorem objects_alloc (isArray : Bool) :
    (h.alloc isArray).objects h.next = h.freshObject isArray [] :=
  Function.update_self _ _ _

theorem grows_store (o : Nat) (k : Bytes) (v : DukValue) : Grows (· = o) h (h.store o k v) where
  next_le := Nat.le_refl _
  limit := rfl
  prototypes := rfl
  objects _ _ hp := Function.update_of_ne hp _ _

theorem lookup_eq_none {own : List (Bytes × DukProperty)} {k : Bytes}
    (hk : k ∉ own.map Prod.fst) : own.lookup k = none := by
  rw [List.lookup_eq_none_iff]
  intro e he
  have hne : e.1 ≠ k := fun heq => hk (heq ▸ List.mem_map_of_mem he)
  simpa using hne.symm

/-- A key that an object does not have yet is added behind the others. -/
theorem objects_store {o : Nat} {k : Bytes} {isArray : Bool} {own : List (Bytes × DukProperty)}
    (hobject : h.objects o = h.freshObject isArray own) (hk : k ∉ own.map Prod.fst)
    (v : DukValue) :
    (h.store o k v).objects o = h.freshObject isArray (own ++ [plain (k, v)]) := by
  have hlookup : own.lookup k = none := lookup_eq_none hk
  unfold store
  rw [hobject]
  dsimp only [freshObject]
  rw [hlookup]
  exact Function.update_self _ _ _

/-- A fresh object takes any key that is new to it, but for `__proto__`. -/
theorem write_fresh {o : Nat} {k : Bytes} {isArray : Bool} {own : List (Bytes × DukProperty)}
    (hpristine : h.Pristine) (hobject : h.objects o = h.freshObject isArray own)
    (hk : k ∉ own.map Prod.fst) (hproto : k ≠ text "__proto__") :
    h.write (.object o) k = .store o := by
  have hadd : mayAdd (h.objects o) k = true := by
    rw [hobject]
    rfl
  have hchain : h.chain o = o :: h.freshPrototypes isArray := by
    rw [chain, hobject]
    rfl
  have hown : (h.objects o).own.lookup k = none := by
    rw [hobject]
    exact lookup_eq_none hk
  obtain ⟨sanity, hsanity⟩ : ∃ n, n + 1 = prototypeChainSanity := ⟨9999, rfl⟩
  have hfind : h.find k prototypeChainSanity (h.chain o)
      = h.find k sanity (h.freshPrototypes isArray) := by
    rw [hchain, ← hsanity]
    conv => lhs; unfold find
    rw [hown]
  unfold write
  simp only [hfind, hadd, if_true]
  rcases hpristine.settable isArray k hproto sanity hsanity with habsent | ⟨p, v, e, hproperty⟩
  · rw [habsent]
  · rw [hproperty]
    simp

/-- The object gets the value, and nothing is run for that. -/
structure Stores (h : DukHeap) (o : Nat) (k : Bytes) : Prop where
  proxy : (h.objects o).proxy = none
  write : h.write (.object o) k = .store o

theorem stores_fresh {o : Nat} {k : Bytes} {isArray : Bool} {own : List (Bytes × DukProperty)}
    (hpristine : h.Pristine) (hobject : h.objects o = h.freshObject isArray own)
    (hk : k ∉ own.map Prod.fst) (hproto : k ≠ text "__proto__") : h.Stores o k where
  proxy := by
    rw [hobject]
    rfl
  write := h.write_fresh hpristine hobject hk hproto

/-- An array may have a slot for the key. -/
theorem Stores.putTarget {o : Nat} {key : DukKey} (hstores : h.Stores o key.bytes)
    (slot : DukHeap → Nat → Nat → Bool) :
    h.putTarget slot (.object o) key = .fast ∨ h.putTarget slot (.object o) key = .plain := by
  have htarget : h.target (.object o) = none := by
    rw [target, hstores.proxy]
    rfl
  unfold DukHeap.putTarget
  rw [htarget, if_neg (by simp)]
  by_cases hfast : (h.fastPath slot (.object o) key).isSome
  · rw [if_pos hfast]
    exact .inl rfl
  · rw [if_neg hfast, hstores.write]
    exact .inr rfl

end DukHeap

namespace Duk

variable {c : DukCode} {h : DukHeap}

/-- Of an object that is no proxy, an array may have a slot for the index already. -/
theorem putProp_of_not_proxy {o : Nat} (hproxy : (h.objects o).proxy = none) (key : DukKey)
    (v : DukValue) (m : Heap) : putProp c (.object o) key v (h, m) =
      if (h.fastPath c.slot (.object o) key).isSome then
        (.returned (), (h.store o key.bytes v, m))
      else putPlain c (.object o) key.bytes v (h, m) := by
  have htarget : h.target (.object o) = none := by
    rw [DukHeap.target, hproxy]
    rfl
  rw [putProp, inspect_bind_apply, htarget]
  change (inspect (fun h => h.fastPath c.slot (.object o) key) >>= _) (h, m) = _
  rw [inspect_bind_apply]
  cases hfast : h.fastPath c.slot (.object o) key with
  | none => rfl
  | some o' =>
      have ho : o' = o := by
        unfold DukHeap.fastPath at hfast
        cases key with
        | name k => cases hfast
        | index i =>
            simp only [Option.ite_none_right_eq_some, Option.some.injEq] at hfast
            exact hfast.2.symm
      rw [ho]
      rfl

/-- The value is put without a look at the prototypes, or after one. -/
theorem gives_putProp_of_stores {o : Nat} {key : DukKey} (hstores : h.Stores o key.bytes)
    (v : DukValue) (m : Heap) :
    (putProp c (.object o) key v).Gives (h, m) () (h.store o key.bytes v, m) := by
  unfold Prog.Gives
  rw [putProp_of_not_proxy hstores.proxy]
  split
  · rfl
  · unfold putPlain
    rw [hstores.write]

end Duk

/-! ## What is pushed -/

/-- The value that stands for one that is no container. -/
def dukScalar : Json → DukValue
  | boolean b => .boolean b
  | numberInteger n => .number (getDouble (numberInteger n))
  | numberUnsigned n => .number (getDouble (numberUnsigned n))
  | numberFloat x => .number (getDouble (numberFloat x))
  | string s => .string s
  | binary _ _ => .other
  | _ => .null

/-- The elements of an array, each under its index. -/
def elements (vs : List DukValue) : List (Bytes × DukValue) :=
  vs.zipIdx.map fun e => (indexKey e.2, e.1)

section

variable (h : DukHeap)

mutual

/-- The value stands for the JSON value. It is made of fresh objects, none of them older than
`lo`. -/
def Holds (lo : Nat) : Json → DukValue → Prop
  | array items, v => ∃ o vs, lo ≤ o ∧ o < h.next ∧ v = .object o ∧
      h.objects o = h.freshObject true ((elements vs).map DukHeap.plain) ∧
      HoldsItems (o + 1) items vs
  | object members, v => ∃ o es, lo ≤ o ∧ o < h.next ∧ v = .object o ∧
      h.objects o = h.freshObject false (es.map DukHeap.plain) ∧ HoldsMembers (o + 1) members es
  | j, v => v = dukScalar j

def HoldsItems (lo : Nat) : List Json → List DukValue → Prop
  | [], vs => vs = []
  | j :: rest, vs => ∃ v vs', vs = v :: vs' ∧ Holds lo j v ∧ HoldsItems lo rest vs'

def HoldsMembers (lo : Nat) : List (Bytes × Json) → List (Bytes × DukValue) → Prop
  | [], es => es = []
  | (k, j) :: rest, es => ∃ v es', es = (k, v) :: es' ∧ Holds lo j v ∧ HoldsMembers lo rest es'

end

end

theorem holdsItems_iff {h : DukHeap} {lo : Nat} {items : List Json} {vs : List DukValue} :
    HoldsItems h lo items vs ↔ List.Forall₂ (Holds h lo) items vs := by
  induction items generalizing vs with
  | nil =>
      rw [HoldsItems, List.forall₂_nil_left_iff]
  | cons j rest ih =>
      rw [HoldsItems, List.forall₂_cons_left_iff]
      constructor
      · rintro ⟨v, vs', rfl, hv, hrest⟩
        exact ⟨v, vs', hv, ih.mp hrest, rfl⟩
      · rintro ⟨v, vs', hv, hrest, rfl⟩
        exact ⟨v, vs', rfl, hv, ih.mpr hrest⟩

theorem holdsMembers_iff {h : DukHeap} {lo : Nat} {members : List (Bytes × Json)}
    {es : List (Bytes × DukValue)} : HoldsMembers h lo members es ↔
      List.Forall₂ (fun p e => e.1 = p.1 ∧ Holds h lo p.2 e.2) members es := by
  induction members generalizing es with
  | nil =>
      rw [HoldsMembers, List.forall₂_nil_left_iff]
  | cons p rest ih =>
      obtain ⟨k, j⟩ := p
      rw [HoldsMembers, List.forall₂_cons_left_iff]
      constructor
      · rintro ⟨v, es', rfl, hv, hrest⟩
        exact ⟨(k, v), es', ⟨rfl, hv⟩, ih.mp hrest, rfl⟩
      · rintro ⟨⟨k', v⟩, es', ⟨rfl, hv⟩, hrest, rfl⟩
        exact ⟨v, es', rfl, hv, ih.mpr hrest⟩

/-- Only the objects that the value is made of matter. -/
theorem Holds.mono {h h' : DukHeap} {lo lo' : Nat} {j : Json} {v : DukValue}
    (hv : Holds h lo j v) (hlo : lo' ≤ lo) (hnext : h.next ≤ h'.next)
    (hprototypes : h'.freshPrototypes = h.freshPrototypes)
    (hsame : ∀ p, lo ≤ p → p < h.next → h'.objects p = h.objects p) : Holds h' lo' j v := by
  have hfresh : ∀ isArray own, h'.freshObject isArray own = h.freshObject isArray own := by
    intro isArray own
    rw [DukHeap.freshObject, DukHeap.freshObject, hprototypes]
  induction j using Json.ind generalizing lo lo' v with
  | array items ih =>
      obtain ⟨o, vs, hlow, hhigh, rfl, hobject, hitems⟩ := hv
      refine ⟨o, vs, by omega, by omega, rfl, ?_, ?_⟩
      · rw [hsame o hlow hhigh, hobject, hfresh]
      · rw [holdsItems_iff] at hitems ⊢
        refine ((List.forall₂_and_left _ _).mpr ⟨ih, hitems⟩).imp fun j v hj => ?_
        exact hj.1 hj.2 (Nat.le_refl _) fun p hp => hsame p (by omega)
  | object members ih =>
      obtain ⟨o, es, hlow, hhigh, rfl, hobject, hmembers⟩ := hv
      refine ⟨o, es, by omega, by omega, rfl, ?_, ?_⟩
      · rw [hsame o hlow hhigh, hobject, hfresh]
      · rw [holdsMembers_iff] at hmembers ⊢
        refine ((List.forall₂_and_left _ _).mpr ⟨ih, hmembers⟩).imp fun p e hp => ⟨hp.2.1, ?_⟩
        exact hp.1 hp.2.2 (Nat.le_refl _) fun q hq => hsame q (by omega)
  | _ => exact hv

/-- What was put into an object stays as it is while that object is filled. -/
theorem Holds.filled {h h' : DukHeap} {o : Nat} {j : Json} {v : DukValue}
    (hholds : Holds h (o + 1) j v) (hgrows : DukHeap.Grows (· = o) h h') :
    Holds h' (o + 1) j v :=
  hholds.mono (Nat.le_refl _) hgrows.next_le hgrows.prototypes fun p hp hp' =>
    hgrows.objects p hp' (by omega)

/-! ## Keys of elements -/

theorem indexKey_injective {i k : Nat} (h : indexKey i = indexKey k) : i = k := by
  have hi := foldl_text_repr i
  have hk := foldl_text_repr k
  rw [← Nat.toString_eq_repr] at hi hk
  rw [← hi, ← hk]
  exact congrArg (List.foldl _ 0) h

theorem indexKey_ne_proto (i : Nat) : indexKey i ≠ text "__proto__" := by
  intro h
  have hmem : (95 : UInt8) ∈ text i.repr := by
    rw [← Nat.toString_eq_repr, show text (toString i) = text "__proto__" from h]
    decide
  exact absurd (digit_of_mem_text_repr _ hmem).2 (by decide)

theorem elements_concat (vs : List DukValue) (v : DukValue) :
    elements (vs ++ [v]) = elements vs ++ [(indexKey vs.length, v)] := by
  simp [elements, List.zipIdx_append]

theorem keys_plain (es : List (Bytes × DukValue)) :
    (es.map DukHeap.plain).map Prod.fst = es.map Prod.fst := by
  rw [List.map_map]
  rfl

theorem indexKey_notMem (vs : List DukValue) :
    indexKey vs.length ∉ ((elements vs).map DukHeap.plain).map Prod.fst := by
  rw [keys_plain, elements, List.map_map]
  intro hmem
  obtain ⟨⟨v, i⟩, hi, hkey⟩ := List.mem_map.mp hmem
  have hlt : i < vs.length := List.snd_lt_of_mem_zipIdx hi
  have hsame : i = vs.length := indexKey_injective hkey
  omega

namespace DukStack

variable (c : DukCode) (z : DukSizes) (m : Margo) (env : ViewId → Env)

/-! ## Room -/

/-- The room in which a value can be put into a fresh object. An array may have a slot for it. -/
def putNeed : Nat := max (z.room (.put .fast)) (z.room (.put .plain))

mutual

/-- For how many values it is enough that the stack has room when a value is pushed. A value that
is put into a container needs room on top of it, by itself and to be put. -/
def pushNeed : Json → Nat
  | array items => 1 + itemsNeed items
  | object members => 1 + membersNeed members
  | _ => 1

def itemsNeed : List Json → Nat
  | [] => 0
  | j :: rest => max (max (pushNeed j) (1 + putNeed z)) (itemsNeed rest)

def membersNeed : List (Bytes × Json) → Nat
  | [] => 0
  | (_, j) :: rest => max (max (pushNeed j) (1 + putNeed z)) (membersNeed rest)

end

end DukStack

/-- An array whose elements an `int` can count. -/
def Json.Counted : Json → Prop
  | array items => items.length < 2 ^ 31
  | _ => True

namespace DukStack

variable {c : DukCode} {z : DukSizes} {m : Margo} {env : ViewId → Env} {t t' : DukThread}

/-- One value was pushed, and it stands for the JSON value. -/
structure Pushed (j : Json) (t t' : DukThread) : Prop where
  grows : DukHeap.Grows (fun _ => False) t.world.1 t'.world.1
  top : ∃ v, t'.stack = t.stack ++ [DukItem.value v] ∧ Holds t'.world.1 t.world.1.next j v

variable (c z m env) in
/-- The value is pushed if there is room for it, and only if there is some and its arrays can be
counted. -/
def Pushes (j : Json) : Prop := ∀ t created, t.world.1.Pristine →
  (JSONtoDukValue c z m env j created).Within t
    (t.stack.length + pushNeed z j ≤ t.world.1.limit ∧ j.Every Counted)
    (t.stack.length + 1 ≤ t.world.1.limit ∧ j.Every Counted) fun _ t' => Pushed j t t'

/-- The copies of the views do not matter to the stack and to the objects. -/
theorem within_withCopy {created : List ViewId} {body : DukStack Unit} {E C : Prop}
    {Q : DukThread → Prop} (hQ : ∀ t heap, Q t → Q { t with world := (t.world.1, heap) })
    (h : body.Within { t with world := (t.world.1, t.world.2.retainAll created) } E C
      fun _ t' => Q t') : (withCopy created body).Within t E C fun _ t' => Q t' := by
  constructor
  · intro hE
    obtain ⟨u, t', hgives⟩ := h.returns hE
    have hgives : body { t with world := (t.world.1, t.world.2.retainAll created) }
        = (.returned u, t') := hgives
    refine ⟨u, { t' with world := (t'.world.1, t'.world.2.releaseAll MemoryViewImpl.destroy
      created) }, ?_⟩
    unfold Prog.Gives withCopy
    rw [hgives]
  · intro u t' hgives
    unfold Prog.Gives withCopy at hgives
    rcases hbody : body { t with world := (t.world.1, t.world.2.retainAll created) } with ⟨r, t₁⟩
    rw [hbody] at hgives
    obtain ⟨rfl, rfl⟩ := Prod.mk.inj hgives
    obtain ⟨hC, hq⟩ := h.ensures u t₁ hbody
    exact ⟨hC, hQ t₁ _ hq⟩

/-- The value on top goes into a fresh object, which has a slot for it or not. -/
theorem within_putProp {index : Int} {key : DukKey} {below : List DukItem} {o : Nat}
    {v : DukValue} (hstack : t.stack = below ++ [DukItem.value v])
    (hbase : (itemAt index).Gives t (some (.value (.object o))) t)
    (hstores : t.world.1.Stores o key.bytes) :
    (putProp c z index key).Within t (t.stack.length + putNeed z ≤ t.world.1.limit) True
      fun _ t' => t' = ⟨(t.world.1.store o key.bytes v, t.world.2), below⟩ := by
  have hput : (putProp c z index key).Exactly t
      (t.stack.length + z.room (.put (t.world.1.putTarget c.slot (.object o) key))
        ≤ t.world.1.limit) fun _ t' =>
          t' = ⟨(t.world.1.store o key.bytes v, t.world.2), below⟩ := by
    refine .bind_of_gives hbase (.bind_of_gives (gives_itemAt_top hstack) ?_)
    refine ((exactly_needFor fun h => .put (h.putTarget c.slot (.object o) key)).bind
      (D := True) fun _ t' ht => ?_).congr (Iff.of_eq (and_true _)) fun _ _ h => h
    rw [ht]
    refine .bind_of_gives (gives_inWorld (Duk.gives_putProp_of_stores hstores v _)) ?_
    exact .of_gives (gives_pop below [.value v] hstack rfl) rfl
  refine (Prog.Within.of_exactly hput).congr (fun hroom => ?_) (fun _ => trivial) fun _ _ h => h
  refine Nat.le_trans (Nat.add_le_add_left ?_ _) hroom
  rcases hstores.putTarget c.slot with htarget | htarget
  · rw [htarget]
    exact Nat.le_max_left _ _
  · rw [htarget]
    exact Nat.le_max_right _ _

theorem Pushed.withHeap {j : Json} (t' : DukThread) (heap : Heap) (h : Pushed j t t') :
    Pushed j t { t' with world := (t'.world.1, heap) } := ⟨h.grows, h.top⟩

theorem holds_scalar_iff {h : DukHeap} {lo : Nat} {j : Json} {v : DukValue} (hj : j.Scalar) :
    Holds h lo j v ↔ v = dukScalar j := by
  cases j with
  | array items => exact absurd hj id
  | object members => exact absurd hj id
  | _ => rfl

theorem pushes_scalar {j : Json} (hj : j.Scalar) (htexts : Texts (fun s => 0 ∉ s) j) :
    Pushes c z m env j := by
  intro t created _
  have hprogram : JSONtoDukValue c z m env j created = withCopy created (push (dukScalar j)) := by
    cases j with
    | array items => exact absurd hj id
    | object members => exact absurd hj id
    | binary b st => exact absurd hj id
    | string s =>
        rw [JSONtoDukValue, cString_of_notMem htexts]
        rfl
    | _ => rfl
  have hneed : pushNeed z j = 1 := by
    cases j with
    | array items => exact absurd hj id
    | object members => exact absurd hj id
    | _ => rfl
  have hcounted : j.Every Counted := by
    cases j <;> simp_all [Counted, Scalar]
  rw [hprogram, hneed]
  refine within_withCopy (fun t' heap => Pushed.withHeap t' heap) ?_
  refine (Prog.Within.of_exactly (exactly_push (dukScalar j))).congr And.left
    (fun hroom => ⟨hroom, hcounted⟩) ?_
  rintro - t' rfl
  exact ⟨.refl _ _, dukScalar j, rfl, (holds_scalar_iff hj).mpr rfl⟩

/-- A fresh object on top of the stack, while it is filled. -/
structure Filling (o : Nat) (below : List DukItem) (isArray : Bool)
    (own : List (Bytes × DukProperty)) (t : DukThread) : Prop where
  stack : t.stack = below ++ [DukItem.value (.object o)]
  pristine : t.world.1.Pristine
  lt_next : o < t.world.1.next
  no_prototype : ∀ isArray, o ∉ t.world.1.freshPrototypes isArray
  object : t.world.1.objects o = t.world.1.freshObject isArray own

theorem Filling.length {o : Nat} {below : List DukItem} {isArray : Bool}
    {own : List (Bytes × DukProperty)} (h : Filling o below isArray own t) :
    t.stack.length = below.length + 1 := by
  rw [h.stack]
  simp

/-- One value is pushed and put into the object. -/
theorem within_pushAndPut {o : Nat} {below : List DukItem} {isArray : Bool}
    {own : List (Bytes × DukProperty)} {created : List ViewId} {j : Json} (key : DukKey)
    {index : Int} (hj : Pushes c z m env j) (hfilling : Filling o below isArray own t)
    (hindex : normalize index (below.length + 2) = some below.length)
    (hkey : key.bytes ∉ own.map Prod.fst) (hproto : key.bytes ≠ text "__proto__") :
    Prog.Within (JSONtoDukValue c z m env j created >>= fun _ => putProp c z index key) t
      (t.stack.length + max (pushNeed z j) (1 + putNeed z) ≤ t.world.1.limit ∧ j.Every Counted)
      (j.Every Counted)
      fun _ t' => ∃ v, Filling o below isArray (own ++ [DukHeap.plain (key.bytes, v)]) t' ∧
        DukHeap.Grows (· = o) t.world.1 t'.world.1 ∧ Holds t'.world.1 (o + 1) j v := by
  refine ((hj t created hfilling.pristine).bind
    (F := t.stack.length + 1 + putNeed z ≤ t.world.1.limit) (D := True)
    fun _ t₁ hpushed => ?_).congr ?_ (fun h => h.1.2) fun _ _ h => h
  swap
  · rintro ⟨hroom, hcounted⟩
    exact ⟨⟨by omega, hcounted⟩, by omega⟩
  obtain ⟨hgrows, v, hstack, hholds⟩ := hpushed
  have hlength : t₁.stack.length = t.stack.length + 1 := by rw [hstack]; simp
  have hobject : t₁.world.1.objects o = t₁.world.1.freshObject isArray own := by
    rw [hgrows.objects o hfilling.lt_next id, hfilling.object, DukHeap.freshObject,
      DukHeap.freshObject, hgrows.prototypes]
  have hpristine : t₁.world.1.Pristine := hfilling.pristine.grows hgrows fun _ _ _ => id
  -- the object the value goes into lies right under the value
  have hbase : (itemAt index).Gives t₁ (some (.value (.object o))) t₁ := by
    refine gives_itemAt (i := below.length) ?_ ?_
    · rw [hlength, hfilling.length]
      exact hindex
    · rw [hstack, hfilling.stack, List.append_assoc, List.getElem?_append_right (Nat.le_refl _)]
      simp
  have hold : ∀ isArray, o ∉ t₁.world.1.freshPrototypes isArray := by
    rw [hgrows.prototypes]
    exact hfilling.no_prototype
  have hstores := DukHeap.stores_fresh hpristine hobject hkey hproto
  refine (within_putProp hstack hbase hstores).congr
    (by rw [hlength, hgrows.limit]; exact id) id ?_
  rintro - t₂ rfl
  have hstored : DukHeap.Grows (· = o) t₁.world.1 (t₁.world.1.store o key.bytes v) :=
    DukHeap.grows_store _ _ _
  refine ⟨v, ⟨hfilling.stack, ?_, ?_, hold, ?_⟩, ?_, ?_⟩
  · exact hpristine.grows hstored fun isArray p hp heq => hold isArray (heq ▸ hp)
  · exact Nat.lt_of_lt_of_le hfilling.lt_next hgrows.next_le
  · exact DukHeap.objects_store hobject hkey v
  · exact (hgrows.mono fun _ _ h => h.elim).trans hstored
  · -- the objects of the value are younger than the one it is put into
    have hyounger := hfilling.lt_next
    exact hholds.mono hyounger hstored.next_le hstored.prototypes fun p hp hp' =>
      hstored.objects p hp' (by omega)

/-- The elements are put behind those that are there. -/
theorem within_putItems {o : Nat} {below : List DukItem} (created : List ViewId)
    {items : List Json} (hitems : ∀ j ∈ items, Pushes c z m env j) {done : List DukValue}
    {t : DukThread}
    (hfilling : Filling o below true ((elements done).map DukHeap.plain) t) :
    (putItems c z m env below.length done.length items created).Within t
      (t.stack.length + itemsNeed z items ≤ t.world.1.limit ∧ (∀ j ∈ items, j.Every Counted) ∧
        (items = [] ∨ done.length + items.length < 2 ^ 31))
      ((∀ j ∈ items, j.Every Counted) ∧ (items = [] ∨ done.length + items.length < 2 ^ 31))
      fun _ t' => ∃ vs,
        Filling o below true ((elements (done ++ vs)).map DukHeap.plain) t' ∧
        DukHeap.Grows (· = o) t.world.1 t'.world.1 ∧ HoldsItems t'.world.1 (o + 1) items vs := by
  induction items generalizing done t with
  | nil =>
      rw [putItems]
      refine .pure ⟨by simp, .inl rfl⟩ ⟨[], ?_, .refl _ _, rfl⟩
      rw [List.append_nil]
      exact hfilling
  | cons j rest ih =>
      have hcons : j :: rest ≠ [] := List.cons_ne_nil _ _
      rw [putItems, itemsNeed, ← bind_assoc]
      -- the room for the first element and for the rest, which start from the same height
      refine ((within_pushAndPut (.index done.length) (hitems j (by simp)) hfilling
        (normalize_of_nonneg (by omega)) (indexKey_notMem done) (indexKey_ne_proto _)).bind
          (F := t.stack.length + itemsNeed z rest ≤ t.world.1.limit ∧
            (∀ i ∈ rest, i.Every Counted) ∧ done.length + 1 + rest.length < 2 ^ 31)
          (D := (∀ i ∈ rest, i.Every Counted) ∧ done.length + 1 + rest.length < 2 ^ 31)
          fun _ t₁ hput => ?_).congr ?_ ?_ fun _ _ h => h
      · obtain ⟨v, hfilling₁, hgrows, hholds⟩ := hput
        by_cases hcount : done.length + 1 < 2 ^ 31
        · have hown : (elements done).map DukHeap.plain ++ [DukHeap.plain (indexKey done.length, v)]
              = (elements (done ++ [v])).map DukHeap.plain := by
            rw [elements_concat, List.map_append]
            rfl
          have hrest := ih (fun i hi => hitems i (by simp [hi])) (hown ▸ hfilling₁)
          rw [List.length_append, List.length_singleton] at hrest
          rw [if_pos hcount]
          refine hrest.congr ?_ ?_ ?_
          · rw [hfilling₁.length, hfilling.length, hgrows.limit]
            exact fun ⟨hroom, heach, hless⟩ => ⟨hroom, heach, .inr hless⟩
          · rintro ⟨heach, rfl | hless⟩
            · exact ⟨heach, hcount⟩
            · exact ⟨heach, hless⟩
          · rintro - t' ⟨vs, hfilling', hgrows', hholds'⟩
            refine ⟨v :: vs, ?_, hgrows.trans hgrows', v, vs, rfl, ?_, hholds'⟩
            · rw [← List.singleton_append, ← List.append_assoc]
              exact hfilling'
            · exact hholds.filled hgrows'
        · -- the index does not fit into an `int`
          rw [if_neg hcount]
          exact .stuck fun h => hcount (by omega)
      · rintro ⟨hneed, heach, hcount⟩
        obtain ⟨hcounted, heach⟩ := List.forall_mem_cons.mp heach
        have hcount := hcount.resolve_left hcons
        rw [List.length_cons] at hcount
        exact ⟨⟨by omega, hcounted⟩, by omega, heach, by omega⟩
      · rintro ⟨hcounted, heach, hcount⟩
        refine ⟨List.forall_mem_cons.mpr ⟨hcounted, heach⟩, .inr ?_⟩
        rw [List.length_cons]
        omega

/-- The keys of the members that are left are new when the first one is there too. -/
theorem notMem_concat {p : Bytes × Json} {rest : List (Bytes × Json)}
    {done : List (Bytes × DukValue)} (distinct : StdMap.Distinct (p :: rest))
    (hdone : ∀ q ∈ p :: rest, q.1 ∉ done.map Prod.fst) (v : DukValue) :
    ∀ q ∈ rest, q.1 ∉ (done ++ [(p.1, v)]).map Prod.fst := by
  intro q hq
  rw [List.map_append, List.mem_append, not_or]
  refine ⟨hdone q (by simp [hq]), ?_⟩
  have hne := (List.pairwise_cons.mp distinct).1 q hq
  simpa using hne.symm

/-- The members are put behind those that are there. -/
theorem within_putMembers {o : Nat} {below : List DukItem} (created : List ViewId)
    {members : List (Bytes × Json)} (hmembers : ∀ p ∈ members, Pushes c z m env p.2)
    (hnul : ∀ p ∈ members, 0 ∉ p.1) (hproto : ∀ p ∈ members, p.1 ≠ text "__proto__")
    (distinct : StdMap.Distinct members) {done : List (Bytes × DukValue)}
    (hdone : ∀ p ∈ members, p.1 ∉ done.map Prod.fst) {t : DukThread}
    (hfilling : Filling o below false (done.map DukHeap.plain) t) :
    (putMembers c z m env members created).Within t
      (t.stack.length + membersNeed z members ≤ t.world.1.limit ∧
        ∀ p ∈ members, p.2.Every Counted) (∀ p ∈ members, p.2.Every Counted)
      fun _ t' => ∃ es, Filling o below false ((done ++ es).map DukHeap.plain) t' ∧
        DukHeap.Grows (· = o) t.world.1 t'.world.1 ∧
          HoldsMembers t'.world.1 (o + 1) members es := by
  induction members generalizing done t with
  | nil =>
      rw [putMembers]
      refine .pure (by simp) ⟨[], ?_, .refl _ _, rfl⟩
      rw [List.append_nil]
      exact hfilling
  | cons p rest ih =>
      obtain ⟨k, j⟩ := p
      -- the name has no NUL byte that would cut it
      have hk : cString k = k := cString_of_notMem (hnul (k, j) (by simp))
      have hnew : (DukKey.name k).bytes ∉ (done.map DukHeap.plain).map Prod.fst := by
        rw [keys_plain]
        exact hdone (k, j) (by simp)
      rw [putMembers, membersNeed, ← bind_assoc, hk]
      refine ((within_pushAndPut (.name k) (hmembers (k, j) (by simp)) hfilling
        (normalize_of_neg (i := 2) (by omega) (by omega)) hnew (hproto (k, j) (by simp))).bind
          (F := t.stack.length + membersNeed z rest ≤ t.world.1.limit ∧
            ∀ p ∈ rest, p.2.Every Counted) (D := ∀ p ∈ rest, p.2.Every Counted)
          fun _ t₁ hput => ?_).congr ?_ ?_ fun _ _ h => h
      · obtain ⟨v, hfilling₁, hgrows, hholds⟩ := hput
        have hown : done.map DukHeap.plain ++ [DukHeap.plain ((DukKey.name k).bytes, v)]
            = (done ++ [(k, v)]).map DukHeap.plain := by
          rw [List.map_append]
          rfl
        rw [hown] at hfilling₁
        have hrest := ih (fun p hp => hmembers p (by simp [hp])) (fun p hp => hnul p (by simp [hp]))
          (fun p hp => hproto p (by simp [hp])) (List.pairwise_cons.mp distinct).2
          (notMem_concat distinct hdone v) hfilling₁
        refine hrest.congr ?_ id ?_
        · rw [hfilling₁.length, hfilling.length, hgrows.limit]
          exact id
        · rintro - t' ⟨es, hfilling', hgrows', hholds'⟩
          refine ⟨(k, v) :: es, ?_, hgrows.trans hgrows', v, es, rfl, ?_, hholds'⟩
          · rw [← List.singleton_append, ← List.append_assoc]
            exact hfilling'
          · exact hholds.filled hgrows'
      · dsimp only
        rintro ⟨hneed, heach⟩
        obtain ⟨hcounted, heach⟩ := List.forall_mem_cons.mp heach
        exact ⟨⟨by omega, hcounted⟩, by omega, heach⟩
      · rintro ⟨hcounted, heach⟩
        exact List.forall_mem_cons.mpr ⟨hcounted, heach⟩

/-- A fresh object is on top, and nothing is in it. -/
theorem filling_alloc (isArray : Bool) (hpristine : t.world.1.Pristine) :
    Filling t.world.1.next t.stack isArray [] ⟨(t.world.1.alloc isArray, t.world.2),
      t.stack ++ [DukItem.value (.object t.world.1.next)]⟩ where
  stack := rfl
  pristine := hpristine.grows (DukHeap.grows_alloc isArray) fun _ _ _ => id
  lt_next := Nat.lt_succ_self _
  no_prototype isArray hmem := Nat.lt_irrefl _ (hpristine.older isArray _ hmem)
  object := DukHeap.objects_alloc isArray

/-- What was filled is all new. -/
theorem grows_of_filled {isArray : Bool} {h h' : DukHeap}
    (hgrows : DukHeap.Grows (· = h.next) (h.alloc isArray) h') :
    DukHeap.Grows (fun _ => False) h h' := by
  have hall : DukHeap.Grows (· = h.next) h h' :=
    ((DukHeap.grows_alloc isArray).mono fun _ _ h => h.elim).trans hgrows
  exact hall.mono fun p hp heq => Nat.ne_of_lt hp heq

theorem pushes_array {items : List Json} (hitems : ∀ j ∈ items, Pushes c z m env j) :
    Pushes c z m env (array items) := by
  intro t created hpristine
  -- the index counts in an `int`
  have hcount : (items = [] ∨ 0 + items.length < 2 ^ 31) ↔ (array items).Counted := by
    rw [Counted, Nat.zero_add, or_iff_right_iff_imp]
    rintro rfl
    exact Nat.two_pow_pos 31
  rw [JSONtoDukValue, pushNeed, every_array]
  refine within_withCopy (fun t' heap => Pushed.withHeap t' heap) ?_
  refine ((Prog.Within.of_exactly (exactly_pushObject true)).bind
    (F := t.stack.length + 1 + itemsNeed z items ≤ t.world.1.limit ∧
      (∀ j ∈ items, j.Every Counted) ∧ (items = [] ∨ 0 + items.length < 2 ^ 31))
    (D := (∀ j ∈ items, j.Every Counted) ∧ (items = [] ∨ 0 + items.length < 2 ^ 31))
    fun i t₁ h₁ => ?_).congr ?_ ?_ fun _ _ h => h
  · obtain ⟨rfl, rfl⟩ := h₁
    have hfilling := filling_alloc (t := ⟨(t.world.1, t.world.2.retainAll created), t.stack⟩)
      true hpristine
    have hloop := within_putItems created hitems (show Filling _ _ _
      ((elements []).map DukHeap.plain) _ from hfilling)
    refine hloop.congr (by rw [hfilling.length]; exact id) id ?_
    rintro - t' ⟨vs, hfilled, hgrows, hholds⟩
    exact ⟨grows_of_filled hgrows, .object t.world.1.next, hfilled.stack, t.world.1.next, vs,
      Nat.le_refl _, hfilled.lt_next, rfl, hfilled.object, hholds⟩
  · rw [hcount]
    rintro ⟨hneed, hcounted, heach⟩
    dsimp only
    exact ⟨by omega, by omega, heach, hcounted⟩
  · rw [hcount]
    rintro ⟨hroom, heach, hcounted⟩
    exact ⟨hroom, hcounted, heach⟩

theorem pushes_object {members : List (Bytes × Json)}
    (hmembers : ∀ p ∈ members, Pushes c z m env p.2) (hnul : ∀ p ∈ members, 0 ∉ p.1)
    (hproto : ∀ p ∈ members, p.1 ≠ text "__proto__") (distinct : StdMap.Distinct members) :
    Pushes c z m env (object members) := by
  intro t created hpristine
  rw [JSONtoDukValue, pushNeed, every_object]
  refine within_withCopy (fun t' heap => Pushed.withHeap t' heap) ?_
  refine ((Prog.Within.of_exactly (exactly_pushObject false)).bind
    (F := t.stack.length + 1 + membersNeed z members ≤ t.world.1.limit ∧
      ∀ p ∈ members, p.2.Every Counted) (D := ∀ p ∈ members, p.2.Every Counted)
    fun i t₁ h₁ => ?_).congr ?_ ?_ fun _ _ h => h
  · obtain ⟨-, rfl⟩ := h₁
    have hfilling := filling_alloc (t := ⟨(t.world.1, t.world.2.retainAll created), t.stack⟩)
      false hpristine
    have hloop := within_putMembers created hmembers hnul hproto distinct
      (fun p _ => List.not_mem_nil) (show Filling _ _ _ ([].map DukHeap.plain) _ from hfilling)
    refine hloop.congr (by rw [hfilling.length]; exact id) id ?_
    rintro - t' ⟨es, hfilled, hgrows, hholds⟩
    exact ⟨grows_of_filled hgrows, .object t.world.1.next, hfilled.stack, t.world.1.next, es,
      Nat.le_refl _, hfilled.lt_next, rfl, hfilled.object, hholds⟩
  · rintro ⟨hneed, -, heach⟩
    dsimp only
    exact ⟨by omega, by omega, heach⟩
  · rintro ⟨hroom, heach⟩
    exact ⟨hroom, trivial, heach⟩

/-- What goes through JavaScript: no binary, integers that a double holds, texts in UTF-8 without
NUL bytes, and no key `__proto__`. -/
structure Kept (j : Json) : Prop where
  notBinary : NotBinary j
  integers : Integers (fun n => n.natAbs ≤ 2 ^ 53) j
  texts : Texts (fun s => 0 ∉ s ∧ Utf8 s) j
  keys : Keys (fun k => k ≠ text "__proto__") j
  ascending : KeysAscending j

theorem pushes {j : Json} (hj : j.Every Kept) : Pushes c z m env j := by
  induction j using Json.ind with
  | array items ih =>
      have heach := (every_array.mp hj).2
      exact pushes_array fun i hi => ih i hi (heach i hi)
  | object members ih =>
      obtain ⟨hself, heach⟩ := every_object.mp hj
      have hdistinct : StdMap.Distinct members := StdMap.Ascending.distinct hself.ascending
      exact pushes_object (fun p hp => ih p hp (heach p hp)) (fun p hp => (hself.texts p hp).1)
        hself.keys hdistinct
  | binary b st => exact absurd hj.self.notBinary id
  | string s => exact pushes_scalar trivial hj.self.texts.1
  | _ => exact pushes_scalar trivial trivial

end DukStack

end Poesie
