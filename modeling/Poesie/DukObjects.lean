import Poesie.StackValues

set_option autoImplicit false

/-! # Objects that are made of JSON values

An object that a value is put into may already have a property of that name, or may inherit one.
Of the objects that `JSONtoDukValue` makes, and of the built-in prototypes, only `__proto__` is a
property with a setter. So a key becomes an own property, or the object gets other prototypes.
-/

namespace Poesie

open Wire Json SharedPtr Outcomes

namespace DukHeap

/-- Other prototypes for an object. -/
def reparent (h : DukHeap) (o : Nat) (prototypes : List Nat) : DukHeap :=
  { h with objects := Function.update h.objects o { h.objects o with prototypes := prototypes } }

/-- The prototypes of an object after a value was assigned to its `__proto__`. -/
def protoChain (h : DukHeap) (o : Nat) : DukValue → List Nat
  | .object p => h.chain p
  | .null => []
  | _ => (h.objects o).prototypes

end DukHeap

/-- The function is the setter of `__proto__`. -/
def SetsPrototypes (c : DukCode) (f : Nat) : Prop := ∀ (o : Nat) (v : DukValue) (w : DukWorld),
  c.setter f (.object o) v w = (.gave (), (w.1.reparent o (w.1.protoChain o v), w.2))

/-- Fresh objects inherit `__proto__`. -/
def HasProto (c : DukCode) (h : DukHeap) : Prop :=
  ∀ isArray sanity, sanity + 1 = prototypeChainSanity → ∃ p g f e,
    h.find (text "__proto__") sanity (h.freshPrototypes isArray)
      = .property p ⟨.accessor g (some f), e⟩ ∧ SetsPrototypes c f

theorem HasProto.grows {c : DukCode} {h h' : DukHeap} {changed : Nat → Prop}
    (hproto : HasProto c h) (hpristine : h.Pristine) (hgrows : DukHeap.Grows changed h h')
    (hkept : ∀ isArray, ∀ p ∈ h.freshPrototypes isArray, ¬ changed p) : HasProto c h' := by
  intro isArray sanity hsanity
  rw [hgrows.prototypes, DukHeap.find_congr fun p hp =>
    hgrows.objects p (hpristine.older isArray p hp) (hkept isArray p hp)]
  exact hproto isArray sanity hsanity

namespace DukHeap

variable {c : DukCode} {h h' : DukHeap} {lo : Nat}

/-! ## Setters along a chain -/

/-- The only setter that a look-up along the chain can find is that of `__proto__`. -/
def Guarded (c : DukCode) (h : DukHeap) (k : Bytes) (chain : List Nat) (sanity : Nat) : Prop :=
  ∀ p g f e, h.find k sanity chain = .property p ⟨.accessor g (some f), e⟩ →
    k = text "__proto__" ∧ SetsPrototypes c f

/-- A look-up that may go less far finds the same, or meets the limit. -/
theorem find_of_le {k : Bytes} {n m : Nat} (hle : n ≤ m) (chain : List Nat) :
    h.find k n chain = .limit ∨ h.find k n chain = h.find k m chain := by
  induction chain generalizing n m with
  | nil =>
      right
      unfold find
      rfl
  | cons p chain ih =>
      unfold find
      cases (h.objects p).own.lookup k with
      | some property => exact .inr rfl
      | none =>
          cases n with
          | zero => exact .inl rfl
          | succ n =>
              obtain ⟨m, rfl⟩ : ∃ k, m = k + 1 := ⟨m - 1, by omega⟩
              exact ih (by omega)

theorem guarded_nil (k : Bytes) (n : Nat) : Guarded c h k [] n := by
  intro p g f e hfind
  unfold find at hfind
  cases hfind

/-- The built-in prototypes have no other setter. -/
theorem guarded_fresh {k : Bytes} {n : Nat} (hpristine : h.Pristine) (hproto : HasProto c h)
    (isArray : Bool) (hn : n < prototypeChainSanity) :
    Guarded c h k (h.freshPrototypes isArray) n := by
  intro p g f e hfind
  obtain ⟨sanity, hsanity⟩ : ∃ s, s + 1 = prototypeChainSanity := ⟨9999, rfl⟩
  have hle : n ≤ sanity := by omega
  rcases find_of_le (h := h) (k := k) hle (h.freshPrototypes isArray) with hlimit | hsame
  · rw [hlimit] at hfind
    cases hfind
  · rw [hsame] at hfind
    by_cases hk : k = text "__proto__"
    · obtain ⟨p', g', f', e', hfound, hsets⟩ := hproto isArray sanity hsanity
      rw [hk, hfound] at hfind
      cases hfind
      exact ⟨hk, hsets⟩
    · rcases hpristine.settable isArray k hk sanity hsanity with habsent | ⟨p', v, e', hdata⟩
      · rw [habsent] at hfind
        cases hfind
      · rw [hdata] at hfind
        cases hfind

/-- Objects without setters in front of a chain. -/
theorem guarded_append {k : Bytes} {made rest : List Nat} {n : Nat}
    (hmade : ∀ p ∈ made, ∀ e ∈ (h.objects p).own, ∃ v b, e.2.slot = .data v b)
    (hrest : ∀ n', n' + made.length ≤ n → Guarded c h k rest n') :
    Guarded c h k (made ++ rest) n := by
  induction made generalizing n with
  | nil => exact hrest n (Nat.le_refl n)
  | cons p made ih =>
      intro q g f e hfind
      rw [List.cons_append] at hfind
      unfold find at hfind
      cases hlookup : (h.objects p).own.lookup k with
      | some property =>
          rw [hlookup] at hfind
          cases hfind
          obtain ⟨e', he', hkey⟩ : ∃ e' ∈ (h.objects p).own, e'.2 = ⟨.accessor g (some f), e⟩ := by
            obtain ⟨l₁, l₂, hown, -⟩ := List.lookup_eq_some_iff.mp hlookup
            exact ⟨(k, ⟨.accessor g (some f), e⟩), by rw [hown]; simp, rfl⟩
          obtain ⟨v, b, hdata⟩ := hmade p (by simp) e' he'
          rw [hkey] at hdata
          cases hdata
      | none =>
          rw [hlookup] at hfind
          cases n with
          | zero => cases hfind
          | succ n =>
              refine ih (fun p' hp' => hmade p' (by simp [hp'])) (fun n' hn' => ?_) q g f e hfind
              exact hrest n' (by rw [List.length_cons]; omega)

/-- The objects from `lo` on hold data, and inherit from one another and from the built-in
prototypes only. -/
structure Tame (lo : Nat) (h : DukHeap) : Prop where
  noProxy : ∀ p, lo ≤ p → p < h.next → (h.objects p).proxy = none
  data : ∀ p, lo ≤ p → p < h.next → ∀ e ∈ (h.objects p).own, ∃ v b, e.2.slot = .data v b
  chain : ∀ p, lo ≤ p → p < h.next → ∃ made rest, (h.objects p).prototypes = made ++ rest ∧
    (∀ q ∈ made, lo ≤ q ∧ q < h.next) ∧ (rest = [] ∨ ∃ isArray, rest = h.freshPrototypes isArray)

theorem Tame.guarded (htame : Tame lo h) (hpristine : h.Pristine) (hproto : HasProto c h)
    {o : Nat} (hlow : lo ≤ o) (hhigh : o < h.next) (k : Bytes) :
    Guarded c h k (h.chain o) prototypeChainSanity := by
  obtain ⟨made, rest, hchain, hmade, hrest⟩ := htame.chain o hlow hhigh
  rw [DukHeap.chain, hchain, ← List.cons_append]
  refine guarded_append (fun p hp => ?_) fun n hn => ?_
  · rcases List.mem_cons.mp hp with rfl | hp
    · exact htame.data p hlow hhigh
    · exact htame.data p (hmade p hp).1 (hmade p hp).2
  · rcases hrest with rfl | ⟨isArray, rfl⟩
    · exact guarded_nil k n
    · rw [List.length_cons] at hn
      exact guarded_fresh hpristine hproto isArray (by omega)

theorem Tame.alloc (htame : Tame lo h) (isArray : Bool) :
    Tame lo (h.alloc isArray) := by
  have hnext : (h.alloc isArray).next = h.next + 1 := rfl
  have hold : ∀ p < h.next, (h.alloc isArray).objects p = h.objects p := fun p hp =>
    (grows_alloc isArray).objects p hp id
  have hcases : ∀ p < (h.alloc isArray).next, p < h.next ∨ p = h.next := fun p hp => by omega
  refine ⟨fun p hp hp' => ?_, fun p hp hp' => ?_, fun p hp hp' => ?_⟩
  · rcases hcases p hp' with hlt | rfl
    · rw [hold p hlt]
      exact htame.noProxy p hp hlt
    · rw [objects_alloc]
      rfl
  · rcases hcases p hp' with hlt | rfl
    · rw [hold p hlt]
      exact htame.data p hp hlt
    · rw [objects_alloc]
      intro e he
      cases he
  · rcases hcases p hp' with hlt | rfl
    · rw [hold p hlt]
      obtain ⟨made, rest, hchain, hmade, hrest⟩ := htame.chain p hp hlt
      exact ⟨made, rest, hchain, fun q hq => ⟨(hmade q hq).1, by have := (hmade q hq).2; omega⟩,
        hrest⟩
    · rw [objects_alloc]
      exact ⟨[], h.freshPrototypes isArray, rfl, by simp, .inr ⟨isArray, rfl⟩⟩

/-- What the own properties are after one was stored. -/
theorem mem_own_store {o : Nat} {k : Bytes} {v : DukValue} {e : Bytes × DukProperty}
    (he : e ∈ ((h.store o k v).objects o).own) :
    e ∈ (h.objects o).own ∨ (e.1 = k ∧ ∃ b, e.2 = ⟨.data v true, b⟩) := by
  unfold store at he
  dsimp only at he
  rw [Function.update_self] at he
  dsimp only at he
  split at he
  · obtain ⟨e', he', rfl⟩ := List.mem_map.mp he
    split
    · exact .inr ⟨rfl, e'.2.enumerable, rfl⟩
    · exact .inl he'
  · rcases List.mem_append.mp he with he | he
    · exact .inl he
    · obtain rfl := List.mem_singleton.mp he
      exact .inr ⟨rfl, true, rfl⟩

/-- A store changes nothing but own properties. -/
theorem objects_store_same (o : Nat) (k : Bytes) (v : DukValue) (p : Nat) :
    ((h.store o k v).objects p).proxy = (h.objects p).proxy ∧
      ((h.store o k v).objects p).prototypes = (h.objects p).prototypes := by
  unfold store
  dsimp only
  by_cases hp : p = o
  · rw [hp, Function.update_self]
    exact ⟨rfl, rfl⟩
  · rw [Function.update_of_ne hp]
    exact ⟨rfl, rfl⟩

theorem Tame.store (htame : Tame lo h) (o : Nat) (k : Bytes) (v : DukValue) :
    Tame lo (h.store o k v) := by
  refine ⟨fun p hp hp' => ?_, fun p hp hp' e he => ?_, fun p hp hp' => ?_⟩
  · rw [(objects_store_same o k v p).1]
    exact htame.noProxy p hp hp'
  · by_cases hpo : p = o
    · rw [hpo] at he hp hp'
      rcases mem_own_store he with he | ⟨-, b, hdata⟩
      · exact htame.data o hp hp' e he
      · exact ⟨v, true, by rw [hdata]⟩
    · rw [(grows_store (h := h) o k v).objects p hp' hpo] at he
      exact htame.data p hp hp' e he
  · rw [(objects_store_same o k v p).2]
    exact htame.chain p hp hp'

theorem grows_reparent (o : Nat) (prototypes : List Nat) :
    Grows (· = o) h (h.reparent o prototypes) where
  next_le := Nat.le_refl _
  limit := rfl
  prototypes := rfl
  objects _ _ hp := Function.update_of_ne hp _ _

theorem objects_reparent (o : Nat) (prototypes : List Nat) :
    (h.reparent o prototypes).objects o = { h.objects o with prototypes := prototypes } :=
  Function.update_self _ _ _

/-- A value is no object, or one of those from `lo` on. -/
def Made (lo : Nat) (h : DukHeap) (v : DukValue) : Prop := ∀ p, v = .object p → lo ≤ p ∧ p < h.next

theorem Tame.protoChain (htame : Tame lo h) {o : Nat} (hlow : lo ≤ o) (hhigh : o < h.next)
    {v : DukValue} (hv : Made lo h v) : ∃ made rest, h.protoChain o v = made ++ rest ∧
      (∀ q ∈ made, lo ≤ q ∧ q < h.next) ∧
        (rest = [] ∨ ∃ isArray, rest = h.freshPrototypes isArray) := by
  cases v with
  | null => exact ⟨[], [], rfl, by simp, .inl rfl⟩
  | object p =>
      obtain ⟨hp, hp'⟩ := hv p rfl
      obtain ⟨made, rest, hchain, hmade, hrest⟩ := htame.chain p hp hp'
      refine ⟨p :: made, rest, ?_, ?_, hrest⟩
      · show p :: (h.objects p).prototypes = _
        rw [hchain]
        rfl
      · rw [List.forall_mem_cons]
        exact ⟨⟨hp, hp'⟩, hmade⟩
  | _ => exact htame.chain o hlow hhigh

theorem Tame.reparent (htame : Tame lo h) {o : Nat} (hlow : lo ≤ o) (hhigh : o < h.next)
    {v : DukValue} (hv : Made lo h v) : Tame lo (h.reparent o (h.protoChain o v)) := by
  have hother : ∀ p, p ≠ o → (h.reparent o (h.protoChain o v)).objects p = h.objects p :=
    fun p hp => Function.update_of_ne hp _ _
  refine ⟨fun p hp hp' => ?_, fun p hp hp' => ?_, fun p hp hp' => ?_⟩
  · by_cases hpo : p = o
    · rw [hpo, objects_reparent]
      exact htame.noProxy o hlow hhigh
    · rw [hother p hpo]
      exact htame.noProxy p hp hp'
  · by_cases hpo : p = o
    · rw [hpo, objects_reparent]
      exact htame.data o hlow hhigh
    · rw [hother p hpo]
      exact htame.data p hp hp'
  · by_cases hpo : p = o
    · rw [hpo, objects_reparent]
      exact htame.protoChain hlow hhigh hv
    · rw [hother p hpo]
      exact htame.chain p hp hp'

end DukHeap

namespace Duk

variable {c : DukCode} {h : DukHeap} {lo : Nat}

/-! ## Putting a value -/

theorem write_cases {o : Nat} {k : Bytes}
    (hguarded : h.Guarded c k (h.chain o) prototypeChainSanity) :
    h.write (.object o) k = .store o ∨ h.write (.object o) k = .refused ∨
      ∃ f, h.write (.object o) k = .setter f ∧ k = text "__proto__" ∧ SetsPrototypes c f := by
  have hadded : ∀ b : Bool, (if b then DukWrite.store o else .refused) = .store o ∨
      (if b then DukWrite.store o else .refused) = .refused := by
    intro b
    cases b with
    | true => exact .inl rfl
    | false => exact .inr rfl
  unfold DukHeap.write
  dsimp only
  cases hfind : h.find k prototypeChainSanity (h.chain o) with
  | absent => exact (hadded _).imp_right .inl
  | limit => exact .inr (.inl rfl)
  | property p property =>
      obtain ⟨slot, e⟩ := property
      cases slot with
      -- a property of the object itself is overwritten, one that is inherited is shadowed
      | data v writable =>
          cases writable with
          | false => exact .inr (.inl rfl)
          | true =>
              by_cases hp : p = o
              · exact .inl (if_pos hp)
              · dsimp only
                rw [if_neg hp]
                exact (hadded _).imp_right .inl
      | accessor g set =>
          cases set with
          | none => exact .inr (.inl rfl)
          | some f => exact .inr (.inr ⟨f, rfl, hguarded p g f e hfind⟩)

theorem putPlain_cases {o : Nat} {k : Bytes} {v : DukValue} {m : Heap} {u : Unit} {w : DukWorld}
    (hguarded : h.Guarded c k (h.chain o) prototypeChainSanity)
    (hgives : (putPlain c (.object o) k v).Gives (h, m) u w) :
    (h.write (.object o) k = .store o ∧ w = (h.store o k v, m)) ∨
      (k = text "__proto__" ∧ w = (h.reparent o (h.protoChain o v), m)) := by
  unfold Prog.Gives putPlain at hgives
  rcases write_cases hguarded with hwrite | hwrite | ⟨f, hwrite, hk, hsets⟩
  · rw [hwrite] at hgives
    exact .inl ⟨hwrite, (Prod.mk.inj hgives).2.symm⟩
  · rw [hwrite] at hgives
    cases hgives
  · rw [hwrite] at hgives
    dsimp only [run] at hgives
    rw [hsets] at hgives
    exact .inr ⟨hk, (Prod.mk.inj hgives).2.symm⟩

/-- A value that is put becomes an own property, or the object gets other prototypes. -/
theorem putProp_cases {o : Nat} {key : DukKey} {v : DukValue} {m : Heap} {u : Unit} {w : DukWorld}
    (hpristine : h.Pristine) (hproto : HasProto c h) (htame : h.Tame lo) (hlow : lo ≤ o)
    (hhigh : o < h.next) (hgives : (putProp c (.object o) key v).Gives (h, m) u w) :
    w = (h.store o key.bytes v, m) ∨ (key.bytes = text "__proto__" ∧
      w = (h.reparent o (h.protoChain o v), m)) := by
  unfold Prog.Gives at hgives
  rw [putProp_of_not_proxy (htame.noProxy o hlow hhigh)] at hgives
  split at hgives
  · exact .inl (Prod.mk.inj hgives).2.symm
  · have hguarded := htame.guarded hpristine hproto hlow hhigh key.bytes
    exact (putPlain_cases hguarded hgives).imp_left And.right

/-- As long as the object has its first prototypes, `__proto__` is no property of it. -/
theorem putProp_proto {o : Nat} {v : DukValue} {isArray : Bool}
    {own : List (Bytes × DukProperty)} {m : Heap} {u : Unit} {w : DukWorld}
    (hproto : HasProto c h) (hobject : h.objects o = h.freshObject isArray own)
    (hown : text "__proto__" ∉ own.map Prod.fst)
    (hgives : (putProp c (.object o) (.name (text "__proto__")) v).Gives (h, m) u w) :
    w = (h.reparent o (h.protoChain o v), m) := by
  have hproxy : (h.objects o).proxy = none := by
    rw [hobject]
    rfl
  obtain ⟨sanity, hsanity⟩ : ∃ s, s + 1 = prototypeChainSanity := ⟨9999, rfl⟩
  obtain ⟨p, g, f, e, hfound, hsets⟩ := hproto isArray sanity hsanity
  have hchain : h.chain o = o :: h.freshPrototypes isArray := by
    rw [DukHeap.chain, hobject]
    rfl
  -- the object has no such property of its own, so the look-up goes on to the prototypes
  have hfind : h.find (text "__proto__") prototypeChainSanity (h.chain o)
      = .property p ⟨.accessor g (some f), e⟩ := by
    have hlookup : (h.objects o).own.lookup (text "__proto__") = none := by
      rw [hobject]
      exact DukHeap.lookup_eq_none hown
    rw [hchain, ← hsanity]
    conv => lhs; unfold DukHeap.find
    rw [hlookup]
    exact hfound
  have hwrite : h.write (.object o) (text "__proto__") = .setter f := by
    unfold DukHeap.write
    simp only [hfind]
  unfold Prog.Gives at hgives
  rw [putProp_of_not_proxy hproxy, if_neg (by simp [DukHeap.fastPath]), DukKey.bytes] at hgives
  unfold putPlain at hgives
  rw [hwrite] at hgives
  dsimp only [run] at hgives
  rw [hsets] at hgives
  exact (Prod.mk.inj hgives).2.symm

end Duk

namespace DukHeap

variable {c : DukCode} {h h' : DukHeap} {lo o : Nat} {isArray : Bool}
  {es : List (Bytes × DukValue)}

/-- A fresh object after these values were put into it. One of them may have been put over another
one, and `__proto__` may have given it other prototypes. -/
structure Takes (h : DukHeap) (o : Nat) (isArray : Bool) (es : List (Bytes × DukValue)) : Prop where
  keys : ∀ e ∈ (h.objects o).own, e.1 ∈ es.map Prod.fst
  fresh : text "__proto__" ∉ es.map Prod.fst → ∃ own, h.objects o = h.freshObject isArray own
  exact : text "__proto__" ∉ es.map Prod.fst → StdMap.Distinct es →
    h.objects o = h.freshObject isArray (es.map plain)
  lacks : StdMap.Distinct es → text "__proto__" ∉ (h.objects o).own.map Prod.fst

theorem takes_alloc : Takes (h.alloc isArray) h.next isArray [] where
  keys e he := by
    rw [objects_alloc] at he
    cases he
  fresh _ := ⟨[], objects_alloc isArray⟩
  exact _ _ := objects_alloc isArray
  lacks _ := by
    rw [objects_alloc]
    exact List.not_mem_nil

/-- Only the object itself, and what fresh objects inherit from, matter. -/
theorem Takes.congr (htakes : Takes h o isArray es) (hobject : h'.objects o = h.objects o)
    (hprototypes : h'.freshPrototypes = h.freshPrototypes) : Takes h' o isArray es := by
  have hfresh : ∀ own, h'.freshObject isArray own = h.freshObject isArray own := by
    intro own
    rw [freshObject, freshObject, hprototypes]
  refine ⟨?_, fun hes => ?_, fun hes hd => ?_, fun hd => ?_⟩
  · rw [hobject]
    exact htakes.keys
  · obtain ⟨own, hown⟩ := htakes.fresh hes
    exact ⟨own, by rw [hobject, hown, hfresh]⟩
  · rw [hobject, htakes.exact hes hd, hfresh]
  · rw [hobject]
    exact htakes.lacks hd

theorem fresh_store {own : List (Bytes × DukProperty)}
    (hobject : h.objects o = h.freshObject isArray own) (k : Bytes) (v : DukValue) :
    ∃ own', (h.store o k v).objects o = h.freshObject isArray own' := by
  unfold store
  dsimp only
  rw [Function.update_self, hobject]
  exact ⟨_, rfl⟩

/-- A key that is put may become an own property. -/
theorem keys_put {key : DukKey} {v : DukValue} {m : Heap} {w : DukWorld}
    (hcases : w = (h.store o key.bytes v, m) ∨
      (key.bytes = text "__proto__" ∧ w = (h.reparent o (h.protoChain o v), m))) :
    ∀ e ∈ (w.1.objects o).own, e ∈ (h.objects o).own ∨ e.1 = key.bytes := by
  intro e he
  rcases hcases with rfl | ⟨-, rfl⟩
  · exact (mem_own_store he).imp_right And.left
  · rw [objects_reparent] at he
    exact .inl he

theorem Takes.put (htakes : Takes h o isArray es) (hpristine : h.Pristine)
    (hproto : HasProto c h) (htame : h.Tame lo) (hlow : lo ≤ o) (hhigh : o < h.next)
    {key : DukKey} {v : DukValue} {m : Heap} {u : Unit} {w : DukWorld}
    (hgives : (Duk.putProp c (.object o) key v).Gives (h, m) u w) :
    Takes w.1 o isArray (es ++ [(key.bytes, v)]) := by
  have hcases := Duk.putProp_cases hpristine hproto htame hlow hhigh hgives
  have hkeys := keys_put hcases
  have hput : (es ++ [(key.bytes, v)]).map Prod.fst = es.map Prod.fst ++ [key.bytes] := by
    rw [List.map_append, List.map_singleton]
  -- a key other than `__proto__` is stored
  have hstore : text "__proto__" ∉ (es ++ [(key.bytes, v)]).map Prod.fst →
      text "__proto__" ∉ es.map Prod.fst ∧ w = (h.store o key.bytes v, m) := by
    intro hes
    rw [hput, List.mem_append, not_or, List.mem_singleton] at hes
    exact ⟨hes.1, hcases.resolve_right fun h => hes.2 h.1.symm⟩
  have hdistinct : StdMap.Distinct (es ++ [(key.bytes, v)]) →
      StdMap.Distinct es ∧ key.bytes ∉ es.map Prod.fst := by
    intro hd
    rw [StdMap.distinct_iff, hput, List.nodup_append] at hd
    exact ⟨StdMap.distinct_iff.mpr hd.1, fun hmem => hd.2.2 _ hmem _ (by simp) rfl⟩
  refine ⟨fun e he => ?_, fun hes => ?_, fun hes hd => ?_, fun hd hmem => ?_⟩
  · rw [hput, List.mem_append, List.mem_singleton]
    exact (hkeys e he).imp_left (htakes.keys e)
  · obtain ⟨hes, rfl⟩ := hstore hes
    obtain ⟨own, hobject⟩ := htakes.fresh hes
    exact fresh_store hobject key.bytes v
  · obtain ⟨hes, rfl⟩ := hstore hes
    obtain ⟨hd, hnew⟩ := hdistinct hd
    rw [← keys_plain] at hnew
    rw [List.map_append]
    exact objects_store (htakes.exact hes hd) hnew v
  · obtain ⟨hd, hnew⟩ := hdistinct hd
    obtain ⟨e, he, hkey⟩ := List.mem_map.mp hmem
    have hlacks := htakes.lacks hd
    by_cases hk : key.bytes = text "__proto__"
    · -- it is the first one, so that its setter is run
      obtain ⟨k, rfl⟩ : ∃ k, key = .name k := by
        cases key with
        | name k => exact ⟨k, rfl⟩
        | index i => exact absurd hk (indexKey_ne_proto i)
      obtain rfl : k = text "__proto__" := hk
      obtain ⟨own, hobject⟩ := htakes.fresh hnew
      rw [hobject] at hlacks
      rw [Duk.putProp_proto hproto hobject hlacks hgives, objects_reparent, hobject] at he
      exact hlacks (List.mem_map.mpr ⟨e, he, hkey⟩)
    · rcases hkeys e he with he | hsame
      · exact hlacks (List.mem_map.mpr ⟨e, he, hkey⟩)
      · exact hk (hsame.symm.trans hkey)

end DukHeap

end Poesie
