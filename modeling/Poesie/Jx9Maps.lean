import Poesie.Jx9Buckets

set_option autoImplicit false

/-! # Hash maps and dictionaries

Between its operations a hash map of the Jx9 VM stands for a dictionary (`Rep`): its nodes, in the
order of insertion, have the keys of the entries, and their memory objects have the values. No two
nodes share a memory object, and none is free. There is a lemma for each function: what it does to
the VM is what the dictionary of its map says, and the other maps stay as they are.
-/

namespace Poesie

open Wire Chains Outcomes

namespace Jx9Hash

variable {V : Type} {w : Vm V} {l c : Nat → Link Nat} {m : Nat} {order : List Nat}

/-! ## Tables -/

/-- How many entries a map may have: the size of a larger table is not a number of 32 bits. -/
def maxEntries : Nat := 3 * 2 ^ 28

/-- A table with the nodes of a map. -/
structure Filled (w : Vm V) (c : Nat → Link Nat) (nSize : UInt32) (table : List (Option Nat))
    (order : List Nat) : Prop where
  length : table.length = nSize.toNat
  pow : ∃ k, k ≤ 28 ∧ nSize.toNat = 2 ^ k
  bucketed : Bucketed c table (w.slotOf nSize) order

/-- What holds of the links of a map. -/
structure MapGood (w : Vm V) (l c : Nat → Link Nat) (m : Nat) (order : List Nat) : Prop where
  owned : ∀ a ∈ order, ∃ e, w.entry a = some e ∧ e.pMap = m ∧ e.nHash = (w.maps m).hash e.key
  list : Chain l (w.maps m).pLast order.reverse
  first : (w.maps m).pFirst = order.head?
  count : (w.maps m).nEntry.toNat = order.length
  table : (w.maps m).apBucket = none ∧ (w.maps m).nSize = 0 ∧ order = [] ∨
    order ≠ [] ∧ ∃ table, (w.maps m).apBucket = some table ∧
      Filled w c (w.maps m).nSize table order

theorem MapGood.live (h : MapGood w l c m order) {a : Nat} (ha : a ∈ order) :
    (w.entry a).isSome := by
  obtain ⟨e, he, -⟩ := h.owned a ha
  rw [he]
  rfl

theorem MapGood.nodup (h : MapGood w l c m order) : order.Nodup := List.nodup_reverse.mp h.list.nodup

/-- Only the map, its nodes and their links matter. -/
theorem MapGood.congr {w' : Vm V} {l' c' : Nat → Link Nat} (h : MapGood w l c m order)
    (hmap : w'.maps m = w.maps m) (hentry : ∀ a ∈ order, w'.entry a = w.entry a)
    (hl : ∀ a ∈ order, l' a = l a) (hc : ∀ a ∈ order, c' a = c a) :
    MapGood w' l' c' m order where
  owned a ha := by
    rw [hentry a ha, hmap]
    exact h.owned a ha
  list := by
    rw [hmap]
    exact h.list.congr fun a ha => hl a (List.mem_reverse.mp ha)
  first := by rw [hmap, h.first]
  count := by rw [hmap, h.count]
  table := by
    rw [hmap]
    refine h.table.imp_right ?_
    rintro ⟨hne, table, htable, hfilled⟩
    refine ⟨hne, table, htable, hfilled.length, hfilled.pow, hfilled.bucketed.congr hc fun a ha => ?_⟩
    rw [Vm.slotOf, Vm.slotOf, hentry a ha]

/-- The mask takes the number of a bucket out of a hash. -/
theorem mask_lt {nSize : UInt32} {k : Nat} (hpow : nSize.toNat = 2 ^ k) (nHash : UInt32) :
    (nHash &&& (nSize - 1)).toNat < nSize.toNat := by
  have hpos : 0 < nSize.toNat := by
    rw [hpow]
    exact Nat.pow_pos (by decide)
  have hsub : (nSize - 1).toNat = nSize.toNat - 1 := by
    rw [UInt32.toNat_sub_of_le]
    · rfl
    · exact UInt32.le_iff_toNat_le.mpr hpos
  have hand := Nat.and_le_right (n := nHash.toNat) (m := (nSize - 1).toNat)
  rw [UInt32.toNat_and]
  omega

theorem slotOf_lt {nSize : UInt32} {k : Nat} (hpow : nSize.toNat = 2 ^ k) (w : Vm V) (a : Nat) :
    w.slotOf nSize a < nSize.toNat := by
  unfold Vm.slotOf
  cases w.entry a with
  | none =>
      rw [hpow]
      exact Nat.pow_pos (by decide)
  | some e => exact mask_lt hpow e.nHash

/-- A table of twice the size is not too large for the allocator. -/
theorem double_size {nSize : UInt32} {k : Nat} (hpow : nSize.toNat = 2 ^ k) (hk : k < 28) :
    (nSize <<< 1).toNat = 2 ^ (k + 1) ∧ (nSize <<< 1 * 8).toNat / 8 = (nSize <<< 1).toNat ∧
      ¬ nSize <<< 1 < 1 := by
  have hle : 2 ^ (k + 1) ≤ 2 ^ 28 := Nat.pow_le_pow_right (by decide) (by omega)
  have hpos : 0 < 2 ^ (k + 1) := Nat.pow_pos (by decide)
  have hdouble : (nSize <<< 1).toNat = 2 ^ (k + 1) := by
    rw [UInt32.toNat_shiftLeft, hpow]
    show 2 ^ k <<< 1 % 2 ^ 32 = 2 ^ (k + 1)
    rw [Nat.shiftLeft_eq, ← pow_succ]
    exact Nat.mod_eq_of_lt (by omega)
  refine ⟨hdouble, ?_, ?_⟩
  · rw [UInt32.toNat_mul, hdouble]
    show 2 ^ (k + 1) * 8 % 2 ^ 32 / 8 = 2 ^ (k + 1)
    rw [Nat.mod_eq_of_lt (by omega), Nat.mul_div_cancel _ (by decide)]
  · rw [UInt32.lt_iff_toNat_lt, hdouble]
    show ¬ 2 ^ (k + 1) < 1
    omega

/-- Making sure that there is room for one more entry. -/
theorem hashmapGrowBucket_eq (h : MapGood w l c m order) (hsmall : order.length < maxEntries)
    (alloc : Bool) :
    if order = [] ∧ alloc = false then
      hashmapGrowBucket m alloc (w.relink l c) = (.returned false, w.relink l c)
    else ∃ table nSize c', hashmapGrowBucket m alloc (w.relink l c) =
        (.returned true, (w.withMap m fun map =>
          { map with apBucket := some table, nSize := nSize }).relink l c') ∧
      Filled w c' nSize table order ∧ ∀ b ∉ order, c' b = c b := by
  have hread : hashmap m (w.relink l c) = (.returned (w.maps m), w.relink l c) := rfl
  have hcount := h.count
  simp only [maxEntries] at hsmall
  unfold hashmapGrowBucket
  rw [Prog.bind_of_gives hread]
  rcases h.table with ⟨hnone, hzero, rfl⟩ | ⟨hne, table, hsome, hfilled⟩
  · -- the first table
    rw [hzero, if_pos (show (0 : UInt32) * 3 ≤ (w.maps m).nEntry from UInt32.zero_le), hnone]
    cases alloc with
    | false => rfl
    | true =>
        have hfilled : Filled w c 16 (List.replicate 16 none) [] :=
          ⟨rfl, ⟨4, by decide, rfl⟩, bucketed_empty c 16 _⟩
        exact ⟨_, 16, c, rfl, hfilled, fun _ _ => rfl⟩
  · obtain ⟨k, hk, hpow⟩ := hfilled.pow
    have hpos : 0 < 2 ^ k := Nat.pow_pos (by decide)
    have hle : 2 ^ k ≤ 2 ^ 28 := Nat.pow_le_pow_right (by decide) hk
    have htriple : ((w.maps m).nSize * 3).toNat = 2 ^ k * 3 := by
      rw [UInt32.toNat_mul, hpow]
      exact Nat.mod_eq_of_lt (by show 2 ^ k * 3 < 2 ^ 32; omega)
    have hkeep : w.relink l c = (w.withMap m fun map =>
        { map with apBucket := some table, nSize := (w.maps m).nSize }).relink l c := by
      have hsame : ({ w.maps m with apBucket := some table, nSize := (w.maps m).nSize } : Hashmap) =
        w.maps m := by rw [← hsome]
      simp only [Vm.withMap, hsame, Function.update_eq_self]
    rw [if_neg fun hempty => hne hempty.1]
    by_cases hfull : (w.maps m).nSize * 3 ≤ (w.maps m).nEntry
    · rw [if_pos hfull]
      have hgrown : 2 ^ k * 3 ≤ order.length := by
        rw [← htriple, ← hcount]
        exact UInt32.le_iff_toNat_le.mp hfull
      have hk' : k < 28 := by
        by_contra hge
        have hpow28 : 2 ^ 28 ≤ 2 ^ k := Nat.pow_le_pow_right (by decide) (by omega)
        omega
      obtain ⟨hdouble, hbytes, hnew⟩ := double_size hpow hk'
      simp only [if_neg hnew]
      generalize hnNew : (w.maps m).nSize <<< 1 = nNew at hdouble hbytes ⊢
      cases alloc with
      | false =>
          have hone : (1 : UInt32) ≤ (w.maps m).nSize := by
            rw [UInt32.le_iff_toNat_le, hpow]
            exact hpos
          refine ⟨table, _, c, ?_, hfilled, fun _ _ => rfl⟩
          show (Outcome.returned (decide (1 ≤ (w.maps m).nSize)), w.relink l c) = _
          rw [decide_eq_true hone]
          exact congrArg _ hkeep
      | true =>
          -- the entries are put into a table of twice the size
          let w' := w.withMap m fun map => { map with nSize := nNew }
          let empty : List (Option Nat) := List.replicate nNew.toNat none
          have hslot : ∀ b ∈ order, w'.slotOf nNew b < empty.length := by
            intro b _
            rw [List.length_replicate]
            exact slotOf_lt hdouble w' b
          obtain ⟨table', c', hrun, hlen, hall, hframe⟩ := rehashLoop_eq (w := w') (m := m) (l := l)
            (c := c) [] h.list rfl (fun b hb => h.live hb) hslot (bucketed_empty c _ _)
          rw [List.length_replicate] at hlen
          refine ⟨table', nNew, c', ?_, ⟨hlen, ⟨k + 1, by omega, hdouble⟩, hall⟩, hframe⟩
          have htable : modifyMap m (fun map => { map with
                apBucket := some (List.replicate ((nNew * 8).toNat / 8) none), nSize := nNew })
              (w.relink l c) =
                (.returned (), (w'.withTable m empty).relink l c) := by
            rw [hbytes]
            simp [modifyMap, w', empty, Vm.withTable, Vm.withMap, Vm.relink]
          rw [← hcount, ← h.first] at hrun
          rw [if_pos rfl, Prog.bind_of_gives htable, hsome]
          refine (Prog.bind_of_gives hrun _).trans ?_
          simp [w', Vm.withTable]
          rfl
    · rw [if_neg hfull]
      exact ⟨table, _, c, congrArg _ hkeep, hfilled, fun _ _ => rfl⟩

/-- What an operation on a map leaves of a map as it was. -/
structure SameSettings (map map' : Hashmap) : Prop where
  xIntHash : map'.xIntHash = map.xIntHash
  xBlobHash : map'.xBlobHash = map.xBlobHash
  isObject : map'.isObject = map.isObject
  iNextIdx : map'.iNextIdx = map.iNextIdx

theorem SameSettings.hash {map map' : Hashmap} (h : SameSettings map map') (key : Jx9Key) :
    map'.hash key = map.hash key := by
  cases key with
  | int n => rw [Hashmap.hash, h.xIntHash, Hashmap.hash]
  | blob b => rw [Hashmap.hash, h.xBlobHash, Hashmap.hash]

/-- The map with one more node. -/
def Hashmap.plus (a : Nat) (order : List Nat) (table : List (Option Nat)) (map : Hashmap) :
    Hashmap :=
  { map with
    apBucket := some table
    pFirst := if order = [] then some a else map.pFirst
    pCur := if order = [] then some a else map.pCur
    pLast := some a
    nEntry := map.nEntry + 1 }

/-- The first node of a bucket is one of the map. -/
theorem Filled.head_mem {nSize : UInt32} {table : List (Option Nat)} {i a : Nat}
    (h : Filled w c nSize table order) (hp : table[i]? = some (some a)) : a ∈ order := by
  obtain ⟨as, hchain, hmem⟩ := h.bucketed _ _ hp
  exact ((hmem a).mp (List.mem_of_head? hchain.head_eq.symm)).1

/-- The node comes to the front of its bucket and to the end of the list. -/
theorem hashmapNodeLink_gives {a : Nat} {e : Entry} {table : List (Option Nat)} {p : Option Nat}
    (hlive : ∀ b ∈ order, (w.entry b).isSome) (hlist : Chain l (w.maps m).pLast order.reverse)
    (hfirst : (w.maps m).pFirst = order.head?) (htable : (w.maps m).apBucket = some table)
    (he : w.entry a = some e) (hp : table[w.slotOf (w.maps m).nSize a]? = some p)
    (hhead : ∀ b, p = some b → b ∈ order) :
    hashmapNodeLink m a (e.nHash &&& ((w.maps m).nSize - 1)) (w.relink l c) =
      (.returned (), (w.withMap m (Hashmap.plus a order
        (table.set (w.slotOf (w.maps m).nSize a) (some a)))).relink
          (push (w.maps m).pLast a l) (push p a c)) := by
  have halive : (w.entry a).isSome := by rw [he]; rfl
  have hbucket := linkBucket_eq (m := m) (l := l) (c := c) halive (slotOf_eq he _ ▸ hp)
    fun b hb => hlive b (hhead b hb)
  rw [withTable_self htable, ← slotOf_eq he] at hbucket
  generalize table.set (w.slotOf (w.maps m).nSize a) (some a) = table' at hbucket ⊢
  have hmaps : (w.withTable m table').maps m = { w.maps m with apBucket := some table' } :=
    maps_withMap_self _ _ _
  have hlinkList := linkList_eq (w := w.withTable m table') (c := push p a c)
    (by rw [hmaps]; exact hlist) (by rw [hmaps]; exact hfirst) hlive halive
  unfold hashmapNodeLink
  rw [Prog.bind_of_gives hbucket, Prog.bind_of_gives hlinkList, hmaps]
  simp [modifyMap, Hashmap.plus, Vm.withTable, Vm.withMap, Vm.relink]

theorem toNat_nEntry_succ (hcount : (w.maps m).nEntry.toNat = order.length)
    (hsmall : order.length < maxEntries) (a : Nat) :
    ((w.maps m).nEntry + 1).toNat = (order ++ [a]).length := by
  simp only [maxEntries] at hsmall
  rw [UInt32.toNat_add, hcount, List.length_append]
  exact Nat.mod_eq_of_lt (by show order.length + 1 < 2 ^ 32; omega)

/-- A node that comes into a map whose table has room for it. -/
theorem hashmapNodeLink_eq {a : Nat} {e : Entry} {table : List (Option Nat)}
    (howned : ∀ b ∈ order, ∃ e, w.entry b = some e ∧ e.pMap = m ∧
      e.nHash = (w.maps m).hash e.key)
    (hlist : Chain l (w.maps m).pLast order.reverse) (hfirst : (w.maps m).pFirst = order.head?)
    (hcount : (w.maps m).nEntry.toNat = order.length)
    (htable : (w.maps m).apBucket = some table) (hfilled : Filled w c (w.maps m).nSize table order)
    (ha : a ∉ order) (he : w.entry a = some e) (hm : e.pMap = m)
    (hhash : e.nHash = (w.maps m).hash e.key) (hl : l a = Link.single) (hc : c a = Link.single)
    (hsmall : order.length < maxEntries) :
    ∃ f l' c', hashmapNodeLink m a (e.nHash &&& ((w.maps m).nSize - 1)) (w.relink l c) =
        (.returned (), (w.withMap m f).relink l' c') ∧
      MapGood (w.withMap m f) l' c' m (order ++ [a]) ∧ SameSettings (w.maps m) (f (w.maps m)) ∧
      (f (w.maps m)).pCur = (if order = [] then some a else (w.maps m).pCur) ∧
      ∀ b ∉ order ++ [a], l' b = l b ∧ c' b = c b := by
  have hlive : ∀ b ∈ order, (w.entry b).isSome := by
    intro b hb
    obtain ⟨e', he', -⟩ := howned b hb
    rw [he']
    rfl
  -- the bucket that the hash of the node belongs to
  obtain ⟨k, -, hpow⟩ := hfilled.pow
  have hslot := slotOf_lt hpow w a
  rw [← hfilled.length] at hslot
  have hp := List.getElem?_eq_getElem hslot
  generalize table[w.slotOf (w.maps m).nSize a] = p at hp
  have hhead : ∀ b, p = some b → b ∈ order := by
    rintro b rfl
    exact hfilled.head_mem hp
  refine ⟨_, _, _, hashmapNodeLink_gives hlive hlist hfirst htable he hp hhead, ?_,
    ⟨rfl, rfl, rfl, rfl⟩, rfl, fun b hb => ?_⟩
  · have hbucketed := hfilled.bucketed.link ha hc hp
    have hlength : (table.set (w.slotOf (w.maps m).nSize a) (some a)).length =
        (w.maps m).nSize.toNat := List.length_set.trans hfilled.length
    generalize table.set (w.slotOf (w.maps m).nSize a) (some a) = table' at hbucketed hlength ⊢
    have hmap : (w.withMap m (Hashmap.plus a order table')).maps m = _ := maps_withMap_self _ _ _
    refine ⟨fun b hb => ?_, ?_, ?_, ?_, Or.inr ⟨by simp, table', ?_, ?_⟩⟩ <;> rw [hmap]
    · rcases List.mem_append.mp hb with hb | hb
      · exact howned b hb
      · rw [List.mem_singleton.mp hb]
        exact ⟨e, he, hm, hhash⟩
    · rw [List.reverse_append]
      exact hlist.push (fun hin => ha (List.mem_reverse.mp hin)) hl
    · show (if order = [] then some a else (w.maps m).pFirst) = _
      rw [hfirst]
      cases order <;> simp
    · exact toNat_nEntry_succ hcount hsmall a
    · rfl
    · exact ⟨hlength, hfilled.pow, hbucketed⟩
  · -- only the node that was the last and the one that was in front get other links
    have hba : b ≠ a := by
      rintro rfl
      exact hb (by simp)
    refine ⟨push_of_ne _ hba fun hlast => hb ?_, push_of_ne _ hba fun hp' => hb ?_⟩
    · have hmem := List.mem_of_head? (hlist.head_eq.symm.trans hlast)
      simp [List.mem_reverse.mp hmem]
    · simp [hhead b hp']

/-! ## A node that goes -/

theorem erase_middle {a : Nat} {bs cs : List Nat} (hnodup : (bs ++ a :: cs).Nodup) :
    (bs ++ a :: cs).erase a = bs ++ cs := by
  have hnot : a ∉ bs := fun hin =>
    (List.nodup_append.mp hnodup).2.2 a hin a List.mem_cons_self rfl
  rw [List.erase_append_right _ hnot, List.erase_cons_head]

/-- The VM without a node and with its memory object free. -/
def Vm.dropNode [Inhabited V] (w : Vm V) (a i : Nat) : Vm V :=
  { w with
    nodes := Function.update w.nodes a none
    aFreeObj := i :: w.aFreeObj
    aMemObj := w.aMemObj.set i default }

theorem entry_update_none (w : Vm V) (a b : Nat) :
    ((Function.update w.nodes a none) b).map Node.toEntry = if b = a then none else w.entry b := by
  by_cases hb : b = a
  · subst hb
    simp
  · rw [Function.update_of_ne hb, if_neg hb]
    rfl

/-- The map with one entry less. -/
def Hashmap.lessOne (map : Hashmap) : Hashmap :=
  if map.nEntry - 1 < 1 then
    { map with
      apBucket := none, nSize := 0, pFirst := none, pLast := none, pCur := none
      nEntry := map.nEntry - 1 }
  else { map with nEntry := map.nEntry - 1 }

theorem releaseNode_eq [Inhabited V] {a : Nat} {e : Entry} (he : w.entry a = some e)
    (hslot : e.nValIdx < w.aMemObj.length) :
    releaseNode a (w.relink l c) =
      (.returned (), ((w.dropNode a e.nValIdx).withMap e.pMap Hashmap.lessOne).relink l c) := by
  have hnodes : Function.update (w.relink l c).nodes a none =
      ((w.dropNode a e.nValIdx).relink l c).nodes := by
    funext b
    by_cases hb : b = a
    · subst hb
      simp [Vm.relink, Vm.dropNode]
    · simp [Vm.relink, Vm.dropNode, Function.update_of_ne hb]
  have hunset : jx9VmUnsetMemObj e.nValIdx (w.relink l c) = (.returned (),
      { w.relink l c with
        aFreeObj := e.nValIdx :: w.aFreeObj
        aMemObj := w.aMemObj.set e.nValIdx default }) := if_pos hslot
  have hfree : freeNode a { w.relink l c with
        aFreeObj := e.nValIdx :: w.aFreeObj
        aMemObj := w.aMemObj.set e.nValIdx default } =
      (.returned (), (w.dropNode a e.nValIdx).relink l c) := by
    simp only [freeNode, hnodes]
    rfl
  unfold releaseNode
  rw [Prog.bind_of_gives (node_relink he), Prog.bind_of_gives hunset, Prog.bind_of_gives hfree,
    Prog.bind_of_gives (modifyMap_relink _ _ _ _ _)]
  refine (modifyMap_relink _ _ _ _ _).trans ?_
  rw [withMap_withMap]
  rfl

/-- The map without a node. -/
def Hashmap.without (a : Nat) (l : Nat → Link Nat) (table : List (Option Nat)) (map : Hashmap) :
    Hashmap :=
  Hashmap.lessOne { map with
    apBucket := some table
    pFirst := if map.pFirst = some a then (l a).prev else map.pFirst
    pCur := if map.pCur = some a then (l a).prev else map.pCur
    pLast := headWithout a l map.pLast }

theorem Hashmap.sameSettings_lessOne (map : Hashmap) : SameSettings map map.lessOne := by
  unfold Hashmap.lessOne
  split <;> exact ⟨rfl, rfl, rfl, rfl⟩

theorem Hashmap.sameSettings_without (a : Nat) (l : Nat → Link Nat) (table : List (Option Nat))
    (map : Hashmap) : SameSettings map (map.without a l table) := by
  obtain ⟨hint, hblob, hobject, hnext⟩ := Hashmap.sameSettings_lessOne { map with
    apBucket := some table
    pFirst := if map.pFirst = some a then (l a).prev else map.pFirst
    pCur := if map.pCur = some a then (l a).prev else map.pCur
    pLast := headWithout a l map.pLast }
  exact ⟨hint, hblob, hobject, hnext⟩

/-- The node leaves its bucket and the list, and is given back. -/
theorem jx9HashmapUnlinkNode_gives [Inhabited V] {a : Nat} {e : Entry} {table : List (Option Nat)}
    {p : Option Nat} {as : List Nat} (h : MapGood w l c m order) (ha : a ∈ order)
    (he : w.entry a = some e) (hm : e.pMap = m) (hslot : e.nValIdx < w.aMemObj.length)
    (htable : (w.maps m).apBucket = some table)
    (hp : table[w.slotOf (w.maps m).nSize a]? = some p) (hchain : Chain c p as) (hmem : a ∈ as)
    (has : ∀ b ∈ as, b ∈ order) :
    jx9HashmapUnlinkNode a (w.relink l c) =
      (.returned (), ((w.dropNode a e.nValIdx).withMap m (Hashmap.without a l
        (table.set (w.slotOf (w.maps m).nSize a) (headWithout a c p)))).relink
          (unlink a l) (unlink a c)) := by
  have hbucket := unlinkBucket_eq (l := l) he hm rfl (slotOf_eq he _ ▸ hp) hchain hmem
    fun b hb => h.live (has b hb)
  rw [withTable_self htable, ← slotOf_eq he] at hbucket
  generalize table.set (w.slotOf (w.maps m).nSize a) (headWithout a c p) = table' at hbucket ⊢
  have hmaps : (w.withTable m table').maps m = { w.maps m with apBucket := some table' } :=
    maps_withMap_self _ _ _
  -- out of the list, where the first and the last node and the cursor may change
  let g := fun map : Hashmap => { map with
    pFirst := if map.pFirst = some a then (l a).prev else map.pFirst
    pCur := if map.pCur = some a then (l a).prev else map.pCur
    pLast := headWithout a l map.pLast }
  have hlists : unlinkList a ((w.withTable m table').relink l (unlink a c)) =
      (.returned (), ((w.withTable m table').withMap m g).relink (unlink a l) (unlink a c)) :=
    unlinkList_eq he hm (by rw [hmaps]; exact h.list) (List.mem_reverse.mpr ha)
      fun b hb => h.live (List.mem_reverse.mp hb)
  have hrelease := releaseNode_eq (w := (w.withTable m table').withMap m g) (l := unlink a l)
    (c := unlink a c) he hslot
  unfold jx9HashmapUnlinkNode
  rw [Prog.bind_of_gives hbucket, Prog.bind_of_gives hlists, hrelease]
  subst hm
  simp only [g, Vm.dropNode, Vm.withTable, Vm.withMap, Function.update_self,
    Function.update_idem]
  rfl

theorem toNat_nEntry_pred (h : MapGood w l c m order) {a : Nat} (ha : a ∈ order) :
    ((w.maps m).nEntry - 1).toNat = (order.erase a).length := by
  have hpos : 1 ≤ order.length := List.length_pos_of_mem ha
  have hone : (1 : UInt32) ≤ (w.maps m).nEntry := by
    rw [UInt32.le_iff_toNat_le, h.count]
    exact hpos
  rw [UInt32.toNat_sub_of_le _ _ hone, h.count, List.length_erase_of_mem ha]
  rfl

/-- The last node takes the table with it. -/
theorem MapGood.without_last [Inhabited V] {a i : Nat} {table : List (Option Nat)}
    (h : MapGood w l c m order) (ha : a ∈ order) (hempty : order.erase a = [])
    (l' c' : Nat → Link Nat) :
    MapGood ((w.dropNode a i).withMap m (Hashmap.without a l table)) l' c' m [] := by
  have hcount := toNat_nEntry_pred h ha
  rw [hempty] at hcount
  have hlast : (w.maps m).nEntry - 1 < 1 := by
    rw [UInt32.lt_iff_toNat_lt, hcount]
    decide
  have hmap : ((w.dropNode a i).withMap m (Hashmap.without a l table)).maps m = _ :=
    (maps_withMap_self _ _ _).trans (if_pos hlast)
  refine ⟨by simp, ?_, ?_, ?_, Or.inl ?_⟩ <;> rw [hmap]
  · exact chain_nil
  · rfl
  · exact hcount
  · exact ⟨rfl, rfl, rfl⟩

/-- The first node of the list without a node. -/
theorem head_without {a : Nat} {bs cs : List Nat} (hnodup : (bs ++ a :: cs).Nodup) :
    (if (bs ++ a :: cs).head? = some a then cs.head? else (bs ++ a :: cs).head?) =
      (bs ++ cs).head? := by
  cases bs with
  | nil => simp
  | cons b bs =>
      have hba : b ≠ a := by
        rintro rfl
        simp at hnodup
      simp [hba]

/-- The nodes that are left are linked as before, but for the ones around the node. -/
theorem MapGood.without [Inhabited V] {a i : Nat} {table : List (Option Nat)} {p : Option Nat}
    (h : MapGood w l c m order) (ha : a ∈ order)
    (hfilled : Filled w c (w.maps m).nSize table order)
    (hp : table[w.slotOf (w.maps m).nSize a]? = some p) (hne : order.erase a ≠ []) :
    MapGood ((w.dropNode a i).withMap m (Hashmap.without a l
      (table.set (w.slotOf (w.maps m).nSize a) (headWithout a c p)))) (unlink a l) (unlink a c) m
        (order.erase a) := by
  have hrest : ∀ b, b ∈ order.erase a ↔ b ∈ order ∧ b ≠ a := by
    intro b
    rw [h.nodup.mem_erase_iff, and_comm]
  have hbucketed := hfilled.bucketed.unlink ha hp hrest
  have hlength : (table.set (w.slotOf (w.maps m).nSize a) (headWithout a c p)).length =
      (w.maps m).nSize.toNat := List.length_set.trans hfilled.length
  generalize table.set (w.slotOf (w.maps m).nSize a) (headWithout a c p) = table'
    at hbucketed hlength ⊢
  have hcount := toNat_nEntry_pred h ha
  -- a node is left, so the table stays
  have hmany : ¬ (w.maps m).nEntry - 1 < 1 := by
    have hpos : 0 < (order.erase a).length := List.length_pos_iff.mpr hne
    rw [UInt32.lt_iff_toNat_lt, hcount]
    show ¬ (order.erase a).length < 1
    omega
  have hmap : ((w.dropNode a i).withMap m (Hashmap.without a l table')).maps m = _ :=
    (maps_withMap_self _ _ _).trans (if_neg hmany)
  have hentry : ∀ b ∈ order.erase a,
      ((w.dropNode a i).withMap m (Hashmap.without a l table')).entry b = w.entry b :=
    fun b hb => (entry_update_none w a b).trans (if_neg ((hrest b).mp hb).2)
  obtain ⟨bs, cs, hsplit⟩ := List.append_of_mem ha
  have hlist : Chain l (w.maps m).pLast (cs.reverse ++ a :: bs.reverse) := by
    simpa [hsplit] using h.list
  have hnodup : (bs ++ a :: cs).Nodup := hsplit ▸ h.nodup
  have herase : order.erase a = bs ++ cs := by rw [hsplit, erase_middle hnodup]
  refine ⟨fun b hb => ?_, ?_, ?_, ?_, Or.inr ⟨hne, table', ?_, ?_⟩⟩
  · obtain ⟨e, he, hm, hhash⟩ := h.owned b ((hrest b).mp hb).1
    refine ⟨e, (hentry b hb).trans he, hm, ?_⟩
    rw [hmap, hhash]
    cases e.key <;> rfl
  · rw [hmap, herase, List.reverse_append]
    exact hlist.unlink
  · rw [hmap]
    show (if (w.maps m).pFirst = some a then (l a).prev else (w.maps m).pFirst) = _
    rw [h.first, hlist.around.2, List.getLast?_reverse, hsplit, head_without hnodup,
      erase_middle hnodup]
  · rw [hmap]
    exact hcount
  · rw [hmap]
  · rw [hmap]
    refine ⟨hlength, hfilled.pow, hbucketed.congr (fun _ _ => rfl) fun b hb => ?_⟩
    rw [Vm.slotOf, Vm.slotOf, hentry b hb]
    rfl

theorem jx9HashmapUnlinkNode_eq [Inhabited V] {a : Nat} {e : Entry}
    (h : MapGood w l c m order) (ha : a ∈ order) (he : w.entry a = some e)
    (hslot : e.nValIdx < w.aMemObj.length) (hsmall : order.length ≤ maxEntries) :
    ∃ f l' c', jx9HashmapUnlinkNode a (w.relink l c) =
        (.returned (), ((w.dropNode a e.nValIdx).withMap m f).relink l' c') ∧
      MapGood ((w.dropNode a e.nValIdx).withMap m f) l' c' m (order.erase a) ∧
      SameSettings (w.maps m) (f (w.maps m)) ∧ ∀ b ∉ order, l' b = l b ∧ c' b = c b := by
  have hm : e.pMap = m := by
    obtain ⟨e', he', hm, -⟩ := h.owned a ha
    rw [he] at he'
    rwa [Option.some.inj he']
  rcases h.table with ⟨-, -, rfl⟩ | ⟨-, table, htable, hfilled⟩
  · cases ha
  obtain ⟨k, -, hpow⟩ := hfilled.pow
  have hlt := slotOf_lt hpow w a
  rw [← hfilled.length] at hlt
  have hp := List.getElem?_eq_getElem hlt
  obtain ⟨as, hchain, hmem⟩ := hfilled.bucketed _ _ hp
  have hin : a ∈ as := (hmem a).mpr ⟨ha, rfl⟩
  have has : ∀ b ∈ as, b ∈ order := fun b hb => ((hmem b).mp hb).1
  refine ⟨_, _, _, jx9HashmapUnlinkNode_gives h ha he hm hslot htable hp hchain hin has, ?_,
    Hashmap.sameSettings_without .., fun b hb => ⟨?_, ?_⟩⟩
  · by_cases hempty : order.erase a = []
    · rw [hempty]
      exact h.without_last ha hempty _ _
    · exact h.without ha hfilled hp hempty
  -- the links of other nodes stay
  · obtain ⟨bs, cs, hsplit⟩ := List.append_of_mem (List.mem_reverse.mpr ha)
    have hlist := h.list
    rw [hsplit] at hlist
    exact hlist.unlink_other (hsplit ▸ mt List.mem_reverse.mp hb)
  · obtain ⟨bs, cs, rfl⟩ := List.append_of_mem hin
    exact hchain.unlink_other fun hin => hb (has b hin)

end Jx9Hash

end Poesie
