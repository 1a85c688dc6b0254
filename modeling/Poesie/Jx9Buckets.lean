import Poesie.Jx9Dict

set_option autoImplicit false

/-! # The chains of the Jx9 hash maps

The functions of the hash maps change the links of the nodes, the tables and the memory objects of
the VM. What they do to links is said in the terms of doubly linked chains: `Vm.relink` is the VM
with other links. `MapGood` is what holds of a map between its operations: its nodes are linked in
the order of insertion, and each lies in the chain of the bucket of its hash.
-/

namespace Poesie

open Wire Chains Outcomes

namespace Jx9Hash

variable {V : Type} {w : Vm V} {l c : Nat → Link Nat} {m a : Nat} {e : Entry}

/-! ## The state of the VM apart from links -/

/-- What the node at an address holds besides its links. -/
def Vm.entry (w : Vm V) (a : Nat) : Option Entry := (w.nodes a).map Node.toEntry

/-- The VM with other links. -/
def Vm.relink (w : Vm V) (l c : Nat → Link Nat) : Vm V :=
  { w with nodes := fun a => (w.nodes a).map fun n => ⟨n.toEntry, l a, c a⟩ }

/-- The VM with a map changed. -/
def Vm.withMap (w : Vm V) (m : Nat) (f : Hashmap → Hashmap) : Vm V :=
  { w with maps := Function.update w.maps m (f (w.maps m)) }

/-- The VM with another table in a map. -/
def Vm.withTable (w : Vm V) (m : Nat) (table : List (Option Nat)) : Vm V :=
  w.withMap m fun map => { map with apBucket := some table }

@[simp] theorem entry_relink (w : Vm V) (l c : Nat → Link Nat) (a : Nat) :
    (w.relink l c).entry a = w.entry a := by
  simp [Vm.relink, Vm.entry, Function.comp_def]

@[simp] theorem maps_relink (w : Vm V) (l c : Nat → Link Nat) : (w.relink l c).maps = w.maps := rfl

@[simp] theorem maps_withMap_self (w : Vm V) (m : Nat) (f : Hashmap → Hashmap) :
    (w.withMap m f).maps m = f (w.maps m) := Function.update_self _ _ _

theorem maps_withMap_of_ne {m' : Nat} (h : m' ≠ m) (w : Vm V) (f : Hashmap → Hashmap) :
    (w.withMap m f).maps m' = w.maps m' := Function.update_of_ne h _ _

@[simp] theorem entry_withMap (w : Vm V) (m : Nat) (f : Hashmap → Hashmap) (a : Nat) :
    (w.withMap m f).entry a = w.entry a := rfl

@[simp] theorem withMap_withMap (w : Vm V) (m : Nat) (f g : Hashmap → Hashmap) :
    (w.withMap m f).withMap m g = w.withMap m fun map => g (f map) := by
  simp [Vm.withMap]

theorem withTable_self {table : List (Option Nat)} (h : (w.maps m).apBucket = some table) :
    w.withTable m table = w := by
  have hmap : ({ w.maps m with apBucket := some table } : Hashmap) = w.maps m := by
    rw [← h]
  simp only [Vm.withTable, Vm.withMap, hmap, Function.update_eq_self]

/-! ## The functions on the memory -/

theorem nodes_of_entry (h : w.entry a = some e) : ∃ n, w.nodes a = some n ∧ n.toEntry = e :=
  Option.map_eq_some_iff.mp h

theorem node_relink (h : w.entry a = some e) :
    node a (w.relink l c) = (.returned ⟨e, l a, c a⟩, w.relink l c) := by
  obtain ⟨n, hn, rfl⟩ := nodes_of_entry h
  simp [node, Vm.relink, hn]

theorem modifyMap_relink (w : Vm V) (l c : Nat → Link Nat) (m : Nat) (f : Hashmap → Hashmap) :
    modifyMap m f (w.relink l c) = (.returned (), (w.withMap m f).relink l c) := rfl

/-- A change of the links of a node. -/
theorem modifyNode_relink {f : Node → Node} {l' c' : Nat → Link Nat} (h : w.entry a = some e)
    (hf : f ⟨e, l a, c a⟩ = ⟨e, l' a, c' a⟩) (hl : ∀ b, b ≠ a → l' b = l b)
    (hc : ∀ b, b ≠ a → c' b = c b) :
    modifyNode a f (w.relink l c) = (.returned (), w.relink l' c') := by
  obtain ⟨n, hn, rfl⟩ := nodes_of_entry h
  have hnodes : Function.update (w.relink l c).nodes a (some (f ⟨n.toEntry, l a, c a⟩)) =
      (w.relink l' c').nodes := by
    funext b
    by_cases hb : b = a
    · subst hb
      simp [Vm.relink, hn, hf]
    · simp [Vm.relink, Function.update_of_ne hb, hl b hb, hc b hb]
  have ha : (w.relink l c).nodes a = some ⟨n.toEntry, l a, c a⟩ := by simp [Vm.relink, hn]
  simp only [modifyNode, ha, hnodes]
  rfl

theorem setPNext_relink (h : (w.entry a).isSome) (v : Option Nat) :
    setPNext a v (w.relink l c) = (.returned (), w.relink (setNext a v l) c) := by
  obtain ⟨e, he⟩ := Option.isSome_iff_exists.mp h
  exact modifyNode_relink he (by simp [setNext]) (fun b hb => Function.update_of_ne hb _ _)
    fun _ _ => rfl

theorem setPPrev_relink (h : (w.entry a).isSome) (v : Option Nat) :
    setPPrev a v (w.relink l c) = (.returned (), w.relink (setPrev a v l) c) := by
  obtain ⟨e, he⟩ := Option.isSome_iff_exists.mp h
  exact modifyNode_relink he (by simp [setPrev]) (fun b hb => Function.update_of_ne hb _ _)
    fun _ _ => rfl

theorem setPNextCollide_relink (h : (w.entry a).isSome) (v : Option Nat) :
    setPNextCollide a v (w.relink l c) = (.returned (), w.relink l (setNext a v c)) := by
  obtain ⟨e, he⟩ := Option.isSome_iff_exists.mp h
  exact modifyNode_relink he (by simp [setNext]) (fun _ _ => rfl)
    fun b hb => Function.update_of_ne hb _ _

theorem setPPrevCollide_relink (h : (w.entry a).isSome) (v : Option Nat) :
    setPPrevCollide a v (w.relink l c) = (.returned (), w.relink l (setPrev a v c)) := by
  obtain ⟨e, he⟩ := Option.isSome_iff_exists.mp h
  exact modifyNode_relink he (by simp [setPrev]) (fun _ _ => rfl)
    fun b hb => Function.update_of_ne hb _ _

section

variable {table : List (Option Nat)} {p : Option Nat} {i : UInt32}

theorem bucket_withTable (hp : table[i.toNat]? = some p) :
    bucket m i ((w.withTable m table).relink l c) =
      (.returned p, (w.withTable m table).relink l c) := by
  simp [bucket, Vm.withTable, hp]

theorem setBucket_withTable (hi : i.toNat < table.length) (p : Option Nat) :
    setBucket m i p ((w.withTable m table).relink l c) =
      (.returned (), (w.withTable m (table.set i.toNat p)).relink l c) := by
  simp [setBucket, modifyMap, Vm.withTable, hi, Vm.withMap, Vm.relink]

/-! ## Linking and unlinking -/

theorem linkBucket_eq (ha : (w.entry a).isSome) (hp : table[i.toNat]? = some p)
    (hhead : ∀ h, p = some h → (w.entry h).isSome) :
    linkBucket m a i ((w.withTable m table).relink l c) =
      (.returned (), (w.withTable m (table.set i.toNat (some a))).relink l (push p a c)) := by
  have hi := (List.getElem?_eq_some_iff.mp hp).1
  unfold linkBucket
  rw [Prog.bind_of_gives (bucket_withTable hp)]
  cases p with
  | none => exact setBucket_withTable hi (some a)
  | some h =>
      have hnext : setPNextCollide a (some h) ((w.withTable m table).relink l c) = _ :=
        setPNextCollide_relink (w := w.withTable m table) ha (some h)
      have hprev : setPPrevCollide h (some a)
          ((w.withTable m table).relink l (setNext a (some h) c)) = _ :=
        setPPrevCollide_relink (w := w.withTable m table) (hhead h rfl) (some a)
      show (setPNextCollide a (some h) >>= fun _ => setPPrevCollide h (some a) >>= fun _ =>
        setBucket m i (some a)) _ = _
      rw [Prog.bind_of_gives hnext, Prog.bind_of_gives hprev]
      exact setBucket_withTable hi (some a)

/-- A node that goes out of the chain of its bucket. -/
theorem unlinkBucket_eq (ha : w.entry a = some e) (hm : e.pMap = m)
    (hi : i = e.nHash &&& ((w.maps m).nSize - 1)) (hp : table[i.toNat]? = some p) {as : List Nat}
    (hchain : Chain c p as) (hmem : a ∈ as) (hlive : ∀ b ∈ as, (w.entry b).isSome) :
    unlinkBucket a ((w.withTable m table).relink l c) =
      (.returned (), (w.withTable m (table.set i.toNat (headWithout a c p))).relink l
        (unlink a c)) := by
  obtain ⟨bs, cs, rfl⟩ := List.append_of_mem hmem
  obtain ⟨hnext, hprev⟩ := hchain.around
  have hi' := (List.getElem?_eq_some_iff.mp hp).1
  subst hm
  have hread : ∀ {t : List (Option Nat)} {c' : Nat → Link Nat},
      node a ((w.withTable e.pMap t).relink l c') = _ :=
    fun {t c'} => node_relink (w := w.withTable e.pMap t) ha
  -- the node before, or the bucket, is linked to the node behind
  have hskip : skipBucket a ((w.withTable e.pMap table).relink l c) =
      (.returned (), (w.withTable e.pMap (table.set i.toNat (headWithout a c p))).relink l
        (skipOver a c)) := by
    unfold skipBucket
    rw [Prog.bind_of_gives hread, headWithout_eq hchain]
    unfold skipOver
    cases hq : (c a).prev with
    | none =>
        have hfirst : bs = [] := List.getLast?_eq_none_iff.mp (hprev.symm.trans hq)
        have hset := setBucket_withTable (w := w) (m := e.pMap) (l := l) (c := c) hi' (c a).next
        rw [if_pos hfirst]
        subst hi
        simpa [hashmap, Vm.withTable, Bind.bind] using hset
    | some q =>
        have hne : bs ≠ [] := by
          rintro rfl
          simp [hprev] at hq
        have hlast : (w.entry q).isSome := by
          rw [hprev] at hq
          exact hlive q (by simp [List.mem_of_getLast? hq])
        have hset : table.set i.toNat p = table := by
          obtain ⟨hlt, hget⟩ := List.getElem?_eq_some_iff.mp hp
          rw [← hget, List.set_getElem_self]
        rw [if_neg hne, hset]
        exact setPNextCollide_relink (w := w.withTable e.pMap table) hlast (c a).next
  unfold unlinkBucket
  rw [Prog.bind_of_gives hskip, Prog.bind_of_gives hread]
  unfold unlink
  simp only [skipOver_self hchain.not_self]
  cases hn : (c a).next with
  | none => rfl
  | some n =>
      have hnlive : (w.entry n).isSome := by
        rw [hnext] at hn
        exact hlive n (by simp [List.mem_of_head? hn])
      exact setPPrevCollide_relink (w := w.withTable e.pMap _) hnlive (c a).prev

end

/-- A node that comes in at the end of the list. -/
theorem linkList_eq {order : List Nat} (hlist : Chain l (w.maps m).pLast order.reverse)
    (hfirst : (w.maps m).pFirst = order.head?) (hlive : ∀ b ∈ order, (w.entry b).isSome)
    (ha : (w.entry a).isSome) :
    linkList m a (w.relink l c) =
      (.returned (), (w.withMap m fun map =>
        { map with
          pFirst := if order = [] then some a else map.pFirst
          pCur := if order = [] then some a else map.pCur
          pLast := some a }).relink (push (w.maps m).pLast a l) c) := by
  have hmap : hashmap m (w.relink l c) = (.returned (w.maps m), w.relink l c) := rfl
  have hlast := hlist.head_eq
  unfold linkList
  rw [Prog.bind_of_gives hmap]
  cases order with
  -- the first node is the first and the last, and the cursor goes to it
  | nil =>
      rw [hfirst, hlast]
      rfl
  | cons b order =>
      obtain ⟨last, hsome⟩ : ∃ last, (w.maps m).pLast = some last := by
        rw [hlast, List.head?_reverse]
        exact Option.ne_none_iff_exists'.mp (by simp)
      have hmem : last ∈ b :: order := by
        rw [hsome] at hlast
        exact List.mem_reverse.mp (List.mem_of_head? hlast.symm)
      rw [hfirst, hsome]
      show (setPNext a (some last) >>= fun _ => setPPrev last (some a) >>= fun _ =>
        modifyMap m _) _ = _
      rw [Prog.bind_of_gives (setPNext_relink ha (some last)),
        Prog.bind_of_gives (setPPrev_relink (hlive last hmem) (some a))]
      rfl

/-- A node that goes out of the list. -/
theorem unlinkList_eq (ha : w.entry a = some e) (hm : e.pMap = m) {as : List Nat}
    (hlist : Chain l (w.maps m).pLast as) (hmem : a ∈ as) (hlive : ∀ b ∈ as, (w.entry b).isSome) :
    unlinkList a (w.relink l c) =
      (.returned (), (w.withMap m fun map =>
        { map with
          pFirst := if map.pFirst = some a then (l a).prev else map.pFirst
          pCur := if map.pCur = some a then (l a).prev else map.pCur
          pLast := headWithout a l map.pLast }).relink (unlink a l) c) := by
  subst hm
  obtain ⟨bs, cs, rfl⟩ := List.append_of_mem hmem
  obtain ⟨hnext, hprev⟩ := hlist.around
  generalize hf : (fun map : Hashmap => { map with
      pFirst := if map.pFirst = some a then (l a).prev else map.pFirst
      pCur := if map.pCur = some a then (l a).prev else map.pCur
      pLast := headWithout a l map.pLast }) = f
  have hread : ∀ {l' : Nat → Link Nat}, node a ((w.withMap e.pMap f).relink l' c) = _ :=
    fun {l'} => node_relink (w := w.withMap e.pMap f) ha
  -- the node before is linked to the node behind
  have hskip : skipList a (w.relink l c) =
      (.returned (), (w.withMap e.pMap f).relink (skipOver a l) c) := by
    have hmap : modifyMap e.pMap f (w.relink l c) =
        (.returned (), (w.withMap e.pMap f).relink l c) := rfl
    unfold skipList skipOver
    rw [Prog.bind_of_gives (node_relink ha)]
    simp only [headWithout] at hf
    simp only [hf]
    rw [Prog.bind_of_gives hmap]
    cases hq : (l a).prev with
    | none => rfl
    | some q =>
        have hlast : (w.entry q).isSome := by
          rw [hprev] at hq
          exact hlive q (by simp [List.mem_of_getLast? hq])
        exact setPNext_relink (w := w.withMap e.pMap f) hlast (l a).next
  unfold unlinkList
  rw [Prog.bind_of_gives hskip, Prog.bind_of_gives hread]
  unfold unlink
  simp only [skipOver_self hlist.not_self]
  cases hn : (l a).next with
  | none => rfl
  | some n =>
      have hnlive : (w.entry n).isSome := by
        rw [hnext] at hn
        exact hlive n (by simp [List.mem_of_head? hn])
      exact setPPrev_relink (w := w.withMap e.pMap f) hnlive (l a).prev

/-! ## Along a chain -/

/-- The node at an address has a key. -/
def Vm.hasKey (w : Vm V) (key : Jx9Key) (a : Nat) : Bool := (w.entry a).any fun e => e.key = key

/-- The loop of a lookup finds the first node of a chain that has the key. -/
theorem lookupLoop_eq {key : Jx9Key} {nHash : UInt32} {turns : Nat} {prev p : Option Nat}
    {as : List Nat} (hchain : ChainFrom c prev p as) (hturns : as.length ≤ turns)
    (hhash : ∀ b ∈ as, ∃ e, w.entry b = some e ∧ (e.key = key → e.nHash = nHash)) :
    lookupLoop key nHash turns p (w.relink l c) =
      (.returned (as.find? (w.hasKey key)), w.relink l c) := by
  induction as generalizing turns prev p with
  | nil =>
      rw [show p = none from hchain]
      cases turns <;> rfl
  | cons b as ih =>
      obtain ⟨rfl, -, hrest⟩ := hchain
      obtain ⟨e, he, hsame⟩ := hhash b List.mem_cons_self
      cases turns with
      | zero => simp at hturns
      | succ turns =>
          have hread : node b (w.relink l c) = _ := node_relink he
          rw [lookupLoop, Prog.bind_of_gives hread]
          by_cases hkey : e.key = key
          · have hfound : w.hasKey key b = true := by simp [Vm.hasKey, he, hkey]
            rw [if_pos ⟨hsame hkey, hkey⟩, List.find?_cons_of_pos hfound]
            rfl
          · have hother : ¬ w.hasKey key b = true := by simp [Vm.hasKey, he, hkey]
            rw [if_neg fun h => hkey h.2, List.find?_cons_of_neg hother]
            exact ih hrest (Nat.le_of_succ_le_succ hturns)
              fun d hd => hhash d (List.mem_cons_of_mem b hd)

/-- The number of the bucket of a node, in a table of some size. -/
def Vm.slotOf (w : Vm V) (nSize : UInt32) (a : Nat) : Nat :=
  ((w.entry a).map fun e => (e.nHash &&& (nSize - 1)).toNat).getD 0

theorem slotOf_eq (he : w.entry a = some e) (nSize : UInt32) :
    w.slotOf nSize a = (e.nHash &&& (nSize - 1)).toNat := by
  rw [Vm.slotOf, he]
  rfl

/-- The loop that fills a new table puts each entry into the chain of its bucket. -/
theorem rehashLoop_eq {order : List Nat} (done : List Nat) {todo : List Nat} {nNew : UInt32}
    {last : Option Nat} {table : List (Option Nat)} (hlist : Chain l last order.reverse)
    (horder : order = done ++ todo)
    (hlive : ∀ b ∈ order, (w.entry b).isSome)
    (hslot : ∀ b ∈ order, w.slotOf nNew b < table.length)
    (h : Bucketed c table (w.slotOf nNew) done) :
    ∃ table' c', rehashLoop m nNew todo.length todo.head? ((w.withTable m table).relink l c) =
        (.returned (), (w.withTable m table').relink l c') ∧
      table'.length = table.length ∧ Bucketed c' table' (w.slotOf nNew) order ∧
      ∀ b ∉ order, c' b = c b := by
  induction todo generalizing done table c with
  | nil =>
      rw [List.append_nil] at horder
      subst horder
      exact ⟨table, c, rfl, rfl, h, fun _ _ => rfl⟩
  | cons b todo ih =>
      have hb : b ∈ order := by simp [horder]
      obtain ⟨e, he⟩ := Option.isSome_iff_exists.mp (hlive b hb)
      have hnodup : (done ++ b :: todo).Nodup := horder ▸ List.nodup_reverse.mp hlist.nodup
      have hfresh : b ∉ done := fun hin =>
        (List.nodup_append.mp hnodup).2.2 b hin b List.mem_cons_self rfl
      -- the old links in the collision chain are cleared
      let cleared := setPrev b none (setNext b none c)
      have hcleared : ∀ d, d ≠ b → cleared d = c d := fun d hd => by
        simp only [cleared, setPrev, setNext, Function.update_of_ne hd]
      have hsingle : cleared b = Link.single := by simp [cleared, setPrev, setNext, Link.single]
      have hbucketed : Bucketed cleared table (w.slotOf nNew) done :=
        h.congr (fun d hd => hcleared d fun heq => hfresh (heq ▸ hd)) fun _ _ => rfl
      obtain ⟨p, hp⟩ : ∃ p, table[w.slotOf nNew b]? = some p :=
        ⟨_, List.getElem?_eq_getElem (hslot b hb)⟩
      have hlinked := hbucketed.link hfresh hsingle hp
      have hhead : ∀ d, p = some d → (w.entry d).isSome := by
        rintro d rfl
        obtain ⟨as, hchain, hmem⟩ := hbucketed _ _ hp
        have hd := ((hmem d).mp (List.mem_of_head? hchain.head_eq.symm)).1
        exact hlive d (by simp [horder, hd])
      obtain ⟨table', c', hrun, hlen, hall, hframe⟩ :=
        ih (done ++ [b]) (by simp [horder])
          (by simpa using hslot) hlinked
      refine ⟨table', c', ?_, by simpa using hlen, hall, fun d hd => ?_⟩
      · have hnext : (l b).prev = todo.head? := by
          have hsplit : Chain l last (todo.reverse ++ b :: done.reverse) := by
            simpa [horder] using hlist
          rw [hsplit.around.2, List.getLast?_reverse]
        rw [slotOf_eq he] at hp hrun
        have hstart : follow (b :: todo).head? ((w.withTable m table).relink l c) =
          (.returned b, (w.withTable m table).relink l c) := rfl
        have hclearNext := setPNextCollide_relink (w := w.withTable m table) (l := l) (c := c)
          (hlive b hb) none
        have hclearPrev := setPPrevCollide_relink (w := w.withTable m table) (l := l)
          (c := setNext b none c) (hlive b hb) none
        have hread : ∀ {t : List (Option Nat)} {c'' : Nat → Link Nat},
            node b ((w.withTable m t).relink l c'') = _ :=
          fun {t c''} => node_relink (w := w.withTable m t) he
        have hlink := linkBucket_eq (l := l) (m := m) (c := cleared) (hlive b hb) hp hhead
        rw [List.length_cons, rehashLoop, Prog.bind_of_gives hstart, Prog.bind_of_gives hclearNext,
          Prog.bind_of_gives hclearPrev, Prog.bind_of_gives hread, Prog.bind_of_gives hlink,
          Prog.bind_of_gives hread, hnext]
        exact hrun
      · have hdb : d ≠ b := fun heq => hd (heq ▸ hb)
        rw [hframe d hd, push_of_ne p hdb, hcleared d hdb]
        rintro rfl
        obtain ⟨as, hchain, hmem⟩ := hbucketed _ _ hp
        have hin := ((hmem d).mp (List.mem_of_head? hchain.head_eq.symm)).1
        exact hd (by simp [horder, hin])

end Jx9Hash

end Poesie
