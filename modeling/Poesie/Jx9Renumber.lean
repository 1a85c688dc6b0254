import Poesie.Jx9Remove

set_option autoImplicit false

/-! # Integer keys that are counted anew

After a shift the entries with integer keys get new ones, counted from zero. A node goes out of the
chain of its bucket, gets the automatic index as its key, and comes into the chain of the bucket of
that. The list of the map stays as it is.
-/

namespace Poesie

open Wire Chains Outcomes

namespace Jx9Hash

variable {V : Type} {w : Vm V} {l c : Nat → Link Nat} {m : Nat} {order : List Nat}
  {orders : Nat → List Nat} {ds : Nat → Dict V}

/-- The VM with an integer key in a node. -/
def Vm.rekey (w : Vm V) (a : Nat) (n : Int64) (nHash : UInt32) : Vm V :=
  { w with
    nodes := Function.update w.nodes a
      ((w.nodes a).map fun node => { node with key := .int n, nHash := nHash }) }

theorem entry_rekey_self {a : Nat} {e : Entry} (he : w.entry a = some e) (n : Int64)
    (nHash : UInt32) :
    (w.rekey a n nHash).entry a = some { e with key := .int n, nHash := nHash } := by
  obtain ⟨node, hnode, rfl⟩ := nodes_of_entry he
  simp [Vm.rekey, Vm.entry, hnode]

theorem entry_rekey_of_ne {a b : Nat} (hb : b ≠ a) (w : Vm V) (n : Int64) (nHash : UInt32) :
    (w.rekey a n nHash).entry b = w.entry b := by
  simp [Vm.rekey, Vm.entry, Function.update_of_ne hb]

theorem modifyNode_rekey {a : Nat} {e : Entry} (he : w.entry a = some e) (n : Int64)
    (nHash : UInt32) :
    modifyNode a (fun node => { node with nHash := nHash, key := .int n }) (w.relink l c) =
      (.returned (), (w.rekey a n nHash).relink l c) := by
  obtain ⟨node, hnode, rfl⟩ := nodes_of_entry he
  have hnodes : Function.update (w.relink l c).nodes a
      (some ⟨{ node.toEntry with nHash := nHash, key := .int n }, l a, c a⟩) =
        ((w.rekey a n nHash).relink l c).nodes := by
    funext b
    by_cases hb : b = a
    · subst hb
      simp [Vm.relink, Vm.rekey, hnode]
    · simp [Vm.relink, Vm.rekey, Function.update_of_ne hb]
  have hread : (w.relink l c).nodes a = some ⟨node.toEntry, l a, c a⟩ := by
    simp [Vm.relink, hnode]
  simp only [modifyNode, hread, hnodes]
  rfl

/-- The chains hold the same nodes in another order. -/
theorem bucketed_of_mem_iff {table : List (Option Nat)} {slot : Nat → Nat} {nodes nodes' : List Nat}
    (h : Bucketed c table slot nodes) (hmem : ∀ b, b ∈ nodes' ↔ b ∈ nodes) :
    Bucketed c table slot nodes' := by
  intro i p hp
  obtain ⟨as, hchain, has⟩ := h i p hp
  exact ⟨as, hchain, fun b => by rw [has, hmem]⟩

/-- The links of a node that is in no bucket. -/
def unlinked (a : Nat) (c : Nat → Link Nat) : Nat → Link Nat :=
  setPrev a none (setNext a none (unlink a c))

theorem unlinked_of_ne {a b : Nat} (hb : b ≠ a) : unlinked a c b = unlink a c b := by
  simp only [unlinked, setPrev, setNext, Function.update_of_ne hb]

theorem unlinked_self (a : Nat) (c : Nat → Link Nat) : unlinked a c a = Link.single := by
  simp [unlinked, setPrev, setNext, Link.single]

/-- The node goes out of the chain of its bucket, which is the one at `p`, and comes to the front
of the other one, which is the one at `q` by then. -/
theorem hashmapRehashIntNode_gives {a : Nat} {e : Entry} {table table₁ : List (Option Nat)}
    {p q : Option Nat} {as : List Nat} {n : Int64} {nHash : UInt32} (he : w.entry a = some e)
    (hn : (w.maps e.pMap).iNextIdx = n) (hhash : (w.maps e.pMap).xIntHash n = nHash)
    (hmax : n.toInt ≠ 2 ^ 63 - 1) (htable : (w.maps e.pMap).apBucket = some table)
    (hp : table[w.slotOf (w.maps e.pMap).nSize a]? = some p)
    (htable₁ : table.set (w.slotOf (w.maps e.pMap).nSize a) (headWithout a c p) = table₁)
    (hchain : Chain c p as) (hmem : a ∈ as) (hlive : ∀ b ∈ as, (w.entry b).isSome)
    (hq : table₁[(w.rekey a n nHash).slotOf (w.maps e.pMap).nSize a]? = some q)
    (hhead : ∀ b, q = some b → ((w.rekey a n nHash).entry b).isSome) :
    hashmapRehashIntNode a (w.relink l c) = (.returned (),
      ((w.rekey a n nHash).withMap e.pMap fun map => { map with
        apBucket := some (table₁.set ((w.rekey a n nHash).slotOf (w.maps e.pMap).nSize a) (some a))
        iNextIdx := map.iNextIdx + 1 }).relink l (push q a (unlinked a c))) := by
  have hself := entry_rekey_self he n nHash
  -- one fact for each call, in their order
  have hunlink := unlinkBucket_eq (l := l) he rfl rfl (slotOf_eq he _ ▸ hp) hchain hmem hlive
  rw [withTable_self htable, ← slotOf_eq he, htable₁] at hunlink
  have halive : (w.entry a).isSome := hlive a hmem
  have hclearNext := setPNextCollide_relink (w := w.withTable e.pMap table₁) (l := l)
    (c := unlink a c) halive none
  have hclearPrev : setPPrevCollide a none
      ((w.withTable e.pMap table₁).relink l (setNext a none (unlink a c))) =
        (.returned (), (w.withTable e.pMap table₁).relink l (unlinked a c)) :=
    setPPrevCollide_relink (w := w.withTable e.pMap table₁) halive none
  have hread : node a ((w.withTable e.pMap table₁).relink l (unlinked a c)) = _ :=
    node_relink (w := w.withTable e.pMap table₁) he
  have hmapread : hashmap e.pMap ((w.withTable e.pMap table₁).relink l (unlinked a c)) =
      (.returned { w.maps e.pMap with apBucket := some table₁ },
        (w.withTable e.pMap table₁).relink l (unlinked a c)) := by
    show (Outcome.returned ((w.withTable e.pMap table₁).maps e.pMap), _) = _
    rw [Vm.withTable, maps_withMap_self]
  have hrekey : modifyNode a (fun node => { node with nHash := nHash, key := .int n })
      ((w.withTable e.pMap table₁).relink l (unlinked a c)) =
        (.returned (), ((w.rekey a n nHash).withTable e.pMap table₁).relink l (unlinked a c)) :=
    modifyNode_rekey (w := w.withTable e.pMap table₁) he n nHash
  have hlink := linkBucket_eq (w := w.rekey a n nHash) (l := l) (c := unlinked a c) (m := e.pMap)
    (a := a) (by rw [hself]; rfl) (slotOf_eq hself _ ▸ hq) hhead
  rw [← slotOf_eq hself] at hlink
  unfold hashmapRehashIntNode
  rw [Prog.bind_of_gives hunlink, Prog.bind_of_gives hclearNext, Prog.bind_of_gives hclearPrev,
    Prog.bind_of_gives hread, Prog.bind_of_gives hmapread]
  subst hn hhash
  refine (Prog.bind_of_gives hrekey _).trans ((Prog.bind_of_gives hlink _).trans ?_)
  refine (if_neg hmax).trans ((modifyMap_relink _ _ _ _ _).trans ?_)
  simp only [Vm.withTable, withMap_withMap]
  rfl

/-- A node gets the automatic index as its key, and comes into the chain of its new bucket. -/
theorem hashmapRehashIntNode_eq (h : MapGood w l c m order) {a : Nat} (ha : a ∈ order)
    (hmax : (w.maps m).iNextIdx.toInt ≠ 2 ^ 63 - 1) : ∃ table c',
      let w' := (w.rekey a (w.maps m).iNextIdx ((w.maps m).xIntHash (w.maps m).iNextIdx)).withMap m
        fun map => { map with apBucket := some table, iNextIdx := map.iNextIdx + 1 }
      hashmapRehashIntNode a (w.relink l c) = (.returned (), w'.relink l c') ∧
        MapGood w' l c' m order ∧ ∀ b ∉ order, c' b = c b := by
  obtain ⟨e, he, rfl, -⟩ := h.owned a ha
  rcases h.table with ⟨-, -, hempty⟩ | ⟨hne, table, htable, hfilled⟩
  · rw [hempty] at ha
    cases ha
  obtain ⟨k, -, hpow⟩ := hfilled.pow
  have hrest : ∀ b, b ∈ order.erase a ↔ b ∈ order ∧ b ≠ a := by
    intro b
    rw [h.nodup.mem_erase_iff, and_comm]
  -- the chain of the old bucket, and the table without the node
  have hlt := slotOf_lt hpow w a
  rw [← hfilled.length] at hlt
  have hp := List.getElem?_eq_getElem hlt
  generalize table[w.slotOf (w.maps e.pMap).nSize a] = p at hp
  obtain ⟨as, hchain, hmem⟩ := hfilled.bucketed _ _ hp
  have hbucketed₁ := hfilled.bucketed.unlink ha hp hrest
  have hlength₁ : (table.set (w.slotOf (w.maps e.pMap).nSize a) (headWithout a c p)).length =
      (w.maps e.pMap).nSize.toNat := List.length_set.trans hfilled.length
  generalize htable₁ : table.set (w.slotOf (w.maps e.pMap).nSize a) (headWithout a c p) = table₁
    at hbucketed₁ hlength₁
  -- the new key
  generalize hn : (w.maps e.pMap).iNextIdx = n at hmax ⊢
  generalize hhash : (w.maps e.pMap).xIntHash n = nHash
  have hentry : ∀ b, b ≠ a → (w.rekey a n nHash).entry b = w.entry b :=
    fun b hb => entry_rekey_of_ne hb w n nHash
  have hslot : ∀ b, b ≠ a → (w.rekey a n nHash).slotOf (w.maps e.pMap).nSize b =
      w.slotOf (w.maps e.pMap).nSize b := by
    intro b hb
    rw [Vm.slotOf, Vm.slotOf, hentry b hb]
  -- the chain of the new bucket
  have hbucketed₂ : Bucketed (unlinked a c) table₁
      ((w.rekey a n nHash).slotOf (w.maps e.pMap).nSize) (order.erase a) :=
    hbucketed₁.congr (fun b hb => unlinked_of_ne ((hrest b).mp hb).2)
      fun b hb => hslot b ((hrest b).mp hb).2
  have hlt₁ := slotOf_lt hpow (w.rekey a n nHash) a
  rw [← hlength₁] at hlt₁
  have hq := List.getElem?_eq_getElem hlt₁
  generalize table₁[(w.rekey a n nHash).slotOf (w.maps e.pMap).nSize a] = q at hq
  have hhead : ∀ b, q = some b → b ∈ order ∧ b ≠ a := by
    rintro b rfl
    obtain ⟨bs, hchain', hmem'⟩ := hbucketed₂ _ _ hq
    exact (hrest b).mp ((hmem' b).mp (List.mem_of_head? hchain'.head_eq.symm)).1
  refine ⟨_, _, hashmapRehashIntNode_gives he hn hhash hmax htable hp htable₁ hchain
    ((hmem a).mpr ⟨ha, rfl⟩) (fun b hb => h.live ((hmem b).mp hb).1) hq (fun b hb => ?_), ?_,
    fun b hb => ?_⟩
  · rw [hentry b (hhead b hb).2]
    exact h.live (hhead b hb).1
  · have hbucketed := hbucketed₂.link (fun hin => ((hrest a).mp hin).2 rfl) (unlinked_self a c) hq
    have hlength : (table₁.set ((w.rekey a n nHash).slotOf (w.maps e.pMap).nSize a)
        (some a)).length = (w.maps e.pMap).nSize.toNat := List.length_set.trans hlength₁
    generalize table₁.set ((w.rekey a n nHash).slotOf (w.maps e.pMap).nSize a) (some a) = table₂
      at hbucketed hlength ⊢
    have hmap : ((w.rekey a n nHash).withMap e.pMap fun map =>
        { map with apBucket := some table₂, iNextIdx := map.iNextIdx + 1 }).maps e.pMap =
          { w.maps e.pMap with apBucket := some table₂, iNextIdx := n + 1 } := by
      rw [maps_withMap_self, ← hn]
      rfl
    refine ⟨fun b hb => ?_, ?_, ?_, ?_, Or.inr ⟨hne, table₂, ?_, ?_⟩⟩ <;> rw [hmap]
    · by_cases hba : b = a
      · subst hba
        exact ⟨_, entry_rekey_self he n nHash, rfl, hhash.symm⟩
      · obtain ⟨e', he', hm', hhash'⟩ := h.owned b hb
        refine ⟨e', (hentry b hba).trans he', hm', ?_⟩
        rw [hhash']
        cases e'.key <;> rfl
    · exact h.list
    · exact h.first
    · exact h.count
    · refine ⟨hlength, hfilled.pow, bucketed_of_mem_iff hbucketed fun b => ?_⟩
      rw [List.mem_append, List.mem_singleton, hrest]
      by_cases hba : b = a
      · simp [hba, ha]
      · simp [hba]
  · have hba : b ≠ a := by
      rintro rfl
      exact hb ha
    obtain ⟨ds, es, rfl⟩ := List.append_of_mem ((hmem a).mpr ⟨ha, rfl⟩)
    rw [push_of_ne q hba fun hq' => hb (hhead b hq').1, unlinked_of_ne hba]
    exact hchain.unlink_other fun hin => hb ((hmem b).mp hin).1

/-- What is left of the state when nodes of a map have got other integer keys. -/
structure Renumbered (w w' : Vm V) (c c' : Nat → Link Nat) (m : Nat) (order todo : List Nat)
    (next : Int64) : Prop where
  map : ∃ table, w'.maps m = { w.maps m with apBucket := table, iNextIdx := next }
  maps : ∀ m' ≠ m, w'.maps m' = w.maps m'
  entry : ∀ b ∉ todo, w'.entry b = w.entry b
  keeps : ∀ b e', w'.entry b = some e' →
    ∃ e, w.entry b = some e ∧ e.pMap = e'.pMap ∧ e.nValIdx = e'.nValIdx
  pool : w'.pool = w.pool
  memory : w'.aMemObj = w.aMemObj
  free : w'.aFreeObj = w.aFreeObj
  links : ∀ b ∉ order, c' b = c b

namespace Renumbered

variable {w₁ w₂ : Vm V} {c₁ c₂ : Nat → Link Nat} {todo todo₁ : List Nat} {next next₁ : Int64}

theorem mono (h : Renumbered w w₁ c c₁ m order todo next) (hsub : ∀ b ∈ todo, b ∈ todo₁) :
    Renumbered w w₁ c c₁ m order todo₁ next :=
  { h with entry := fun b hb => h.entry b (mt (hsub b) hb) }

theorem trans (h₁ : Renumbered w w₁ c c₁ m order todo next)
    (h₂ : Renumbered w₁ w₂ c₁ c₂ m order todo₁ next₁) :
    Renumbered w w₂ c c₂ m order (todo ++ todo₁) next₁ where
  map := by
    obtain ⟨table, hmap₁⟩ := h₁.map
    obtain ⟨table', hmap₂⟩ := h₂.map
    exact ⟨table', by rw [hmap₂, hmap₁]⟩
  maps m' hm' := (h₂.maps m' hm').trans (h₁.maps m' hm')
  entry b hb := by
    rw [List.mem_append, not_or] at hb
    exact (h₂.entry b hb.2).trans (h₁.entry b hb.1)
  keeps b e₂ he₂ := by
    obtain ⟨e₁, he₁, hm₁, hi₁⟩ := h₂.keeps b e₂ he₂
    obtain ⟨e, he, hm, hi⟩ := h₁.keeps b e₁ he₁
    exact ⟨e, he, hm.trans hm₁, hi.trans hi₁⟩
  pool := h₂.pool.trans h₁.pool
  memory := h₂.memory.trans h₁.memory
  free := h₂.free.trans h₁.free
  links b hb := (h₂.links b hb).trans (h₁.links b hb)

/-- One node gets another key. -/
theorem rekey {a : Nat} {e : Entry} (he : w.entry a = some e) (n nHash) (table : List (Option Nat))
    (hlinks : ∀ b ∉ order, c₁ b = c b) :
    Renumbered w ((w.rekey a n nHash).withMap m fun map =>
      { map with apBucket := some table, iNextIdx := map.iNextIdx + 1 }) c c₁ m order [a]
        ((w.maps m).iNextIdx + 1) where
  map := ⟨some table, maps_withMap_self _ _ _⟩
  maps m' hm' := maps_withMap_of_ne hm' _ _
  entry b hb := entry_rekey_of_ne (mt List.mem_singleton.mpr hb) w n nHash
  keeps b e' he' := by
    by_cases hba : b = a
    · subst hba
      have hself := entry_rekey_self he n nHash
      cases he'.symm.trans hself
      exact ⟨e, he, rfl, rfl⟩
    · exact ⟨e', (entry_rekey_of_ne hba w n nHash).symm.trans he', rfl, rfl⟩
  pool := rfl
  memory := rfl
  free := rfl
  links := hlinks

end Renumbered

/-- A node with a string key keeps it. -/
theorem renumberLoop_blob {a : Nat} {e : Entry} {b : Bytes} (he : w.entry a = some e)
    (hkey : e.key = .blob b) (n : Nat) :
    renumberLoop (n + 1) (some a) (w.relink l c) = renumberLoop n (l a).prev (w.relink l c) := by
  have hstart : follow (some a) (w.relink l c) = (.returned a, w.relink l c) := rfl
  rw [renumberLoop, Prog.bind_of_gives hstart, Prog.bind_of_gives (node_relink he)]
  simp only [hkey]
  exact Prog.bind_of_gives (node_relink he) _

theorem renumberLoop_int {w' : Vm V} {c' : Nat → Link Nat} {a : Nat} {e e' : Entry} {k : Int64}
    (he : w.entry a = some e) (hkey : e.key = .int k)
    (hrehash : hashmapRehashIntNode a (w.relink l c) = (.returned (), w'.relink l c'))
    (he' : w'.entry a = some e') (n : Nat) :
    renumberLoop (n + 1) (some a) (w.relink l c) = renumberLoop n (l a).prev (w'.relink l c') := by
  have hstart : follow (some a) (w.relink l c) = (.returned a, w.relink l c) := rfl
  rw [renumberLoop, Prog.bind_of_gives hstart, Prog.bind_of_gives (node_relink he)]
  simp only [hkey]
  refine (Prog.bind_of_gives hrehash _).trans ?_
  exact Prog.bind_of_gives (node_relink he') _

/-- The loop counts the integer keys of the nodes that are left, from the automatic index on. -/
theorem renumberLoop_eq {todo : List Nat} {es : List (Jx9Key × V)}
    (hshows : List.Forall₂ w.Shows todo es) (done : List Nat) (h : MapGood w l c m order)
    (horder : order = done ++ todo) (k : Nat) (hnext : (w.maps m).iNextIdx = Int64.ofNat k)
    (hsmall : k + Dict.countInts es < 2 ^ 63) : ∃ w' c',
      renumberLoop todo.length todo.head? (w.relink l c) = (.returned (), w'.relink l c') ∧
        MapGood w' l c' m order ∧ List.Forall₂ w'.Shows todo (Dict.renumber k es) ∧
        Renumbered w w' c c' m order todo (Int64.ofNat (k + Dict.countInts es)) := by
  induction es generalizing w c todo done k with
  | nil =>
      cases hshows
      refine ⟨w, c, rfl, h, .nil, ⟨(w.maps m).apBucket, ?_⟩, fun _ _ => rfl, fun _ _ => rfl,
        fun b e' he' => ⟨e', he', rfl, rfl⟩, rfl, rfl, rfl, fun _ _ => rfl⟩
      show w.maps m = { w.maps m with iNextIdx := Int64.ofNat k }
      rw [← hnext]
  | cons entry es ih =>
      rcases hshows with _ | ⟨ha, hrest⟩
      rename_i a todo
      have hnodup : (done ++ a :: todo).Nodup := horder ▸ h.nodup
      have htodo : a ∉ todo := (List.nodup_cons.mp (List.nodup_append.mp hnodup).2.1).1
      have hin : a ∈ order := by simp [horder]
      have horder' : order = (done ++ [a]) ++ todo := by simp [horder]
      have hprev : (l a).prev = todo.head? := h.prev_eq horder
      obtain ⟨e, he, hkey, hvalue⟩ := ha
      obtain ⟨key, v⟩ := entry
      cases key with
      | blob b =>
          rw [Dict.countInts_blob] at hsmall ⊢
          obtain ⟨w', c', hrun, hgood, hshows', hw⟩ := ih hrest (done ++ [a]) h horder' k hnext
            hsmall
          have hloop := renumberLoop_blob (l := l) (c := c) he hkey todo.length
          refine ⟨w', c', ?_, hgood, .cons ?_ hshows', hw.mono fun b => List.mem_cons_of_mem a⟩
          · rw [hprev] at hloop
            exact hloop.trans hrun
          · exact ⟨e, (hw.entry a htodo).trans he, hkey, by rw [hw.memory, hvalue]⟩
      | int n =>
          rw [Dict.countInts_int] at hsmall ⊢
          have hmax : (w.maps m).iNextIdx.toInt ≠ 2 ^ 63 - 1 := by
            rw [hnext, Int64.toInt_ofNat_of_lt (by omega)]
            omega
          obtain ⟨table, c₁, hrehash, hgood₁, hlinks₁⟩ := hashmapRehashIntNode_eq h hin hmax
          let w₁ := (w.rekey a (w.maps m).iNextIdx ((w.maps m).xIntHash (w.maps m).iNextIdx)).withMap
            m fun map => { map with apBucket := some table, iNextIdx := map.iNextIdx + 1 }
          have hw₁ : Renumbered w w₁ c c₁ m order [a] ((w.maps m).iNextIdx + 1) :=
            .rekey he _ _ table hlinks₁
          have hself₁ : w₁.entry a = some { e with
              key := .int (w.maps m).iNextIdx, nHash := (w.maps m).xIntHash (w.maps m).iNextIdx } :=
            entry_rekey_self he _ _
          have hnext₁ : (w₁.maps m).iNextIdx = Int64.ofNat (k + 1) := by
            obtain ⟨table', hmap⟩ := hw₁.map
            rw [hmap, Int64.ofNat_add, ← hnext]
            rfl
          have hrest₁ : List.Forall₂ w₁.Shows todo es := by
            refine forall₂_imp_mem hrest fun b hb entry _ => ?_
            rintro ⟨f, hf, hfkey, hfvalue⟩
            have hba : b ∉ [a] := by
              rw [List.mem_singleton]
              rintro rfl
              exact htodo hb
            exact ⟨f, (hw₁.entry b hba).trans hf, hfkey, hfvalue⟩
          -- the rest is counted from the next index on
          obtain ⟨w', c', hrun, hgood, hshows', hw⟩ := ih hrest₁ (done ++ [a]) hgood₁ horder' (k + 1)
            hnext₁ (by omega)
          have hloop := renumberLoop_int he hkey hrehash hself₁ todo.length
          rw [hprev] at hloop
          have hsum : k + (Dict.countInts es + 1) = k + 1 + Dict.countInts es := by omega
          rw [hsum]
          refine ⟨w', c', hloop.trans hrun, hgood, .cons ?_ hshows', hw₁.trans hw⟩
          exact ⟨_, (hw.entry a htodo).trans hself₁, by rw [hnext], by rw [hw.memory]; exact hvalue⟩

theorem Renumbered.leavesForeign {w' : Vm V} {c' : Nat → Link Nat} {todo : List Nat} {next : Int64}
    (hw : Renumbered w w' c c' m order todo next) : LeavesForeign w w' := by
  rintro i ⟨hlt, hnot, hnode⟩
  refine ⟨⟨by rwa [hw.memory], by rwa [hw.free], fun b e' he' => ?_⟩, by rw [hw.memory]⟩
  obtain ⟨e, he, -, hi⟩ := hw.keeps b e' he'
  rw [← hi]
  exact hnode b e he

theorem shift_refines [Inhabited V] (hsmall : (ds m).entries.length ≤ maxEntries) :
    RefinesTo (shift m) ds (onMap ds m (.ok ((ds m).shift.1, (ds m).shift.2))) := by
  refine refinesTo_of fun w l c orders h => Does.bind_read (hashmap_relink w l c m) ?_
  by_cases hnone : (w.maps m).nEntry < 1
  · have hempty := (h.nEntry_lt_one m).mp hnone
    have hshift : (ds m).shift = (none, ds m) := by
      unfold Dict.shift
      rw [hempty]
    rw [if_pos hnone, hshift, onMap_same]
    exact h.does rfl (LeavesForeign.refl w)
  · rw [if_neg hnone]
    obtain ⟨entry, es, hes⟩ : ∃ entry es, (ds m).entries = entry :: es :=
      List.exists_cons_of_ne_nil (mt (h.nEntry_lt_one m).mpr hnone)
    obtain ⟨a, bs, horder⟩ : ∃ a bs, orders m = a :: bs := by
      refine List.exists_cons_of_ne_nil fun hempty => ?_
      rw [(h.empty_iff m).mp hempty] at hes
      cases hes
    have hpair := (h.shows m).entries
    rw [horder, hes] at hpair
    obtain ⟨hshows, hrest⟩ := List.forall₂_cons.mp hpair
    have ha : a ∈ orders m := by simp [horder]
    have hnodup := (h.good m).nodup
    have herase : (orders m).erase a = bs := by rw [horder, List.erase_cons_head]
    obtain ⟨w', l', c', hunlink, hr⟩ := jx9HashmapUnlinkNode_removes h ha hsmall
    have hes' : List.Forall₂ w'.Shows ((orders m).erase a) es := hr.shows hnodup (herase ▸ hrest)
    -- the entries are counted from zero
    let w₁ := w'.withMap m fun map => { map with iNextIdx := 0 }
    have hmap₁ : w₁.maps m = { w'.maps m with iNextIdx := 0 } := maps_withMap_self _ _ _
    have hgood₁ : MapGood w₁ l' c' m ((orders m).erase a) := hr.good.withMap ⟨_, _, _, rfl⟩
    have hcount := Dict.countInts_le es
    have hbound : (ds m).entries.length ≤ 3 * 2 ^ 28 := hsmall
    rw [hes, List.length_cons] at hbound
    obtain ⟨w₂, c₂, hloop, hgood₂, hshows₂, hw⟩ := renumberLoop_eq (w := w₁) (l := l') (c := c')
      (m := m) hes' [] hgood₁ rfl 0 (by rw [hmap₁]; rfl) (by omega)
    rw [← hgood₁.count, ← hgood₁.first] at hloop
    obtain ⟨table, hmap₂⟩ := hw.map
    let w₃ := w₂.withMap m fun map => { map with pCur := map.pFirst }
    have hmap₃ : w₃.maps m = { w₂.maps m with pCur := (w₂.maps m).pFirst } :=
      maps_withMap_self _ _ _
    have hshift : (ds m).shift = (some entry.2, Dict.rewind { ds m with
        entries := Dict.renumber 0 es, next := Int64.ofNat (Dict.countInts es) }) := by
      unfold Dict.shift
      rw [hes]
    have hfirst : (w.maps m).pFirst = some a := by
      rw [(h.good m).first, horder]
      rfl
    obtain ⟨e, he, -, hv⟩ := hshows
    rw [hfirst, hshift]
    refine Does.bind_read (f := follow (some a)) rfl (Does.bind_read (node_relink he) ?_)
    have hread : memObjAt e.nValIdx (w.relink l c) = (.returned (some entry.2), w.relink l c) := by
      rw [← hv]
      rfl
    refine Does.bind_read hread ?_
    have hrep : Rep w₃ l' c₂ (Function.update orders m ((orders m).erase a))
        (Function.update ds m (Dict.rewind { ds m with
          entries := Dict.renumber 0 es, next := Int64.ofNat (Dict.countInts es) })) := by
      have hremoved : Stored w₁ (Function.update orders m ((orders m).erase a)) :=
        hr.stored.same (fun _ => rfl) le_rfl rfl rfl
      have hstored : Stored w₂ (Function.update orders m ((orders m).erase a)) :=
        hremoved.congr hw.keeps hw.pool.ge hw.free (by rw [hw.memory])
      refine hr.rep h ha (hstored.same (fun _ => rfl) le_rfl rfl rfl)
        (hgood₂.withMap ⟨_, _, _, rfl⟩) (fun m' hm => ?_) (fun b hb => ?_) hw.memory
        (fun b hb => ?_) hshows₂ ?_ ?_ ?_
      · rw [maps_withMap_of_ne hm, hw.maps m' hm]
        exact maps_withMap_of_ne hm _ _
      · exact hw.entry b fun hin => hb (List.mem_of_mem_erase hin)
      · exact hw.links b fun hin => hb (List.mem_of_mem_erase hin)
      · rw [hmap₃, hmap₂, Nat.zero_add]
      · rw [hmap₃]
      · rw [hmap₃, hmap₂, hmap₁]
        exact hr.settings.isObject.trans (h.shows m).isObject
    have hmapread : hashmap m (w₁.relink l' c') = (.returned (w₁.maps m), w₁.relink l' c') := rfl
    refine hrep.does ?_ (hr.foreign.trans hw.leavesForeign)
    refine (Prog.bind_of_gives hunlink _).trans ?_
    refine (Prog.bind_of_gives (modifyMap_relink w' l' c' m _) _).trans ?_
    refine (Prog.bind_of_gives hmapread _).trans ?_
    refine (Prog.bind_of_gives hloop _).trans ?_
    exact Prog.bind_of_gives (modifyMap_relink w₂ l' c₂ m _) _

end Jx9Hash

end Poesie
