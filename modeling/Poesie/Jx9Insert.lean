import Poesie.Jx9Rep

set_option autoImplicit false

/-! # Insertion into hash maps

What the functions that insert do to the VM is what the dictionary of their map does: a new entry
behind the others, or another value under a key that is there. Where there is no memory for the
first table of a map, its entries stay as they are.
-/

namespace Poesie

open Wire Chains Outcomes

namespace Jx9Hash

variable {V : Type} {w : Vm V} {l c : Nat → Link Nat} {m : Nat} {orders : Nat → List Nat}
  {ds : Nat → Dict V}

/-! ## Refinement of dictionaries -/

/-- The VM has the dictionaries in its maps. -/
def Shown (v : Vm V) (ds : Nat → Dict V) : Prop :=
  ∃ w l c orders, v = w.relink l c ∧ Rep w l c orders ds

theorem foreign_relink (w : Vm V) (l c : Nat → Link Nat) (i : Nat) :
    (w.relink l c).Foreign i ↔ w.Foreign i := by
  simp only [Vm.Foreign, entry_relink]
  rfl

theorem LeavesForeign.relink {w' : Vm V} {l' c' : Nat → Link Nat} (h : LeavesForeign w w') :
    LeavesForeign (w.relink l c) (w'.relink l' c') := by
  intro i hi
  rw [foreign_relink] at hi ⊢
  exact h i hi

instance : IsPreorder (Vm V) LeavesForeign where
  refl := LeavesForeign.refl
  trans _ _ _ := LeavesForeign.trans

/-- A function of the VM does what is said of the dictionaries, and leaves the memory objects of
others alone. -/
abbrev DoesTo {α : Type} (f : Op V α) (v : Vm V) (r : Except Fault (α × (Nat → Dict V))) : Prop :=
  Does Shown LeavesForeign f v r

theorem Rep.does {α : Type} {f : Op V α} {x : α} {w' : Vm V} {l' c' : Nat → Link Nat}
    {orders' : Nat → List Nat} {ds' : Nat → Dict V} (h : Rep w' l' c' orders' ds')
    (hrun : f (w.relink l c) = (.returned x, w'.relink l' c')) (hforeign : LeavesForeign w w') :
    DoesTo f (w.relink l c) (.ok (x, ds')) :=
  ⟨_, hrun, ⟨w', l', c', orders', rfl, h⟩, hforeign.relink⟩

/-! ## A new node -/

/-- The VM with a new node. -/
def Vm.withNode (w : Vm V) (e : Entry) : Vm V :=
  { w with
    nodes := Function.update w.nodes w.pool (some ⟨e, Link.single, Link.single⟩)
    pool := w.pool + 1 }

theorem entry_withNode (w : Vm V) (e : Entry) (a : Nat) :
    (w.withNode e).entry a = if a = w.pool then some e else w.entry a := by
  by_cases ha : a = w.pool
  · simp [Vm.entry, Vm.withNode, ha]
  · simp [Vm.entry, Vm.withNode, ha]

theorem newNode_relink (w : Vm V) (l c : Nat → Link Nat) (e : Entry) :
    newNode e (w.relink l c) = (.returned w.pool, (w.withNode e).relink
      (Function.update l w.pool Link.single) (Function.update c w.pool Link.single)) := by
  have hnodes : Function.update (w.relink l c).nodes w.pool (some ⟨e, Link.single, Link.single⟩) =
      ((w.withNode e).relink (Function.update l w.pool Link.single)
        (Function.update c w.pool Link.single)).nodes := by
    funext b
    by_cases hb : b = w.pool
    · subst hb
      simp [Vm.relink, Vm.withNode]
    · simp [Vm.relink, Vm.withNode, Function.update_of_ne hb]
  have hpool : (w.relink l c).pool = w.pool := rfl
  simp only [newNode, hpool, hnodes]
  rfl

theorem freeNode_relink (w : Vm V) (l c : Nat → Link Nat) (a : Nat) :
    freeNode a (w.relink l c) =
      (.returned (), ({ w with nodes := Function.update w.nodes a none } : Vm V).relink l c) := by
  have hnodes : Function.update (w.relink l c).nodes a none =
      (({ w with nodes := Function.update w.nodes a none } : Vm V).relink l c).nodes := by
    funext b
    by_cases hb : b = a
    · subst hb
      simp [Vm.relink]
    · simp [Vm.relink, Function.update_of_ne hb]
  simp only [freeNode, hnodes]
  rfl

/-- A memory object of a VM has been reserved for a value. -/
structure Reserved (w w' : Vm V) (orders : Nat → List Nat) (i : Nat) (v : V) : Prop where
  entry : ∀ a, w'.entry a = w.entry a
  maps : w'.maps = w.maps
  pool : w'.pool = w.pool
  kept : ∀ j, j ≠ i → j < w.aMemObj.length → w'.aMemObj[j]? = w.aMemObj[j]?
  value : w'.aMemObj[i]? = some v
  stored : Stored w' orders
  reserved : i ∉ w'.aFreeObj
  other : ∀ a e, w.entry a = some e → e.nValIdx ≠ i
  fewer : ∀ j ∈ w'.aFreeObj, j ∈ w.aFreeObj
  notForeign : ¬ w.Foreign i
  longer : w.aMemObj.length ≤ w'.aMemObj.length

section

variable [Inhabited V]

theorem reserve_eq (h : Stored w orders) (value : Option V) : ∃ (i : Nat) (w₁ w' : Vm V),
    jx9VmReserveMemObj (w.relink l c) = (.returned i, w₁.relink l c) ∧
      storeMemObj i value (w₁.relink l c) = (.returned (), w'.relink l c) ∧
      Reserved w w' orders i (value.getD default) := by
  obtain ⟨i, memObj, free, hrun, hi, hlonger, hkeep, hwas, hfree, hfewer, hnodup⟩ :=
    jx9VmReserveMemObj_eq (l := l) (c := c) h
  have hother : ∀ a e, w.entry a = some e → e.nValIdx ≠ i := by
    rintro a e he rfl
    obtain ⟨hlt, hnot⟩ := h.used a e he
    rcases hwas with hin | hge
    · exact hnot hin
    · omega
  let w' : Vm V := { w with aMemObj := memObj.set i (value.getD default), aFreeObj := free }
  refine ⟨i, _, w', hrun, rfl, fun _ => rfl, rfl, rfl, fun j hj hlt => ?_, ?_, ?_, hfree, hother,
    hfewer, ?_, by simpa [w'] using hlonger⟩
  · exact (List.getElem?_set_ne (Ne.symm hj)).trans (hkeep j hj hlt)
  · exact List.getElem?_set_self hi
  · have hlength : w'.aMemObj.length = memObj.length := List.length_set
    refine ⟨h.live, h.apart, fun a e he => ?_, hnodup, fun j hj => ?_⟩
    · obtain ⟨hlt, hnot⟩ := h.used a e he
      exact ⟨by omega, fun hin => hnot (hfewer _ hin)⟩
    · have hlt := h.inside j (hfewer j hj)
      omega
  · rintro ⟨hlt, hnot, -⟩
    rcases hwas with hin | hge
    · exact hnot hin
    · omega

omit [Inhabited V] in
theorem Stored.pool_fresh (h : Stored w orders) : w.entry w.pool = none := by
  cases he : w.entry w.pool with
  | none => rfl
  | some e => exact absurd (h.live _ e he).1 (Nat.lt_irrefl _)

omit [Inhabited V] in
theorem Rep.pool_notMem (h : Rep w l c orders ds) (m : Nat) : w.pool ∉ orders m := by
  intro hin
  obtain ⟨e, he, -⟩ := (h.good m).owned _ hin
  rw [h.stored.pool_fresh] at he
  cases he

omit [Inhabited V] in
/-- The reserved memory object becomes the one of a new node. -/
theorem Stored.withNode {w' : Vm V} {i : Nat} {v : V} (h : Stored w orders)
    (hw : Reserved w w' orders i v) {e : Entry} (hi : e.nValIdx = i) :
    Stored (w'.withNode e)
      (Function.update orders e.pMap (orders e.pMap ++ [w.pool])) := by
  have hentry : ∀ a, (w'.withNode e).entry a = if a = w.pool then some e else w.entry a := by
    intro a
    rw [entry_withNode, hw.pool, hw.entry]
  -- a node is the new one, or was there
  have hcases : ∀ {a f}, (w'.withNode e).entry a = some f →
      a = w.pool ∧ f = e ∨ w.entry a = some f := by
    intro a f hf
    rw [hentry] at hf
    by_cases ha : a = w.pool
    · rw [if_pos ha] at hf
      exact Or.inl ⟨ha, (Option.some.inj hf).symm⟩
    · exact Or.inr (by rwa [if_neg ha] at hf)
  refine ⟨fun a f hf => ?_, fun a b f g hf hg heq => ?_, fun a f hf => ?_, hw.stored.free,
    hw.stored.inside⟩
  · show a < w'.pool + 1 ∧ _
    rw [hw.pool]
    rcases hcases hf with ⟨rfl, rfl⟩ | hf
    · exact ⟨Nat.lt_succ_self _, by simp⟩
    · obtain ⟨hlt, hin⟩ := h.live a f hf
      refine ⟨Nat.lt_succ_of_lt hlt, ?_⟩
      by_cases hm : f.pMap = e.pMap
      · rw [hm] at hin ⊢
        rw [Function.update_self]
        exact List.mem_append_left _ hin
      · rwa [Function.update_of_ne hm]
  · rcases hcases hf with ⟨ha, rfl⟩ | hold <;> rcases hcases hg with ⟨hb, rfl⟩ | hold'
    · exact ha.trans hb.symm
    · exact absurd (heq.symm.trans hi) (hw.other b g hold')
    · exact absurd (heq.trans hi) (hw.other a f hold)
    · exact h.apart a b f g hold hold' heq
  · rcases hcases hf with ⟨-, rfl⟩ | hf
    · rw [hi]
      exact ⟨(List.getElem?_eq_some_iff.mp hw.value).1, hw.reserved⟩
    · exact hw.stored.used a f (hw.entry a ▸ hf)

omit [Inhabited V] in
theorem Rep.length (h : Rep w l c orders ds) (m : Nat) :
    (orders m).length = (ds m).entries.length := (h.shows m).entries.length_eq

omit [Inhabited V] in
theorem Rep.empty_iff (h : Rep w l c orders ds) (m : Nat) :
    orders m = [] ↔ (ds m).entries = [] := by
  rw [← List.length_eq_zero_iff, h.length, List.length_eq_zero_iff]

omit [Inhabited V] in
/-- The cursor stands at the first entry that comes into a map, and stays where it is otherwise. -/
theorem Rep.append_cursor (h : Rep w l c orders ds)
    (hcursor : ∀ i, (ds m).cursor = some i → i < (ds m).entries.length) (a : Nat) (key : Jx9Key)
    (v : V) : (if orders m = [] then some a else (w.maps m).pCur) =
      ((ds m).append key v).cursor.bind fun i => (orders m ++ [a])[i]? := by
  by_cases hempty : orders m = []
  · simp [Dict.append, hempty, (h.empty_iff m).mp hempty]
  · have hcur : ((ds m).append key v).cursor = (ds m).cursor :=
      if_neg (mt (h.empty_iff m).mpr hempty)
    rw [if_neg hempty, hcur, (h.shows m).cursor]
    cases hat : (ds m).cursor with
    | none => rfl
    | some i =>
        have hi : i < (orders m).length := by
          rw [h.length]
          exact hcursor i hat
        exact (List.getElem?_append_left hi).symm

/-- A new entry in a map. -/
theorem insertKey_does (h : Rep w l c orders ds) (hsmall : (ds m).entries.length < maxEntries)
    (hcursor : ∀ i, (ds m).cursor = some i → i < (ds m).entries.length) (key : Jx9Key)
    (value : Option V) (alloc : Bool) :
    DoesTo (insertKey m key value alloc) (w.relink l c)
      (.ok (((ds m).add key (value.getD default) alloc).isSome, Function.update ds m
        (((ds m).add key (value.getD default) alloc).getD (ds m)))) := by
  obtain ⟨i, w₁, w₂, hreserve, hstore, hw⟩ := reserve_eq (l := l) (c := c) h.stored value
  let e : Entry := ⟨m, key, (w.maps m).hash key, i⟩
  let l₃ := Function.update l w.pool Link.single
  let c₃ := Function.update c w.pool Link.single
  have hmap : hashmap m (w₂.relink l c) = (.returned (w.maps m), w₂.relink l c) := by
    show (Outcome.returned (w₂.maps m), _) = _
    rw [hw.maps]
  have hnode : newNode e (w₂.relink l c) = (.returned w.pool, (w₂.withNode e).relink l₃ c₃) := by
    rw [newNode_relink, hw.pool]
  have hentry : ∀ a, a ≠ w.pool → (w₂.withNode e).entry a = w.entry a := by
    intro a ha
    rw [entry_withNode, hw.pool, if_neg ha, hw.entry]
  have hne : ∀ {m' a}, a ∈ orders m' → a ≠ w.pool := by
    rintro m' a ha rfl
    exact h.pool_notMem m' ha
  have hgood : MapGood (w₂.withNode e) l₃ c₃ m (orders m) :=
    (h.good m).congr (congrFun hw.maps m) (fun a ha => hentry a (hne ha))
      (fun a ha => Function.update_of_ne (hne ha) _ _)
      fun a ha => Function.update_of_ne (hne ha) _ _
  have hlength := h.length m
  have hgrow := hashmapGrowBucket_eq hgood (by omega) alloc
  have hstart : insertKey m key value alloc (w.relink l c) =
      (hashmapGrowBucket m alloc >>= fun ok =>
        if ok then hashmap m >>= fun map =>
          hashmapNodeLink m w.pool (map.hash key &&& (map.nSize - 1)) >>= fun _ => pure true
        else freeNode w.pool >>= fun _ => pure false) ((w₂.withNode e).relink l₃ c₃) := by
    unfold insertKey
    rw [Prog.bind_of_gives hreserve, Prog.bind_of_gives hstore, Prog.bind_of_gives hmap,
      Prog.bind_of_gives hnode]
  by_cases hfail : orders m = [] ∧ alloc = false
  · -- there is no memory for the first table
    rw [if_pos hfail] at hgrow
    have hadd : (ds m).add key (value.getD default) alloc = none :=
      if_pos ⟨(h.empty_iff m).mp hfail.1, hfail.2⟩
    have hrun : insertKey m key value alloc (w.relink l c) = (.returned false, _) :=
      (hstart.trans (Prog.bind_of_gives hgrow _)).trans
        (Prog.bind_of_gives (freeNode_relink _ l₃ c₃ w.pool) _)
    rw [hadd]
    let w₄ : Vm V :=
      { w₂.withNode e with nodes := Function.update (w₂.withNode e).nodes w.pool none }
    have hentry₄ : ∀ a, w₄.entry a = w.entry a := by
      intro a
      refine (entry_update_none (w₂.withNode e) w.pool a).trans ?_
      by_cases ha : a = w.pool
      · rw [if_pos ha, ha, h.stored.pool_fresh]
      · rw [if_neg ha, hentry a ha]
    have hkept : ∀ a f, w.entry a = some f → w₂.aMemObj[f.nValIdx]? = w.aMemObj[f.nValIdx]? :=
      fun a f hf => hw.kept _ (hw.other a f hf) (h.stored.used a f hf).1
    have hstored : Stored w₄ (Function.update orders m (orders m)) := by
      rw [Function.update_eq_self]
      refine hw.stored.same (fun a => (hentry₄ a).trans (hw.entry a).symm) (Nat.le_succ _) rfl rfl
    have hresult := h.update l₃ c₃ (ds m) hstored (fun m' _ => congrFun hw.maps m')
      (fun a _ hlive => ?_) ((h.good m).congr (congrFun hw.maps m) (fun a _ => hentry₄ a)
        (fun a ha => Function.update_of_ne (hne ha) _ _)
        fun a ha => Function.update_of_ne (hne ha) _ _)
      ((h.shows m).congr (congrFun hw.maps m) ?_)
    · rw [Function.update_eq_self] at hresult
      refine hresult.does hrun fun j hj => ?_
      have hji : j ≠ i := by
        rintro rfl
        exact hw.notForeign hj
      refine ⟨⟨Nat.lt_of_lt_of_le hj.1 hw.longer, fun hin => hj.2.1 (hw.fewer j hin), ?_⟩,
        hw.kept j hji hj.1⟩
      exact fun a f hf => hj.2.2 a f (hentry₄ a ▸ hf)
    · have ha : a ≠ w.pool := by
        rintro rfl
        rw [h.stored.pool_fresh] at hlive
        cases hlive
      exact ⟨hentry₄ a, Function.update_of_ne ha _ _, Function.update_of_ne ha _ _, hkept a⟩
    · rintro a - entry ⟨f, hf, hkey, hvalue⟩
      exact ⟨f, (hentry₄ a).trans hf, hkey, (hkept a f hf).trans hvalue⟩
  · rw [if_neg hfail] at hgrow
    obtain ⟨table, nSize, c', hgrow, hfilled, hframe⟩ := hgrow
    have hadd : (ds m).add key (value.getD default) alloc =
        some ((ds m).append key (value.getD default)) :=
      if_neg fun hin => hfail ⟨(h.empty_iff m).mpr hin.1, hin.2⟩
    rw [hadd]
    -- the VM with a table that has room for one more entry
    let w₄ := (w₂.withNode e).withMap m fun map =>
      { map with apBucket := some table, nSize := nSize }
    have hmap₄ : w₄.maps m = { w.maps m with apBucket := some table, nSize := nSize } := by
      refine (maps_withMap_self _ m _).trans ?_
      show ({ w₂.maps m with apBucket := some table, nSize := nSize } : Hashmap) = _
      rw [hw.maps]
    have hentry₄ : ∀ a, w₄.entry a = if a = w.pool then some e else w.entry a := by
      intro a
      refine (entry_withNode w₂ e a).trans ?_
      rw [hw.pool, hw.entry]
    have howned : ∀ b ∈ orders m, ∃ e, w₄.entry b = some e ∧ e.pMap = m ∧
        e.nHash = (w₄.maps m).hash e.key := by
      intro b hb
      obtain ⟨e', he', hm', hhash'⟩ := hgood.owned b hb
      refine ⟨e', he', hm', ?_⟩
      rw [hhash', hmap₄, ← hw.maps]
      cases e'.key <;> rfl
    have hhash : e.nHash = (w₄.maps m).hash e.key := by
      rw [hmap₄]
      show (w.maps m).hash key = _
      cases key <;> rfl
    have hnew : w₄.entry w.pool = some e := by
      rw [hentry₄, if_pos rfl]
    have hlist : Chain l₃ (w₄.maps m).pLast (orders m).reverse := by
      rw [hmap₄, ← hw.maps]
      exact hgood.list
    have hfilled₄ : Filled w₄ c' (w₄.maps m).nSize table (orders m) := by
      rw [hmap₄]
      exact ⟨hfilled.length, hfilled.pow, hfilled.bucketed⟩
    obtain ⟨f, l', c'', hlink, hgood', hsame, hcur, hother⟩ := hashmapNodeLink_eq (w := w₄)
      (m := m) (a := w.pool) howned hlist (by rw [hmap₄, (h.good m).first])
      (by rw [hmap₄, (h.good m).count]) (by rw [hmap₄]) hfilled₄
      (h.pool_notMem m) hnew rfl hhash (Function.update_self _ _ _)
      ((hframe _ (h.pool_notMem m)).trans (Function.update_self _ _ _)) (by omega)
    have hrun : insertKey m key value alloc (w.relink l c) =
        (.returned true, (w₄.withMap m f).relink l' c'') := by
      refine (hstart.trans (Prog.bind_of_gives hgrow _)).trans ?_
      have hread : hashmap m (w₄.relink l₃ c') = (.returned (w₄.maps m), w₄.relink l₃ c') := rfl
      have hkey : (w₄.maps m).hash key = e.nHash := hhash.symm
      rw [if_pos rfl, Prog.bind_of_gives hread, hkey]
      exact Prog.bind_of_gives hlink _
    have hentry₅ : ∀ a, (w₄.withMap m f).entry a = if a = w.pool then some e else w.entry a :=
      hentry₄
    have hmap₅ : (w₄.withMap m f).maps m = f (w₄.maps m) := maps_withMap_self _ _ _
    have hkept : ∀ a g, w.entry a = some g →
        (w₄.withMap m f).aMemObj[g.nValIdx]? = w.aMemObj[g.nValIdx]? :=
      fun a g hg => hw.kept _ (hw.other a g hg) (h.stored.used a g hg).1
    have hstored : Stored (w₄.withMap m f) (Function.update orders m (orders m ++ [w.pool])) :=
      (h.stored.withNode hw (e := e) rfl).same (fun _ => rfl) le_rfl rfl rfl
    have hshown : ∀ a ∈ orders m, ∀ entry, w.Shows a entry → (w₄.withMap m f).Shows a entry := by
      rintro a ha entry ⟨g, hg, hkey, hvalue⟩
      exact ⟨g, by rw [hentry₅, if_neg (hne ha), hg], hkey, (hkept a g hg).trans hvalue⟩
    have hshows : MapShows (w₄.withMap m f) m (orders m ++ [w.pool])
        ((ds m).append key (value.getD default)) := by
      refine ⟨List.rel_append (forall₂_imp_mem (h.shows m).entries fun a ha entry _ =>
        hshown a ha entry) (.cons ⟨e, hnew, rfl, hw.value⟩ .nil), ?_, ?_, ?_⟩
      · rw [hmap₅, hsame.iNextIdx, hmap₄]
        exact (h.shows m).next
      · rw [hmap₅, hcur, hmap₄]
        exact h.append_cursor hcursor w.pool key (value.getD default)
      · rw [hmap₅, hsame.isObject, hmap₄]
        exact (h.shows m).isObject
    have hresult := h.update l' c'' ((ds m).append key (value.getD default)) hstored
      (fun m' hm => ?_) (fun a ha hlive => ?_) hgood' hshows
    · refine hresult.does hrun fun j hj => ?_
      have hji : j ≠ i := by
        rintro rfl
        exact hw.notForeign hj
      refine ⟨⟨Nat.lt_of_lt_of_le hj.1 hw.longer, fun hin => hj.2.1 (hw.fewer j hin), ?_⟩,
        hw.kept j hji hj.1⟩
      intro a g hg
      rw [hentry₅] at hg
      by_cases ha : a = w.pool
      · rw [if_pos ha] at hg
        cases hg
        exact Ne.symm hji
      · rw [if_neg ha] at hg
        exact hj.2.2 a g hg
    · rw [maps_withMap_of_ne hm]
      exact (maps_withMap_of_ne hm _ _).trans (congrFun hw.maps m')
    · have hpool : a ≠ w.pool := by
        rintro rfl
        rw [h.stored.pool_fresh] at hlive
        cases hlive
      have hnot : a ∉ orders m ++ [w.pool] := by simp [ha, hpool]
      obtain ⟨hl, hc⟩ := hother a hnot
      refine ⟨by rw [hentry₅, if_neg hpool], hl.trans (Function.update_of_ne hpool _ _), ?_, hkept a⟩
      exact hc.trans ((hframe a ha).trans (Function.update_of_ne hpool _ _))

end

end Jx9Hash

end Poesie
