import Poesie.Jx9Maps

set_option autoImplicit false

/-! # Hash maps stand for dictionaries

The nodes of a map, in the order of insertion, have the keys of the entries of a dictionary, and
their memory objects have the values (`Rep`). No two nodes share a memory object, and none is free.
There is a lemma for each function: it does to the VM what the dictionary of its map says, and the
other maps and the other memory objects stay as they are.
-/

namespace Poesie

open Wire Chains Outcomes

namespace Jx9Hash

variable {V : Type} {w : Vm V} {l c : Nat → Link Nat} {m : Nat} {orders : Nat → List Nat}
  {ds : Nat → Dict V}

/-! ## What a state of the VM stands for -/

/-- The node at an address has the key and the value of an entry. -/
def Vm.Shows (w : Vm V) (a : Nat) (entry : Jx9Key × V) : Prop :=
  ∃ e, w.entry a = some e ∧ e.key = entry.1 ∧ w.aMemObj[e.nValIdx]? = some entry.2

/-- Each node is one of its map, and has a memory object of its own. -/
structure Stored (w : Vm V) (orders : Nat → List Nat) : Prop where
  live : ∀ a e, w.entry a = some e → a < w.pool ∧ a ∈ orders e.pMap
  apart : ∀ a b e f, w.entry a = some e → w.entry b = some f → e.nValIdx = f.nValIdx → a = b
  used : ∀ a e, w.entry a = some e → e.nValIdx < w.aMemObj.length ∧ e.nValIdx ∉ w.aFreeObj
  free : w.aFreeObj.Nodup
  inside : ∀ i ∈ w.aFreeObj, i < w.aMemObj.length

theorem Stored.congr {w' : Vm V} (h : Stored w orders) (hentry : ∀ a e', w'.entry a = some e' →
      ∃ e, w.entry a = some e ∧ e.pMap = e'.pMap ∧ e.nValIdx = e'.nValIdx)
    (hpool : w.pool ≤ w'.pool) (hfree : w'.aFreeObj = w.aFreeObj)
    (hlength : w'.aMemObj.length = w.aMemObj.length) : Stored w' orders where
  live a e' he := by
    obtain ⟨e, he, hm, -⟩ := hentry a e' he
    obtain ⟨hlt, hin⟩ := h.live a e he
    exact ⟨Nat.lt_of_lt_of_le hlt hpool, hm ▸ hin⟩
  apart a b e' f' he hf heq := by
    obtain ⟨e, he, -, hi⟩ := hentry a e' he
    obtain ⟨f, hf, -, hj⟩ := hentry b f' hf
    exact h.apart a b e f he hf (hi.trans (heq.trans hj.symm))
  used a e' he := by
    obtain ⟨e, he, -, hi⟩ := hentry a e' he
    rw [hlength, hfree, ← hi]
    exact h.used a e he
  free := hfree ▸ h.free
  inside i hi := by
    rw [hlength]
    exact h.inside i (hfree ▸ hi)

/-- Where the nodes hold what they held, but for links. -/
theorem Stored.same {w' : Vm V} (h : Stored w orders) (hentry : ∀ a, w'.entry a = w.entry a)
    (hpool : w.pool ≤ w'.pool) (hfree : w'.aFreeObj = w.aFreeObj)
    (hlength : w'.aMemObj.length = w.aMemObj.length) : Stored w' orders :=
  h.congr (fun a e' he => ⟨e', hentry a ▸ he, rfl, rfl⟩) hpool hfree hlength

/-- A map shows a dictionary. -/
structure MapShows (w : Vm V) (m : Nat) (order : List Nat) (d : Dict V) : Prop where
  entries : List.Forall₂ w.Shows order d.entries
  next : (w.maps m).iNextIdx = d.next
  cursor : (w.maps m).pCur = d.cursor.bind fun i => order[i]?
  isObject : (w.maps m).isObject = d.isObject

structure Rep (w : Vm V) (l c : Nat → Link Nat) (orders : Nat → List Nat) (ds : Nat → Dict V) :
    Prop where
  stored : Stored w orders
  good : ∀ m, MapGood w l c m (orders m)
  shows : ∀ m, MapShows w m (orders m) (ds m)

/-- A memory object of the VM that is neither free nor of a node. -/
def Vm.Foreign (w : Vm V) (i : Nat) : Prop :=
  i < w.aMemObj.length ∧ i ∉ w.aFreeObj ∧ ∀ a e, w.entry a = some e → e.nValIdx ≠ i

/-- The memory objects that are not of maps are left alone. -/
def LeavesForeign (w w' : Vm V) : Prop :=
  ∀ i, w.Foreign i → w'.Foreign i ∧ w'.aMemObj[i]? = w.aMemObj[i]?

theorem LeavesForeign.refl (w : Vm V) : LeavesForeign w w := fun _ hi => ⟨hi, rfl⟩

theorem LeavesForeign.trans {w' w'' : Vm V} (h : LeavesForeign w w') (h' : LeavesForeign w' w'') :
    LeavesForeign w w'' := by
  intro i hi
  obtain ⟨hi', hsame⟩ := h i hi
  obtain ⟨hi'', hsame'⟩ := h' i hi'
  exact ⟨hi'', hsame'.trans hsame⟩

/-- The nodes of two maps are apart. -/
theorem Rep.disjoint (h : Rep w l c orders ds) {m' a : Nat} (hm : m' ≠ m) (ha : a ∈ orders m') :
    a ∉ orders m := by
  intro ha'
  obtain ⟨e, he, hmap, -⟩ := (h.good m').owned a ha
  obtain ⟨e', he', hmap', -⟩ := (h.good m).owned a ha'
  rw [he] at he'
  cases he'
  exact hm (hmap.symm.trans hmap')

theorem forall₂_imp_mem {α β : Type} {R S : α → β → Prop} {xs : List α} {ys : List β}
    (h : List.Forall₂ R xs ys) (himp : ∀ x ∈ xs, ∀ y ∈ ys, R x y → S x y) :
    List.Forall₂ S xs ys := by
  induction h with
  | nil => exact .nil
  | cons hxy _ ih =>
      exact .cons (himp _ List.mem_cons_self _ List.mem_cons_self hxy)
        (ih fun x hx y hy => himp x (List.mem_cons_of_mem _ hx) y (List.mem_cons_of_mem _ hy))

theorem MapShows.congr {w' : Vm V} {order : List Nat} {d : Dict V} (h : MapShows w m order d)
    (hmap : w'.maps m = w.maps m) (hshows : ∀ a ∈ order, ∀ entry, w.Shows a entry → w'.Shows a entry) :
    MapShows w' m order d where
  entries := forall₂_imp_mem h.entries fun a ha entry _ => hshows a ha entry
  next := by rw [hmap, h.next]
  cursor := by rw [hmap, h.cursor]
  isObject := by rw [hmap, h.isObject]

/-- A map that changes, and other maps that stay as they are. -/
theorem Rep.update (h : Rep w l c orders ds) {w' : Vm V} (l' c' : Nat → Link Nat)
    {order : List Nat} (d : Dict V) (hstored : Stored w' (Function.update orders m order))
    (hmaps : ∀ m' ≠ m, w'.maps m' = w.maps m')
    (hkeep : ∀ a, a ∉ orders m → (w.entry a).isSome →
      w'.entry a = w.entry a ∧ l' a = l a ∧ c' a = c a ∧
        ∀ e, w.entry a = some e → w'.aMemObj[e.nValIdx]? = w.aMemObj[e.nValIdx]?)
    (hgood : MapGood w' l' c' m order) (hshows : MapShows w' m order d) :
    Rep w' l' c' (Function.update orders m order) (Function.update ds m d) := by
  have hother : ∀ m' ≠ m, ∀ a ∈ orders m', w'.entry a = w.entry a ∧ l' a = l a ∧ c' a = c a ∧
      ∀ e, w.entry a = some e → w'.aMemObj[e.nValIdx]? = w.aMemObj[e.nValIdx]? :=
    fun m' hm a ha => hkeep a (h.disjoint hm ha) ((h.good m').live ha)
  refine ⟨hstored, fun m' => ?_, fun m' => ?_⟩
  · by_cases hm : m' = m
    · subst hm
      rw [Function.update_self]
      exact hgood
    · rw [Function.update_of_ne hm]
      exact (h.good m').congr (hmaps m' hm) (fun a ha => (hother m' hm a ha).1)
        (fun a ha => (hother m' hm a ha).2.1) fun a ha => (hother m' hm a ha).2.2.1
  · by_cases hm : m' = m
    · subst hm
      rw [Function.update_self, Function.update_self]
      exact hshows
    · rw [Function.update_of_ne hm, Function.update_of_ne hm]
      refine (h.shows m').congr (hmaps m' hm) ?_
      rintro a ha entry ⟨e, he, hkey, hvalue⟩
      obtain ⟨hentry, -, -, hmem⟩ := hother m' hm a ha
      exact ⟨e, hentry.trans he, hkey, (hmem e he).trans hvalue⟩

/-- A change of a map that leaves its nodes and its table alone. -/
theorem MapGood.withMap {order : List Nat} (h : MapGood w l c m order) {f : Hashmap → Hashmap}
    (hlinks : ∃ pCur isObject iNextIdx, f (w.maps m) =
      { w.maps m with pCur := pCur, isObject := isObject, iNextIdx := iNextIdx }) :
    MapGood (w.withMap m f) l c m order := by
  obtain ⟨pCur, isObject, iNextIdx, hf⟩ := hlinks
  have hnew : (w.withMap m f).maps m =
      { w.maps m with pCur := pCur, isObject := isObject, iNextIdx := iNextIdx } :=
    (maps_withMap_self w m f).trans hf
  refine ⟨fun a ha => ?_, ?_, ?_, ?_, ?_⟩ <;> rw [hnew]
  · exact h.owned a ha
  · exact h.list
  · exact h.first
  · exact h.count
  · refine h.table.imp_right ?_
    rintro ⟨hne, table, htable, hfilled⟩
    exact ⟨hne, table, htable, hfilled.length, hfilled.pow, hfilled.bucketed⟩

theorem Rep.withMap (h : Rep w l c orders ds) {f : Hashmap → Hashmap} {d : Dict V}
    (hlinks : ∃ pCur isObject iNextIdx, f (w.maps m) =
      { w.maps m with pCur := pCur, isObject := isObject, iNextIdx := iNextIdx })
    (hentries : d.entries = (ds m).entries) (hnext : (f (w.maps m)).iNextIdx = d.next)
    (hcursor : (f (w.maps m)).pCur = d.cursor.bind fun i => (orders m)[i]?)
    (hobject : (f (w.maps m)).isObject = d.isObject) :
    Rep (w.withMap m f) l c orders (Function.update ds m d) := by
  have hstored : Stored (w.withMap m f) (Function.update orders m (orders m)) := by
    rw [Function.update_eq_self]
    exact h.stored.same (fun _ => rfl) le_rfl rfl rfl
  have hshows : MapShows (w.withMap m f) m (orders m) d := by
    refine ⟨?_, ?_, ?_, ?_⟩
    · rw [hentries]
      exact (h.shows m).entries
    · rw [maps_withMap_self, hnext]
    · rw [maps_withMap_self, hcursor]
    · rw [maps_withMap_self, hobject]
  have hresult := h.update l c d hstored (fun m' hm => maps_withMap_of_ne hm w f)
    (fun a _ _ => ⟨rfl, rfl, rfl, fun _ _ => rfl⟩) ((h.good m).withMap hlinks) hshows
  rwa [Function.update_eq_self] at hresult

/-! ## Lookup -/

/-- The first node with a key is the one of the entry under the key. -/
theorem find_hasKey {order : List Nat} {entries : List (Jx9Key × V)} (key : Jx9Key)
    (h : List.Forall₂ w.Shows order entries) :
    match order.find? (w.hasKey key) with
    | none => key ∉ entries.map Prod.fst ∧ (entries.find? fun e => e.1 = key) = none
    | some a => key ∈ entries.map Prod.fst ∧ ∃ e v, w.entry a = some e ∧ e.key = key ∧
        w.aMemObj[e.nValIdx]? = some v ∧ (entries.find? fun e => e.1 = key) = some (key, v) := by
  induction h with
  | nil => simp
  | @cons a entry order entries ha _ ih =>
      obtain ⟨e, he, hkey, hvalue⟩ := ha
      by_cases hfound : e.key = key
      · have hhas : w.hasKey key a = true := by simp [Vm.hasKey, he, hfound]
        have hentry : entry.1 = key := hkey.symm.trans hfound
        rw [List.find?_cons_of_pos hhas]
        refine ⟨by simp [hentry], e, entry.2, he, hfound, hvalue, ?_⟩
        rw [List.find?_cons_of_pos (by simpa using hentry), ← hentry]
      · have hhas : ¬ w.hasKey key a = true := by simp [Vm.hasKey, he, hfound]
        have hentry : entry.1 ≠ key := fun heq => hfound (hkey.trans heq)
        rw [List.find?_cons_of_neg hhas]
        have hskip : ((entry :: entries).find? fun e => e.1 = key) =
            entries.find? fun e => e.1 = key := List.find?_cons_of_neg (by simpa using hentry)
        cases hrest : order.find? (w.hasKey key) with
        | none =>
            rw [hrest] at ih
            exact ⟨by simpa [Ne.symm hentry] using ih.1, hskip.trans ih.2⟩
        | some b =>
            rw [hrest] at ih
            obtain ⟨hmem, e', v, he', hkey', hv, hfind⟩ := ih
            exact ⟨List.mem_cons_of_mem _ hmem, e', v, he', hkey', hv, hskip.trans hfind⟩

/-- Nodes that have the same key are the same. -/
theorem eq_of_hasKey {order : List Nat} {entries : List (Jx9Key × V)} {key : Jx9Key} {a b : Nat}
    (h : List.Forall₂ w.Shows order entries) (hdistinct : (entries.map Prod.fst).Nodup)
    (ha : a ∈ order) (hb : b ∈ order) (hka : w.hasKey key a = true) (hkb : w.hasKey key b = true) :
    a = b := by
  induction h with
  | nil => cases ha
  | @cons d entry order entries hd hrest ih =>
      rw [List.map_cons, List.nodup_cons] at hdistinct
      have hkey : ∀ {x}, x ∈ order → w.hasKey key x = true → w.hasKey key d ≠ true := by
        intro x hx hkx hkd
        obtain ⟨e, he, hek, -⟩ := hd
        have hek' : entry.1 = key := by
          rw [Vm.hasKey, he] at hkd
          exact hek.symm.trans (by simpa using hkd)
        have hfind := find_hasKey key hrest
        have hsome : (order.find? (w.hasKey key)).isSome := List.find?_isSome.mpr ⟨x, hx, hkx⟩
        obtain ⟨y, hy⟩ := Option.isSome_iff_exists.mp hsome
        rw [hy] at hfind
        exact hdistinct.1 (hek' ▸ hfind.1)
      rcases List.mem_cons.mp ha with had | had <;> rcases List.mem_cons.mp hb with hbd | hbd
      · rw [had, hbd]
      · exact absurd (had ▸ hka) (hkey hbd hkb)
      · exact absurd (hbd ▸ hkb) (hkey had hka)
      · exact ih hdistinct.2 had hbd

/-- A lookup finds the node with the key. -/
theorem lookupKey_eq (h : Rep w l c orders ds) (hdistinct : (ds m).keys.Nodup) (key : Jx9Key) :
    lookupKey m key (w.relink l c) =
      (.returned ((orders m).find? (w.hasKey key)), w.relink l c) := by
  have hgood := h.good m
  have hcount := hgood.count
  have hread : hashmap m (w.relink l c) = (.returned (w.maps m), w.relink l c) := rfl
  unfold lookupKey
  rw [Prog.bind_of_gives hread]
  by_cases hempty : (w.maps m).nEntry < 1
  · have hnil : orders m = [] := by
      have hlt : (w.maps m).nEntry.toNat < 1 := UInt32.lt_iff_toNat_lt.mp hempty
      exact List.length_eq_zero_iff.mp (by omega)
    rw [if_pos hempty, hnil]
    rfl
  · rw [if_neg hempty]
    rcases hgood.table with ⟨-, -, hnil⟩ | ⟨-, table, htable, hfilled⟩
    · rw [hnil] at hcount
      exact absurd (UInt32.lt_iff_toNat_lt.mpr (by rw [hcount]; decide)) hempty
    · obtain ⟨k, hk, hpow⟩ := hfilled.pow
      have hlt := mask_lt hpow ((w.maps m).hash key)
      rw [← hfilled.length] at hlt
      obtain ⟨p, hp⟩ : ∃ p, table[((w.maps m).hash key &&& ((w.maps m).nSize - 1)).toNat]? = some p :=
        ⟨_, List.getElem?_eq_getElem hlt⟩
      obtain ⟨as, hchain, hmem⟩ := hfilled.bucketed _ p hp
      have hbucket := bucket_withTable (w := w) (m := m) (l := l) (c := c) hp
      rw [withTable_self htable] at hbucket
      have hlength : as.length ≤ (orders m).length :=
        (List.subperm_of_subset hchain.nodup fun a ha => ((hmem a).mp ha).1).length_le
      have hhash : ∀ b ∈ as, ∃ e, w.entry b = some e ∧
          (e.key = key → e.nHash = (w.maps m).hash key) := by
        intro b hb
        obtain ⟨e, he, -, hh⟩ := hgood.owned b ((hmem b).mp hb).1
        exact ⟨e, he, fun heq => heq ▸ hh⟩
      have hloop := lookupLoop_eq (l := l) hchain.linked
        (show as.length ≤ (w.maps m).nEntry.toNat + 1 by omega) hhash
      rw [Prog.bind_of_gives hbucket, hloop]
      -- the chain holds the node with the key, if there is one
      have hfind : as.find? (w.hasKey key) = (orders m).find? (w.hasKey key) := by
        cases hall : (orders m).find? (w.hasKey key) with
        | none =>
            rw [List.find?_eq_none] at hall ⊢
            exact fun a ha => hall a ((hmem a).mp ha).1
        | some a =>
            have haorder := List.mem_of_find?_eq_some hall
            have hakey := List.find?_some hall
            obtain ⟨e, he, -, hh⟩ := hgood.owned a haorder
            have hkey : e.key = key := by
              rw [Vm.hasKey, he] at hakey
              simpa using hakey
            have hain : a ∈ as := by
              refine (hmem a).mpr ⟨haorder, ?_⟩
              rw [slotOf_eq he, hh, hkey]
            obtain ⟨b, hb⟩ := Option.isSome_iff_exists.mp
              (List.find?_isSome.mpr ⟨a, hain, hakey⟩)
            rw [hb, eq_of_hasKey (h.shows m).entries hdistinct
              ((hmem b).mp (List.mem_of_find?_eq_some hb)).1 haorder (List.find?_some hb) hakey]
      rw [hfind]

/-! ## Insertion -/

section

variable [Inhabited V]

/-- Another value for the entry that a lookup has found. -/
theorem overwrite_eq (h : Rep w l c orders ds) (hdistinct : (ds m).keys.Nodup) {key : Jx9Key}
    {a : Nat} (hfind : (orders m).find? (w.hasKey key) = some a) (value : Option V) :
    ∃ w', overwrite a value (w.relink l c) = (.returned (), w'.relink l c) ∧
      Rep w' l c orders (Function.update ds m ((ds m).replace key (value.getD default))) ∧
      LeavesForeign w w' := by
  have ha := List.mem_of_find?_eq_some hfind
  have hakey := List.find?_some hfind
  obtain ⟨e, he⟩ := Option.isSome_iff_exists.mp ((h.good m).live ha)
  have hek : e.key = key := by
    rw [Vm.hasKey, he] at hakey
    simpa using hakey
  obtain ⟨hinside, -⟩ := h.stored.used a e he
  have hrun : overwrite a value (w.relink l c) = (.returned (),
      ({ w with aMemObj := w.aMemObj.set e.nValIdx (value.getD default) } : Vm V).relink l c) := by
    unfold overwrite
    rw [Prog.bind_of_gives (node_relink he)]
    rfl
  refine ⟨_, hrun, ?_, fun i hi => ?_⟩
  · have hstored : Stored ({ w with aMemObj := w.aMemObj.set e.nValIdx (value.getD default) } : Vm V)
        (Function.update orders m (orders m)) := by
      rw [Function.update_eq_self]
      exact h.stored.same (fun _ => rfl) le_rfl rfl (by simp)
    -- no other node has that memory object
    have hother : ∀ b f, w.entry b = some f → b ≠ a → (w.aMemObj.set e.nValIdx
        (value.getD default))[f.nValIdx]? = w.aMemObj[f.nValIdx]? := by
      intro b f hf hb
      exact List.getElem?_set_ne fun heq => hb (h.stored.apart b a f e hf he heq.symm)
    have hresult := h.update l c ((ds m).replace key (value.getD default)) hstored
      (fun _ _ => rfl) ?_ ((h.good m).congr rfl (fun _ _ => rfl)
      (fun _ _ => rfl) fun _ _ => rfl) ?_
    · rwa [Function.update_eq_self] at hresult
    · intro b hb _
      refine ⟨rfl, rfl, rfl, fun f hf => hother b f hf ?_⟩
      rintro rfl
      exact hb ha
    · have hshows := h.shows m
      refine ⟨?_, hshows.next, hshows.cursor, hshows.isObject⟩
      show List.Forall₂ _ _ ((ds m).entries.map _)
      rw [List.forall₂_map_right_iff]
      refine forall₂_imp_mem hshows.entries ?_
      rintro b hb entry - ⟨f, hf, hfkey, hfvalue⟩
      -- an entry with the key is the one of the node, as the keys are distinct
      by_cases hba : b = a
      · subst hba
        rw [he] at hf
        cases hf
        have hentry : entry.1 = key := hfkey.symm.trans hek
        rw [if_pos hentry]
        exact ⟨e, he, hfkey, by rw [List.getElem?_set_self hinside]⟩
      · have hentry : entry.1 ≠ key := by
          intro heq
          have hkb : w.hasKey key b = true := by simp [Vm.hasKey, hf, hfkey, heq]
          exact hba (eq_of_hasKey hshows.entries hdistinct hb ha hkb hakey)
        rw [if_neg hentry]
        exact ⟨f, hf, hfkey, (hother b f hf hba).trans hfvalue⟩
  · obtain ⟨hlt, hfree, hnode⟩ := hi
    exact ⟨⟨by simpa using hlt, hfree, hnode⟩, List.getElem?_set_ne (hnode a e he)⟩

/-- A memory object that is reserved was free, or is new. -/
theorem jx9VmReserveMemObj_eq (h : Stored w orders) : ∃ i memObj free,
    jx9VmReserveMemObj (w.relink l c) =
      (.returned i, ({ w with aMemObj := memObj, aFreeObj := free } : Vm V).relink l c) ∧
    i < memObj.length ∧ w.aMemObj.length ≤ memObj.length ∧
    (∀ j, j ≠ i → j < w.aMemObj.length → memObj[j]? = w.aMemObj[j]?) ∧
    (i ∈ w.aFreeObj ∨ w.aMemObj.length ≤ i) ∧ i ∉ free ∧ (∀ j ∈ free, j ∈ w.aFreeObj) ∧
    free.Nodup := by
  cases hfree : w.aFreeObj with
  | nil =>
      refine ⟨w.aMemObj.length, w.aMemObj ++ [default], [], ?_, by simp, by simp, ?_, Or.inr
        (Nat.le_refl _), by simp, by simp, List.nodup_nil⟩
      · have hsame : (w.relink l c).aFreeObj = [] := hfree
        simp only [jx9VmReserveMemObj, hsame]
        simp [Vm.relink, hfree]
      · exact fun j _ hj => List.getElem?_append_left hj
  | cons i free =>
      have hnodup := h.free
      have hinside := h.inside i (by simp [hfree])
      rw [hfree, List.nodup_cons] at hnodup
      refine ⟨i, w.aMemObj.set i default, free, ?_, by simpa using hinside, by simp, ?_, by simp,
        hnodup.1, fun j hj => by simp [hj], hnodup.2⟩
      · have hsame : (w.relink l c).aFreeObj = i :: free := hfree
        simp only [jx9VmReserveMemObj, hsame]
        exact if_pos hinside
      · exact fun j hj _ => List.getElem?_set_ne (Ne.symm hj)

end

end Jx9Hash

end Poesie
