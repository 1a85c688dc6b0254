import Poesie.Jx9Refine

set_option autoImplicit false

/-! # Removal from hash maps

The last entry of a map is popped, and the first one shifted. Its node is freed with its memory
object, and the cursor goes to the first entry. After a shift the entries with integer keys are
counted anew, each of them in the chain of the bucket of its new key.
-/

namespace Poesie

open Wire Chains Outcomes

namespace Jx9Hash

variable {V : Type} {w : Vm V} {l c : Nat → Link Nat} {m : Nat} {orders : Nat → List Nat}
  {ds : Nat → Dict V} [Inhabited V]

/-- What is left of the state when a node has gone out of a map. -/
structure Removed (w w' : Vm V) (l l' c c' : Nat → Link Nat) (orders : Nat → List Nat) (m a : Nat) :
    Prop where
  stored : Stored w' (Function.update orders m ((orders m).erase a))
  good : MapGood w' l' c' m ((orders m).erase a)
  settings : SameSettings (w.maps m) (w'.maps m)
  maps : ∀ m' ≠ m, w'.maps m' = w.maps m'
  entry : ∀ b, b ≠ a → w'.entry b = w.entry b
  value : ∀ b e, b ≠ a → w.entry b = some e → w'.aMemObj[e.nValIdx]? = w.aMemObj[e.nValIdx]?
  links : ∀ b ∉ orders m, l' b = l b ∧ c' b = c b
  foreign : LeavesForeign w w'

theorem live_dropNode {a b i : Nat} {e : Entry} (he : (w.dropNode a i).entry b = some e) :
    b ≠ a ∧ w.entry b = some e := by
  have hentry : (w.dropNode a i).entry b = if b = a then none else w.entry b :=
    entry_update_none w a b
  rw [hentry] at he
  by_cases hb : b = a
  · rw [if_pos hb] at he
    cases he
  · rw [if_neg hb] at he
    exact ⟨hb, he⟩

/-- The memory object of the node is free then, and no other node has it. -/
theorem Stored.dropNode (h : Stored w orders) {a : Nat} {e : Entry} (he : w.entry a = some e) :
    Stored (w.dropNode a e.nValIdx) (Function.update orders e.pMap ((orders e.pMap).erase a)) := by
  obtain ⟨hinside, hnotfree⟩ := h.used a e he
  have hlength : (w.dropNode a e.nValIdx).aMemObj.length = w.aMemObj.length := List.length_set
  refine ⟨fun b f hf => ?_, fun b d f g hf hg => ?_, fun b f hf => ?_, ?_, fun i hi => ?_⟩
  · obtain ⟨hb, hf⟩ := live_dropNode hf
    obtain ⟨hlt, hin⟩ := h.live b f hf
    refine ⟨hlt, ?_⟩
    by_cases hm : f.pMap = e.pMap
    · rw [hm] at hin ⊢
      rw [Function.update_self]
      exact (List.mem_erase_of_ne hb).mpr hin
    · rwa [Function.update_of_ne hm]
  · exact h.apart b d f g (live_dropNode hf).2 (live_dropNode hg).2
  · obtain ⟨hb, hf⟩ := live_dropNode hf
    obtain ⟨hlt, hnot⟩ := h.used b f hf
    have hother : f.nValIdx ≠ e.nValIdx := fun heq => hb (h.apart b a f e hf he heq)
    exact ⟨by rwa [hlength], List.not_mem_cons_of_ne_of_not_mem hother hnot⟩
  · exact List.nodup_cons.mpr ⟨hnotfree, h.free⟩
  · rw [hlength]
    rcases List.mem_cons.mp hi with rfl | hi
    · exact hinside
    · exact h.inside i hi

theorem leavesForeign_dropNode {a : Nat} {e : Entry} (he : w.entry a = some e) :
    LeavesForeign w (w.dropNode a e.nValIdx) := by
  rintro i ⟨hlt, hnot, hnode⟩
  refine ⟨⟨?_, ?_, fun b f hf => hnode b f (live_dropNode hf).2⟩, ?_⟩
  · show i < (w.aMemObj.set _ _).length
    rwa [List.length_set]
  · exact List.not_mem_cons_of_ne_of_not_mem (hnode a e he).symm hnot
  · exact List.getElem?_set_ne (hnode a e he)

theorem jx9HashmapUnlinkNode_removes (h : Rep w l c orders ds) {a : Nat} (ha : a ∈ orders m)
    (hsmall : (ds m).entries.length ≤ maxEntries) :
    ∃ w' l' c', jx9HashmapUnlinkNode a (w.relink l c) = (.returned (), w'.relink l' c') ∧
      Removed w w' l l' c c' orders m a := by
  obtain ⟨e, he, hm, -⟩ := (h.good m).owned a ha
  obtain ⟨f, l', c', hrun, hgood, hsame, hlinks⟩ := jx9HashmapUnlinkNode_eq (h.good m) ha he
    (h.stored.used a e he).1 (h.length m ▸ hsmall)
  have hmap : ((w.dropNode a e.nValIdx).withMap m f).maps m = f (w.maps m) :=
    maps_withMap_self _ _ _
  refine ⟨_, l', c', hrun, ?_, hgood, hmap ▸ hsame, fun m' hm' => ?_, fun b hb => ?_,
    fun b g hb hg => ?_, hlinks, leavesForeign_dropNode he⟩
  · exact (hm ▸ h.stored.dropNode he).same (fun _ => rfl) le_rfl rfl rfl
  · rw [maps_withMap_of_ne hm']
    rfl
  · exact (entry_update_none w a b).trans (if_neg hb)
  · exact List.getElem?_set_ne fun heq => hb (h.stored.apart b a g e hg he heq.symm)

omit [Inhabited V] in
/-- The other nodes show what they showed. -/
theorem Removed.shows {w' : Vm V} {l' c' : Nat → Link Nat} {a : Nat}
    (h : Removed w w' l l' c c' orders m a) (hnodup : (orders m).Nodup) {es : List (Jx9Key × V)}
    (hes : List.Forall₂ w.Shows ((orders m).erase a) es) :
    List.Forall₂ w'.Shows ((orders m).erase a) es := by
  refine forall₂_imp_mem hes ?_
  rintro b hb entry - ⟨e, he, hkey, hv⟩
  have hba : b ≠ a := ((List.Nodup.mem_erase_iff hnodup).mp hb).1
  exact ⟨e, (h.entry b hba).trans he, hkey, (h.value b e hba he).trans hv⟩

omit [Inhabited V] in
/-- The map without the node, once its cursor is at the first entry, shows the dictionary without
the entry. Until then the nodes that are left may get other keys. -/
theorem Removed.rep {w' w'' : Vm V} {l' c' c'' : Nat → Link Nat} {a : Nat} {d : Dict V}
    (h : Rep w l c orders ds) (hr : Removed w w' l l' c c' orders m a) (ha : a ∈ orders m)
    (hstored : Stored w'' (Function.update orders m ((orders m).erase a)))
    (hgood : MapGood w'' l' c'' m ((orders m).erase a))
    (hmaps : ∀ m' ≠ m, w''.maps m' = w'.maps m')
    (hentry : ∀ b, b ∉ orders m → w''.entry b = w'.entry b) (hmem : w''.aMemObj = w'.aMemObj)
    (hlinks : ∀ b, b ∉ orders m → c'' b = c' b)
    (hshows : List.Forall₂ w''.Shows ((orders m).erase a) d.entries)
    (hnext : (w''.maps m).iNextIdx = d.next) (hcursor : (w''.maps m).pCur = (w''.maps m).pFirst)
    (hobject : (w''.maps m).isObject = d.isObject) :
    Rep w'' l' c'' (Function.update orders m ((orders m).erase a))
      (Function.update ds m d.rewind) := by
  refine h.update l' c'' d.rewind hstored (fun m' hm' => (hmaps m' hm').trans (hr.maps m' hm'))
    (fun b hb _ => ?_) hgood ⟨hshows, hnext, ?_, hobject⟩
  · have hba : b ≠ a := by
      rintro rfl
      exact hb ha
    obtain ⟨hl, hc⟩ := hr.links b hb
    refine ⟨(hentry b hb).trans (hr.entry b hba), hl, (hlinks b hb).trans hc, fun e he => ?_⟩
    rw [hmem]
    exact hr.value b e hba he
  · -- the cursor is at the first of the entries that are left, if there is one
    rw [hcursor, hgood.first]
    show _ = d.start.bind _
    unfold Dict.start
    cases hempty : (orders m).erase a with
    | nil =>
        rw [hempty] at hshows
        rw [if_pos (List.forall₂_nil_left_iff.mp hshows)]
        rfl
    | cons b bs =>
        rw [hempty] at hshows
        have hne : d.entries ≠ [] := by
          intro heq
          rw [heq] at hshows
          cases hshows
        rw [if_neg hne]
        rfl

theorem pop_refines (hsmall : (ds m).entries.length ≤ maxEntries) :
    RefinesTo (pop m) ds (onMap ds m (.ok ((ds m).pop.1, (ds m).pop.2))) := by
  refine refinesTo_of fun w l c orders h => Does.bind_read (hashmap_relink w l c m) ?_
  by_cases hnone : (w.maps m).nEntry < 1
  · have hempty := (h.nEntry_lt_one m).mp hnone
    have hpop : (ds m).pop = (none, ds m) := by
      unfold Dict.pop
      rw [hempty]
      rfl
    rw [if_pos hnone, hpop, onMap_same]
    exact h.does rfl (LeavesForeign.refl w)
  · -- the last node has the last entry
    rw [if_neg hnone]
    obtain ⟨es, entry, hes⟩ : ∃ es entry, (ds m).entries = es ++ [entry] :=
      (List.eq_nil_or_concat' _).resolve_left (mt (h.nEntry_lt_one m).mpr hnone)
    obtain ⟨bs, a, horder⟩ : ∃ bs a, orders m = bs ++ [a] := by
      refine (List.eq_nil_or_concat' _).resolve_left fun hempty => ?_
      rw [(h.empty_iff m).mp hempty] at hes
      simp at hes
    have hrev := List.forall₂_reverse_iff.mpr (h.shows m).entries
    rw [horder, hes, List.reverse_append, List.reverse_append] at hrev
    obtain ⟨hshows, hrest⟩ := List.forall₂_cons.mp hrev
    have ha : a ∈ orders m := by simp [horder]
    have hnodup := (h.good m).nodup
    have herase : (orders m).erase a = bs := by
      rw [horder, erase_middle (horder ▸ hnodup), List.append_nil]
    obtain ⟨w', l', c', hunlink, hr⟩ := jx9HashmapUnlinkNode_removes h ha hsmall
    have hes' : List.Forall₂ w'.Shows ((orders m).erase a) es :=
      hr.shows hnodup (herase ▸ List.forall₂_reverse_iff.mp hrest)
    let w'' := w'.withMap m fun map => { map with pCur := map.pFirst }
    have hmap : w''.maps m = { w'.maps m with pCur := (w'.maps m).pFirst } := maps_withMap_self _ _ _
    have hpop : (ds m).pop = (some entry.2, Dict.rewind { ds m with entries := es }) := by
      unfold Dict.pop
      rw [hes, List.getLast?_concat, List.dropLast_concat]
    have hlast : (w.maps m).pLast = some a := by
      rw [(h.good m).list.head_eq, horder]
      simp
    obtain ⟨e, he, -, hv⟩ := hshows
    rw [hlast, hpop]
    refine Does.bind_read (f := follow (some a)) rfl (Does.bind_read (node_relink he) ?_)
    -- its value is read before the node goes
    have hread : memObjAt e.nValIdx (w.relink l c) = (.returned (some entry.2), w.relink l c) := by
      rw [← hv]
      rfl
    refine Does.bind_read hread ?_
    have hrep : Rep w'' l' c' (Function.update orders m ((orders m).erase a))
        (Function.update ds m (Dict.rewind { ds m with entries := es })) := by
      refine hr.rep h ha (hr.stored.same (fun _ => rfl) le_rfl rfl rfl)
        (hr.good.withMap ⟨_, _, _, rfl⟩) (fun m' hm => maps_withMap_of_ne hm _ _) (fun _ _ => rfl)
        rfl (fun _ _ => rfl) hes' ?_ ?_ ?_
      · rw [hmap]
        exact hr.settings.iNextIdx.trans (h.shows m).next
      · rw [hmap]
      · rw [hmap]
        exact hr.settings.isObject.trans (h.shows m).isObject
    exact hrep.does ((Prog.bind_of_gives hunlink _).trans (Prog.bind_of_gives
      (modifyMap_relink w' l' c' m _) _)) (hr.foreign)

end Jx9Hash

end Poesie
