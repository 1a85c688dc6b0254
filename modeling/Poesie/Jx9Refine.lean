import Poesie.Jx9Insert
import Poesie.Jx9Sound

set_option autoImplicit false

/-! # The hash maps refine the dictionaries

What an operation on a map returns and leaves is what it does to the dictionary of the map, for each
of the operations. It takes a fault only where the automatic index is past the largest integer, and
none of the loops turns for ever.
-/

namespace Poesie

open Wire Chains Outcomes

namespace Jx9Hash

variable {V : Type} {w : Vm V} {l c : Nat → Link Nat} {m : Nat} {orders : Nat → List Nat}
  {ds : Nat → Dict V}

/-- A function of the VM refines a result on dictionaries. -/
abbrev RefinesTo {α : Type} (f : Op V α) (ds : Nat → Dict V)
    (r : Except Fault (α × (Nat → Dict V))) : Prop := Refines Shown LeavesForeign f ds r

theorem refinesTo_of {α : Type} {f : Op V α} {r : Except Fault (α × (Nat → Dict V))}
    (h : ∀ w l c orders, Rep w l c orders ds → DoesTo f (w.relink l c) r) : RefinesTo f ds r := by
  rintro v ⟨w, l, c, orders, rfl, hrep⟩
  exact h w l c orders hrep

/-- The result of an operation on one of the dictionaries. -/
def onMap {α : Type} (ds : Nat → Dict V) (m : Nat) (r : Except Fault (α × Dict V)) :
    Except Fault (α × (Nat → Dict V)) := r.map fun x => (x.1, Function.update ds m x.2)

/-- An operation that does not change its dictionary. -/
theorem onMap_same {α : Type} (ds : Nat → Dict V) (m : Nat) (x : α) :
    onMap ds m (.ok (x, ds m)) = .ok (x, ds) := by
  show Except.ok (x, Function.update ds m (ds m)) = _
  rw [Function.update_eq_self]

theorem onMap_update {α : Type} (ds : Nat → Dict V) (m : Nat) (d : Dict V)
    (r : Except Fault (α × Dict V)) : onMap (Function.update ds m d) m r = onMap ds m r := by
  cases r <;> simp [onMap, Except.map]

/-- A change of a map that leaves its nodes and its table alone. -/
theorem Rep.modifyMap_does (h : Rep w l c orders ds) {f : Hashmap → Hashmap} {d : Dict V}
    (hlinks : ∃ pCur isObject iNextIdx, f (w.maps m) =
      { w.maps m with pCur := pCur, isObject := isObject, iNextIdx := iNextIdx })
    (hentries : d.entries = (ds m).entries) (hnext : (f (w.maps m)).iNextIdx = d.next)
    (hcursor : (f (w.maps m)).pCur = d.cursor.bind fun i => (orders m)[i]?)
    (hobject : (f (w.maps m)).isObject = d.isObject) :
    DoesTo (modifyMap m f) (w.relink l c) (onMap ds m (.ok ((), d))) :=
  (h.withMap hlinks hentries hnext hcursor hobject).does (modifyMap_relink w l c m f)
    (LeavesForeign.refl w)

/-! ## The automatic index -/

theorem setNextIdx_refines (ds : Nat → Dict V) (m : Nat) (n : Int64) :
    RefinesTo (setNextIdx m n) ds (onMap ds m (((ds m).setNext n).map fun d => ((), d))) := by
  refine refinesTo_of fun w l c orders h => ?_
  unfold Dict.setNext
  by_cases hmax : n.toInt = 2 ^ 63 - 1
  · rw [if_pos hmax]
    exact ⟨_, if_pos hmax⟩
  · rw [if_neg hmax]
    have hshows := h.shows m
    have hmodify : DoesTo (modifyMap m fun map => { map with iNextIdx := n + 1 }) (w.relink l c)
        (onMap ds m (.ok ((), { ds m with next := n + 1 }))) :=
      h.modifyMap_does ⟨_, _, _, rfl⟩ rfl rfl hshows.cursor hshows.isObject
    exact hmodify.of_eq (if_neg hmax)

/-- A lookup finds the node of the entry with the key, if there is one. -/
theorem lookup_cases (h : Rep w l c orders ds) (hsound : (ds m).Sound) (key : Jx9Key) :
    (key ∉ (ds m).keys ∧ (ds m).get key = none ∧
      lookupKey m key (w.relink l c) = (.returned none, w.relink l c)) ∨
    ∃ a e v, key ∈ (ds m).keys ∧ (ds m).get key = some v ∧
      lookupKey m key (w.relink l c) = (.returned (some a), w.relink l c) ∧
      (orders m).find? (w.hasKey key) = some a ∧ w.entry a = some e ∧
      w.aMemObj[e.nValIdx]? = some v := by
  have hlookup := lookupKey_eq h hsound.distinct key
  have hfind := find_hasKey key (h.shows m).entries
  cases hfound : (orders m).find? (w.hasKey key) with
  | none =>
      rw [hfound] at hlookup hfind
      exact Or.inl ⟨hfind.1, by rw [Dict.get, hfind.2, Option.map_none], hlookup⟩
  | some a =>
      rw [hfound] at hlookup hfind
      obtain ⟨hin, e, v, he, -, hv, hget⟩ := hfind
      exact Or.inr ⟨a, e, v, hin, by rw [Dict.get, hget, Option.map_some], hlookup, rfl, he, hv⟩

theorem hashmap_relink (w : Vm V) (l c : Nat → Link Nat) (m : Nat) :
    hashmap m (w.relink l c) = (.returned (w.maps m), w.relink l c) := rfl

theorem Rep.nEntry_lt_one (h : Rep w l c orders ds) (m : Nat) :
    (w.maps m).nEntry < 1 ↔ (ds m).entries = [] := by
  rw [UInt32.lt_iff_toNat_lt, (h.good m).count, h.length]
  exact Nat.lt_one_iff.trans List.length_eq_zero_iff

/-- The automatic index is free, so that the loop which looks for a free one ends at once. -/
theorem skipLoop_refines [Inhabited V] (m : Nat) (hsound : (ds m).Sound) (turns : Nat) :
    RefinesTo (skipLoop m (turns + 1)) ds (.ok ((), ds)) := by
  refine refinesTo_of fun w l c orders h => Does.bind_read (hashmap_relink w l c m) ?_
  rcases lookup_cases h hsound (.int (w.maps m).iNextIdx) with ⟨-, -, hlookup⟩ | ⟨_, _, _, hin, -⟩
  · exact Does.bind_read hlookup (h.does rfl (LeavesForeign.refl w))
  · rw [(h.shows m).next] at hin
    exact absurd hin hsound.next_fresh

/-! ## Insertion -/

section

variable [Inhabited V]

/-- Where a lookup has found a node, its entry gets another value. -/
theorem overwrite_does (h : Rep w l c orders ds) (hdistinct : (ds m).keys.Nodup) {key : Jx9Key}
    {a : Nat} (hfind : (orders m).find? (w.hasKey key) = some a) (value : Option V) :
    DoesTo (overwrite a value >>= fun _ => pure true) (w.relink l c)
      (.ok (true, Function.update ds m ((ds m).replace key (value.getD default)))) := by
  obtain ⟨w', hrun, hrep, hforeign⟩ := overwrite_eq h hdistinct hfind value
  exact hrep.does (Prog.bind_of_gives hrun _) hforeign

/-- The automatic index goes past a key that has come in. -/
theorem pastKey_refines (ds : Nat → Dict V) (m : Nat) (n : Int64)
    (hsound : (ds m).next ≤ n → ∀ d, (ds m).setNext n = .ok d → d.Sound) :
    RefinesTo (hashmap m >>= fun map =>
        if true = true ∧ map.iNextIdx ≤ n then
          setNextIdx m n >>= fun _ => skipLoop m (map.nEntry.toNat + 1) >>= fun _ => pure true
        else pure true) ds
      (onMap ds m (if (ds m).next ≤ n then ((ds m).setNext n).map fun d => (true, d)
        else .ok (true, ds m))) := by
  refine refinesTo_of fun w l c orders h => Does.bind_read (hashmap_relink w l c m) ?_
  rw [(h.shows m).next]
  by_cases hnext : (ds m).next ≤ n
  · have hset := setNextIdx_refines ds m n _ ⟨w, l, c, orders, rfl, h⟩
    rw [if_pos ⟨rfl, hnext⟩, if_pos hnext]
    cases hd : (ds m).setNext n with
    | error e =>
        rw [hd] at hset
        obtain ⟨s', hs'⟩ := hset
        exact ⟨s', Prog.bind_of_thrown hs' _⟩
    | ok d =>
        rw [hd] at hset
        have hfree : (Function.update ds m d m).Sound := by
          rw [Function.update_self]
          exact hsound hnext d hd
        exact hset.bind_ok ((skipLoop_refines m hfree _).bind_ok (Refines.pure true _))
  · rw [if_neg fun hin => hnext hin.2, if_neg hnext, onMap_same]
    exact h.does rfl (LeavesForeign.refl w)

theorem insertInt_refines (hsound : (ds m).Sound) (hsmall : (ds m).entries.length < maxEntries)
    (n : Int64) (value : Option V) (alloc : Bool) :
    RefinesTo (insertInt m n value alloc) ds
      (onMap ds m ((ds m).insertInt n (value.getD default) alloc)) := by
  refine refinesTo_of fun w l c orders h => ?_
  unfold Dict.insertInt
  rcases lookup_cases h hsound (.int n) with
    ⟨hnot, -, hlookup⟩ | ⟨a, -, -, hin, -, hlookup, hfound, -⟩
  · rw [if_neg hnot]
    refine Does.bind_read hlookup
      ((insertKey_does h hsmall hsound.cursor (.int n) value alloc).bind_ok ?_)
    rcases (ds m).add_cases (.int n) (value.getD default) alloc with hadd | hadd <;>
      simp only [hadd]
    · -- no memory for the first table
      refine refinesTo_of fun w l c orders h => Does.bind_read (hashmap_relink w l c m) ?_
      simp only [Option.getD_none, Function.update_eq_self, onMap_same] at h ⊢
      exact h.does rfl (LeavesForeign.refl w)
    · have hpast := pastKey_refines
        (Function.update ds m ((ds m).append (.int n) (value.getD default))) m n
      rw [Function.update_self, onMap_update] at hpast
      refine hpast fun hle d hd => hsound.setNext hnot (value.getD default) hle (fun k hk => ?_) hd
      cases hk
      exact Int64.le_refl _
  · rw [if_pos hin]
    exact Does.bind_read hlookup (overwrite_does h hsound.distinct hfound value)

theorem insertAuto_refines (hsound : (ds m).Sound) (hsmall : (ds m).entries.length < maxEntries)
    (value : Option V) (alloc : Bool) :
    RefinesTo (insertAuto m value alloc) ds
      (onMap ds m ((ds m).insertAuto (value.getD default) alloc)) := by
  refine refinesTo_of fun w l c orders h => Does.bind_read (hashmap_relink w l c m) ?_
  unfold Dict.insertAuto
  rw [(h.shows m).next]
  refine (insertKey_does h hsmall hsound.cursor (.int (ds m).next) value alloc).bind_ok ?_
  rcases (ds m).add_cases (.int (ds m).next) (value.getD default) alloc with hadd | hadd <;>
    simp only [hadd]
  · simp only [Option.getD_none, Function.update_eq_self, onMap_same]
    exact Refines.pure false ds
  · have hset := setNextIdx_refines
      (Function.update ds m ((ds m).append (.int (ds m).next) (value.getD default))) m (ds m).next
    rw [Function.update_self, onMap_update] at hset
    cases hd : ((ds m).append (.int (ds m).next) (value.getD default)).setNext (ds m).next with
    | error e =>
        rw [hd] at hset
        exact Refines.bind_error hset
    | ok d =>
        rw [hd] at hset
        exact hset.bind_ok (Refines.pure true _)

theorem insertString_refines (hsound : (ds m).Sound) (hsmall : (ds m).entries.length < maxEntries)
    (b : Bytes) (value : Option V) (alloc : Bool) :
    RefinesTo (insertString m b value alloc) ds
      (onMap ds m ((ds m).insertString b (value.getD default) alloc)) := by
  unfold insertString Dict.insertString
  by_cases hempty : b = []
  · rw [if_pos hempty, if_pos hempty]
    exact insertAuto_refines hsound hsmall value alloc
  · rw [if_neg hempty, if_neg hempty]
    by_cases hint : hashmapIsIntKey b = true
    · rw [if_pos hint, if_pos hint]
      exact insertInt_refines hsound hsmall _ value alloc
    · rw [if_neg hint, if_neg hint]
      refine refinesTo_of fun w l c orders h => ?_
      unfold Dict.insertBlob
      rcases lookup_cases h hsound (.blob b) with
        ⟨hnot, -, hlookup⟩ | ⟨a, -, -, hin, -, hlookup, hfound, -⟩
      · rw [if_neg hnot]
        have hinsert := insertKey_does h hsmall hsound.cursor (.blob b) value alloc
        rcases (ds m).add_cases (.blob b) (value.getD default) alloc with hadd | hadd <;>
          rw [hadd] at hinsert <;> simp only [hadd]
        · exact Does.bind_read hlookup hinsert
        · exact Does.bind_read hlookup hinsert
      · rw [if_pos hin]
        exact Does.bind_read hlookup (overwrite_does h hsound.distinct hfound value)

omit [Inhabited V] in
/-- The flag of an object is set where the first key is a string. -/
theorem setObject_refines (ds : Nat → Dict V) (m : Nat) :
    RefinesTo (modifyMap m fun map => if map.nEntry < 1 then { map with isObject := true } else map)
      ds (onMap ds m (.ok ((),
        { ds m with isObject := (ds m).isObject || (ds m).entries = [] }))) := by
  refine refinesTo_of fun w l c orders h => ?_
  have hshows := h.shows m
  have hempty := h.nEntry_lt_one m
  refine h.modifyMap_does ?_ rfl ?_ ?_ ?_
  · by_cases hnone : (w.maps m).nEntry < 1
    · exact ⟨_, true, _, if_pos hnone⟩
    · exact ⟨_, _, _, if_neg hnone⟩
  · rw [apply_ite Hashmap.iNextIdx, ite_self]
    exact hshows.next
  · rw [apply_ite Hashmap.pCur, ite_self]
    exact hshows.cursor
  · rw [apply_ite Hashmap.isObject, hshows.isObject]
    by_cases hnone : (w.maps m).nEntry < 1
    · rw [if_pos hnone]
      simp [hempty.mp hnone]
    · rw [if_neg hnone]
      simp [mt hempty.mpr hnone]

theorem hashmapInsert_refines (hsound : (ds m).Sound) (hsmall : (ds m).entries.length < maxEntries)
    (key : KeyArg) (value : Option V) (alloc : Bool) :
    RefinesTo (hashmapInsert m key value alloc) ds
      (onMap ds m ((ds m).insert key (value.getD default) alloc)) := by
  cases key with
  | auto => exact insertAuto_refines hsound hsmall value alloc
  | cast b => exact insertString_refines hsound hsmall b value alloc
  | int n => exact insertInt_refines hsound hsmall n value alloc
  | string b =>
      generalize hd : ({ ds m with isObject := (ds m).isObject || (ds m).entries = [] } : Dict V) = d
      have hsound' : (Function.update ds m d m).Sound := by
        rw [Function.update_self, ← hd]
        exact ⟨hsound.distinct, hsound.below, hsound.cursor⟩
      have hsmall' : (Function.update ds m d m).entries.length < maxEntries := by
        rw [Function.update_self, ← hd]
        exact hsmall
      have hinsert := insertString_refines hsound' hsmall' b value alloc
      rw [onMap_update, Function.update_self] at hinsert
      have hfirst := setObject_refines ds m
      rw [hd] at hfirst
      refine hfirst.bind_ok ?_
      show Refines _ _ _ _ (onMap ds m (({ ds m with
        isObject := (ds m).isObject || (ds m).entries = [] } : Dict V).insertString b
          (value.getD default) alloc))
      rw [hd]
      exact hinsert

end

/-! ## Reading -/

theorem hashmapLookup_eq {key : KeyArg} {k : Jx9Key} (m : Nat) (h : Dict.lookedUp key = some k) :
    (hashmapLookup m key : Op V (Option Nat)) = lookupKey m k := by
  cases key with
  | auto => cases h
  | int n =>
      cases h
      rfl
  | string b | cast b =>
      have hk : (if b = [] then Jx9Key.int 0 else .blob b) = k := Option.some.inj h
      subst hk
      by_cases hempty : b = []
      · simp [hashmapLookup, hempty, hashmapLookupIntKey]
      · simp [hashmapLookup, hempty, hashmapLookupBlobKey]

theorem fetch_refines (hsound : (ds m).Sound) (key : KeyArg) :
    RefinesTo (fetch m key) ds (.ok ((ds m).fetch key, ds)) := by
  refine refinesTo_of fun w l c orders h => Does.bind_read (hashmap_relink w l c m) ?_
  by_cases hnone : (w.maps m).nEntry < 1
  · have hget : (ds m).fetch key = none := by
      unfold Dict.fetch Dict.get
      rw [(h.nEntry_lt_one m).mp hnone]
      cases Dict.lookedUp key <;> rfl
    rw [if_pos hnone, hget]
    exact h.does rfl (LeavesForeign.refl w)
  · rw [if_neg hnone]
    unfold Dict.fetch
    cases hk : Dict.lookedUp key with
    | none =>
        cases key with
        | auto => exact h.does rfl (LeavesForeign.refl w)
        | string b | cast b | int n => cases hk
    | some k =>
        rw [hashmapLookup_eq m hk, Option.bind_some]
        rcases lookup_cases h hsound k with ⟨-, hget, hlookup⟩ | ⟨a, e, v, -, hget, hlookup, -, he, hv⟩
        · rw [hget]
          exact Does.bind_read hlookup (h.does rfl (LeavesForeign.refl w))
        · rw [hget]
          refine Does.bind_read hlookup (Does.bind_read (node_relink he) ?_)
          exact h.does (by rw [← hv]; rfl) (LeavesForeign.refl w)

/-- The cursor goes to the first entry. -/
theorem jx9HashmapResetLoopCursor_refines (ds : Nat → Dict V) (m : Nat) :
    RefinesTo (jx9HashmapResetLoopCursor m) ds (onMap ds m (.ok ((), (ds m).rewind))) := by
  refine refinesTo_of fun w l c orders h => ?_
  have hshows := h.shows m
  refine h.modifyMap_does ⟨_, _, _, rfl⟩ rfl hshows.next ?_ hshows.isObject
  show (w.maps m).pFirst = ((ds m).start).bind _
  rw [(h.good m).first, Dict.start]
  by_cases hempty : (ds m).entries = []
  · rw [if_pos hempty, (h.empty_iff m).mpr hempty]
    rfl
  · rw [if_neg hempty]
    exact List.head?_eq_getElem?

/-- The link of a node goes to the node that has been inserted after it. -/
theorem MapGood.prev_eq {order done todo : List Nat} {a : Nat} (h : MapGood w l c m order)
    (horder : order = done ++ a :: todo) : (l a).prev = todo.head? := by
  have hlist : Chain l (w.maps m).pLast (todo.reverse ++ a :: done.reverse) := by
    simpa [horder] using h.list
  rw [hlist.around.2, List.getLast?_reverse]

section

variable [Inhabited V]

theorem extract_relink {a : Nat} {entry : Jx9Key × V} (h : w.Shows a entry) :
    extract a (w.relink l c) = (.returned entry, w.relink l c) := by
  obtain ⟨e, he, hkey, hv⟩ := h
  have hread : memObjAt e.nValIdx (w.relink l c) = (.returned (some entry.2), w.relink l c) := by
    rw [← hv]
    rfl
  unfold extract
  rw [Prog.bind_of_gives (node_relink he), Prog.bind_of_gives hread, hkey]
  rfl

/-- The entry at the cursor, which goes on to the next one. -/
theorem jx9HashmapGetNextEntry_refines (hsound : (ds m).Sound) :
    RefinesTo (jx9HashmapGetNextEntry m) ds
      (onMap ds m (.ok ((ds m).advance.1, (ds m).advance.2))) := by
  refine refinesTo_of fun w l c orders h => ?_
  have hcursor := (h.shows m).cursor
  cases hat : (ds m).cursor with
  | none =>
      have hadvance : (ds m).advance = (none, ds m) := by
        unfold Dict.advance
        rw [hat]
      rw [hat] at hcursor
      rw [hadvance, onMap_same]
      refine Does.bind_read (hashmap_relink w l c m) ?_
      rw [hcursor]
      exact h.does rfl (LeavesForeign.refl w)
  | some i =>
      rw [hat] at hcursor
      have hi := hsound.cursor i hat
      have hi' : i < (orders m).length := by
        rw [h.length]
        exact hi
      have hnode : (w.maps m).pCur = some (orders m)[i] :=
        hcursor.trans (List.getElem?_eq_getElem hi')
      have hentry : w.Shows (orders m)[i] (ds m).entries[i] := (h.shows m).entries.get hi' hi
      -- the node behind it in the list has the entry behind it in the dictionary
      have hprev : (l (orders m)[i]).prev = (orders m)[i + 1]? := by
        have hsplit : orders m = (orders m).take i ++ (orders m)[i] :: (orders m).drop (i + 1) := by
          rw [List.getElem_cons_drop, List.take_append_drop]
        rw [(h.good m).prev_eq hsplit, List.head?_drop]
      obtain ⟨e, he, -⟩ := id hentry
      have hrun : jx9HashmapGetNextEntry m (w.relink l c) = (.returned (some (ds m).entries[i]),
          (w.withMap m fun map => { map with pCur := (l (orders m)[i]).prev }).relink l c) := by
        unfold jx9HashmapGetNextEntry
        rw [Prog.bind_of_gives (hashmap_relink w l c m), hnode]
        refine (Prog.bind_of_gives (node_relink he) _).trans ?_
        refine (Prog.bind_of_gives (modifyMap_relink w l c m _) _).trans ?_
        exact Prog.bind_of_gives (extract_relink (w := w.withMap m _) hentry) _
      have hrep := h.withMap (m := m)
        (f := fun map => { map with pCur := (l (orders m)[i]).prev })
        (d := { ds m with cursor := if i + 1 < (ds m).entries.length then some (i + 1) else none })
        ⟨_, _, _, rfl⟩ rfl (h.shows m).next ?_ (h.shows m).isObject
      · have hadvance : (ds m).advance = (some (ds m).entries[i], { ds m with
            cursor := if i + 1 < (ds m).entries.length then some (i + 1) else none }) := by
          unfold Dict.advance
          rw [hat]
          exact congrArg (·, _) (List.getElem?_eq_getElem hi)
        rw [hadvance]
        exact hrep.does hrun (LeavesForeign.refl w)
      · show (l (orders m)[i]).prev = _
        rw [hprev]
        by_cases hnext : i + 1 < (ds m).entries.length
        · rw [if_pos hnext]
          rfl
        · rw [if_neg hnext, List.getElem?_eq_none (by rw [h.length]; omega)]
          rfl

/-- The loop of a walk passes over the nodes in the order of insertion. -/
theorem walkLoop_eq {order todo : List Nat} {es : List (Jx9Key × V)} (done : List Nat)
    (h : MapGood w l c m order) (horder : order = done ++ todo)
    (hshows : List.Forall₂ w.Shows todo es) :
    walkLoop todo.length todo.head? (w.relink l c) = (.returned es, w.relink l c) := by
  induction hshows generalizing done with
  | nil => rfl
  | @cons a entry todo es ha _ ih =>
      have hstart : follow (a :: todo).head? (w.relink l c) = (.returned a, w.relink l c) := rfl
      obtain ⟨e, he, -⟩ := id ha
      have hrest := ih (done ++ [a]) (by simp [horder])
      rw [← h.prev_eq horder] at hrest
      rw [List.length_cons, walkLoop, Prog.bind_of_gives hstart,
        Prog.bind_of_gives (extract_relink ha), Prog.bind_of_gives (node_relink he)]
      exact Prog.bind_of_gives hrest _

theorem jx9HashmapWalk_refines (ds : Nat → Dict V) (m : Nat) :
    RefinesTo (jx9HashmapWalk m) ds (.ok ((ds m).entries, ds)) := by
  refine refinesTo_of fun w l c orders h => Does.bind_read (hashmap_relink w l c m) ?_
  have hgood := h.good m
  have hloop := walkLoop_eq [] hgood rfl (h.shows m).entries
  rw [hgood.count, hgood.first]
  exact h.does hloop (LeavesForeign.refl w)

end

end Jx9Hash

end Poesie
