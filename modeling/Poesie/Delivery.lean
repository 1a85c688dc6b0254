import Poesie.Arguments
import Poesie.WriteBack

set_option autoImplicit false

/-! # Delivery of script writes

The bytes a script writes through the OUT and INOUT views of its arguments are in buffers of
the server until the views are destroyed. `argumentLog` are the bytes it writes to their
owners' memory, and `WritesArrive` says that the owners find the last of them when the
operation returns. Two things stand against it: a converter that takes the list of views by
value destroys them before the script runs, and of two views on one byte the one that is
destroyed later overwrites what the other has sent.
-/

namespace Poesie

open Wire Json SharedPtr Memory

variable {V : Type} {m : Margo}

/-! ## What the script writes, and what arrives -/

/-- An OUT or INOUT view of another process's memory. -/
def Writable (m : Margo) (v : RemoteView) : Prop := v.intent.pushes = true ∧ v.remoteEp ≠ m.self

instance (m : Margo) (v : RemoteView) : Decidable (Writable m v) := by
  unfold Writable
  infer_instance

/-- The views of an operation that begins at the name `start`, by name. -/
def viewAt (rvs : List RemoteView) (start id : ViewId) : Option RemoteView :=
  if start ≤ id then rvs[id - start]? else none

/-- The byte of its owner's memory behind a position of a writable view. -/
def cellAt (m : Margo) (rvs : List RemoteView) (start id : ViewId) (i : Nat) : Option Cell :=
  match viewAt rvs start id with
  | some v => if Writable m v then v.range[i]? else none
  | none => none

/-- The bytes that a script writes to the memory of the owners of its arguments. -/
def argumentLog (m : Margo) (rvs : List RemoteView) (start : ViewId) (script : List Event) :
    List (Cell × UInt8) :=
  script.flatMap fun e =>
    match e with
    | .access id (.write i b) =>
        match cellAt m rvs start id i with
        | some c => [(c, b)]
        | none => []
    | _ => []

/-- Whatever the script of an operation does, the last bytes it writes through the OUT and INOUT
views among the arguments are in the owners' memory when the operation has returned. -/
def WritesArrive (m : Margo) (env : ViewId → Env) (api : VmApi V) (vm : Vm) (op : Operation)
    (s : Heap) : Prop :=
  ∀ (script : List Event) (c : Cell) (b : UInt8),
    lastAt (argumentLog m (argumentViews m vm op) s.next script) c = some b →
      (({ op with script := script } : Operation).run m env api vm s).2.world c = b

/-- Writable views that share no memory. -/
def Apart (m : Margo) (rvs : List RemoteView) : Prop :=
  rvs.Pairwise fun v w => Writable m v → Writable m w → v.range.Disjoint w.range

/-! ## The heap while the script runs -/

/-- The accesses of a script to one view. -/
def accessesTo (id : ViewId) (script : List Event) : List Access :=
  script.filterMap fun e =>
    match e with
    | .access id' a => if id' = id then some a else none
    | .foreign _ => none

/-- The arguments are alive, and each has seen its own accesses. -/
structure Running (m : Margo) (rvs : List RemoteView) (start : ViewId) (script : List Event)
    (s : Heap) : Prop where
  balanced : Balanced (between start (start + rvs.length)) s
  views : ∀ k rv, rvs[k]? = some rv → ∃ v, s.objects[start + k]? = some v ∧
    After m rv (accessesTo (start + k) script) v

theorem accessesTo_append (id : ViewId) (script script' : List Event) :
    accessesTo id (script ++ script') = accessesTo id script ++ accessesTo id script' :=
  List.filterMap_append

/-- An access leaves all other views alone. -/
theorem objects_access_of_ne {env : ViewId → Env} {id id' : ViewId} (h : id ≠ id') (a : Access)
    (s : Heap) : (Heap.access m env id a s).objects[id']? = s.objects[id']? := by
  unfold Heap.access
  cases s.objects[id]? with
  | none => rfl
  | some v =>
      by_cases hlive : s.live id = true
      · simp only [if_pos hlive]
        exact List.getElem?_set_ne h
      · simp only [if_neg hlive]

/-- An access to a view that nobody holds does nothing. -/
theorem access_of_notMem {env : ViewId → Env} {held : List ViewId} {s : Heap}
    (h : Balanced held s) {id : ViewId} (hid : id ∉ held) (a : Access) :
    Heap.access m env id a s = s := by
  have hdead : ¬ s.live id = true := mt (h.live_iff id).mp hid
  unfold Heap.access
  cases s.objects[id]? with
  | none => rfl
  | some v => simp only [if_neg hdead]

/-- A step of a conversion adds views behind those that are there. -/
def Grows : ConvRel := fun x y => x.2.objects <+: y.2.objects

theorem Grows.refl (x : List ViewId × Heap) : Grows x x := List.prefix_rfl

theorem Grows.trans (x y z : List ViewId × Heap) (hxy : Grows x y) (hyz : Grows y z) :
    Grows x z := List.IsPrefix.trans hxy hyz

theorem grows_convert (env : ViewId → Env) (c : Converter V) (j : Json) :
    (convert m env c j).Steps Grows := by
  have hcall : ∀ {α : Type} (f : Conv α), f.Steps Grows →
      (Conv.call c.takesListByValue f).Steps Grows := by
    intro α f hf created s
    cases c.takesListByValue with
    | false => exact hf created s
    | true =>
        have hbody := hf created (s.retainAll created)
        rw [Grows, Store.objects_retainAll] at hbody
        rwa [Conv.call_true, Grows, Store.objects_releaseAll]
  refine steps_convert Grows.refl Grows.trans hcall (fun j => hcall _ fun created s => ?_) j
  unfold Conv.addView
  cases MemoryView.ofJson m j with
  | error e => exact List.prefix_rfl
  | ok v =>
      show s.objects <+: (s.objects ++ [v]).set s.objects.length _
      simp

/-- A foreign function leaves the views that are there alone. -/
theorem objects_returned {env : ViewId → Env} {api : VmApi V} {vm : Vm} (result : Json)
    (s : Heap) {id : ViewId} {v : MemoryViewImpl} (h : s.objects[id]? = some v) :
    (vm.returned m env api result s).objects[id]? = some v := by
  have hgrows : s.objects <+: ((convert m env (vm.converter api) result [] s).2.2).objects :=
    grows_convert env (vm.converter api) result [] s
  have hafter : s.objects <+: (vm.returned m env api result s).objects := by
    cases vm with
    | jx9 => exact List.prefix_rfl
    | _ =>
        unfold Vm.returned
        rw [Store.objects_releaseAll]
        exact hgrows
  obtain ⟨news, hnews⟩ := hafter
  rw [← hnews, List.getElem?_append_left (List.getElem?_eq_some_iff.mp h).1, h]

section

variable {env : ViewId → Env} {rvs : List RemoteView} {start : ViewId}

/-- One access of the script. -/
theorem Running.access {done : List Event} {s : Heap} (h : Running m rvs start done s)
    (hfetch : ∀ id, (env id).fetch = .ok ()) (id : ViewId) (a : Access) :
    Running m rvs start (done ++ [.access id a]) (Heap.access m env id a s) := by
  refine ⟨balanced_access m env h.balanced id a, fun k rv hk => ?_⟩
  obtain ⟨v, hv, hafter⟩ := h.views k rv hk
  have hlt : k < rvs.length := (List.getElem?_eq_some_iff.mp hk).1
  rw [accessesTo_append]
  by_cases hid : id = start + k
  · subst hid
    have hheld : start + k ∈ between start (start + rvs.length) :=
      mem_between.mpr ⟨Nat.le_add_right _ _, Nat.add_lt_add_left hlt start⟩
    have hlive : s.live (start + k) = true := (h.balanced.live_iff _).mpr hheld
    have hmade : start + k < s.objects.length := (List.getElem?_eq_some_iff.mp hv).1
    have hone : accessesTo (start + k) [.access (start + k) a] = [a] := by simp [accessesTo]
    rw [hone]
    refine ⟨_, ?_, hafter.access (hfetch (start + k)) s.world a⟩
    unfold Heap.access
    simp only [hv, if_pos hlive, Store.put]
    exact List.getElem?_set_self hmade
  · have hother : accessesTo (start + k) [.access id a] = [] := by simp [accessesTo, hid]
    rw [hother, List.append_nil]
    exact ⟨v, (objects_access_of_ne hid a s).trans hv, hafter⟩

/-- One step of the script. -/
theorem Running.event (api : VmApi V) (vm : Vm) {done : List Event} {s : Heap}
    (h : Running m rvs start done s) (hfetch : ∀ id, (env id).fetch = .ok ())
    (isArgument : ViewId → Bool) (e : Event) :
    Running m rvs start (done ++ [e]) (e.run m env api vm isArgument s).2 := by
  cases e with
  | foreign result =>
      refine ⟨balanced_returned m env api vm h.balanced result, fun k rv hk => ?_⟩
      obtain ⟨v, hv, hafter⟩ := h.views k rv hk
      have hnone : accessesTo (start + k) [.foreign result] = [] := rfl
      rw [accessesTo_append, hnone, List.append_nil]
      exact ⟨v, objects_returned result s hv, hafter⟩
  | access id a =>
      have hstep := h.access hfetch id a
      by_cases hid : id < s.next
      · simp only [Event.run, if_pos hid]
        exact hstep
      · -- no view has this name yet
        have hout : id ∉ between start (start + rvs.length) := fun hmem =>
          hid (h.balanced.made id hmem)
        rw [access_of_notMem h.balanced hout] at hstep
        simp only [Event.run, if_neg hid]
        exact hstep

/-- The whole script. -/
theorem Running.script (api : VmApi V) (vm : Vm) {done : List Event} {s : Heap}
    (h : Running m rvs start done s) (hfetch : ∀ id, (env id).fetch = .ok ())
    (isArgument : ViewId → Bool) (script : List Event) :
    Running m rvs start (done ++ script) (runScript m env api vm isArgument script s).2 := by
  induction script generalizing done s with
  | nil =>
      rw [List.append_nil]
      exact h
  | cons e rest ih =>
      have hrest := ih (h.event api vm hfetch isArgument e)
      rwa [List.append_assoc] at hrest

end

/-! ## What the destructors push -/

/-- The bytes that the destructor of a view sends from its buffer. -/
def pushLog (v : MemoryViewImpl) : List (Cell × UInt8) :=
  match v.localData with
  | .buffer bytes => if v.intent.pushes then v.range.zip bytes else []
  | _ => []

theorem pushLog_buffered {rv : RemoteView} (hpush : rv.intent.pushes = true) (bytes : Bytes) :
    pushLog (rv.buffered bytes) = rv.range.zip bytes := if_pos hpush

/-- Only a view that writes sends, and only to its own range. -/
theorem mem_pushLog {v : MemoryViewImpl} {c : Cell} {b : UInt8} (h : (c, b) ∈ pushLog v) :
    v.intent.pushes = true ∧ c ∈ v.range := by
  unfold pushLog at h
  cases hd : v.localData with
  | null => simp [hd] at h
  | segment p => simp [hd] at h
  | buffer bytes =>
      simp only [hd] at h
      by_cases hpush : v.intent.pushes = true
      · rw [if_pos hpush] at h
        exact ⟨hpush, (List.of_mem_zip h).1⟩
      · simp [hpush] at h

theorem owner_of_mem_range {rv : RemoteView} {c : Cell} (h : c ∈ rv.range) :
    c.1 = rv.remoteEp := by
  obtain ⟨i, -, hi⟩ := Bulk.mem_range h
  rw [Bulk.cells, List.getElem?_map] at hi
  obtain ⟨p, -, rfl⟩ := Option.map_eq_some_iff.mp hi
  rfl

/-- The memory of another process after the destruction of a view. -/
theorem destroy_at {v : MemoryViewImpl} (h : Sound m v) {c : Cell} (hc : c.1 ≠ m.self)
    (w : Mem) : v.destroy w c = (lastAt (pushLog v) c).getD (w c) := by
  cases h with
  | fresh rv => rfl
  | aliased hp =>
      -- such a view is the server's own
      have hout : c ∉ RemoteView.range _ := fun hmem => hc ((owner_of_mem_range hmem).trans hp.1)
      rw [destroy_aliased]
      split
      · exact fill_of_notMem hout
      · rfl
  | buffered rv hlen =>
      rw [destroy_buffered]
      by_cases hpush : rv.intent.pushes = true
      · rw [if_pos hpush, pushLog_buffered hpush, fill, writes_apply]
      · rw [if_neg hpush, pushLog]
        simp [RemoteView.buffered, RemoteView.fresh, hpush]

/-- The memory of another process after the destruction of several views. -/
theorem destroyAll_at {views : List MemoryViewImpl} (h : ∀ v ∈ views, Sound m v) {c : Cell}
    (hc : c.1 ≠ m.self) (w : Mem) :
    (views.foldl (fun w v => v.destroy w) w) c
      = (lastAt (views.flatMap pushLog) c).getD (w c) := by
  induction views generalizing w with
  | nil => rfl
  | cons v views ih =>
      calc ((v :: views).foldl (fun w v => v.destroy w) w) c
          = (lastAt (views.flatMap pushLog) c).getD (v.destroy w c) :=
            ih (fun u hu => h u (by simp [hu])) (v.destroy w)
        _ = (lastAt (views.flatMap pushLog) c).getD ((lastAt (pushLog v) c).getD (w c)) := by
            rw [destroy_at (h v (by simp)) hc]
        _ = (lastAt ((v :: views).flatMap pushLog) c).getD (w c) := by
            rw [List.flatMap_cons, lastAt_append, Option.getD_or]

/-- Each of these views has seen its own accesses. -/
def AllAfter (m : Margo) (rvs : List RemoteView) (start : ViewId) (script : List Event)
    (views : List MemoryViewImpl) : Prop :=
  views.length ≤ rvs.length ∧ ∀ k rv, rvs[k]? = some rv → ∃ v, views[k]? = some v ∧
    After m rv (accessesTo (start + k) script) v

section

variable {rvs : List RemoteView} {start : ViewId} {script : List Event}
  {views : List MemoryViewImpl}

/-- A view at its position, with its accesses. -/
theorem AllAfter.at {k : Nat} {v : MemoryViewImpl} (h : AllAfter m rvs start script views)
    (hv : views[k]? = some v) :
    ∃ rv, rvs[k]? = some rv ∧ After m rv (accessesTo (start + k) script) v := by
  have hlt : k < rvs.length := (List.getElem?_eq_some_iff.mp hv).1.trans_le h.1
  obtain ⟨v', hv', hafter⟩ := h.2 k _ (List.getElem?_eq_getElem hlt)
  cases hv.symm.trans hv'
  exact ⟨_, List.getElem?_eq_getElem hlt, hafter⟩

theorem AllAfter.sound (h : AllAfter m rvs start script views) : ∀ v ∈ views, Sound m v := by
  intro v hv
  obtain ⟨k, hk⟩ := List.mem_iff_getElem?.mp hv
  obtain ⟨rv, -, hafter⟩ := h.at hk
  exact hafter.sound

/-- The bytes that arrive are those of the view that is destroyed last. -/
theorem AllAfter.lastAt_pushes (h : AllAfter m rvs start script views) {k i : Nat}
    {rv : RemoteView} {c : Cell} {b : UInt8} (hk : rvs[k]? = some rv) (hw : Writable m rv)
    (hi : rv.range[i]? = some c)
    (hb : lastAt (written rv.remoteSize.toNat (accessesTo (start + k) script)) i = some b)
    (hlater : ∀ l > k, ∀ rv', rvs[l]? = some rv' → Writable m rv' → c ∉ rv'.range) :
    lastAt (views.flatMap pushLog) c = some b := by
  obtain ⟨v, hv, hafter⟩ := h.2 k rv hk
  have hc : c.1 = rv.remoteEp := owner_of_mem_range (List.mem_of_getElem? hi)
  have hlt : k < views.length := (List.getElem?_eq_some_iff.mp hv).1
  have hget : views[k] = v := (List.getElem?_eq_some_iff.mp hv).2
  -- the view itself sends the byte
  have hself : lastAt (pushLog v) c = some b := by
    rcases hafter.buffer hw.2 with ⟨hnil, -⟩ | ⟨bytes, hlen, rfl⟩
    · rw [hnil] at hb
      cases hb
    · have hin : i < bytes.length := by
        rw [hlen]
        exact (mem_written.mp (mem_of_lastAt hb)).1
      rw [pushLog_buffered hw.1, lastAt_zip rv.range_nodup _ hi, overwrite_getElem? _ _ hin, hb]
      rfl
  -- and no view after it sends anything there
  have hnone : lastAt ((views.drop (k + 1)).flatMap pushLog) c = none := by
    rw [lastAt_eq_none_iff]
    rintro ⟨c', b'⟩ hmem rfl
    obtain ⟨u, hu, hpush⟩ := List.mem_flatMap.mp hmem
    obtain ⟨j, hj⟩ := List.mem_iff_getElem?.mp hu
    rw [List.getElem?_drop] at hj
    obtain ⟨rv', hrv', hafter'⟩ := h.at hj
    obtain ⟨hpushes, hrange⟩ := mem_pushLog hpush
    rw [show u.intent = rv'.intent from congrArg RemoteView.intent hafter'.remoteView] at hpushes
    rw [show u.range = rv'.range from congrArg RemoteView.range hafter'.remoteView] at hrange
    have hremote : rv'.remoteEp ≠ m.self := by
      rw [← owner_of_mem_range hrange, hc]
      exact hw.2
    exact hlater (k + 1 + j) (by omega) rv' hrv' ⟨hpushes, hremote⟩ hrange
  rw [← List.take_append_drop k views, List.drop_eq_getElem_cons hlt, List.flatMap_append,
    List.flatMap_cons, lastAt_append, lastAt_append, hnone, Option.none_or, hget, hself,
    Option.some_or]

end

/-! ## The log of a script -/

section

variable {rvs : List RemoteView} {start : ViewId}

theorem argumentLog_append (script script' : List Event) :
    argumentLog m rvs start (script ++ script')
      = argumentLog m rvs start script ++ argumentLog m rvs start script' :=
  List.flatMap_append

theorem viewAt_add (k : Nat) : viewAt rvs start (start + k) = rvs[k]? := by
  rw [viewAt, if_pos (Nat.le_add_right start k), Nat.add_sub_cancel_left]

theorem viewAt_eq_some {id : ViewId} {rv : RemoteView} (h : viewAt rvs start id = some rv) :
    ∃ k, id = start + k ∧ rvs[k]? = some rv := by
  unfold viewAt at h
  by_cases hle : start ≤ id
  · rw [if_pos hle] at h
    exact ⟨id - start, (Nat.add_sub_cancel' hle).symm, h⟩
  · rw [if_neg hle] at h
    cases h

theorem cellAt_add {k i : Nat} {rv : RemoteView} (hk : rvs[k]? = some rv) (hw : Writable m rv) :
    cellAt m rvs start (start + k) i = rv.range[i]? := by
  rw [cellAt, viewAt_add, hk]
  exact if_pos hw

theorem cellAt_eq_some {id : ViewId} {i : Nat} {c : Cell}
    (h : cellAt m rvs start id i = some c) :
    ∃ k rv, id = start + k ∧ rvs[k]? = some rv ∧ Writable m rv ∧ rv.range[i]? = some c := by
  unfold cellAt at h
  cases hv : viewAt rvs start id with
  | none => simp [hv] at h
  | some rv =>
      simp only [hv] at h
      obtain ⟨k, hid, hk⟩ := viewAt_eq_some hv
      by_cases hw : Writable m rv
      · rw [if_pos hw] at h
        exact ⟨k, rv, hid, hk, hw, h⟩
      · rw [if_neg hw] at h
        cases h

theorem lastAt_argumentLog_write (id : ViewId) (i : Nat) (b : UInt8) (c : Cell) :
    lastAt (argumentLog m rvs start [.access id (.write i b)]) c
      = if cellAt m rvs start id i = some c then some b else none := by
  cases h : cellAt m rvs start id i with
  | none => simp [argumentLog, h]
  | some c' => simp [argumentLog, h, lastAt]

theorem lastAt_written_write {n i : Nat} (hi : i < n) (j : Nat) (b : UInt8) :
    lastAt (written n [.write j b]) i = if j = i then some b else none := by
  by_cases hj : j = i
  · subst hj
    simp [written, hi, lastAt]
  · rw [if_neg hj, lastAt_eq_none_iff]
    rintro ⟨p, x⟩ hx rfl
    have hmem := (mem_written.mp hx).2
    simp at hmem
    exact hj hmem.1.symm

/-- Views that are apart cover a byte at one position of one of them. -/
theorem Apart.unique (h : Apart m rvs) {k l : Nat} {v w : RemoteView} {c : Cell}
    (hk : rvs[k]? = some v) (hl : rvs[l]? = some w) (hv : Writable m v) (hw : Writable m w)
    (hcv : c ∈ v.range) (hcw : c ∈ w.range) : k = l := by
  obtain ⟨hkl, rfl⟩ := List.getElem?_eq_some_iff.mp hk
  obtain ⟨hll, rfl⟩ := List.getElem?_eq_some_iff.mp hl
  have hpairs := List.pairwise_iff_getElem.mp h
  rcases Nat.lt_trichotomy k l with hlt | heq | hlt
  · exact absurd hcw (hpairs k l hkl hll hlt hv hw hcv)
  · exact heq
  · exact absurd hcv (hpairs l k hll hkl hlt hw hv hcw)

theorem range_index {rv : RemoteView} {i j : Nat} {c : Cell} (hi : rv.range[i]? = some c)
    (hj : rv.range[j]? = some c) : i = j := by
  obtain ⟨hi, rfl⟩ := List.getElem?_eq_some_iff.mp hi
  obtain ⟨hj, heq⟩ := List.getElem?_eq_some_iff.mp hj
  exact ((List.Nodup.getElem_inj_iff rv.range_nodup).mp heq).symm

theorem lt_of_range {rv : RemoteView} {i : Nat} {c : Cell} (hi : rv.range[i]? = some c) :
    i < rv.remoteSize.toNat := by
  have hlt := (List.getElem?_eq_some_iff.mp hi).1
  rw [RemoteView.range, Bulk.range, List.length_take] at hlt
  omega

/-- One step of the script writes to a byte of the owner if it writes to its one position. -/
theorem lastAt_argumentLog_event (h : Apart m rvs) {k i : Nat} {rv : RemoteView} {c : Cell}
    (hk : rvs[k]? = some rv) (hw : Writable m rv) (hi : rv.range[i]? = some c) (e : Event) :
    lastAt (argumentLog m rvs start [e]) c
      = lastAt (written rv.remoteSize.toNat (accessesTo (start + k) [e])) i := by
  rcases e with ⟨id, j | ⟨j, b⟩⟩ | result
  · by_cases hid : id = start + k
    · simp [argumentLog, accessesTo, hid, written]
    · simp [argumentLog, accessesTo, hid, written]
  · rw [lastAt_argumentLog_write]
    by_cases hid : id = start + k
    · have hone : accessesTo (start + k) [.access id (.write j b)] = [.write j b] := by
        simp [accessesTo, hid]
      rw [hone, lastAt_written_write (lt_of_range hi), hid, cellAt_add hk hw]
      by_cases hj : j = i
      · rw [if_pos hj, if_pos (hj ▸ hi)]
      · rw [if_neg hj, if_neg fun hc => hj (range_index hc hi)]
    · have hnone : accessesTo (start + k) [.access id (.write j b)] = [] := by
        simp [accessesTo, hid]
      rw [hnone, if_neg]
      · rfl
      · intro hcell
        obtain ⟨l, rv', hid', hl, hw', hj⟩ := cellAt_eq_some hcell
        have hkl := h.unique hk hl hw hw' (List.mem_of_getElem? hi) (List.mem_of_getElem? hj)
        exact hid (hkl ▸ hid')
  · rfl

/-- What is written to a byte of the owner is what is written to its one position. -/
theorem lastAt_argumentLog (h : Apart m rvs) {k i : Nat} {rv : RemoteView} {c : Cell}
    (hk : rvs[k]? = some rv) (hw : Writable m rv) (hi : rv.range[i]? = some c)
    (script : List Event) :
    lastAt (argumentLog m rvs start script) c
      = lastAt (written rv.remoteSize.toNat (accessesTo (start + k) script)) i := by
  induction script with
  | nil => rfl
  | cons e rest ih =>
      calc lastAt (argumentLog m rvs start ([e] ++ rest)) c
          = (lastAt (argumentLog m rvs start rest) c).or
              (lastAt (argumentLog m rvs start [e]) c) := by
            rw [argumentLog_append, lastAt_append]
        _ = lastAt (written rv.remoteSize.toNat (accessesTo (start + k) ([e] ++ rest))) i := by
            rw [ih, lastAt_argumentLog_event h hk hw hi e, accessesTo_append, written_append,
              lastAt_append]

end

/-! ## The whole operation -/

section

variable {env : ViewId → Env} {api : VmApi V} {vm : Vm} {op : Operation} {s : Heap}

/-- With the list by reference, the script finds all views of the arguments. -/
theorem running_converted (hvm : vm ≠ .javascript) (hs : Balanced [] s) {vs : List V}
    {created : List ViewId} {s₁ : Heap}
    (hconv : convertItems m env (vm.converter api) (vm.converted op.global op.request) [] s
      = (.ok vs, created, s₁)) :
    created = between s.next (s.next + (argumentViews m vm op).length) ∧
      Running m (argumentViews m vm op) s.next [] s₁ := by
  obtain ⟨hbalanced, hlist⟩ :=
    createdViews_shared m env api vm hvm (vm.converted op.global op.request) hs
  obtain ⟨news, hobjects, hviews, hsound⟩ :=
    adds_convertItems (vm.converted op.global op.request)
      (fun j _ => adds_convert env (vm.converter api) j) [] s vs created s₁ hconv
  rw [hconv] at hbalanced hlist
  have hcreated : created = between s.next (s.next + (argumentViews m vm op).length) := by
    have hnext : s₁.next = s.next + (argumentViews m vm op).length := by
      rw [Store.next, hobjects, List.length_append, argumentViews, ← hviews, List.length_map]
      rfl
    rw [← hnext]
    exact hlist
  refine ⟨hcreated, hcreated ▸ hbalanced, fun k rv hk => ?_⟩
  rw [argumentViews, ← hviews, List.getElem?_map] at hk
  obtain ⟨v, hv, rfl⟩ := Option.map_eq_some_iff.mp hk
  refine ⟨v, ?_, .of_sound (hsound v (List.mem_of_getElem? hv))⟩
  rw [hobjects, Store.next, List.getElem?_append_right (Nat.le_add_right _ _),
    Nat.add_sub_cancel_left, hv]

/-- What the operation leaves after its script: the views of the arguments are destroyed in
their order, each after its own accesses. -/
theorem world_run (hvm : vm ≠ .javascript) (hs : Balanced [] s)
    (hfetch : ∀ id, (env id).fetch = .ok ()) {vs : List V}
    (hconv : (convertItems m env (vm.converter api) (vm.converted op.global op.request) [] s).1
      = .ok vs) (script : List Event) :
    ∃ views w, AllAfter m (argumentViews m vm op) s.next script views ∧
      (({ op with script := script } : Operation).run m env api vm s).2.world
        = views.foldl (fun w v => v.destroy w) w := by
  rcases hrun : convertItems m env (vm.converter api) (vm.converted op.global op.request) [] s
    with ⟨r, created, s₁⟩
  rw [hrun] at hconv
  have hr : r = .ok vs := hconv
  subst hr
  obtain ⟨hcreated, hrunning⟩ := running_converted hvm hs hrun
  have hafter := hrunning.script api vm hfetch (fun id => s.next ≤ id && id < s₁.next) script
  rw [List.nil_append] at hafter
  generalize hs₂ : (runScript m env api vm (fun id => s.next ≤ id && id < s₁.next) script s₁).2
    = s₂ at hafter
  have hworld : (({ op with script := script } : Operation).run m env api vm s).2.world
      = (s₂.releaseAll MemoryViewImpl.destroy created).world := by
    simp only [Operation.run, hrun, hs₂]
  refine ⟨(s₂.objects.drop s.next).take (argumentViews m vm op).length, s₂.world, ⟨?_, ?_⟩, ?_⟩
  · exact List.length_take_le _ _
  · intro k rv hk
    obtain ⟨v, hv, hown⟩ := hafter.views k rv hk
    have hlt : k < (argumentViews m vm op).length := (List.getElem?_eq_some_iff.mp hk).1
    exact ⟨v, by rw [List.getElem?_take_of_lt hlt, List.getElem?_drop, hv], hown⟩
  · rw [hworld, hcreated, hafter.balanced.world_releaseAll (between_nodup _ _),
      filterMap_between]

/-- With the list by value, an access of the script finds nothing. -/
theorem world_run_dead (hvm : vm = .javascript) (hs : Balanced [] s) {vs : List V}
    (hconv : (convertItems m env (vm.converter api) (vm.converted op.global op.request) [] s).1
      = .ok vs) (id : ViewId) (a : Access) :
    (({ op with script := [.access id a] } : Operation).run m env api vm s).2.world
      = (convertItems m env (vm.converter api) (vm.converted op.global op.request) [] s).2.2.world
      := by
  obtain ⟨hbalanced, hlist⟩ :=
    createdViews_freed m env api vm hvm (vm.converted op.global op.request) hs
  rcases hrun : convertItems m env (vm.converter api) (vm.converted op.global op.request) [] s
    with ⟨r, created, s₁⟩
  rw [hrun] at hconv hbalanced hlist
  have hr : r = .ok vs := hconv
  have hcreated : created = [] := hlist
  subst hr hcreated
  have hnothing : Heap.access m env id a s₁ = s₁ := access_of_notMem hbalanced (by simp) a
  by_cases hid : id < s₁.next
  · simp only [Operation.run, hrun, runScript, Event.run, if_pos hid, hnothing]
    rfl
  · simp only [Operation.run, hrun, runScript, Event.run, if_neg hid]
    rfl

end

/-- The last of the views that write to a byte. -/
theorem exists_last {rvs : List RemoteView} {k : Nat} {rv : RemoteView} {c : Cell}
    (hk : rvs[k]? = some rv) (hw : Writable m rv) (hc : c ∈ rv.range) :
    ∃ l ≥ k, ∃ rv', rvs[l]? = some rv' ∧ Writable m rv' ∧ c ∈ rv'.range ∧
      ∀ q > l, ∀ rv'', rvs[q]? = some rv'' → Writable m rv'' → c ∉ rv''.range := by
  classical
  let covers : Nat → Prop := fun q => ∃ u, rvs[q]? = some u ∧ Writable m u ∧ c ∈ u.range
  have hlt : k < rvs.length := (List.getElem?_eq_some_iff.mp hk).1
  obtain ⟨rv', hrv', hw', hc'⟩ : covers (Nat.findGreatest covers rvs.length) :=
    Nat.findGreatest_spec (P := covers) hlt.le ⟨rv, hk, hw, hc⟩
  refine ⟨Nat.findGreatest covers rvs.length,
    Nat.le_findGreatest hlt.le ⟨rv, hk, hw, hc⟩, rv', hrv', hw', hc', ?_⟩
  intro q hq rv'' hq' hw'' hc''
  have hqlt : q < rvs.length := (List.getElem?_eq_some_iff.mp hq').1
  exact Nat.findGreatest_is_greatest hq hqlt.le ⟨rv'', hq', hw'', hc''⟩

section

variable {env : ViewId → Env} {api : VmApi V} {vm : Vm} {op : Operation} {s : Heap} {vs : List V}

/-- A byte that a script writes belongs to a view among the arguments. -/
theorem writable_of_log {rvs : List RemoteView} {start : ViewId} {script : List Event} {c : Cell}
    {b : UInt8} (h : lastAt (argumentLog m rvs start script) c = some b) :
    ∃ (k i : Nat) (rv : RemoteView),
      rvs[k]? = some rv ∧ Writable m rv ∧ rv.range[i]? = some c := by
  obtain ⟨e, -, he⟩ := List.mem_flatMap.mp (mem_of_lastAt h)
  rcases e with ⟨id, j | ⟨j, b'⟩⟩ | result
  · cases he
  · cases hcell : cellAt m rvs start id j with
    | none => simp [hcell] at he
    | some c' =>
        have hc : c = c' := by
          simp only [hcell, List.mem_singleton, Prod.mk.injEq] at he
          exact he.1
        subst hc
        obtain ⟨k, rv, -, hk, hw, hi⟩ := cellAt_eq_some hcell
        exact ⟨k, j, rv, hk, hw, hi⟩
  · cases he

/-- An access to a view that is gone leaves memory alone, whatever it writes. -/
theorem WritesArrive.nothing_covered (hvm : vm = .javascript) (hs : Balanced [] s)
    (hconv : (convertItems m env (vm.converter api) (vm.converted op.global op.request) [] s).1
      = .ok vs) (h : WritesArrive m env api vm op s) :
    ∀ v ∈ argumentViews m vm op, Writable m v → v.range = [] := by
  intro v hv hw
  rw [List.eq_nil_iff_forall_not_mem]
  intro c hc
  obtain ⟨k, hk⟩ := List.mem_iff_getElem?.mp hv
  obtain ⟨i, hi⟩ := List.mem_iff_getElem?.mp hc
  have hwritten : ∀ b : UInt8, (convertItems m env (vm.converter api)
      (vm.converted op.global op.request) [] s).2.2.world c = b := by
    intro b
    rw [← world_run_dead hvm hs hconv (s.next + k) (.write i b)]
    apply h
    rw [lastAt_argumentLog_write, cellAt_add hk hw, if_pos hi]
  exact absurd ((hwritten 0).symm.trans (hwritten 1)) (by decide)

/-- The view that is destroyed last overwrites what an earlier one sends. -/
theorem WritesArrive.apart (hvm : vm ≠ .javascript) (hs : Balanced [] s)
    (hfetch : ∀ id, (env id).fetch = .ok ())
    (hconv : (convertItems m env (vm.converter api) (vm.converted op.global op.request) [] s).1
      = .ok vs) (h : WritesArrive m env api vm op s) : Apart m (argumentViews m vm op) := by
  rw [Apart, List.pairwise_iff_getElem]
  intro k l hkl hll hlt hw hw' c hc hc'
  have hk := List.getElem?_eq_getElem hkl
  obtain ⟨q, hql, rv, hq, hwq, hcq, hlast⟩ := exists_last (List.getElem?_eq_getElem hll) hw' hc'
  obtain ⟨i, hi⟩ := List.mem_iff_getElem?.mp hc
  obtain ⟨j, hj⟩ := List.mem_iff_getElem?.mp hcq
  -- first 0 through the last view, then 1 through the earlier one
  let script : List Event :=
    [.access (s.next + q) (.write j 0)] ++ [.access (s.next + k) (.write i 1)]
  have hlog : lastAt (argumentLog m (argumentViews m vm op) s.next script) c = some 1 := by
    rw [argumentLog_append, lastAt_append, lastAt_argumentLog_write, cellAt_add hk hw, if_pos hi,
      Option.some_or]
  have hown : accessesTo (s.next + q) script = [.write j 0] := by
    have hne : k ≠ q := by omega
    simp [script, accessesTo, hne]
  have hbuffer : lastAt (written rv.remoteSize.toNat (accessesTo (s.next + q) script)) j
      = some 0 := by
    rw [hown, lastAt_written_write (lt_of_range hj), if_pos rfl]
  obtain ⟨views, w, hviews, hworld⟩ := world_run hvm hs hfetch hconv script
  have hremote : c.1 ≠ m.self := by
    rw [owner_of_mem_range hcq]
    exact hwq.2
  have hone : (({ op with script := script } : Operation).run m env api vm s).2.world c = 1 :=
    h script c 1 hlog
  have hzero : (({ op with script := script } : Operation).run m env api vm s).2.world c = 0 := by
    calc (({ op with script := script } : Operation).run m env api vm s).2.world c
        = (lastAt (views.flatMap pushLog) c).getD (w c) := by
          rw [hworld, destroyAll_at hviews.sound hremote]
      _ = 0 := by
          rw [hviews.lastAt_pushes hq hwq hj hbuffer hlast]
          rfl
  exact absurd (hone.symm.trans hzero) (by decide)

/-- A view that shares no byte with another one sends the last bytes written to it. -/
theorem writesArrive_of_apart (hvm : vm ≠ .javascript) (hs : Balanced [] s)
    (hfetch : ∀ id, (env id).fetch = .ok ())
    (hconv : (convertItems m env (vm.converter api) (vm.converted op.global op.request) [] s).1
      = .ok vs) (h : Apart m (argumentViews m vm op)) : WritesArrive m env api vm op s := by
  intro script c b hlog
  obtain ⟨k, i, rv, hk, hw, hi⟩ := writable_of_log hlog
  have hc : c ∈ rv.range := List.mem_of_getElem? hi
  have hremote : c.1 ≠ m.self := by
    rw [owner_of_mem_range hc]
    exact hw.2
  have hbuffer : lastAt (argumentLog m (argumentViews m vm op) s.next script) c
      = lastAt (written rv.remoteSize.toNat (accessesTo (s.next + k) script)) i :=
    lastAt_argumentLog h hk hw hi script
  rw [hlog] at hbuffer
  have honly : ∀ l > k, ∀ rv', (argumentViews m vm op)[l]? = some rv' → Writable m rv' →
      c ∉ rv'.range := by
    intro l hl rv' hl' hw' hc'
    have := h.unique hk hl' hw hw' hc hc'
    omega
  obtain ⟨views, w, hviews, hworld⟩ := world_run hvm hs hfetch hconv script
  calc (({ op with script := script } : Operation).run m env api vm s).2.world c
      = (lastAt (views.flatMap pushLog) c).getD (w c) := by
        rw [hworld, destroyAll_at hviews.sound hremote]
    _ = b := by
        rw [hviews.lastAt_pushes hk hw hi hbuffer.symm honly]
        rfl

end

section

variable (m : Margo) (env : ViewId → Env) (api : VmApi V) (vm : Vm)

/-- **Delivery.** After any operations before it, an operation delivers what its script writes
through the arguments if and only if no two of the views that write share a byte, and the
backend is not the JavaScript one unless those views have no bytes at all. -/
theorem writesArrive_iff (before : List Operation) (mem : Mem) (op : Operation) (vs : List V)
    (hfetch : ∀ id, (env id).fetch = .ok ())
    (hconv : (convertItems m env (vm.converter api) (vm.converted op.global op.request) []
      (runOperations m env api vm before (Store.empty mem)).2).1 = .ok vs) :
    WritesArrive m env api vm op (runOperations m env api vm before (Store.empty mem)).2 ↔
      (vm = .javascript → ∀ v ∈ argumentViews m vm op, Writable m v → v.range = []) ∧
        Apart m (argumentViews m vm op) := by
  have hs := (run_operations m env api vm (Balanced.empty mem) before).1
  generalize (runOperations m env api vm before (Store.empty mem)).2 = s at hs hconv
  by_cases hvm : vm = .javascript
  · have hapart : (∀ v ∈ argumentViews m vm op, Writable m v → v.range = []) →
        Apart m (argumentViews m vm op) := by
      intro hnone
      rw [Apart, List.pairwise_iff_getElem]
      intro k l hk hl _ hw _
      rw [hnone _ (List.getElem_mem hk) hw]
      exact List.disjoint_nil_left _
    constructor
    · intro harrive
      have hnone := harrive.nothing_covered hvm hs hconv
      exact ⟨fun _ => hnone, hapart hnone⟩
    · rintro ⟨hnone, -⟩ script c b hlog
      obtain ⟨k, i, rv, hk, hw, hi⟩ := writable_of_log hlog
      rw [hnone hvm rv (List.mem_of_getElem? hk) hw] at hi
      cases hi
  · constructor
    · exact fun harrive =>
        ⟨fun hjs => absurd hjs hvm, harrive.apart hvm hs hfetch hconv⟩
    · exact fun ⟨_, hapart⟩ => writesArrive_of_apart hvm hs hfetch hconv hapart

end

/-- A call with a view of another process's memory inside an array. -/
def nestedCall : Operation where
  request := .call (text "fill") []
    [array [null, MemoryView.toJson (Margo.loopback server) (some (secondByte .INOUT).fresh)]]
  global := null
  script := []

/-- A Lua VM delivers what the script of the call writes, whatever has run before. -/
theorem writesArrive_nested :
    WritesArrive (Margo.loopback server) (fun _ => .quiet) .blank .lua nestedCall
      (runOperations (Margo.loopback server) (fun _ => .quiet) .blank .lua keepAndRead
        (Store.empty fun _ => 0)).2 :=
  (writesArrive_iff (Margo.loopback server) (fun _ => .quiet) .blank .lua keepAndRead
    (fun _ => 0) nestedCall [()] (fun _ => rfl) rfl).mpr
      ⟨fun h => (by cases h), List.pairwise_singleton _ (secondByte .INOUT)⟩

/-- A JavaScript VM does not: the view is destroyed while the array is converted. -/
theorem writesArrive_fails :
    ¬ ∀ (m : Margo) (env : ViewId → Env) (api : VmApi Unit) (vm : Vm) (before : List Operation)
      (mem : Mem) (op : Operation) (vs : List Unit), (∀ id, (env id).fetch = .ok ()) →
      (convertItems m env (vm.converter api) (vm.converted op.global op.request) []
        (runOperations m env api vm before (Store.empty mem)).2).1 = .ok vs →
      WritesArrive m env api vm op (runOperations m env api vm before (Store.empty mem)).2 := by
  intro h
  have harrive := h (Margo.loopback server) (fun _ => .quiet) .blank .javascript []
    (fun _ => 0) nestedCall [()] (fun _ => rfl) rfl [.access 0 (.write 0 5)] (noName, 101) 5
    (by decide)
  have hlost : (({ nestedCall with script := [.access 0 (.write 0 5)] } : Operation).run
      (Margo.loopback server) (fun _ => .quiet) (VmApi.blank) .javascript
      (Store.empty fun _ => 0)).2.world (noName, 101) = 0 := by decide
  exact absurd (harrive.symm.trans hlost) (by decide)

end Poesie
