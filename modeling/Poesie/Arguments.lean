import Poesie.Lifetime

set_option autoImplicit false

/-! # The views among the arguments of an operation

`argumentViews` are the views inside the values that an operation converts, at any depth. A
conversion that returns has added a view for each of them to the heap, in this order
(`adds_convert`). `After` says what such a view looks like when some accesses have gone through
it: for another process's memory, their writes are in its buffer.
-/

namespace Poesie

open Wire Json SharedPtr Memory

variable {V : Type} {m : Margo}

/-! ## Views and their own accesses -/

/-- What views look like after construction and any accesses. -/
inductive Sound (m : Margo) : MemoryViewImpl → Prop
  | fresh (rv : RemoteView) : Sound m rv.fresh
  | aliased {rv : RemoteView} {p : Nat} (h : rv.LiesAt m p) : Sound m (rv.aliased p)
  | buffered (rv : RemoteView) {bytes : Bytes} (h : bytes.length = rv.remoteSize.toNat) :
      Sound m (rv.buffered bytes)

/-- A view after accesses of its own. For a remote view, the buffer holds their writes. -/
structure After (m : Margo) (rv : RemoteView) (accesses : List Access) (v : MemoryViewImpl) :
    Prop where
  sound : Sound m v
  remoteView : v.toRemoteView = rv
  buffer : rv.remoteEp ≠ m.self → (accesses = [] ∧ v = rv.fresh) ∨
    ∃ bytes, bytes.length = rv.remoteSize.toNat ∧
      v = rv.buffered (overwrite bytes (written rv.remoteSize.toNat accesses))

theorem After.of_sound {v : MemoryViewImpl} (h : Sound m v) : After m v.toRemoteView [] v := by
  refine ⟨h, rfl, fun hremote => ?_⟩
  cases h with
  | fresh rv => exact .inl ⟨rfl, rfl⟩
  | aliased hp => exact absurd hp.1 hremote
  | buffered rv hlen => exact .inr ⟨_, hlen, rfl⟩

/-- The data of a remote view is a buffer, once the fetch succeeds. -/
theorem data_of_remote {rv : RemoteView} (hremote : rv.remoteEp ≠ m.self) {env : Env}
    (hfetch : env.fetch = .ok ()) (mem : Mem) :
    ∃ bytes, bytes.length = rv.remoteSize.toNat ∧
      (⟨rv.fresh, mem⟩ : Session).data m env = (.ok (), ⟨rv.buffered bytes, mem⟩) := by
  have hprep : rv.fresh.prepareLocalData m env mem = rv.fresh.fetchFromRemote env mem :=
    if_neg hremote
  have hnew := allocate_length env rv.remoteSize.toNat
  rw [Session.data, hprep, fetchFromRemote_fresh]
  by_cases hi : rv.intent.fetches = true
  · rw [if_pos hi, hfetch]
    exact ⟨_, (transferred_length _ _).trans hnew, rfl⟩
  · rw [if_neg hi]
    exact ⟨_, hnew, rfl⟩

/-- `data()` leaves a view sound. -/
theorem sound_data {v : MemoryViewImpl} (h : Sound m v) (env : Env) (mem : Mem) :
    Sound m ((⟨v, mem⟩ : Session).data m env).2.view ∧
      ((⟨v, mem⟩ : Session).data m env).2.view.toRemoteView = v.toRemoteView := by
  cases h with
  | aliased hp => exact ⟨.aliased hp, rfl⟩
  | buffered rv hlen => exact ⟨.buffered rv hlen, rfl⟩
  | fresh rv =>
      by_cases halias : rv.Aliases m
      · obtain ⟨p, hp⟩ := halias
        rw [Session.data_of_liesAt env mem hp]
        exact ⟨.aliased hp, rfl⟩
      · rcases data_of_not_aliases env mem halias with ⟨e, hd⟩ | ⟨outcome, bytes, hlen, hd⟩
        · rw [hd]
          exact ⟨.fresh rv, rfl⟩
        · rw [hd]
          exact ⟨.buffered rv hlen, rfl⟩

theorem sound_touch {s : Session} (h : Sound m s.view) (a : Access) :
    Sound m (s.touch m a).2.view ∧ (s.touch m a).2.view.toRemoteView = s.view.toRemoteView := by
  unfold Session.touch
  by_cases hi : a.index < s.view.remoteSize.toNat
  · rw [if_pos hi]
    cases a with
    | read i => exact ⟨h, rfl⟩
    | write i b =>
        obtain ⟨view, mem⟩ := s
        cases h with
        | fresh rv => exact ⟨.fresh rv, rfl⟩
        | aliased hp => exact ⟨.aliased hp, rfl⟩
        | buffered rv hlen =>
            have hset : (List.set _ i b).length = rv.remoteSize.toNat := List.length_set.trans hlen
            exact ⟨.buffered rv hset, rfl⟩
  · rw [if_neg hi]
    exact ⟨h, rfl⟩

/-- An access leaves a view sound. -/
theorem sound_access {v : MemoryViewImpl} (h : Sound m v) (env : Env) (mem : Mem) (a : Access) :
    Sound m ((⟨v, mem⟩ : Session).access m env a).2.view ∧
      ((⟨v, mem⟩ : Session).access m env a).2.view.toRemoteView = v.toRemoteView := by
  obtain ⟨hsound, hview⟩ := sound_data h env mem
  unfold Session.access
  rcases hd : (⟨v, mem⟩ : Session).data m env with ⟨outcome, s'⟩
  rw [hd] at hsound hview
  cases outcome with
  | error e => exact ⟨hsound, hview⟩
  | ok u =>
      obtain ⟨htouch, hsame⟩ := sound_touch hsound a
      exact ⟨htouch, hsame.trans hview⟩

/-- An access to a remote view is a write to its buffer. -/
theorem After.access {rv : RemoteView} {accesses : List Access} {v : MemoryViewImpl}
    (h : After m rv accesses v) {env : Env} (hfetch : env.fetch = .ok ()) (mem : Mem)
    (a : Access) : After m rv (accesses ++ [a]) ((⟨v, mem⟩ : Session).access m env a).2.view := by
  obtain ⟨hsound, hview⟩ := sound_access h.sound env mem a
  refine ⟨hsound, hview.trans h.remoteView, fun hremote => .inr ?_⟩
  have hrun : ((⟨v, mem⟩ : Session).access m env a).2 = (⟨v, mem⟩ : Session).run m env [a] := rfl
  rcases h.buffer hremote with ⟨rfl, rfl⟩ | ⟨bytes, hlen, rfl⟩
  · obtain ⟨bytes, hlen, hdata⟩ := data_of_remote hremote hfetch mem
    refine ⟨bytes, hlen, ?_⟩
    rw [hrun, Session.run_of_data hdata (Session.data_buffered bytes) (by simp), run_buffered]
    rfl
  · refine ⟨bytes, hlen, ?_⟩
    rw [hrun, run_buffered, written_append, overwrite_append]

/-! ## The arguments of an operation -/

section

variable (m : Margo)

mutual

/-- The views inside a value, in the order in which a converter meets them. -/
def viewsOf : Json → List RemoteView
  | array items => viewsOfItems items
  | object members => viewsOfMembers members
  | binary b st =>
      if isMemoryView (binary b st) then
        match MemoryView.ofJson m (binary b st) with
        | .ok v => [v.toRemoteView]
        | .error _ => []
      else []
  | _ => []

def viewsOfItems : List Json → List RemoteView
  | [] => []
  | j :: rest => viewsOf j ++ viewsOfItems rest

def viewsOfMembers : List (Bytes × Json) → List RemoteView
  | [] => []
  | (_, j) :: rest => viewsOf j ++ viewsOfMembers rest

end

end

/-- The views among the arguments of an operation. -/
def argumentViews (m : Margo) (vm : Vm) (op : Operation) : List RemoteView :=
  viewsOfItems m (vm.converted op.global op.request)

/-- A step that returns has added sound views of these descriptions to the heap. -/
def Adds {α : Type} (m : Margo) (f : Conv α) (rvs : List RemoteView) : Prop :=
  ∀ created s a created' s', f created s = (.ok a, created', s') →
    ∃ news, s'.objects = s.objects ++ news ∧ news.map (·.toRemoteView) = rvs ∧
      ∀ v ∈ news, Sound m v

namespace Adds

variable {α β : Type}

theorem pure (a : α) : Adds m (Pure.pure a : Conv α) [] := by
  rintro created s a' created' s' h
  cases h
  exact ⟨[], by simp, rfl, by simp⟩

theorem lift (r : Except CppException α) : Adds m (Conv.lift r) [] := by
  rintro created s a' created' s' h
  have hheap : s = s' := congrArg (fun x => x.2.2) h
  subst hheap
  exact ⟨[], by simp, rfl, by simp⟩

theorem bind {f : Conv α} {g : α → Conv β} {rvs rvs' : List RemoteView} (hf : Adds m f rvs)
    (hg : ∀ a, Adds m (g a) rvs') : Adds m (f >>= g) (rvs ++ rvs') := by
  rintro created s b created'' s'' h
  rcases hfirst : f created s with ⟨r, created', s'⟩
  cases r with
  | error e =>
      rw [Conv.bind_of_error hfirst] at h
      cases h
  | ok a =>
      rw [Conv.bind_of_ok hfirst] at h
      obtain ⟨news, hobjects, hviews, hsound⟩ := hf _ _ _ _ _ hfirst
      obtain ⟨news', hobjects', hviews', hsound'⟩ := hg a _ _ _ _ _ h
      refine ⟨news ++ news', ?_, by rw [List.map_append, hviews, hviews'], ?_⟩
      · rw [hobjects', hobjects, List.append_assoc]
      · intro v hv
        rcases List.mem_append.mp hv with hv | hv
        · exact hsound v hv
        · exact hsound' v hv

theorem map {f : Conv α} {rvs : List RemoteView} (g : α → β) (hf : Adds m f rvs) :
    Adds m (f >>= fun a => Pure.pure (g a)) rvs := by
  have h := Adds.bind hf fun a => Adds.pure (m := m) (g a)
  rwa [List.append_nil] at h

theorem call {f : Conv α} {rvs : List RemoteView} (byValue : Bool) (hf : Adds m f rvs) :
    Adds m (Conv.call byValue f) rvs := by
  cases byValue with
  | false => exact hf
  | true =>
      rintro created s a created' s' h
      rcases hbody : f created (s.retainAll created) with ⟨r, created₁, s₁⟩
      rw [Conv.call_true, hbody] at h
      cases h
      obtain ⟨news, hobjects, hviews, hsound⟩ := hf _ _ _ _ _ hbody
      rw [Store.objects_retainAll] at hobjects
      exact ⟨news, by rw [Store.objects_releaseAll, hobjects], hviews, hsound⟩

theorem addView (env : ViewId → Env) (c : Converter V) {j : Json} {b : Bytes}
    {st : Option UInt64} (hj : j = binary b st) (hview : isMemoryView j = true) :
    Adds m (Conv.addView m env c j) (viewsOf m j) := by
  subst hj
  rintro created s a created' s' h
  have hviews : viewsOf m (binary b st) = match MemoryView.ofJson m (binary b st) with
      | .ok v => [v.toRemoteView]
      | .error _ => [] := by
    rw [viewsOf, if_pos hview]
  unfold Conv.addView at h
  cases hv : MemoryView.ofJson m (binary b st) with
  | error e =>
      rw [hv] at h
      cases h
  | ok v =>
      rw [hv] at h hviews
      have hfresh : Sound m v := by
        rw [fresh_of_ofJson hv]
        exact .fresh _
      -- a converter that calls `data()` may have fetched; the view is still one of the same range
      generalize hd : (if c.callsData then
          v.prepareLocalData m (env s.next) ((s.make v).retain s.next).world
        else (.ok (), v)) = prepared at h
      obtain ⟨outcome, v'⟩ := prepared
      simp only [hd] at h
      have hprepared : Sound m v' ∧ v'.toRemoteView = v.toRemoteView := by
        cases hc : c.callsData with
        | false =>
            rw [hc] at hd
            cases hd
            exact ⟨hfresh, rfl⟩
        | true =>
            rw [hc, if_pos rfl] at hd
            have hsound := sound_data hfresh (env s.next) ((s.make v).retain s.next).world
            rwa [Session.data, hd] at hsound
      -- the view is the only object that has been added
      have hheap : s'.objects = (s.objects ++ [v]).set s.objects.length v' :=
        (congrArg (fun x => x.2.2.objects) h).symm
      refine ⟨[v'], ?_, by rw [hviews, List.map_singleton, hprepared.2], ?_⟩
      · rw [hheap]
        simp
      · intro w hw
        rw [List.mem_singleton.mp hw]
        exact hprepared.1

end Adds

theorem adds_convertItems {env : ViewId → Env} {c : Converter V} (js : List Json)
    (hconvert : ∀ j ∈ js, Adds m (convert m env c j) (viewsOf m j)) :
    Adds m (convertItems m env c js) (viewsOfItems m js) := by
  induction js with
  | nil => exact .pure _
  | cons j rest ih =>
      have hrest := ih fun i hi => hconvert i (by simp [hi])
      rw [convertItems, viewsOfItems]
      exact .bind (hconvert j (by simp)) fun v => .map (fun vs => v :: vs) hrest

theorem adds_convertMembers {env : ViewId → Env} {c : Converter V} (members : List (Bytes × Json))
    (hconvert : ∀ p ∈ members, Adds m (convert m env c p.2) (viewsOf m p.2)) :
    Adds m (convertMembers m env c members) (viewsOfMembers m members) := by
  induction members with
  | nil => exact .pure _
  | cons p rest ih =>
      have hrest := ih fun i hi => hconvert i (by simp [hi])
      rw [convertMembers, viewsOfMembers]
      exact .bind (hconvert p (by simp)) fun v =>
        .bind (show Adds m (Conv.lift (c.key p.1)) [] from .lift _) fun k =>
          .map (fun vs => (k, v) :: vs) hrest

/-- A conversion that returns has added the views of its value. -/
theorem adds_convert (env : ViewId → Env) (c : Converter V) (j : Json) :
    Adds m (convert m env c j) (viewsOf m j) := by
  induction j using Json.ind with
  | null => exact .call _ (.lift _)
  | boolean b => exact .call _ (.lift _)
  | numberInteger n => exact .call _ (.lift _)
  | numberUnsigned n => exact .call _ (.lift _)
  | numberFloat x => exact .call _ (.lift _)
  | string s => exact .call _ (.lift _)
  | binary b st =>
      rw [convert]
      by_cases hview : isMemoryView (binary b st) = true
      · rw [if_pos hview]
        exact .call _ (.addView env c rfl hview)
      · rw [if_neg hview, viewsOf, if_neg hview]
        exact .call _ (.lift _)
  | array items ih =>
      rw [convert, viewsOf]
      exact .call _ (.map c.list (adds_convertItems items ih))
  | object members ih =>
      rw [convert, viewsOf]
      exact .call _ (.map c.table (adds_convertMembers members ih))

end Poesie
