import Poesie.RangeCheck
import Poesie.WriteBack

set_option autoImplicit false

/-! # Buffers that were not filled

A view that is served by a copy allocates its buffer before it fetches into it, and an OUT
view does not fetch at all. What the buffer happens to hold can then be pushed to the owner
(for the bytes a script leaves unwritten), and after a failed fetch it is handed out as data.
-/

namespace Poesie

open Wire Memory

variable {m : Margo} {env : Env} {v : RemoteView} {mem : Mem} {accesses : List Access}

namespace RemoteView

theorem Copied.not_aliases (h : v.Copied m) : ¬ v.Aliases m := by
  rintro ⟨p, hself, hacc⟩
  obtain ⟨piece, hpiece, hne⟩ := h hself
  rw [hacc] at hpiece
  cases hpiece
  exact hne p rfl

theorem Copied.not_refused (h : v.Copied m) : ¬ v.Refused m := by
  rintro ⟨hself, hacc⟩
  obtain ⟨piece, hpiece, -⟩ := h hself
  rw [hacc] at hpiece
  cases hpiece

end RemoteView

/-! ## Views with intent OUT -/

/-- Two runs that differ in what new memory happens to hold leave the same memory. -/
def NoLeak (m : Margo) (v : RemoteView) (mem : Mem) (accesses : List Access) : Prop :=
  ∀ junk junk' : Nat → UInt8,
    Session.finish m ⟨.ok (), junk⟩ v mem accesses = Session.finish m ⟨.ok (), junk'⟩ v mem accesses

/-- Nothing comes of a view whose data cannot be had. -/
theorem finish_of_refused (h : v.Refused m) : Session.finish m env v mem accesses = mem := by
  have hrun : (⟨v.fresh, mem⟩ : Session).run m env accesses = ⟨v.fresh, mem⟩ := by
    induction accesses using List.reverseRecOn with
    | nil => rfl
    | append_singleton accesses a ih =>
        rw [Session.run_concat, ih, Session.access, Session.data, prepare_of_refused h]
  rw [Session.finish, hrun]
  exact destroy_fresh v mem

/-- What the destructor of a copied OUT view pushes: the buffer as it was allocated, with the
script's writes. -/
theorem finish_of_copied (h : v.Copied m) (hout : v.intent = .OUT) (hne : accesses ≠ []) :
    Session.finish m env v mem accesses
      = fill mem v.range
          (overwrite (env.allocate v.remoteSize.toNat) (written v.remoteSize.toNat accesses)) := by
  have hfetch : v.intent.fetches = false := by
    rw [hout]
    rfl
  have hpush : v.intent.pushes = true := by
    rw [hout]
    rfl
  have hdata : (⟨v.fresh, mem⟩ : Session).data m env
      = (.ok (), ⟨v.buffered (env.allocate v.remoteSize.toNat), mem⟩) := by
    rw [Session.data, prepare_of_copied h, fetchFromRemote_fresh, hfetch]
    rfl
  rw [Session.finish, Session.run_of_data hdata (Session.data_buffered _) hne, run_buffered]
  show (v.buffered _).destroy mem = _
  rw [destroy_buffered, if_pos hpush]

/-- What a position of the range holds afterwards: the last byte written to it, or else what
the new buffer held there. -/
theorem finish_at_of_copied (h : v.Copied m) (hout : v.intent = .OUT) (hne : accesses ≠ [])
    {i : Nat} {c : Cell} (hc : v.range[i]? = some c) :
    Session.finish m env v mem accesses c
      = (lastAt (written v.remoteSize.toNat accesses) i).getD (env.junk i) := by
  have hi : i < v.remoteSize.toNat := by
    have hlen : i < v.range.length := (List.getElem?_eq_some_iff.mp hc).1
    have htake : v.range.length ≤ v.remoteSize.toNat := List.length_take_le _ _
    omega
  have hbuf : i < (env.allocate v.remoteSize.toNat).length := by
    rw [allocate_length]
    exact hi
  have hjunk : (env.allocate v.remoteSize.toNat)[i] = env.junk i := by simp [Env.allocate]
  rw [finish_of_copied h hout hne, fill_at v.range_nodup _ _ hc, overwrite_getElem? _ _ hbuf, hjunk]
  rfl

/-- **OUT views.** What the server's memory happens to hold stays there if and only if the
view has no buffer, its data is never asked for, or every byte of its range is written. -/
theorem noLeak_iff (m : Margo) (v : RemoteView) (mem : Mem) (accesses : List Access)
    (hout : v.intent = .OUT) :
    NoLeak m v mem accesses ↔
      ¬ v.Copied m ∨ accesses = [] ∨ Covers v.range.length accesses := by
  constructor
  · intro hleak
    by_cases hcopied : v.Copied m
    · by_cases hne : accesses = []
      · exact .inr (.inl hne)
      · right
        right
        intro i hi
        by_contra hunwritten
        have hc : v.range[i]? = some v.range[i] := List.getElem?_eq_getElem hi
        have hnone : lastAt (written v.remoteSize.toNat accesses) i = none := by
          rw [lastAt_eq_none_iff]
          rintro ⟨j, b⟩ hw rfl
          exact hunwritten ⟨b, (mem_written.mp hw).2⟩
        -- memory that holds zeros, and memory that holds ones
        have hat := congrFun (hleak (fun _ => 0) (fun _ => 1)) v.range[i]
        rw [finish_at_of_copied hcopied hout hne hc, finish_at_of_copied hcopied hout hne hc,
          hnone] at hat
        have hbits : (0 : UInt8) = 1 := hat
        exact absurd hbits (by decide)
    · exact .inl hcopied
  · intro hcond junk junk'
    by_cases hne : accesses = []
    · subst hne
      rfl
    · rcases v.aliases_or m with ⟨p, hp⟩ | hcopied | hrefused
      · rw [finish_of_liesAt hp hne, finish_of_liesAt hp hne]
      · have hcover := (hcond.resolve_left (not_not_intro hcopied)).resolve_left hne
        funext c
        by_cases hc : c ∈ v.range
        · obtain ⟨i, hi⟩ := List.mem_iff_getElem?.mp hc
          obtain ⟨b, hb⟩ := hcover i (List.getElem?_eq_some_iff.mp hi).1
          have htake : v.range.length ≤ v.remoteSize.toNat := List.length_take_le _ _
          have hlt := (List.getElem?_eq_some_iff.mp hi).1
          obtain ⟨b', hb'⟩ := lastAt_isSome (mem_written.mpr ⟨Nat.lt_of_lt_of_le hlt htake, hb⟩)
          rw [finish_at_of_copied hcopied hout hne hi, finish_at_of_copied hcopied hout hne hi, hb']
          rfl
        · rw [finish_of_notMem hc, finish_of_notMem hc]
      · rw [finish_of_refused hrefused, finish_of_refused hrefused]

/-- A remote view of one byte, of a process other than the server. -/
def remoteByte (intent : Intent) : RemoteView where
  intent := intent
  remoteBulk := ⟨[⟨100, 1⟩], by decide, by decide, by decide⟩
  remoteEp := server
  remoteOffset := 0
  remoteSize := 1

theorem remoteByte_copied (intent : Intent) :
    (remoteByte intent).Copied (Margo.loopback noName) := by
  intro hself
  have hnames : server = noName := hself
  exact absurd hnames (by decide)

/-- A script that writes the whole of a remote view of three bytes in two fragments leaks nothing,
in whatever order it writes them. -/
theorem noLeak_fragments :
    NoLeak (Margo.loopback server) { sampleView with intent := .OUT } (fun _ => 0)
      [.write 2 5, .read 1, .write 0 6, .write 1 7, .write 2 8] := by
  have hcover : Covers ({ sampleView with intent := .OUT } : RemoteView).range.length
      [.write 2 5, .read 1, .write 0 6, .write 1 7, .write 2 8] := by
    have hlen : ({ sampleView with intent := .OUT } : RemoteView).range.length = 3 := by decide
    intro i hi
    rw [hlen] at hi
    interval_cases i
    · exact ⟨6, by decide⟩
    · exact ⟨7, by decide⟩
    · exact ⟨8, by decide⟩
  exact (noLeak_iff (Margo.loopback server) { sampleView with intent := .OUT } (fun _ => 0) _
    rfl).mpr (.inr (.inr hcover))

/-- A script that only looks at an OUT view sends the owner what the server's memory held. -/
theorem noLeak_fails :
    ¬ ∀ (m : Margo) (v : RemoteView) (mem : Mem) (accesses : List Access),
      v.intent = .OUT → NoLeak m v mem accesses := by
  intro h
  have hleak := h (Margo.loopback noName) (remoteByte .OUT) (fun _ => 0) [.read 0] rfl
  have hat := congrFun (hleak (fun _ => 0) (fun _ => 1)) (server, 100)
  exact absurd hat (by decide)

/-! ## Calls of `data()` -/

/-- A call of `data()`, with the memory at its time. -/
structure Call where
  env : Env
  mem : Mem

/-- The view after a sequence of calls. -/
def dataCalls (m : Margo) (v : MemoryViewImpl) (calls : List Call) : MemoryViewImpl :=
  calls.foldl (fun v c => (v.prepareLocalData m c.env c.mem).2) v

/-- How the call after `before` ends. -/
def outcomeAfter (m : Margo) (v : RemoteView) (before : List Call) (c : Call) :
    Except CppException Unit :=
  ((dataCalls m v.fresh before).prepareLocalData m c.env c.mem).1

theorem dataCalls_aliased (p : Nat) (calls : List Call) :
    dataCalls m (v.aliased p) calls = v.aliased p := by
  induction calls with
  | nil => rfl
  | cons c calls ih => exact ih

/-- A buffer is never prepared again. -/
theorem dataCalls_buffered (bytes : Bytes) (calls : List Call) :
    dataCalls m (v.buffered bytes) calls = v.buffered bytes := by
  induction calls with
  | nil => rfl
  | cons c calls ih => exact ih

theorem dataCalls_refused (h : v.Refused m) (calls : List Call) :
    dataCalls m v.fresh calls = v.fresh := by
  induction calls with
  | nil => rfl
  | cons c calls ih =>
      show dataCalls m (v.fresh.prepareLocalData m c.env c.mem).2 calls = v.fresh
      rw [prepare_of_refused h]
      exact ih

/-- The calls up to one of a run start with the first of the run. -/
theorem cons_of_split {first c : Call} {rest before after : List Call}
    (h : first :: rest = before ++ c :: after) : ∃ calls, before ++ [c] = first :: calls := by
  cases before with
  | nil =>
      cases h
      exact ⟨[], rfl⟩
  | cons c' before =>
      cases h
      exact ⟨_, rfl⟩

/-- The buffer that the first call makes of a copied view. -/
def firstBuffer (v : RemoteView) (first : Call) : Bytes :=
  match first.env.fetch with
  | .ok () => transferred (first.env.allocate v.remoteSize.toNat) (v.range.map first.mem)
  | .error _ => first.env.allocate v.remoteSize.toNat

theorem prepare_first (h : v.Copied m) (hfetch : v.intent.fetches = true) (first : Call) :
    v.fresh.prepareLocalData m first.env first.mem
      = (first.env.fetch.mapError .poesie, v.buffered (firstBuffer v first)) := by
  rw [prepare_of_copied h, fetchFromRemote_fresh, if_pos hfetch, firstBuffer]
  cases first.env.fetch with
  | ok u => rfl
  | error what => rfl

/-- After the first call a copied view has the buffer of that call, whatever comes then. -/
theorem dataCalls_cons (h : v.Copied m) (hfetch : v.intent.fetches = true) (first : Call)
    (calls : List Call) :
    dataCalls m v.fresh (first :: calls) = v.buffered (firstBuffer v first) := by
  show dataCalls m (v.fresh.prepareLocalData m first.env first.mem).2 calls = _
  rw [prepare_first h hfetch]
  exact dataCalls_buffered _ calls

theorem outcomeAfter_nil (h : v.Copied m) (hfetch : v.intent.fetches = true) (first : Call) :
    outcomeAfter m v [] first = first.env.fetch.mapError .poesie := by
  show (v.fresh.prepareLocalData m first.env first.mem).1 = _
  rw [prepare_first h hfetch]

/-- Every later call returns normally. -/
theorem outcomeAfter_cons (h : v.Copied m) (hfetch : v.intent.fetches = true) (first : Call)
    (before : List Call) (c : Call) : outcomeAfter m v (first :: before) c = .ok () := by
  rw [outcomeAfter, dataCalls_cons h hfetch]
  rfl

/-- A buffer that was fetched holds the owner's bytes. -/
theorem firstBuffer_at {first : Call} (hok : first.env.fetch = .ok ()) {i : Nat} {c : Cell}
    (hc : v.range[i]? = some c) : (firstBuffer v first)[i]? = some (first.mem c) := by
  have hlen : i < v.range.length := (List.getElem?_eq_some_iff.mp hc).1
  have htake : v.range.length ≤ v.remoteSize.toNat := List.length_take_le _ _
  have hmap : (v.range.map first.mem).take (first.env.allocate v.remoteSize.toNat).length
      = v.range.map first.mem := by
    apply List.take_of_length_le
    rw [allocate_length, List.length_map]
    exact htake
  rw [firstBuffer, hok]
  show (transferred _ _)[i]? = _
  rw [transferred, hmap, List.getElem?_append_left (by rw [List.length_map]; exact hlen),
    List.getElem?_map, hc]
  rfl

/-! ## Failed fetches -/

/-- What a client sees of a view: for each call the bytes behind the pointer or an exception,
and in the end the memory after the view is destroyed. -/
def observe (m : Margo) : MemoryViewImpl → List Call → Mem →
    List (Except CppException (List (Option UInt8))) × Mem
  | v, [], mem => ([], v.destroy mem)
  | v, c :: calls, mem =>
      match v.prepareLocalData m c.env c.mem with
      | (outcome, v') =>
          (outcome.map (fun _ =>
              (List.range v'.remoteSize.toNat).map fun i => (⟨v', c.mem⟩ : Session).byteAt m i)
            :: (observe m v' calls mem).1, (observe m v' calls mem).2)

/-- No client can tell the one view from the other. -/
def SameBehaviour (m : Margo) (v v' : MemoryViewImpl) : Prop :=
  ∀ calls mem, observe m v calls mem = observe m v' calls mem

/-- A failed fetch leaves the view as it was. -/
structure FailuresHarmless (m : Margo) (v : RemoteView) (calls : List Call) : Prop where
  /-- A call that throws leaves a view that behaves as the one before the call. -/
  unchanged : ∀ before c after e, calls = before ++ c :: after →
    outcomeAfter m v before c = .error e →
    SameBehaviour m (dataCalls m v.fresh (before ++ [c])) (dataCalls m v.fresh before)
  /-- A call that returns shows what the owner had at the time of a call. -/
  filled : ∀ before c after, calls = before ++ c :: after → outcomeAfter m v before c = .ok () →
    ∃ c' ∈ before ++ [c], ∀ i cell, v.range[i]? = some cell →
      (⟨dataCalls m v.fresh (before ++ [c]), c.mem⟩ : Session).byteAt m i = some (c'.mem cell)
  /-- After failed fetches only, a call succeeds if its own fetch does. -/
  retried : ∀ before c after, calls = before ++ c :: after →
    (∀ c' ∈ before, c'.env.fetch ≠ .ok ()) →
    outcomeAfter m v before c = c.env.fetch.mapError .poesie
  /-- After failed fetches only, the destructor leaves memory alone. -/
  kept : (∀ c ∈ calls, c.env.fetch ≠ .ok ()) →
    ∀ mem, (dataCalls m v.fresh calls).destroy mem = mem

/-- A view with a buffer does not behave as a new one: it does not fetch. -/
theorem not_sameBehaviour (h : v.Copied m) (hfetch : v.intent.fetches = true) (bytes : Bytes) :
    ¬ SameBehaviour m (v.buffered bytes) v.fresh := by
  intro hsame
  have hnew := prepare_first h hfetch ⟨⟨.error [], fun _ => 0⟩, fun _ => 0⟩
  have hobs := congrArg (fun o => o.1.head?)
    (hsame [⟨⟨.error [], fun _ => 0⟩, fun _ => 0⟩] fun _ => 0)
  simp only [observe, hnew] at hobs
  cases hobs

theorem fetches_of_intent (h : v.intent = .IN ∨ v.intent = .INOUT) : v.intent.fetches = true := by
  rcases h with h | h
  · rw [h]
    rfl
  · rw [h]
    rfl

/-- A first call that fetches fills the buffer, and all others return it. -/
theorem outcomeAfter_of_fetched (h : v.Copied m) (hfetch : v.intent.fetches = true)
    {first : Call} {rest : List Call} (hok : first.env.fetch = .ok ()) {before : List Call}
    {c : Call} {after : List Call} (hsplit : first :: rest = before ++ c :: after) :
    outcomeAfter m v before c = .ok () := by
  cases before with
  | nil =>
      cases hsplit
      rw [outcomeAfter_nil h hfetch, hok]
      rfl
  | cons c' before =>
      cases hsplit
      exact outcomeAfter_cons h hfetch _ before c

/-- **Failed fetches.** A run of calls leaves the view as it was at each failure if and only if
its first fetch does not fail: the buffer that is published before the transfer ends all
later attempts. -/
theorem failuresHarmless_iff (m : Margo) (v : RemoteView) (calls : List Call)
    (hintent : v.intent = .IN ∨ v.intent = .INOUT) (hcopied : v.Copied m) :
    FailuresHarmless m v calls ↔ ∀ first, calls.head? = some first → first.env.fetch = .ok () := by
  have hfetch := fetches_of_intent hintent
  cases calls with
  | nil =>
      refine ⟨fun _ first hfirst => (by cases hfirst), fun _ => ?_⟩
      have hnil : ∀ before (c : Call) after, [] ≠ before ++ c :: after := by simp
      exact {
        unchanged := fun before c after e hsplit => absurd hsplit (hnil before c after)
        filled := fun before c after hsplit => absurd hsplit (hnil before c after)
        retried := fun before c after hsplit => absurd hsplit (hnil before c after)
        kept := fun _ mem => destroy_fresh v mem }
  | cons first rest =>
      constructor
      · intro hlaw c hc
        cases hc
        cases hres : first.env.fetch with
        | ok u => rfl
        | error what =>
            -- a first call that fails allocates the buffer, and the next one takes it for fetched
            have hthrow : outcomeAfter m v [] first = .error (.poesie what) := by
              rw [outcomeAfter_nil hcopied hfetch, hres]
              rfl
            have hsame := hlaw.unchanged [] first rest _ rfl hthrow
            rw [List.nil_append, dataCalls_cons hcopied hfetch] at hsame
            exact absurd hsame (not_sameBehaviour hcopied hfetch _)
      · intro hfirst
        -- once the first call has fetched, no later call transfers anything
        have hok := hfirst first rfl
        constructor
        · intro before c after e hsplit hthrow
          rw [outcomeAfter_of_fetched hcopied hfetch hok hsplit] at hthrow
          cases hthrow
        · intro before c after hsplit _
          refine ⟨first, ?_, fun i cell hcell => ?_⟩
          · obtain ⟨l, hl⟩ := cons_of_split hsplit
            simp [hl]
          · obtain ⟨l, hl⟩ := cons_of_split hsplit
            rw [hl, dataCalls_cons hcopied hfetch]
            exact firstBuffer_at hok hcell
        · intro before c after hsplit hfailed
          cases before with
          | nil =>
              cases hsplit
              exact outcomeAfter_nil hcopied hfetch _
          | cons c' before =>
              cases hsplit
              exact absurd hok (hfailed first (by simp))
        · intro hfailed
          exact absurd hok (hfailed first (by simp))

/-- A run whose first fetch succeeds and whose second fails. -/
theorem failuresHarmless_sample :
    FailuresHarmless (Margo.loopback noName) (remoteByte .IN)
      [⟨.quiet, fun _ => 7⟩, ⟨⟨.error (text "HG_TIMEOUT"), fun _ => 0⟩, fun _ => 7⟩] :=
  (failuresHarmless_iff (Margo.loopback noName) (remoteByte .IN) _ (.inl rfl)
    (remoteByte_copied .IN)).mpr (by
      intro first hfirst
      cases hfirst
      rfl)

/-- The first fetch of an INOUT view fails; the second call returns what the buffer happens
to hold, and the destructor sends it to the owner. -/
theorem failuresHarmless_fails :
    ¬ ∀ (m : Margo) (v : RemoteView) (calls : List Call),
      v.intent = .IN ∨ v.intent = .INOUT → v.Copied m → FailuresHarmless m v calls := by
  intro h
  have hlaw := h (Margo.loopback noName) (remoteByte .INOUT)
    [⟨⟨.error (text "HG_TIMEOUT"), fun _ => 0⟩, fun _ => 7⟩] (.inr rfl) (remoteByte_copied .INOUT)
  have hfailed : ∀ c ∈ [(⟨⟨.error (text "HG_TIMEOUT"), fun _ => 0⟩, fun _ => 7⟩ : Call)],
      c.env.fetch ≠ .ok () := by
    intro c hc
    rw [List.mem_singleton.mp hc]
    exact fun he => by cases he
  have hat := congrFun (hlaw.kept hfailed fun _ => 7) (server, 100)
  have hbits : (0 : UInt8) = 7 := hat
  exact absurd hbits (by decide)

/-! ## What `data()` shows -/

/-- Every call that returns gives the buffer with the owner's bytes of the time of the first
call, and the later calls give the same buffer. -/
structure ShowsOwner (m : Margo) (v : RemoteView) (calls : List Call) : Prop where
  bytes : ∀ before c after first, calls = before ++ c :: after → calls.head? = some first →
    outcomeAfter m v before c = .ok () →
    ∀ i < v.remoteSize.toNat, ∃ cell,
      (v.remoteBulk.cells v.remoteEp)[v.remoteOffset.toNat + i]? = some cell ∧
        (⟨dataCalls m v.fresh (before ++ [c]), first.mem⟩ : Session).byteAt m i
          = some (first.mem cell)
  same : ∀ before c later after, calls = before ++ c :: (later ++ after) →
    outcomeAfter m v before c = .ok () →
    (dataCalls m v.fresh (before ++ c :: later)).localData
      = (dataCalls m v.fresh (before ++ [c])).localData

/-- The new buffer of the first call happens to hold the owner's bytes. -/
def JunkMatches (v : RemoteView) (first : Call) : Prop :=
  ∀ i cell, v.range[i]? = some cell → first.env.junk i = first.mem cell

theorem RemoteView.Inside.cell (h : v.Inside) {i : Nat} (hi : i < v.remoteSize.toNat) :
    ∃ cell, v.range[i]? = some cell ∧
      (v.remoteBulk.cells v.remoteEp)[v.remoteOffset.toNat + i]? = some cell := by
  have hlt : v.remoteOffset.toNat + i < (v.remoteBulk.cells v.remoteEp).length := by
    rw [Bulk.cells_length]
    unfold RemoteView.Inside at h
    omega
  have hcell := List.getElem?_eq_getElem hlt
  exact ⟨_, (v.range_getElem? hi).trans hcell, hcell⟩

/-- A pointer into the owner's memory always shows it. -/
theorem showsOwner_of_aliases (h : v.Aliases m) (calls : List Call) : ShowsOwner m v calls := by
  obtain ⟨p, hp⟩ := h
  have hview : ∀ c (rest : List Call), dataCalls m v.fresh (c :: rest) = v.aliased p := by
    intro c rest
    show dataCalls m (v.fresh.prepareLocalData m c.env c.mem).2 rest = _
    rw [prepare_of_liesAt hp]
    exact dataCalls_aliased p rest
  have hafter : ∀ before c (later : List Call),
      dataCalls m v.fresh (before ++ c :: later) = v.aliased p := by
    intro before c later
    cases before with
    | nil => exact hview c later
    | cons c' before => exact hview c' _
  constructor
  · intro before c after first _ _ _ i hi
    rw [hafter before c []]
    exact ⟨_, cell_of_liesAt hp hi, rfl⟩
  · intro before c later after _ _
    rw [hafter, hafter before c []]

/-- Nothing is returned where `HG_Bulk_access` fails. -/
theorem showsOwner_of_refused (h : v.Refused m) (calls : List Call) : ShowsOwner m v calls := by
  have hthrow : ∀ before c, outcomeAfter m v before c ≠ .ok () := by
    intro before c hok
    rw [outcomeAfter, dataCalls_refused h, prepare_of_refused h] at hok
    cases hok
  exact {
    bytes := fun before c after first _ _ hok => absurd hok (hthrow before c)
    same := fun before c later after _ hok => absurd hok (hthrow before c) }

/-- The buffer of the first call shows the owner's bytes exactly if it was fetched, or holds
them by chance. -/
theorem firstBuffer_shows_iff (hinside : v.Inside) (first : Call) :
    (∀ i < v.remoteSize.toNat, ∃ cell,
      (v.remoteBulk.cells v.remoteEp)[v.remoteOffset.toNat + i]? = some cell ∧
        (firstBuffer v first)[i]? = some (first.mem cell)) ↔
      first.env.fetch = .ok () ∨ JunkMatches v first := by
  constructor
  · intro hshows
    cases hres : first.env.fetch with
    | ok u => exact .inl rfl
    | error what =>
        -- the buffer has whatever the allocation left in it
        right
        intro i cell hcell
        have hlen : i < v.range.length := (List.getElem?_eq_some_iff.mp hcell).1
        have htake : v.range.length ≤ v.remoteSize.toNat := List.length_take_le _ _
        have hi : i < v.remoteSize.toNat := by omega
        obtain ⟨cell', hcell', hbyte⟩ := hshows i hi
        rw [v.range_getElem? hi, hcell'] at hcell
        cases hcell
        rw [firstBuffer, hres] at hbyte
        simpa [Env.allocate, hi] using hbyte
  · intro hcond i hi
    obtain ⟨cell, hrange, hcell⟩ := hinside.cell hi
    refine ⟨cell, hcell, ?_⟩
    rcases hcond with hok | hjunk
    · exact firstBuffer_at hok hrange
    · cases hres : first.env.fetch with
      | ok u => exact firstBuffer_at hres hrange
      | error what =>
          rw [firstBuffer, hres]
          simpa [Env.allocate, hi] using hjunk i cell hrange

/-- **What `data()` shows.** A run of calls shows the owner's bytes if and only if the view has
no buffer, it ends with the first call, or the fetch of the first call succeeds or its new
buffer holds the owner's bytes by chance. -/
theorem showsOwner_iff (m : Margo) (v : RemoteView) (calls : List Call)
    (hintent : v.intent = .IN ∨ v.intent = .INOUT) (hinside : v.Inside) :
    ShowsOwner m v calls ↔
      ¬ v.Copied m ∨
        ∀ first second rest, calls = first :: second :: rest →
          first.env.fetch = .ok () ∨ JunkMatches v first := by
  have hfetch := fetches_of_intent hintent
  rcases v.aliases_or m with halias | hcopied | hrefused
  · exact iff_of_true (showsOwner_of_aliases halias calls) (.inl fun h => h.not_aliases halias)
  · constructor
    · intro hlaw
      right
      rintro first second rest rfl
      rw [← firstBuffer_shows_iff hinside first]
      -- the second call returns whatever became of the first
      have hshown := hlaw.bytes [first] second rest first rfl rfl
        (outcomeAfter_cons hcopied hfetch first [] second)
      rw [List.singleton_append, dataCalls_cons hcopied hfetch] at hshown
      exact hshown
    · intro hcond
      have hsecond := hcond.resolve_left (not_not_intro hcopied)
      constructor
      · intro before c after first hsplit hhead hok
        cases calls with
        | nil => cases hhead
        | cons first' rest =>
            cases hhead
            obtain ⟨l, hl⟩ := cons_of_split hsplit
            rw [hl, dataCalls_cons hcopied hfetch]
            apply (firstBuffer_shows_iff hinside first).mpr
            cases before with
            | nil =>
                -- the first call itself: it returned, so its fetch succeeded
                cases hsplit
                rw [outcomeAfter_nil hcopied hfetch] at hok
                cases hres : c.env.fetch with
                | ok u => exact .inl rfl
                | error what =>
                    rw [hres] at hok
                    cases hok
            | cons c' before =>
                cases hsplit
                cases before with
                | nil => exact hsecond first c after rfl
                | cons c'' before => exact hsecond first c'' _ rfl
      · intro before c later after _ _
        cases before with
        | nil => rw [List.nil_append, List.nil_append, dataCalls_cons hcopied hfetch,
            dataCalls_cons hcopied hfetch]
        | cons c' before => rw [List.cons_append, List.cons_append, dataCalls_cons hcopied hfetch,
            dataCalls_cons hcopied hfetch]
  · exact iff_of_true (showsOwner_of_refused hrefused calls) (.inl fun h => h.not_refused hrefused)

/-- The sample view, fetched once and asked for again. -/
theorem showsOwner_sample :
    ShowsOwner (Margo.loopback noName) sampleView
      [⟨.quiet, fun _ => 7⟩, ⟨.quiet, fun _ => 8⟩] :=
  (showsOwner_iff (Margo.loopback noName) sampleView _ (.inr rfl)
    (show 1 + 3 ≤ 5 by decide)).mpr (.inr fun first second rest h => by
      cases h
      exact .inl rfl)

/-- After a failed fetch the second call returns a byte that was never the owner's. -/
theorem showsOwner_fails :
    ¬ ∀ (m : Margo) (v : RemoteView) (calls : List Call),
      v.intent = .IN ∨ v.intent = .INOUT → v.Inside → ShowsOwner m v calls := by
  intro h
  have hlaw := h (Margo.loopback noName) (remoteByte .IN)
    [⟨⟨.error (text "HG_TIMEOUT"), fun _ => 0⟩, fun _ => 7⟩, ⟨.quiet, fun _ => 7⟩] (.inl rfl)
    (show 0 + 1 ≤ 1 by decide)
  obtain ⟨cell, hcell, hbyte⟩ := hlaw.bytes [_] _ [] _ rfl rfl rfl 0 (by decide)
  have hbits : (0 : UInt8) = 7 := Option.some.inj hbyte
  exact absurd hbits (by decide)

end Poesie
