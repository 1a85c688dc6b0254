import Poesie.LocalData

set_option autoImplicit false

/-! # What a view leaves in its owner's memory

A view with a buffer of its own writes it back to its range when it is destroyed, and only
for the intents that write. A view that aliases its owner's memory has written already: what
its destructor then pushes is the front of the whole bulk, and an IN view has changed the
owner's memory all the same.
-/

namespace Poesie

open Wire Memory

variable {m : Margo} {env : Env} {v : RemoteView} {mem : Mem} {accesses : List Access}

/-! ## The log of a run -/

theorem mem_written {n i : Nat} {b : UInt8} :
    (i, b) ∈ written n accesses ↔ i < n ∧ Access.write i b ∈ accesses := by
  induction accesses with
  | nil => simp [written]
  | cons a accesses ih =>
      cases a with
      | read j => simp [written, ih]
      | write j c =>
          by_cases hj : j < n
          · simp only [written, if_pos hj, List.mem_cons, ih, Prod.mk.injEq, Access.write.injEq]
            constructor
            · rintro (⟨rfl, rfl⟩ | ⟨hi, hmem⟩)
              · exact ⟨hj, .inl ⟨rfl, rfl⟩⟩
              · exact ⟨hi, .inr hmem⟩
            · rintro ⟨hi, ⟨rfl, rfl⟩ | hmem⟩
              · exact .inl ⟨rfl, rfl⟩
              · exact .inr ⟨hi, hmem⟩
          · simp only [written, if_neg hj, List.mem_cons, ih, Access.write.injEq]
            constructor
            · rintro ⟨hi, hmem⟩
              exact ⟨hi, .inr hmem⟩
            · rintro ⟨hi, ⟨rfl, rfl⟩ | hmem⟩
              · exact absurd hi hj
              · exact ⟨hi, hmem⟩

/-- Every position of `n` bytes is written. -/
def Covers (n : Nat) (accesses : List Access) : Prop := ∀ i < n, ∃ b, Access.write i b ∈ accesses

theorem Covers.last {n : Nat} (h : Covers n accesses) {i : Nat} (hi : i < n) :
    ∃ b, lastAt (written n accesses) i = some b := by
  obtain ⟨b, hb⟩ := h i hi
  exact lastAt_isSome (mem_written.mpr ⟨hi, hb⟩)

theorem Covers.ne_nil {n : Nat} (h : Covers n accesses) (hn : 0 < n) : accesses ≠ [] := by
  rintro rfl
  obtain ⟨b, hb⟩ := h 0 hn
  cases hb

/-! ## Memory behind an alias -/

/-- Position `i` of a view is the address `i` behind the start of its segment. -/
theorem cell_of_liesAt {p i : Nat} (h : v.LiesAt m p) (hi : i < v.remoteSize.toNat) :
    (v.remoteBulk.cells v.remoteEp)[v.remoteOffset.toNat + i]? = some (m.self, p + i) := by
  have hat := (m.access_piece _ _ _ _ _ h.2).2 i hi
  rw [Bulk.cells, List.getElem?_map, hat, h.1]
  rfl

/-- The writes of a run through an alias, as writes to memory. -/
def aliasLog (m : Margo) (p : Nat) (log : List (Nat × UInt8)) : List (Cell × UInt8) :=
  log.map fun w => ((m.self, p + w.1), w.2)

theorem lastAt_aliasLog (m : Margo) (p : Nat) (log : List (Nat × UInt8)) (i : Nat) :
    lastAt (aliasLog m p log) (m.self, p + i) = lastAt log i :=
  lastAt_map (f := fun i => (m.self, p + i))
    (fun _ _ h => Nat.add_left_cancel (Prod.ext_iff.mp h).2) log i

/-- A run through an alias touches nothing outside the view. -/
theorem writes_aliasLog_of_notMem (mem : Mem) (accesses : List Access) {p : Nat}
    (h : v.LiesAt m p) {c : Cell} (hc : c ∉ v.range) :
    writes mem (aliasLog m p (written v.remoteSize.toNat accesses)) c = mem c := by
  have hnone : lastAt (aliasLog m p (written v.remoteSize.toNat accesses)) c = none := by
    rw [lastAt_eq_none_iff]
    rintro w hw rfl
    obtain ⟨⟨i, b⟩, hib, rfl⟩ := List.mem_map.mp hw
    have hi := (mem_written.mp hib).1
    have hcell := cell_of_liesAt h hi
    rw [← v.range_getElem? hi] at hcell
    exact hc (List.mem_of_getElem? hcell)
  rw [writes_apply, hnone]
  rfl

/-- What a run through an alias leaves for the destructor. -/
theorem finish_of_liesAt {p : Nat} (h : v.LiesAt m p) (hne : accesses ≠ []) :
    Session.finish m env v mem accesses
      = (v.aliased p).destroy
          (writes mem (aliasLog m p (written v.remoteSize.toNat accesses))) := by
  have hrun := Session.run_of_data (Session.data_of_liesAt env mem h) (Session.data_aliased p) hne
  rw [Session.finish, hrun, run_aliased]
  rfl

/-- Without an alias, all a run leaves is a buffer, if even that. -/
theorem run_of_not_aliases (h : ¬ v.Aliases m) :
    (⟨v.fresh, mem⟩ : Session).run m env accesses = ⟨v.fresh, mem⟩ ∨
      ∃ bytes, (⟨v.fresh, mem⟩ : Session).run m env accesses = ⟨v.buffered bytes, mem⟩ := by
  induction accesses using List.reverseRecOn with
  | nil => exact .inl rfl
  | append_singleton accesses a ih =>
      rw [Session.run_concat]
      rcases ih with hrun | ⟨bytes, hrun⟩
      · rw [hrun]
        rcases data_of_not_aliases env mem h with ⟨e, hd⟩ | ⟨outcome, bytes, -, hd⟩
        · exact .inl (by rw [Session.access, hd])
        · right
          rw [Session.access, hd]
          cases outcome with
          | error e => exact ⟨bytes, rfl⟩
          | ok u =>
              have hone := run_buffered m env v mem bytes [a]
              exact ⟨_, hone⟩
      · right
        have hone := run_buffered m env v mem bytes [a]
        rw [hrun]
        exact ⟨_, hone⟩

/-- Without an alias, the destructor of a view that only reads leaves memory alone. -/
theorem finish_of_not_aliases (h : ¬ v.Aliases m) (hpush : v.intent.pushes = false) :
    Session.finish m env v mem accesses = mem := by
  rcases run_of_not_aliases h with hrun | ⟨bytes, hrun⟩
  · rw [Session.finish, hrun]
    exact destroy_fresh v mem
  · rw [Session.finish, hrun]
    show (v.buffered bytes).destroy mem = mem
    rw [destroy_buffered, hpush]
    rfl

/-! ## Views that only read -/

/-- The last byte written to each position is the one that was there. -/
def WritesNothingNew (v : RemoteView) (mem : Mem) (accesses : List Access) : Prop :=
  ∀ i < v.remoteSize.toNat, ∀ c,
    (v.remoteBulk.cells v.remoteEp)[v.remoteOffset.toNat + i]? = some c →
    ∀ b, lastAt (written v.remoteSize.toNat accesses) i = some b → b = mem c

/-- **IN views.** A view with intent IN leaves all memory as it was if and only if it does not
alias its owner's memory or nothing new is written through it: `data()` hands out a writable
pointer whatever the intent is. -/
theorem finish_in_eq_iff (m : Margo) (env : Env) (v : RemoteView) (mem : Mem)
    (accesses : List Access) (hin : v.intent = .IN) :
    Session.finish m env v mem accesses = mem ↔
      ¬ v.Aliases m ∨ WritesNothingNew v mem accesses := by
  have hpush : v.intent.pushes = false := by rw [hin]; rfl
  by_cases halias : v.Aliases m
  · obtain ⟨p, hp⟩ := halias
    by_cases hne : accesses = []
    · -- `data()` was never called
      subst hne
      refine ⟨fun _ => .inr ?_, fun _ => rfl⟩
      intro i _ c _ b hb
      cases hb
    · have hfinish : Session.finish m env v mem accesses
          = writes mem (aliasLog m p (written v.remoteSize.toNat accesses)) := by
        rw [finish_of_liesAt hp hne, destroy_aliased, hpush]
        rfl
      rw [hfinish]
      constructor
      · -- read the equation at the address of position `i`
        intro heq
        right
        intro i hi c hc b hb
        rw [cell_of_liesAt hp hi] at hc
        cases hc
        have hat := congrFun heq (m.self, p + i)
        rw [writes_apply, lastAt_aliasLog, hb] at hat
        exact hat
      · rintro (hno | hsame)
        · exact absurd ⟨p, hp⟩ hno
        · funext c
          -- the writes reach the cells of the range and no other
          by_cases hc : c ∈ v.range
          · obtain ⟨i, hlt, hi⟩ := Bulk.mem_range hc
            have hcell := cell_of_liesAt hp hlt
            rw [hi] at hcell
            cases hcell
            rw [writes_apply, lastAt_aliasLog]
            cases hlast : lastAt (written v.remoteSize.toNat accesses) i with
            | none => rfl
            | some b => exact hsame i hlt _ hi b hlast
          · exact writes_aliasLog_of_notMem mem accesses hp hc
  · exact ⟨fun _ => .inl halias, fun _ => finish_of_not_aliases halias hpush⟩

/-- A script that writes to an IN view of the server's own memory changes that memory. -/
theorem finish_in_changes :
    ¬ ∀ (m : Margo) (env : Env) (v : RemoteView) (mem : Mem) (accesses : List Access),
      v.intent = .IN → Session.finish m env v mem accesses = mem := by
  intro h
  have hsame := h (Margo.loopback noName) .quiet (secondByte .IN) (fun _ => 0)
    [.write 0 5] rfl
  exact absurd (congrFun hsame (noName, 101)) (by decide)

/-- Memory in which each byte is its address. -/
def addressMem : Mem := fun c => UInt8.ofNat c.2

/-- Writing to a view of two fragments is harmless, whether another process owns them or the server
itself; and so is writing what is there to a view of one piece. -/
theorem finish_in_writes :
    Session.finish (Margo.loopback server) .quiet { sampleView with intent := .IN } addressMem
        [.write 0 5, .read 2, .write 2 9, .write 0 6] = addressMem ∧
      Session.finish (Margo.loopback noName) .quiet { sampleView with intent := .IN } addressMem
        [.write 0 5, .read 2, .write 2 9, .write 0 6] = addressMem ∧
      Session.finish (Margo.loopback noName) .quiet (secondByte .IN) addressMem
        [.read 0, .write 0 7, .write 0 101] = addressMem := by
  refine ⟨?_, ?_, ?_⟩
  · refine (finish_in_eq_iff (Margo.loopback server) .quiet _ addressMem _ rfl).mpr (.inl ?_)
    rintro ⟨p, hself, -⟩
    exact absurd (show noName = server from hself) (by decide)
  · refine (finish_in_eq_iff (Margo.loopback noName) .quiet _ addressMem _ rfl).mpr (.inl ?_)
    rintro ⟨p, -, hpiece⟩
    -- the first fragment has one byte of the range only
    have hfirst : (Except.ok (some (101, 1)) : Except Unit (Option (Nat × Nat))) =
      .ok (some (p, 3)) := hpiece
    cases hfirst
  · refine (finish_in_eq_iff (Margo.loopback noName) .quiet (secondByte .IN) addressMem _ rfl).mpr
      (.inr fun i hi c hc b hb => ?_)
    have hzero : i = 0 := Nat.lt_one_iff.mp hi
    subst hzero
    cases hc
    cases hb
    decide

/-! ## Views that write -/

/-- The law: each byte of the range is the last one written to its position, and all other
memory is as it was. -/
def WriteBackLaw (m : Margo) (env : Env) (v : RemoteView) (mem : Mem) (accesses : List Access) :
    Prop :=
  (∀ i < v.remoteSize.toNat, ∃ c,
    (v.remoteBulk.cells v.remoteEp)[v.remoteOffset.toNat + i]? = some c ∧
      lastAt (written v.remoteSize.toNat accesses) i
        = some (Session.finish m env v mem accesses c)) ∧
  ∀ c, c ∉ v.range → Session.finish m env v mem accesses c = mem c

/-- Position `i` of the whole bulk holds the byte that position `i` of the view should: in
front of the view the byte that was there before, inside it the byte written there. -/
def FrontMatches (v : RemoteView) (mem : Mem) (accesses : List Access) : Prop :=
  ∀ i < v.remoteSize.toNat,
    lastAt (written v.remoteSize.toNat accesses) i =
      if i < v.remoteOffset.toNat then ((v.remoteBulk.cells v.remoteEp)[i]?).map mem
      else lastAt (written v.remoteSize.toNat accesses) (i - v.remoteOffset.toNat)

/-- Memory outside the range is never touched. -/
theorem finish_of_notMem {c : Cell} (hc : c ∉ v.range) :
    Session.finish m env v mem accesses c = mem c := by
  by_cases halias : v.Aliases m
  · obtain ⟨p, hp⟩ := halias
    by_cases hne : accesses = []
    · subst hne
      rfl
    · have hrun := writes_aliasLog_of_notMem mem accesses hp hc
      rw [finish_of_liesAt hp hne, destroy_aliased]
      by_cases hpush : v.intent.pushes = true
      · rw [if_pos hpush, fill_of_notMem hc, hrun]
      · rw [if_neg hpush, hrun]
  · rcases run_of_not_aliases halias with hrun | ⟨bytes, hrun⟩
    · rw [Session.finish, hrun]
      rfl
    · rw [Session.finish, hrun]
      show (v.buffered bytes).destroy mem c = mem c
      rw [destroy_buffered]
      by_cases hpush : v.intent.pushes = true
      · rw [if_pos hpush, fill_of_notMem hc]
      · rw [if_neg hpush]

/-- A byte in front of a view is not a byte of the view. -/
theorem notMem_range_of_front {i : Nat} {c : Cell} (hi : i < v.remoteOffset.toNat)
    (hc : (v.remoteBulk.cells v.remoteEp)[i]? = some c) : c ∉ v.range := by
  intro hmem
  obtain ⟨j, -, hj⟩ := Bulk.mem_range hmem
  have hlt : i < (v.remoteBulk.cells v.remoteEp).length := (List.getElem?_eq_some_iff.mp hc).1
  have hij := (List.getElem?_inj hlt (v.remoteBulk.cells_nodup v.remoteEp)).mp (hc.trans hj.symm)
  omega

/-- The bytes from the start of the bulk, after accesses through an alias. -/
theorem front_of_liesAt (mem : Mem) {p i : Nat} (h : v.LiesAt m p)
    (hcover : Covers v.remoteSize.toNat accesses) (hi : i < v.remoteSize.toNat) {c : Cell}
    (hc : (v.remoteBulk.cells v.remoteEp)[i]? = some c) :
    some (writes mem (aliasLog m p (written v.remoteSize.toNat accesses)) c)
      = if i < v.remoteOffset.toNat then ((v.remoteBulk.cells v.remoteEp)[i]?).map mem
        else lastAt (written v.remoteSize.toNat accesses) (i - v.remoteOffset.toNat) := by
  by_cases hfront : i < v.remoteOffset.toNat
  · have hout := notMem_range_of_front hfront hc
    rw [if_pos hfront, writes_aliasLog_of_notMem mem accesses h hout, hc]
    rfl
  · -- position `i` of the bulk is position `k` of the view
    obtain ⟨k, rfl⟩ := Nat.exists_eq_add_of_le (Nat.not_lt.mp hfront)
    have hk : k < v.remoteSize.toNat := by omega
    obtain ⟨b, hb⟩ := hcover.last hk
    rw [cell_of_liesAt h hk] at hc
    cases hc
    rw [if_neg hfront, writes_apply, lastAt_aliasLog, Nat.add_sub_cancel_left, hb]
    rfl

/-- What an aliasing view leaves at a position of its range: the byte at that position of the
whole bulk. -/
theorem finish_at_of_liesAt (env : Env) (mem : Mem) {p i : Nat} (h : v.LiesAt m p)
    (hpush : v.intent.pushes = true) (hcover : Covers v.remoteSize.toNat accesses)
    (hi : i < v.remoteSize.toNat) {c d : Cell}
    (hc : (v.remoteBulk.cells v.remoteEp)[v.remoteOffset.toNat + i]? = some c)
    (hd : (v.remoteBulk.cells v.remoteEp)[i]? = some d) :
    Session.finish m env v mem accesses c
      = writes mem (aliasLog m p (written v.remoteSize.toNat accesses)) d := by
  have hne := hcover.ne_nil (by omega : 0 < v.remoteSize.toNat)
  rw [← v.range_getElem? hi] at hc
  -- the destructor fills the range from the whole bulk, and so from its start
  calc Session.finish m env v mem accesses c
      = fill (writes mem (aliasLog m p (written v.remoteSize.toNat accesses))) v.range
          ((v.remoteBulk.cells v.remoteEp).map
            (writes mem (aliasLog m p (written v.remoteSize.toNat accesses)))) c := by
        rw [finish_of_liesAt h hne, destroy_aliased, if_pos hpush]
    _ = writes mem (aliasLog m p (written v.remoteSize.toNat accesses)) d := by
        rw [fill_at v.range_nodup _ _ hc, List.getElem?_map, hd]
        rfl

/-- What a view with a buffer leaves at a position of its range: the last byte written. -/
theorem finish_at_of_not_aliases (h : ¬ v.Aliases m) (hpush : v.intent.pushes = true)
    (hdata : ((⟨v.fresh, mem⟩ : Session).data m env).1 = .ok ())
    (hcover : Covers v.remoteSize.toNat accesses) {i : Nat} (hi : i < v.remoteSize.toNat) {c : Cell}
    (hc : (v.remoteBulk.cells v.remoteEp)[v.remoteOffset.toNat + i]? = some c) :
    lastAt (written v.remoteSize.toNat accesses) i
      = some (Session.finish m env v mem accesses c) := by
  rcases data_of_not_aliases env mem h with ⟨e, hd⟩ | ⟨outcome, bytes, hlen, hd⟩
  · rw [hd] at hdata
    cases hdata
  · rw [hd] at hdata
    cases hdata
    have hne := hcover.ne_nil (by omega : 0 < v.remoteSize.toNat)
    have hrun := Session.run_of_data hd (Session.data_buffered bytes) hne
    obtain ⟨b, hb⟩ := hcover.last hi
    rw [← v.range_getElem? hi] at hc
    rw [Session.finish, hrun, run_buffered]
    show _ = some ((v.buffered _).destroy mem c)
    rw [destroy_buffered, if_pos hpush, fill_at v.range_nodup _ _ hc,
      overwrite_getElem? _ _ (by omega), hb]
    rfl

/-- **Write-back.** The law holds for a view with intent OUT or INOUT whose every byte is
written if and only if the view does not alias its owner's memory, or the bytes from the start
of the bulk are those written to the view; a view at offset 0 always is such a case. -/
theorem writeBackLaw_iff (m : Margo) (env : Env) (v : RemoteView) (mem : Mem)
    (accesses : List Access) (hintent : v.intent = .OUT ∨ v.intent = .INOUT)
    (hrange : v.remoteOffset.toNat + v.remoteSize.toNat ≤ v.remoteBulk.size.toNat)
    (hdata : ((⟨v.fresh, mem⟩ : Session).data m env).1 = .ok ())
    (hcover : Covers v.remoteSize.toNat accesses) :
    WriteBackLaw m env v mem accesses ↔ ¬ v.Aliases m ∨ FrontMatches v mem accesses := by
  have hpush : v.intent.pushes = true := by
    rcases hintent with h | h
    · rw [h]
      rfl
    · rw [h]
      rfl
  have hcell : ∀ k < v.remoteBulk.size.toNat,
      ∃ c, (v.remoteBulk.cells v.remoteEp)[k]? = some c := by
    intro k hk
    rw [← Bulk.cells_length _ v.remoteEp] at hk
    exact ⟨_, List.getElem?_eq_getElem hk⟩
  have hframe : ∀ c, c ∉ v.range → Session.finish m env v mem accesses c = mem c :=
    fun c hc => finish_of_notMem hc
  by_cases halias : v.Aliases m
  · obtain ⟨p, hp⟩ := halias
    -- position by position, the law says what `FrontMatches` says
    have hleft : ∀ i < v.remoteSize.toNat, ∀ c,
        (v.remoteBulk.cells v.remoteEp)[v.remoteOffset.toNat + i]? = some c →
        some (Session.finish m env v mem accesses c)
          = if i < v.remoteOffset.toNat then ((v.remoteBulk.cells v.remoteEp)[i]?).map mem
            else lastAt (written v.remoteSize.toNat accesses) (i - v.remoteOffset.toNat) := by
      intro i hi c hc
      obtain ⟨d, hd⟩ := hcell i (by omega)
      rw [finish_at_of_liesAt env mem hp hpush hcover hi hc hd]
      exact front_of_liesAt mem hp hcover hi hd
    constructor
    · rintro ⟨hlaw, -⟩
      right
      intro i hi
      obtain ⟨c, hc, hlast⟩ := hlaw i hi
      exact hlast.trans (hleft i hi c hc)
    · rintro (hno | hfront)
      · exact absurd ⟨p, hp⟩ hno
      · refine ⟨fun i hi => ?_, hframe⟩
        obtain ⟨c, hc⟩ := hcell (v.remoteOffset.toNat + i) (by omega)
        exact ⟨c, hc, (hfront i hi).trans (hleft i hi c hc).symm⟩
  · refine ⟨fun _ => .inl halias, fun _ => ⟨fun i hi => ?_, hframe⟩⟩
    obtain ⟨c, hc⟩ := hcell (v.remoteOffset.toNat + i) (by omega)
    exact ⟨c, hc, finish_at_of_not_aliases halias hpush hdata hcover hi hc⟩

/-- The sample view is fragmented, so its bytes go through a buffer. -/
theorem writeBackLaw_sample :
    WriteBackLaw (Margo.loopback noName) .quiet sampleView (fun _ => 0)
      [.write 2 9, .write 0 7, .read 1, .write 1 8] := by
  have hcover : Covers 3 [.write 2 9, .write 0 7, .read 1, .write 1 8] := by
    intro i hi
    interval_cases i
    · exact ⟨7, by decide⟩
    · exact ⟨8, by decide⟩
    · exact ⟨9, by decide⟩
  have hpieces : ¬ sampleView.Aliases (Margo.loopback noName) := by
    rintro ⟨p, -, h⟩
    simp [Margo.loopback, Loopback.access, sampleView] at h
  exact (writeBackLaw_iff (Margo.loopback noName) .quiet sampleView (fun _ => 0) _
    (.inr rfl) (by decide) rfl hcover).mpr (.inl hpieces)

/-- The byte written to the second of two bytes is replaced by the first when the view goes. -/
theorem writeBackLaw_fails :
    ¬ ∀ (m : Margo) (env : Env) (v : RemoteView) (mem : Mem) (accesses : List Access),
      v.intent = .OUT ∨ v.intent = .INOUT →
      v.remoteOffset.toNat + v.remoteSize.toNat ≤ v.remoteBulk.size.toNat →
      ((⟨v.fresh, mem⟩ : Session).data m env).1 = .ok () → Covers v.remoteSize.toNat accesses →
      WriteBackLaw m env v mem accesses := by
  intro h
  have hcover : Covers 1 [.write 0 5] := by
    intro i hi
    interval_cases i
    exact ⟨5, by decide⟩
  have hlaw := h (Margo.loopback noName) .quiet (secondByte .OUT) (fun _ => 0)
    [.write 0 5] (.inl rfl) (by decide) rfl hcover
  obtain ⟨c, hc, hlast⟩ := hlaw.1 0 (by decide)
  have hcell : c = (noName, 101) := by
    cases hc
    rfl
  subst hcell
  exact absurd hlast (by decide)

end Poesie
