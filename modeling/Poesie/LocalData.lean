import Poesie.Memory
import Poesie.MemoryView

set_option autoImplicit false

/-! # The local data of a view

`data()` prepares the local data of a view on its first call: a pointer into the server's own
memory when the view lies in one contiguous piece of it, and otherwise a buffer of the view's
own, into which the range is fetched for the intents that read it. The destructor pushes the
local bulk back for the intents that write.

A `Session` is one view together with all memory. Buffers allocated by `new[]` are outside
the memory that bulk handles expose, so they are kept in the view.
-/

namespace Poesie

open Wire

/-- The bytes of all processes. -/
abbrev Mem := Cell → UInt8

/-- What `data()` meets: the outcome of the fetch, should there be one, and the bytes that
newly allocated memory happens to hold. -/
structure Env where
  fetch : Except Bytes Unit
  junk : Nat → UInt8

/-- Transfers succeed, and new memory happens to hold zeros. -/
def Env.quiet : Env := ⟨.ok (), fun _ => 0⟩

/-- `new char[n]` -/
def Env.allocate (env : Env) (n : Nat) : Bytes := (List.range n).map env.junk

namespace Intent

/-- The intents for which the constructor of the local data fetches. -/
def fetches (i : Intent) : Bool := i == IN || i == INOUT

/-- The intents for which the destructor pushes. -/
def pushes (i : Intent) : Bool := i == INOUT || i == OUT

end Intent

/-- `m_remote_bulk.on(m_remote_ep)(m_remote_offset, m_remote_size)` -/
def RemoteView.range (v : RemoteView) : List Cell :=
  v.remoteBulk.range v.remoteEp v.remoteOffset.toNat v.remoteSize.toNat

theorem RemoteView.range_nodup (v : RemoteView) : v.range.Nodup :=
  v.remoteBulk.range_nodup v.remoteEp _ _

theorem RemoteView.range_getElem? (v : RemoteView) {i : Nat} (hi : i < v.remoteSize.toNat) :
    v.range[i]? = (v.remoteBulk.cells v.remoteEp)[v.remoteOffset.toNat + i]? :=
  v.remoteBulk.range_getElem? v.remoteEp hi

/-- A destination after a transfer onto its start. -/
def transferred (dst src : Bytes) : Bytes := src.take dst.length ++ dst.drop src.length

namespace MemoryViewImpl

/-! ## Preparing the local data -/

/-- The part of `prepareLocalData` behind the label `fetch_from_remote`. The buffer is set
before the transfer, and stays when the transfer fails. -/
def fetchFromRemote (env : Env) (v : MemoryViewImpl) (mem : Mem) :
    Except CppException Unit × MemoryViewImpl :=
  let buffer := env.allocate v.remoteSize.toNat
  let v := { v with localData := .buffer buffer, localBulk := some .exposed,
                    ownsLocalData := true }
  if v.intent.fetches then
    match env.fetch with
    | .ok () => (.ok (), { v with localData := .buffer (transferred buffer (v.range.map mem)) })
    | .error what => (.error (.poesie what), v)
  else (.ok (), v)

/-- `MemoryViewImpl::prepareLocalData` -/
def prepareLocalData (m : Margo) (env : Env) (v : MemoryViewImpl) (mem : Mem) :
    Except CppException Unit × MemoryViewImpl :=
  match v.localData with
  | .null =>
      if v.remoteEp = m.self then
        -- the server's own memory: no copy, if it is in one piece
        match m.access v.remoteBulk v.remoteOffset.toNat v.remoteSize.toNat with
        | .error () =>
            (.error (.poesie (text "HG_Bulk_access failed in MemoryView constructor")), v)
        | .ok (some (p, bufSize)) =>
            if bufSize = v.remoteSize.toNat then
              -- the local bulk is the whole remote one, not the range of the view
              (.ok (), { v with localData := .segment p, localBulk := some .remote })
            else fetchFromRemote env v mem
        | .ok none => fetchFromRemote env v mem
      else fetchFromRemote env v mem
  -- a second call finds the data there
  | _ => (.ok (), v)

/-! ## Destroying the view -/

/-- The bytes of a local bulk, which without an explicit range is the whole of it. -/
def localBytes (v : MemoryViewImpl) (mem : Mem) : LocalBulk → Bytes
  | .remote => (v.remoteBulk.cells v.remoteEp).map mem
  | .exposed =>
      match v.localData with
      | .buffer bytes => bytes
      | _ => []

/-- `MemoryViewImpl::~MemoryViewImpl`, with a transfer that succeeds: an exception would
leave the destructor and end the process. -/
def destroy (v : MemoryViewImpl) (mem : Mem) : Mem :=
  if !v.engine then mem
  else
    match v.localBulk with
    | none => mem
    | some localBulk =>
        if v.intent.pushes then Memory.fill mem v.range (v.localBytes mem localBulk) else mem

end MemoryViewImpl

/-! ## Access through the pointer -/

/-- What a script does with the bytes behind `data()`. -/
inductive Access where
  | read (i : Nat)
  | write (i : Nat) (b : UInt8)
  deriving DecidableEq, Repr

def Access.index : Access → Nat
  | read i => i
  | write i _ => i

/-- A view and the memory around it. -/
structure Session where
  view : MemoryViewImpl
  mem : Mem

namespace Session

/-- `MemoryView::data` -/
def data (m : Margo) (env : Env) (s : Session) : Except CppException Unit × Session :=
  match s.view.prepareLocalData m env s.mem with
  | (outcome, view) => (outcome, { s with view := view })

/-- The byte at a position of the local data. -/
def byteAt (m : Margo) (s : Session) (i : Nat) : Option UInt8 :=
  match s.view.localData with
  | .null => none
  | .segment p => some (s.mem (m.self, p + i))
  | .buffer bytes => bytes[i]?

/-- Store a byte at a position of the local data. -/
def store (m : Margo) (s : Session) (i : Nat) (b : UInt8) : Session :=
  match s.view.localData with
  | .null => s
  | .segment p => { s with mem := Function.update s.mem (m.self, p + i) b }
  | .buffer bytes => { s with view := { s.view with localData := .buffer (bytes.set i b) } }

/-- An access to prepared data, which the binding checks against the size of the view. -/
def touch (m : Margo) (s : Session) (a : Access) : Option UInt8 × Session :=
  if a.index < s.view.remoteSize.toNat then
    match a with
    | .read i => (s.byteAt m i, s)
    | .write i b => (some b, s.store m i b)
  else (none, s)

/-- Ask for the data and access it. -/
def access (m : Margo) (env : Env) (s : Session) (a : Access) : Option UInt8 × Session :=
  match s.data m env with
  | (.ok (), s') => s'.touch m a
  -- the exception leaves what `data()` has set so far
  | (.error _, s') => (none, s')

/-- A sequence of accesses. -/
def run (m : Margo) (env : Env) (s : Session) (accesses : List Access) : Session :=
  accesses.foldl (fun s a => (s.access m env a).2) s

/-- The memory after the accesses to a new view and its destruction. -/
def finish (m : Margo) (env : Env) (v : RemoteView) (mem : Mem) (accesses : List Access) : Mem :=
  let s := run m env ⟨v.fresh, mem⟩ accesses
  s.view.destroy s.mem

end Session

/-- The bytes that the accesses to `n` bytes write, by position. -/
def written (n : Nat) : List Access → List (Nat × UInt8)
  | [] => []
  | .read _ :: rest => written n rest
  | .write i b :: rest => if i < n then (i, b) :: written n rest else written n rest

/-! ## The two kinds of local data -/

variable {m : Margo} {env : Env} {v : RemoteView} {mem : Mem}

/-- A view whose local data is a pointer into the owner's memory. -/
def RemoteView.aliased (v : RemoteView) (p : Nat) : MemoryViewImpl :=
  { v.fresh with localData := .segment p, localBulk := some .remote }

/-- A view with a buffer of its own. -/
def RemoteView.buffered (v : RemoteView) (bytes : Bytes) : MemoryViewImpl :=
  { v.fresh with localData := .buffer bytes, localBulk := some .exposed, ownsLocalData := true }

/-- The server owns the view's bytes, and they lie in one piece from address `p` on. -/
def RemoteView.LiesAt (m : Margo) (v : RemoteView) (p : Nat) : Prop :=
  v.remoteEp = m.self ∧
    m.access v.remoteBulk v.remoteOffset.toNat v.remoteSize.toNat
      = .ok (some (p, v.remoteSize.toNat))

/-- The view's data is the owner's memory itself. -/
def RemoteView.Aliases (m : Margo) (v : RemoteView) : Prop := ∃ p, v.LiesAt m p

/-- The view's data is a buffer: another process owns the bytes, or they are not the first
piece of the range. -/
def RemoteView.Copied (m : Margo) (v : RemoteView) : Prop :=
  v.remoteEp = m.self →
    ∃ piece, m.access v.remoteBulk v.remoteOffset.toNat v.remoteSize.toNat = .ok piece ∧
      ∀ p, piece ≠ some (p, v.remoteSize.toNat)

/-- The server owns the view's bytes, and `HG_Bulk_access` fails. -/
def RemoteView.Refused (m : Margo) (v : RemoteView) : Prop :=
  v.remoteEp = m.self ∧
    m.access v.remoteBulk v.remoteOffset.toNat v.remoteSize.toNat = .error ()

/-- The three ways through `prepareLocalData`. -/
theorem RemoteView.aliases_or (m : Margo) (v : RemoteView) :
    v.Aliases m ∨ v.Copied m ∨ v.Refused m := by
  by_cases hself : v.remoteEp = m.self
  · cases hacc : m.access v.remoteBulk v.remoteOffset.toNat v.remoteSize.toNat with
    | error u => exact .inr (.inr ⟨hself, hacc⟩)
    | ok piece =>
        by_cases hpiece : ∃ p, piece = some (p, v.remoteSize.toNat)
        · obtain ⟨p, rfl⟩ := hpiece
          exact .inl ⟨p, hself, hacc⟩
        · exact .inr (.inl fun _ => ⟨piece, hacc, fun p hp => hpiece ⟨p, hp⟩⟩)
  · exact .inr (.inl fun h => absurd h hself)

theorem prepare_of_liesAt {p : Nat} (h : v.LiesAt m p) (env : Env) (mem : Mem) :
    v.fresh.prepareLocalData m env mem = (.ok (), v.aliased p) := by
  simp only [MemoryViewImpl.prepareLocalData, RemoteView.fresh, if_pos h.1, h.2]
  rfl

theorem prepare_of_copied (h : v.Copied m) (env : Env) (mem : Mem) :
    v.fresh.prepareLocalData m env mem = v.fresh.fetchFromRemote env mem := by
  by_cases hself : v.remoteEp = m.self
  · obtain ⟨piece, hacc, hpiece⟩ := h hself
    cases piece with
    | none => simp only [MemoryViewImpl.prepareLocalData, RemoteView.fresh, if_pos hself, hacc]
    | some piece =>
        obtain ⟨p, k⟩ := piece
        have hk : k ≠ v.remoteSize.toNat := by
          rintro rfl
          exact hpiece p rfl
        simp only [MemoryViewImpl.prepareLocalData, RemoteView.fresh, if_pos hself, hacc]
        exact if_neg hk
  · exact if_neg hself

theorem prepare_of_refused (h : v.Refused m) (env : Env) (mem : Mem) :
    v.fresh.prepareLocalData m env mem
      = (.error (.poesie (text "HG_Bulk_access failed in MemoryView constructor")), v.fresh) := by
  simp only [MemoryViewImpl.prepareLocalData, RemoteView.fresh, if_pos h.1, h.2]

theorem destroy_fresh (v : RemoteView) (mem : Mem) : v.fresh.destroy mem = mem := rfl

theorem destroy_aliased (v : RemoteView) (p : Nat) (mem : Mem) :
    (v.aliased p).destroy mem
      = if v.intent.pushes then
          Memory.fill mem v.range ((v.remoteBulk.cells v.remoteEp).map mem)
        else mem := rfl

theorem destroy_buffered (v : RemoteView) (bytes : Bytes) (mem : Mem) :
    (v.buffered bytes).destroy mem
      = if v.intent.pushes then Memory.fill mem v.range bytes else mem := rfl

namespace Session

theorem data_aliased (p : Nat) :
    (⟨v.aliased p, mem⟩ : Session).data m env = (.ok (), ⟨v.aliased p, mem⟩) := rfl

theorem data_buffered (bytes : Bytes) :
    (⟨v.buffered bytes, mem⟩ : Session).data m env = (.ok (), ⟨v.buffered bytes, mem⟩) := rfl

theorem data_of_liesAt (env : Env) (mem : Mem) {p : Nat} (h : v.LiesAt m p) :
    (⟨v.fresh, mem⟩ : Session).data m env = (.ok (), ⟨v.aliased p, mem⟩) := by
  rw [data, prepare_of_liesAt h]

end Session

theorem transferred_length (dst src : Bytes) : (transferred dst src).length = dst.length := by
  rw [transferred, List.length_append, List.length_take, List.length_drop]
  omega

theorem allocate_length (env : Env) (n : Nat) : (env.allocate n).length = n := by
  rw [Env.allocate, List.length_map, List.length_range]

theorem fetchFromRemote_fresh (env : Env) (v : RemoteView) (mem : Mem) :
    v.fresh.fetchFromRemote env mem
      = if v.intent.fetches then
          match env.fetch with
          | .ok () =>
              (.ok (), v.buffered (transferred (env.allocate v.remoteSize.toNat) (v.range.map mem)))
          | .error what => (.error (.poesie what), v.buffered (env.allocate v.remoteSize.toNat))
        else (.ok (), v.buffered (env.allocate v.remoteSize.toNat)) := rfl

/-- Fetching sets a buffer of the view's size, whether or not it succeeds. -/
theorem fetchFromRemote_eq (env : Env) (v : RemoteView) (mem : Mem) :
    ∃ outcome bytes, bytes.length = v.remoteSize.toNat ∧
      v.fresh.fetchFromRemote env mem = (outcome, v.buffered bytes) := by
  have hnew := allocate_length env v.remoteSize.toNat
  rw [fetchFromRemote_fresh]
  by_cases hi : v.intent.fetches = true
  · rw [if_pos hi]
    cases env.fetch with
    | ok u => exact ⟨_, _, (transferred_length _ _).trans hnew, rfl⟩
    | error what => exact ⟨_, _, hnew, rfl⟩
  · rw [if_neg hi]
    exact ⟨_, _, hnew, rfl⟩

/-- Without an alias, either the view stays as it was or it has a buffer afterwards. -/
theorem data_of_not_aliases (env : Env) (mem : Mem) (h : ¬ v.Aliases m) :
    (∃ e, (⟨v.fresh, mem⟩ : Session).data m env = (.error e, ⟨v.fresh, mem⟩)) ∨
      ∃ outcome bytes, bytes.length = v.remoteSize.toNat ∧
        (⟨v.fresh, mem⟩ : Session).data m env = (outcome, ⟨v.buffered bytes, mem⟩) := by
  rcases v.aliases_or m with halias | hcopied | hrefused
  · exact absurd halias h
  · obtain ⟨outcome, bytes, hlen, hfetch⟩ := fetchFromRemote_eq env v mem
    refine .inr ⟨outcome, bytes, hlen, ?_⟩
    rw [Session.data, prepare_of_copied hcopied, hfetch]
  · exact .inl ⟨_, by rw [Session.data, prepare_of_refused hrefused]⟩

/-! ## Runs -/

namespace Session

/-- An access whose data is there is the access to that data. -/
theorem access_of_data {s s' : Session} (h : s.data m env = (.ok (), s')) (a : Access) :
    s.access m env a = s'.touch m a := by
  rw [access, h]

/-- Preparing the data does not change what a run does after it. -/
theorem run_of_data {s s' : Session} (h : s.data m env = (.ok (), s'))
    (h' : s'.data m env = (.ok (), s')) {accesses : List Access} (hne : accesses ≠ []) :
    s.run m env accesses = s'.run m env accesses := by
  cases accesses with
  | nil => exact absurd rfl hne
  | cons a rest =>
      rw [run, run, List.foldl_cons, List.foldl_cons, access_of_data h, access_of_data h']

theorem run_concat (s : Session) (accesses : List Access) (a : Access) :
    s.run m env (accesses ++ [a]) = ((s.run m env accesses).access m env a).2 := by
  rw [run, List.foldl_append]
  rfl

end Session

theorem written_append (n : Nat) (as bs : List Access) :
    written n (as ++ bs) = written n as ++ written n bs := by
  induction as with
  | nil => rfl
  | cons a as ih =>
      cases a with
      | read i => exact ih
      | write i b =>
          rw [List.cons_append, written, written, ih]
          by_cases hi : i < n
          · rw [if_pos hi, if_pos hi]
            rfl
          · rw [if_neg hi, if_neg hi]

/-- Accesses through an alias are writes to the owner's memory. -/
theorem run_aliased (p : Nat) (accesses : List Access) :
    (⟨v.aliased p, mem⟩ : Session).run m env accesses
      = ⟨v.aliased p, Memory.writes mem ((written v.remoteSize.toNat accesses).map fun w =>
          ((m.self, p + w.1), w.2))⟩ := by
  induction accesses using List.reverseRecOn with
  | nil => rfl
  | append_singleton accesses a ih =>
      rw [Session.run_concat, ih, Session.access_of_data (Session.data_aliased p), written_append,
        List.map_append]
      cases a with
      | read i =>
          by_cases hi : i < v.remoteSize.toNat
          · simp [Session.touch, Access.index, RemoteView.aliased, RemoteView.fresh, hi, written]
          · simp [Session.touch, Access.index, RemoteView.aliased, RemoteView.fresh, hi, written]
      | write i b =>
          by_cases hi : i < v.remoteSize.toNat
          · simp [Session.touch, Session.store, Access.index, RemoteView.aliased,
              RemoteView.fresh, hi, written, Memory.writes_concat]
          · simp [Session.touch, Access.index, RemoteView.aliased, RemoteView.fresh, hi, written]

/-- Accesses to a buffer stay in the buffer. -/
theorem run_buffered (m : Margo) (env : Env) (v : RemoteView) (mem : Mem) (bytes : Bytes)
    (accesses : List Access) :
    (⟨v.buffered bytes, mem⟩ : Session).run m env accesses
      = ⟨v.buffered (Memory.overwrite bytes (written v.remoteSize.toNat accesses)), mem⟩ := by
  induction accesses using List.reverseRecOn with
  | nil => rfl
  | append_singleton accesses a ih =>
      rw [Session.run_concat, ih, Session.access_of_data (Session.data_buffered _), written_append]
      cases a with
      | read i =>
          by_cases hi : i < v.remoteSize.toNat
          · simp [Session.touch, Access.index, RemoteView.buffered, RemoteView.fresh, hi, written]
          · simp [Session.touch, Access.index, RemoteView.buffered, RemoteView.fresh, hi, written]
      | write i b =>
          by_cases hi : i < v.remoteSize.toNat
          · simp [Session.touch, Session.store, Access.index, RemoteView.buffered,
              RemoteView.fresh, hi, written, Memory.overwrite_concat]
          · simp [Session.touch, Access.index, RemoteView.buffered, RemoteView.fresh, hi, written]

end Poesie
