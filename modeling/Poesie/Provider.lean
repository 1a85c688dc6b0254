import Poesie.JsonSerialize

set_option autoImplicit false

/-! # Remote operations

A `VmHandle` serialises a request and sends it to a provider; the provider decodes it, runs
the operation on its backend and sends the `Result` back from the destructor of a
`tl::auto_respond`; `Future::wait` decodes the response and returns the value or throws.

A backend is any state machine with the three virtual methods of `poesie::Backend`, each of
which returns a `Result<json>` or throws. `remote_eq_local` compares the whole trip with
calling the backend directly.
-/

namespace Poesie

open Wire Json

variable {σ : Type}

/-! ## Requests and backends -/

/-- What a client asks for, with the types of `Backend`'s virtual methods. -/
inductive Request where
  | execute (code : Bytes) (args : List Json)
  | load (filename : Bytes) (args : List Json)
  | call (function target : Bytes) (args : List Json)

namespace Request

def args : Request → List Json
  | execute _ args => args
  | load _ args => args
  | call _ _ args => args

/-- The same request with other arguments. -/
def withArgs : Request → List Json → Request
  | execute code _, args => execute code args
  | load filename _, args => load filename args
  | call function target _, args => call function target args

/-- The strings of a request. -/
def strings : Request → List Bytes
  | execute code _ => [code]
  | load filename _ => [filename]
  | call function target _ => [function, target]

/-- The strings, the vector and its elements are values a program can hold. -/
structure WellFormed (req : Request) : Prop where
  strings : ∀ s ∈ req.strings, s.length < 2 ^ 64
  count : req.args.length < 2 ^ 64
  args : ∀ j ∈ req.args, j.WellFormed

end Request

/-- `poesie::Backend`: a method returns a result or throws, and changes the state. -/
structure Backend (σ : Type) where
  execute : Bytes → List Json → σ → Except CppException (Result Json) × σ
  load : Bytes → List Json → σ → Except CppException (Result Json) × σ
  call : Bytes → Bytes → List Json → σ → Except CppException (Result Json) × σ

/-- The method a request names. -/
def Backend.invoke (b : Backend σ) : Request → σ → Except CppException (Result Json) × σ
  | .execute code args => b.execute code args
  | .load filename args => b.load filename args
  | .call function target args => b.call function target args

/-! ## The client's side -/

/-- The three RPCs. -/
inductive Rpc where
  | execute
  | load
  | call
  deriving DecidableEq, Repr

/-- A message: which RPC, and the serialised arguments one after the other. -/
structure Message where
  rpc : Rpc
  payload : Bytes

/-- A `std::vector<ConstJsonRefWrapper>`: its size, then its elements. -/
def saveArgs (ar : Archive) (args : List Json) : Bytes :=
  putSize ar.uint64 args.length ++ args.flatMap (saveJSON ar)

/-- `VmHandle::execute`, `VmHandle::load` and `VmHandle::call` -/
def VmHandle.send (ar : Archive) : Request → Message
  | .execute code args => ⟨.execute, putString ar.uint64 code ++ saveArgs ar args⟩
  | .load filename args => ⟨.load, putString ar.uint64 filename ++ saveArgs ar args⟩
  | .call function target args =>
      ⟨.call, putString ar.uint64 function ++ (putString ar.uint64 target ++ saveArgs ar args)⟩

/-- What is thrown when a message cannot be decoded. -/
def CppException.ofFailure : Failure CppException → CppException
  | .short => .std (text "read past the end of the message")
  | .depth => .std (text "nesting too deep")
  | .thrown e => e

/-- `Future::wait` -/
def Future.wait (ar : Archive) (response : Bytes) : Except CppException Json :=
  match Result.load ar (loadFresh ar) response with
  | .ok (result, _) => result.valueOrThrow
  | .error f => .error (.ofFailure f)

/-! ## The provider's side -/

/-- What a handler leaves behind: the result its `auto_respond` sent, the exception that left
it, and the backend's state. -/
structure Reply (σ : Type) where
  sent : Result Json
  escaped : Option CppException
  state : σ

/-- The bytes of the response. -/
def Reply.response (ar : Archive) (reply : Reply σ) : Bytes :=
  reply.sent.save ar (saveJSON ar)

namespace ProviderImpl

/-- What `executeRPC`, `loadRPC` and `callRPC` share. The result starts as a success without
value; `response` refers to it and sends whatever it holds when the scope is left, which
includes leaving it by an exception of the backend. -/
def handle (backend : Option (Backend σ))
    (invoke : Backend σ → σ → Except CppException (Result Json) × σ) (s : σ) : Reply σ :=
  let result : Result Json := { value := null }
  match backend with
  | none =>
      let result :=
        { result with success := false, error := text "Provider has no VM attached" }
      { sent := result, escaped := none, state := s }
  | some b =>
      match invoke b s with
      | (.ok r, s') => { sent := r, escaped := none, state := s' }
      -- unwinding runs the destructor of `response` before the assignment took place
      | (.error e, s') => { sent := result, escaped := some e, state := s' }

def executeRPC (backend : Option (Backend σ)) (code : Bytes) (jargs : List Json) (s : σ) :
    Reply σ := handle backend (fun b => b.execute code jargs) s

def loadRPC (backend : Option (Backend σ)) (filename : Bytes) (jargs : List Json) (s : σ) :
    Reply σ := handle backend (fun b => b.load filename jargs) s

def callRPC (backend : Option (Backend σ)) (function target : Bytes) (jargs : List Json)
    (s : σ) : Reply σ := handle backend (fun b => b.call function target jargs) s

/-- The handler of a decoded request. -/
def dispatch (backend : Option (Backend σ)) : Request → σ → Reply σ
  | .execute code args => executeRPC backend code args
  | .load filename args => loadRPC backend filename args
  | .call function target args => callRPC backend function target args

/-- A `std::vector<JsonWrapper>` -/
def readArgs (ar : Archive) : Load (List Json) := do
  let n ← readSize ar.uint64
  Reader.loop (fun jargs => do
    let w ← loadFresh ar
    pure (jargs ++ [w])) n []

/-- The arguments of the three handlers, as Thallium decodes them. -/
def readRequest (ar : Archive) : Rpc → Load Request
  | .execute => do
      let code ← readString ar.uint64
      let jargs ← readArgs ar
      pure (.execute code jargs)
  | .load => do
      let filename ← readString ar.uint64
      let jargs ← readArgs ar
      pure (.load filename jargs)
  | .call => do
      let function ← readString ar.uint64
      let target ← readString ar.uint64
      let jargs ← readArgs ar
      pure (.call function target jargs)

/-- Decode a message and handle it. -/
def serve (ar : Archive) (backend : Option (Backend σ)) (m : Message) (s : σ) :
    Except CppException (Reply σ) :=
  match readRequest ar m.rpc m.payload with
  | .ok (req, _) => .ok (dispatch backend req s)
  | .error f => .error (.ofFailure f)

end ProviderImpl

open ProviderImpl

/-- A request sent to a provider, and what the client's `wait` makes of the response. -/
def remote (ar : Archive) (backend : Option (Backend σ)) (req : Request) (s : σ) :
    Except CppException Json × σ :=
  match serve ar backend (VmHandle.send ar req) s with
  | .ok reply => (Future.wait ar (reply.response ar), reply.state)
  | .error e => (.error e, s)

/-! ## The trip of a request -/

theorem reads_readArgs (ar : Archive) {args : List Json} (hcount : args.length < 2 ^ 64)
    (hargs : ∀ j ∈ args, j.WellFormed) :
    Reads (readArgs ar) (saveArgs ar args) (args.map restamp) := by
  have hloop := Reads.loop
    (fun jargs => do
      let w ← loadFresh ar
      pure (jargs ++ [w]))
    (saveJSON ar) (fun jargs j => jargs ++ [restamp j]) args
    (fun acc j hj => Reads.map (f := fun w => acc ++ [w]) (loadFresh_saveJSON ar (hargs j hj)))
    []
  rw [foldl_snoc, List.nil_append] at hloop
  exact Reads.bind (Reads.size ar.uint64 hcount) hloop

/-- The provider decodes the client's strings and its restamped arguments. -/
theorem reads_readRequest (ar : Archive) {req : Request} (h : req.WellFormed) :
    Reads (readRequest ar (VmHandle.send ar req).rpc) (VmHandle.send ar req).payload
      (req.withArgs (req.args.map restamp)) := by
  have hargs := reads_readArgs ar h.count h.args
  cases req with
  | execute code args =>
      have hcode : code.length < 2 ^ 64 := h.strings code (by simp [Request.strings])
      exact Reads.bind (Reads.string ar.uint64 hcode)
        (Reads.map (f := fun jargs => Request.execute code jargs) hargs)
  | load filename args =>
      have hname : filename.length < 2 ^ 64 := h.strings filename (by simp [Request.strings])
      exact Reads.bind (Reads.string ar.uint64 hname)
        (Reads.map (f := fun jargs => Request.load filename jargs) hargs)
  | call function target args =>
      have hf : function.length < 2 ^ 64 := h.strings function (by simp [Request.strings])
      have ht : target.length < 2 ^ 64 := h.strings target (by simp [Request.strings])
      exact Reads.bind (Reads.string ar.uint64 hf) (Reads.bind (Reads.string ar.uint64 ht)
        (Reads.map (f := fun jargs => Request.call function target jargs) hargs))

theorem serve_send (ar : Archive) (backend : Option (Backend σ)) {req : Request}
    (h : req.WellFormed) (s : σ) :
    serve ar backend (VmHandle.send ar req) s
      = .ok (dispatch backend (req.withArgs (req.args.map restamp)) s) := by
  have hread := reads_readRequest ar h []
  rw [List.append_nil] at hread
  unfold serve
  rw [hread]

/-- Arguments whose binaries carry a subtype arrive as they were sent. -/
theorem withArgs_restamp {req : Request} (h : ∀ j ∈ req.args, j.allSubtyped = true) :
    req.withArgs (req.args.map restamp) = req := by
  have hargs : req.args.map restamp = req.args :=
    map_eq_self_iff.mpr fun j hj => (restamp_eq_iff j).mpr (h j hj)
  rw [hargs]
  cases req <;> rfl

/-- A handler is the common body, with the method the request names. -/
theorem dispatch_eq_handle (backend : Option (Backend σ)) (req : Request) (s : σ) :
    dispatch backend req s = handle backend (fun b => b.invoke req) s := by
  cases req <;> rfl

/-! ## The trip of a response -/

/-- `wait` on the response to a result: the result's value, restamped, or its error. -/
theorem wait_save (ar : Archive) {r : Result Json} (herr : r.error.length < 2 ^ 64)
    (hval : r.value.WellFormed) :
    Future.wait ar (r.save ar (saveJSON ar))
      = ({ r with value := restamp r.value } : Result Json).valueOrThrow := by
  have hread := Result.reads_load ar (saveJSON ar) (loadFresh ar) herr
    (fun _ => loadFresh_saveJSON ar hval) []
  rw [List.append_nil] at hread
  unfold Future.wait
  rw [hread]
  exact Result.valueOrThrow_received _

/-- The response to a failed request makes `wait` throw, whatever its error string. -/
theorem wait_save_of_failure (ar : Archive) {r : Result Json} (h : r.success = false) :
    ∃ e, Future.wait ar (r.save ar (saveJSON ar)) = .error e := by
  have hflag : (Reader.prim ar.boolean : Load Bool) (r.save ar (saveJSON ar))
      = .ok (false, putString ar.uint64 r.error) := by
    have hsave : r.save ar (saveJSON ar) = ar.boolean.put false ++ putString ar.uint64 r.error := by
      simp [Result.save, h]
    rw [hsave]
    exact Reads.prim ar.boolean false (putString ar.uint64 r.error)
  have hload := Reader.bind_of_ok hflag (fun success =>
    if success then do
      let value ← loadFresh ar
      (pure { success := true, value := value } : Load (Result Json))
    else do
      let error ← readString ar.uint64
      pure { success := false, error := error, value := default })
  unfold Future.wait Result.load
  rw [hload, if_neg (by decide)]
  cases herr : (readString ar.uint64 : Load Bytes) (putString ar.uint64 r.error) with
  | error f => exact ⟨.ofFailure f, by rw [Reader.bind_of_error herr]⟩
  | ok p => exact ⟨.poesie p.1, by rw [Reader.bind_of_ok herr]; rfl⟩

/-! ## A remote operation is a local one -/

/-- **Transparency.** With a backend, a request whose binaries carry a subtype is run on
exactly the client's strings and arguments, leaves the backend in the same state, and `wait`
returns the value or throws the error of the backend's result; without a backend it throws
the error that says so. -/
theorem remote_eq_local (ar : Archive) (req : Request) (hreq : req.WellFormed)
    (hargs : ∀ j ∈ req.args, j.allSubtyped = true) (s : σ) :
    (∀ (b : Backend σ) (r : Result Json) (s' : σ), b.invoke req s = (.ok r, s') →
      r.error.length < 2 ^ 64 → r.value.WellFormed → r.value.allSubtyped = true →
      remote ar (some b) req s
        = (if r.success then .ok r.value else .error (.poesie r.error), s')) ∧
    remote ar none req s = (.error (.poesie (text "Provider has no VM attached")), s) := by
  -- the request arrives as it was sent
  have hserve : ∀ backend : Option (Backend σ), serve ar backend (VmHandle.send ar req) s
      = .ok (handle backend (fun b => b.invoke req) s) := by
    intro backend
    rw [serve_send ar backend hreq s, withArgs_restamp hargs, dispatch_eq_handle]
  constructor
  · intro b r s' hret herr hval hsub
    have hreply : handle (some b) (fun b => b.invoke req) s
        = { sent := r, escaped := none, state := s' } := by
      simp only [handle, hret]
    have hwait := wait_save ar herr hval
    rw [(restamp_eq_iff r.value).mpr hsub] at hwait
    calc remote ar (some b) req s
        = (Future.wait ar (r.save ar (saveJSON ar)), s') := by
          unfold remote
          rw [hserve, hreply]
          rfl
      _ = (r.valueOrThrow, s') := by rw [hwait]
  · have hwait := wait_save ar
      (r := { success := false, error := text "Provider has no VM attached", value := null })
      (by decide) .null
    unfold remote
    rw [hserve]
    exact Prod.ext hwait rfl

/-- A backend that returns its arguments and remembers what it was asked. -/
def echo : Backend (List Request) where
  execute code args s := (.ok { value := array args }, s ++ [.execute code args])
  load filename args s := (.ok { value := array args }, s ++ [.load filename args])
  call function target args s :=
    (.ok { value := array args }, s ++ [.call function target args])

/-- A call with an empty target, a NUL byte in the function name and a binary argument. -/
theorem remote_eq_local_echo :
    remote Archive.native (some echo) (.call [102, 0] [] [binary [1, 2] (some 2388)]) []
      = (.ok (array [binary [1, 2] (some 2388)]),
          [.call [102, 0] [] [binary [1, 2] (some 2388)]]) ∧
    remote Archive.native none (.call [102, 0] [] [binary [1, 2] (some 2388)]) ([] : List Request)
      = (.error (.poesie (text "Provider has no VM attached")), []) := by
  have hwf : ∀ j ∈ [binary [1, 2] (some 2388)], j.WellFormed := by
    intro j hj
    rw [List.mem_singleton.mp hj]
    exact .binary _ (by decide)
  have h := remote_eq_local Archive.native (.call [102, 0] [] [binary [1, 2] (some 2388)])
    ⟨by decide, by decide, hwf⟩
    (by intro j hj; rw [List.mem_singleton.mp hj]; rfl) ([] : List Request)
  exact ⟨h.1 echo _ _ rfl (by decide) (.array (by decide) hwf) rfl, h.2⟩

/-! ## Failures and the success flag -/

/-- The backend operation a request leads to returns a success. -/
def OperationSucceeds (backend : Option (Backend σ)) (req : Request) (s : σ) : Prop :=
  ∃ b r s', backend = some b ∧ b.invoke req s = (.ok r, s') ∧ r.success = true

/-- The backend operation a request leads to throws. -/
def OperationThrows (backend : Option (Backend σ)) (req : Request) (s : σ) : Prop :=
  ∃ b e s', backend = some b ∧ b.invoke req s = (.error e, s')

/-- The success flag of the response is set only for a success of the backend, and in every
other case the client's `wait` throws. -/
def FailuresReported (ar : Archive) (backend : Option (Backend σ)) (req : Request) (s : σ) :
    Prop :=
  ((dispatch backend req s).sent.success = true → OperationSucceeds backend req s) ∧
  (¬ OperationSucceeds backend req s →
    ∃ e, Future.wait ar ((dispatch backend req s).response ar) = .error e)

/-- What a handler sends, by what the backend operation does. -/
theorem dispatch_cases (backend : Option (Backend σ)) (req : Request) (s : σ) :
    (backend = none ∧ (dispatch backend req s).sent
      = { success := false, error := text "Provider has no VM attached", value := null }) ∨
    (∃ b r s', backend = some b ∧ b.invoke req s = (.ok r, s') ∧
      dispatch backend req s = { sent := r, escaped := none, state := s' }) ∨
    (∃ b e s', backend = some b ∧ b.invoke req s = (.error e, s') ∧
      dispatch backend req s = { sent := { value := null }, escaped := some e, state := s' }) := by
  rw [dispatch_eq_handle]
  cases backend with
  | none => exact .inl ⟨rfl, rfl⟩
  | some b =>
      rcases hinv : b.invoke req s with ⟨outcome, s'⟩
      cases outcome with
      | ok r => exact .inr (.inl ⟨b, r, s', rfl, hinv, by simp only [handle, hinv]⟩)
      | error e => exact .inr (.inr ⟨b, e, s', rfl, hinv, by simp only [handle, hinv]⟩)

/-- **Failures and the flag.** A response is honest if and only if the backend operation does
not throw: while an exception unwinds, `auto_respond` sends the result the handler started
with, which is flagged as a success. -/
theorem failuresReported_iff (ar : Archive) (backend : Option (Backend σ)) (req : Request)
    (s : σ) : FailuresReported ar backend req s ↔ ¬ OperationThrows backend req s := by
  unfold FailuresReported Reply.response
  rcases dispatch_cases backend req s with ⟨hb, hsent⟩ | ⟨b, r, s', hb, hinv, hd⟩ |
      ⟨b, e, s', hb, hinv, hd⟩
  · -- there is no VM, and the response says so
    subst hb
    rw [hsent]
    constructor
    · rintro _ ⟨b, e, s', hsome, _⟩
      cases hsome
    · intro _
      exact ⟨fun hf => (by cases hf), fun _ => wait_save_of_failure ar rfl⟩
  · -- the response is the result of the backend
    subst hb
    rw [hd]
    constructor
    · rintro _ ⟨b', e, s'', hsome, hthrow⟩
      cases hsome
      rw [hinv] at hthrow
      cases hthrow
    · intro _
      constructor
      · intro hsucc
        exact ⟨b, r, s', rfl, hinv, hsucc⟩
      · intro hnot
        have hfail : r.success = false := by
          cases hr : r.success with
          | false => rfl
          | true => exact absurd ⟨b, r, s', rfl, hinv, hr⟩ hnot
        exact wait_save_of_failure ar hfail
  · -- the response was flagged as a success, and the backend did not return one
    subst hb
    rw [hd]
    constructor
    · intro hhonest
      obtain ⟨b', r, s'', hsome, hret, _⟩ := hhonest.1 rfl
      cases hsome
      rw [hinv] at hret
      cases hret
    · intro hnot
      exact absurd ⟨b, e, s', rfl, hinv⟩ hnot

/-- A backend whose arguments cannot be converted, as those of a view that reaches past its
bulk. `LuaVm` catches `sol::error` only, `PythonVm` what Python raised, the others nothing. -/
def badView : Backend Unit :=
  let thrown : CppException :=
    .poesie (text "Invalid offset and/or size when exposing bulk handle as MemoryView")
  { execute := fun _ _ s => (.error thrown, s)
    load := fun _ _ s => (.error thrown, s)
    call := fun _ _ _ s => (.error thrown, s) }

/-- The client of that backend is told of a success with the value null. -/
theorem failuresReported_fails :
    ¬ ∀ (ar : Archive) (backend : Option (Backend Unit)) (req : Request) (s : Unit),
      FailuresReported ar backend req s := by
  intro h
  have hhonest := h Archive.native (some badView) (.execute (text "return 1") []) ()
  obtain ⟨b, r, s', hsome, hret, _⟩ := hhonest.1 rfl
  cases hsome
  cases hret

end Poesie
