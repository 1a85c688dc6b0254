import Poesie.Conversion
import Poesie.ForeignFunction
import Poesie.Limited

set_option autoImplicit false

/-! # The Python backend

All `PythonVm`s of a process share one interpreter and one mutex, which each operation locks
and unlocks by explicit calls. Exceptions of class `error_already_set` are caught on the way,
where they come from inside the `try` block; any other exception, and any exception from
outside the block, leaves the operation with the mutex locked.

The interpreter is a parameter (`Interpreter`), and so is the graph of Python objects that
`to_json` walks through (`PyObjects`).
-/

namespace Poesie

open Wire Json SharedPtr

/-! ## Python objects -/

/-- What Python code comes to. It may run for ever. -/
abbrev PyResult (α : Type) : Type := ExceptT CppException Option α

/-- The types that `to_json` asks for. -/
inductive PyType where
  | bool_
  | int_
  | float_
  | bytes
  | str
  | tuple
  | list
  | dict
  deriving DecidableEq

/-- What `to_json` tells apart. -/
inductive PyNode where
  | none
  | bool
  | int
  | float
  | bytes
  | str
  /-- A tuple or a list. -/
  | sequence
  | dict
  | other
  deriving DecidableEq

/-- The objects of the interpreter, each as `to_json` finds it where it comes to it: an object
that Python code changes on the way is another one. Iterating over an object, indexing it, comparing
it and making a text of it can run Python code of its class. -/
structure PyObjects (O : Type) where
  /-- `obj.is_none()` -/
  isNone : O → Bool
  /-- `py::isinstance<py::bool_>(obj)` and so on -/
  isinstance : PyType → O → Bool
  /-- `obj.cast<bool>()` -/
  castBool : O → Bool
  /-- The value that the casts of an `int` look at. -/
  castInt : O → Int
  /-- `obj.cast<double>()` -/
  castDouble : O → Float64
  /-- `obj.cast<std::string>()` -/
  castString : O → Except CppException Bytes
  /-- `py::int_(n).equal(obj)` -/
  equal : Int → O → PyResult Bool
  /-- Turn `i` of `for (const py::handle value : obj)`. -/
  next : O → Nat → PyResult (Option O)
  /-- `obj[key]` -/
  getItem : O → O → PyResult O
  /-- `py::repr(obj).cast<std::string>()` -/
  repr : O → PyResult Bytes
  /-- `py::str(obj).cast<std::string>()` -/
  str : O → PyResult Bytes
  /-- `base64.b64encode(obj).decode("utf-8")` -/
  b64encode : O → PyResult Bytes

/-- Objects of which `isinstance` tells nothing, and whose classes have no code of their own. -/
def PyObjects.plain {O : Type} : PyObjects O where
  isNone _ := false
  isinstance _ _ := false
  castBool _ := false
  castInt _ := 0
  castDouble _ := ⟨0⟩
  castString _ := .ok []
  equal _ _ := pure true
  next _ _ := pure none
  getItem o _ := pure o
  repr _ := pure (text "<object>")
  str _ := pure (text "<object>")
  b64encode _ := throw (.errorAlreadySet (text "a bytes-like object is required"))

/-- `try { if (py::int_(n).equal(obj)) return n; } catch (...) {}` around a cast that throws if `n`
is not in the range. -/
def tryCast (inRange : Prop) [Decidable inRange] (equal : PyResult Bool) : PyResult Bool :=
  if inRange then
    match equal.run with
    | some (.ok same) => pure same
    | some (.error _) => pure false
    | none => ExceptT.mk none
  else pure false

section

variable {O : Type} (objects : PyObjects O)

/-- The tests of `to_json`, in their order. A `bool` is an `int` as well. -/
def PyObjects.node (o : O) : PyNode :=
  if objects.isNone o then .none
  else if objects.isinstance .bool_ o then .bool
  else if objects.isinstance .int_ o then .int
  else if objects.isinstance .float_ o then .float
  else if objects.isinstance .bytes o then .bytes
  else if objects.isinstance .str o then .str
  else if objects.isinstance .tuple o || objects.isinstance .list o then .sequence
  else if objects.isinstance .dict o then .dict
  else .other

/-- An integer as `number_integer_t` or else as `number_unsigned_t`, if it is in the range of
one of them and equal to what the cast gives. -/
def PyObjects.intToJson (o : O) : PyResult (Option Json) := do
  let n := objects.castInt o
  if ← tryCast (-2 ^ 63 ≤ n ∧ n < 2 ^ 63) (objects.equal n o) then
    pure (some (numberInteger (Int64.ofInt n)))
  else if ← tryCast (0 ≤ n ∧ n < 2 ^ 64) (objects.equal n o) then
    pure (some (numberUnsigned (UInt64.ofNat n.toNat)))
  else pure none

/-- What is thrown at an object that has no JSON form. -/
def refuse (message : String) (o : O) : PyResult Json := do
  let repr ← objects.repr o
  throw (.poesie (text message ++ repr))

/-- `out.push_back(to_json(value))` -/
def addItem (convert : O → PyResult Json) (out : List Json) (value : O) : PyResult (List Json) := do
  let j ← convert value
  pure (out ++ [j])

/-- `out[py::str(key).cast<std::string>()] = to_json(obj[key])`. The value is converted before the
key is made a string. -/
def PyObjects.addMember (convert : O → PyResult Json) (o : O) (out : List (Bytes × Json)) (key : O) :
    PyResult (List (Bytes × Json)) := do
  let value ← objects.getItem o key
  let j ← convert value
  let name ← objects.str key
  pure (StdMap.assign name j out)

/-- `to_json`, with room for `depth` nested calls on the stack and time for `rounds` turns of each
loop. There is no result where they do not suffice. -/
def to_json (rounds : Nat) : Nat → O → PyResult Json
  | 0, _ => ExceptT.mk none
  | depth + 1, o =>
      match objects.node o with
      | .none => pure null
      | .bool => pure (boolean (objects.castBool o))
      | .int => do
          match ← objects.intToJson o with
          | some j => pure j
          | none => refuse objects ("to_json received an integer out of range for both "
              ++ "json::number_integer_t and json::number_unsigned_t type: ") o
      | .float => pure (numberFloat (objects.castDouble o))
      | .bytes => do
          let encoded ← objects.b64encode o
          pure (string encoded)
      | .str => ended ((objects.castString o).map string)
      | .sequence => do
          let out ← Limited.loop (objects.next o) (addItem (to_json rounds depth)) rounds 0 []
          pure (array out)
      | .dict => do
          let out ← Limited.loop (objects.next o) (objects.addMember (to_json rounds depth) o)
            rounds 0 []
          pure (object out)
      | .other => refuse objects "to_json not implemented for this type of object: " o

end

/-! ## The interpreter -/

def CppException.isErrorAlreadySet : CppException → Bool
  | errorAlreadySet _ => true
  | _ => false

/-- A constructor that reads outside of its bytes finds what makes it throw, and no Python error. -/
def Fault.isErrorAlreadySet : Fault → Bool
  | thrown e => e.isErrorAlreadySet
  | outOfRange _ _ => false

/-- What Python code can change: the interpreter, and memory with the views that point to it. -/
abbrev PyWorld (S : Type) := S × Heap

/-- A call into the interpreter. -/
abbrev PyCall (S α : Type) := PyWorld S → Except CppException α × PyWorld S

/-- What the backend uses of pybind11. An error of Python code arrives as an
`error_already_set`; a C++ exception of a foreign function has become one on its way. -/
structure Interpreter (S O : Type) where
  api : VmApi O
  objects : S → PyObjects O
  /-- The object that `m_main_module` holds. -/
  mainModule : O
  /-- `py::str("poesie")` -/
  poesie : O
  /-- `py::module::import("sys")` -/
  importSys : PyCall S O
  /-- `sys.attr("argv") = argv` -/
  setArgv : O → List O → PyCall S Unit
  /-- `py::exec(code, m_main_namespace)` -/
  exec : Bytes → PyCall S Unit
  /-- `m_main_namespace.contains(target)` -/
  contains : Bytes → PyCall S Bool
  /-- `m_main_namespace[target]` -/
  getItem : Bytes → PyCall S O
  /-- `py::hasattr(target, function)` -/
  hasattr : O → Bytes → PyWorld S → Bool × PyWorld S
  /-- `target.attr(function)(*args)` -/
  callAttr : O → Bytes → List O → PyCall S O
  /-- `m_main_namespace[name] = py::cpp_function{..}` -/
  setItem : Bytes → ForeignFn → UInt64 → PyCall S Unit
  importSys_raises : ∀ {w w' e}, importSys w = (.error e, w') → e.isErrorAlreadySet
  setArgv_raises : ∀ {sys argv w w' e},
    setArgv sys argv w = (.error e, w') → e.isErrorAlreadySet
  exec_raises : ∀ {code w w' e}, exec code w = (.error e, w') → e.isErrorAlreadySet
  callAttr_raises : ∀ {o function args w w' e},
    callAttr o function args w = (.error e, w') → e.isErrorAlreadySet
  setItem_raises : ∀ {name f nargs w w' e},
    setItem name f nargs w = (.error e, w') → e.isErrorAlreadySet

/-- The interpreter with the mutex around it. -/
structure PythonState (S : Type) where
  locked : Bool
  world : PyWorld S

/-- How an operation ends. One that is left by an exception, or where a constructor reads outside
of its bytes, is `thrown`. One that is stuck waits for ever, or the process ends with it. -/
inductive Ended (α : Type) where
  | returned (a : α)
  | thrown (fault : Fault)
  | stuck

/-- A step of an operation. -/
def Py (S α : Type) : Type := PythonState S → Ended α × PythonState S

instance {S : Type} : Monad (Py S) where
  pure a := fun s => (.returned a, s)
  bind f g := fun s =>
    match f s with
    | (.returned a, s') => g a s'
    | (.thrown fault, s') => (.thrown fault, s')
    | (.stuck, s') => (.stuck, s')

namespace Py

variable {S O α : Type}

/-- `ABT_mutex_lock(m_mtx)` -/
def lock : Py S Unit := fun s =>
  if s.locked then (.stuck, s) else (.returned (), { s with locked := true })

/-- `ABT_mutex_unlock(m_mtx)` -/
def unlock : Py S Unit := fun s => (.returned (), { s with locked := false })

/-- A call into the interpreter. -/
def interp (call : PyCall S α) : Py S α := fun s =>
  match call s.world with
  | (.ok a, w) => (.returned a, { s with world := w })
  | (.error e, w) => (.thrown (.thrown e), { s with world := w })

/-- `py::hasattr(o, function)` -/
def hasattr (p : Interpreter S O) (o : O) (function : Bytes) : Py S Bool := fun s =>
  match p.hasattr o (cString function) s.world with
  | (has, w) => (.returned has, { s with world := w })

/-- `to_json(ret)`. A conversion that overflows the stack ends the process, and one that comes to
no end in `rounds` turns of a loop has not returned. -/
def toJson (p : Interpreter S O) (rounds stack : Nat) (ret : O) : Py S (Result Json) := fun s =>
  match (to_json (p.objects s.world.1) rounds stack ret).run with
  | some (.ok j) => (.returned { value := j }, s)
  | some (.error e) => (.thrown (.thrown e), s)
  | none => (.stuck, s)

/-- `try { body } catch(const py::error_already_set& e) { handler(e.what()) }` -/
def tryPython (body : Py S α) (handler : Bytes → α) : Py S α := fun s =>
  match body s with
  | (.thrown (.thrown (.errorAlreadySet what)), s') => (.returned (handler what), s')
  | r => r

/-- Convert the arguments and go on. The vector `createdViews` lives until the block is left,
normally or by an exception. -/
def withArgs (m : Margo) (env : ViewId → Env) (p : Interpreter S O) (args : List Json)
    (body : List O → Py S α) : Py S α := fun s =>
  match convertItems m env (from_json p.api) args [] s.world.2 with
  | (converted, created, heap) =>
      let s := { s with world := (s.world.1, heap) }
      let (ended, s) := match converted with
        | .ok values => body values s
        | .error fault => (.thrown fault, s)
      (ended, { s with world :=
        (s.world.1, s.world.2.releaseAll MemoryViewImpl.destroy created) })

end Py

/-! ## The operations -/

namespace PythonVm

variable {S O : Type}

def failed (message : Bytes) : Result Json := { success := false, error := message, value := null }

def errorRunning (what : Bytes) : Result Json :=
  failed (text "Error running Python code: " ++ what)

section

variable (m : Margo) (env : ViewId → Env) (p : Interpreter S O) (rounds stack : Nat)

/-- Set `sys.argv` and run the code. -/
def runCode (code : Bytes) (sys : O) (argv : List O) : Py S (Result Json) := do
  Py.interp (p.setArgv sys (p.poesie :: argv))
  Py.interp (p.exec (cString code))
  pure { value := null }

/-- `PythonVm::execute` -/
def execute (code : Bytes) (args : List Json) : Py S (Result Json) := do
  Py.lock
  let result ← Py.tryPython (do
      let sys ← Py.interp p.importSys
      Py.withArgs m env p args (runCode p code sys))
    errorRunning
  Py.unlock
  pure result

/-- `PythonVm::load`, with the files that can be read. -/
def load (files : Bytes → Option Bytes) (filename : Bytes) (args : List Json) :
    Py S (Result Json) :=
  match files filename with
  | none => pure (failed (text "Error opening file: " ++ filename))
  | some code => execute m env p code args

/-- The target of a call. -/
def findTarget (target : Bytes) : Py S (Option O) :=
  if target = [] then pure (some p.mainModule)
  else do
    if ← Py.interp (p.contains (cString target)) then
      let o ← Py.interp (p.getItem (cString target))
      pure (some o)
    else pure none

/-- The part of `PythonVm::call` in front of its `try` block: the target of the call, or the
result of an early return. -/
def findFunction (function target : Bytes) : Py S (Result Json ⊕ O) := do
  match ← findTarget p target with
  | none => pure (.inl (failed (text "Could not find target " ++ target)))
  | some o =>
      if ← Py.hasattr p o function then
        pure (.inr o)
      else pure (.inl (failed (text "Could not find function or method " ++ function)))

/-- The `try` block of `PythonVm::call`, and what comes after it. -/
def callFunction (function : Bytes) (o : O) (pyargs : List O) : Py S (Result Json) := do
  let result ← Py.tryPython (do
      let ret ← Py.interp (p.callAttr o (cString function) pyargs)
      Py.toJson p rounds stack ret)
    errorRunning
  Py.unlock
  pure result

/-- `PythonVm::call`. The arguments are converted outside of the `try` block. -/
def call (function target : Bytes) (args : List Json) : Py S (Result Json) := do
  Py.lock
  match ← findFunction p function target with
  | .inl result => do
      Py.unlock
      pure result
  | .inr o => Py.withArgs m env p args (callFunction p rounds stack function o)

/-- The result of an `install` that Python refused. In a `Result<bool>` the value is the flag. -/
def notInstalled (name what : Bytes) : Result Bool where
  success := false
  error := text "Could not install foreign function " ++ name ++ text ": " ++ what
  value := false

/-- `PythonVm::install` -/
def install (name : Bytes) (f : ForeignFn) (nargs : UInt64) : Py S (Result Bool) := do
  Py.lock
  let result ← Py.tryPython (do
      Py.interp (p.setItem (cString name) f nargs)
      pure { value := true })
    (notInstalled name)
  Py.unlock
  pure result

end

end PythonVm

end Poesie
