import Poesie.DukHeap

set_option autoImplicit false

/-! # What code does to the objects

Scripts, and the getters, setters and traps that they define, work on the objects of a VM one
operation after the other. An operation takes objects from variables, and can use any key: an
argument that starts with the byte of a hidden symbol is one. A finalizer gets hold of objects that
nothing else refers to.
-/

namespace Poesie

open Wire

/-- What code works on: the objects, and the values of its variables. -/
structure DukFrame where
  heap : DukHeap
  vars : Nat → DukValue

/-- An operation on the objects. Variables are told apart by numbers. -/
inductive HeapOp where
  /-- A literal. -/
  | literal (r : Nat) (v : DukValue)
  | globalObject (r : Nat)
  | create (r : Nat) (isArray : Bool)
  /-- `new Proxy` -/
  | createProxy (r target : Nat)
  /-- The value of a property that is no accessor. -/
  | get (r base : Nat) (k : Bytes)
  /-- An assignment, or `Object.defineProperty` with a value. -/
  | define (base : Nat) (k : Bytes) (r : Nat) (writable enumerable : Bool)
  /-- `Object.defineProperty` with a getter and a setter. -/
  | accessor (base : Nat) (k : Bytes) (get set : Option Nat) (enumerable : Bool)
  | delete (base : Nat) (k : Bytes)
  /-- `Object.setPrototypeOf`, as it shows at an object: those that are no object are left out. -/
  | setPrototypes (base : Nat) (prototypes : List Nat)
  /-- `Object.preventExtensions`, or an array gets a `length` that is not writable. -/
  | restrict (base : Nat) (extensible : Bool) (fixedLength : Option Nat)
  /-- A finalizer is called with an object. -/
  | rescue (r o : Nat)
  /-- `Duktape.Pointer` -/
  | makePointer (r p : Nat)
  /-- A call makes the value stack larger. -/
  | grow (n : Nat)
  deriving DecidableEq

/-- A value that a literal can have. -/
def DukValue.scalar : DukValue → DukValue
  | .object _ | .pointer _ => .undefined
  | v => v

namespace DukHeap

/-- The own properties with one of them set, in its place if it is there. -/
def setOwn (own : List (Bytes × DukProperty)) (k : Bytes) (p : DukProperty) :
    List (Bytes × DukProperty) :=
  if (own.lookup k).isSome then own.map fun e => if e.1 = k then (k, p) else e
  else own ++ [(k, p)]

/-- The object is replaced. -/
def change (h : DukHeap) (o : Nat) (object : DukObject) : DukHeap :=
  { h with objects := Function.update h.objects o object }

end DukHeap

namespace DukFrame

def set (f : DukFrame) (r : Nat) (v : DukValue) : DukFrame :=
  { f with vars := Function.update f.vars r v }

/-- The object that a variable holds is changed. -/
def change (f : DukFrame) (base : Nat) (g : DukObject → DukObject) : DukFrame :=
  match f.vars base with
  | .object o => { f with heap := f.heap.change o (g (f.heap.objects o)) }
  | _ => f

/-- The value of a property that is no accessor. -/
def value (f : DukFrame) (base : Nat) (k : Bytes) : DukValue :=
  match f.vars base with
  | .object o =>
      match f.heap.read o k with
      | .value v => v
      | _ => .undefined
  | _ => .undefined

/-- A fresh object that is a proxy for another one. -/
def createProxy (f : DukFrame) (r target : Nat) : DukFrame :=
  match f.vars target with
  | .object o =>
      let object := f.heap.objects o
      let heap := (f.heap.alloc object.isArray).change f.heap.next
        ⟨object.isArray, some o, [], f.heap.objectPrototypes, true, none⟩
      { f with heap := heap }.set r (.object f.heap.next)
  | _ => f

end DukFrame

namespace HeapOp

/-- What an operation does. One that finds no object does nothing. -/
def apply : HeapOp → DukFrame → DukFrame
  | .literal r v, f => f.set r v.scalar
  | .globalObject r, f => f.set r (.object f.heap.globalObject)
  | .create r isArray, f =>
      { f with heap := f.heap.alloc isArray }.set r (.object f.heap.next)
  | .createProxy r target, f => f.createProxy r target
  | .get r base k, f => f.set r (f.value base k)
  | .define base k r writable enumerable, f => f.change base fun object =>
      let property := ⟨.data (f.vars r) writable, enumerable⟩
      { object with own := DukHeap.setOwn object.own k property }
  | .accessor base k getter setter enumerable, f => f.change base fun object =>
      { object with own := DukHeap.setOwn object.own k ⟨.accessor getter setter, enumerable⟩ }
  | .delete base k, f => f.change base fun object =>
      { object with own := object.own.filter fun e => e.1 ≠ k }
  | .setPrototypes base prototypes, f => f.change base fun object =>
      { object with prototypes := prototypes.filter fun p => p < f.heap.next }
  | .restrict base extensible fixedLength, f => f.change base fun object =>
      { object with extensible := extensible, fixedLength := fixedLength }
  | .rescue r o, f => if o < f.heap.next then f.set r (.object o) else f
  | .makePointer r p, f => f.set r (.pointer p)
  | .grow n, f => { f with heap := { f.heap with limit := f.heap.limit + n } }

/-- One operation after the other. -/
def run (ops : List HeapOp) (f : DukFrame) : DukFrame := ops.foldl (fun f op => op.apply f) f

end HeapOp

/-! ## What there is -/

/-- If it is an object, it is one of the first `n`. -/
def DukValue.Fits (n : Nat) : DukValue → Prop
  | .object o => o < n
  | _ => True

structure DukObject.Fits (n : Nat) (object : DukObject) : Prop where
  values : ∀ e ∈ object.own, ∀ v writable, e.2.slot = .data v writable → v.Fits n
  prototypes : ∀ p ∈ object.prototypes, p < n

/-- All that a VM refers to is there. -/
structure DukHeap.Sound (h : DukHeap) : Prop where
  globalObject : h.globalObject < h.next
  chains : ∀ p, p ∈ h.arrayPrototypes ∨ p ∈ h.objectPrototypes ∨ p ∈ h.functionPrototypes →
    p < h.next
  objects : ∀ o, (h.objects o).Fits h.next

variable {n m : Nat} {h : DukHeap}

theorem DukValue.Fits.mono {v : DukValue} (hv : v.Fits n) (hnm : n ≤ m) : v.Fits m := by
  cases v with
  | object o => exact Nat.lt_of_lt_of_le hv hnm
  | _ => trivial

theorem DukObject.Fits.mono {object : DukObject} (ho : object.Fits n) (hnm : n ≤ m) :
    object.Fits m where
  values e he v writable hv := (ho.values e he v writable hv).mono hnm
  prototypes p hp := Nat.lt_of_lt_of_le (ho.prototypes p hp) hnm

/-- What a look-up finds is a property of one of the objects on the chain. -/
theorem DukHeap.mem_of_find {k : Bytes} {sanity : Nat} {chain : List Nat} {o : Nat}
    {p : DukProperty} (hfind : h.find k sanity chain = .property o p) :
    o ∈ chain ∧ (k, p) ∈ (h.objects o).own := by
  induction chain generalizing sanity with
  | nil =>
      unfold DukHeap.find at hfind
      cases hfind
  | cons o' chain ih =>
      unfold DukHeap.find at hfind
      cases hlookup : (h.objects o').own.lookup k with
      | some p' =>
          rw [hlookup] at hfind
          cases hfind
          obtain ⟨before, after, hown, -⟩ := List.lookup_eq_some_iff.mp hlookup
          rw [hown]
          simp
      | none =>
          rw [hlookup] at hfind
          cases sanity with
          | zero => cases hfind
          | succ sanity =>
              have hrest := ih hfind
              exact ⟨List.mem_cons_of_mem _ hrest.1, hrest.2⟩

namespace DukHeap.Sound

/-- An object that fits is put in the place of another one. -/
theorem change (hh : h.Sound) {o : Nat} {object : DukObject} (ho : object.Fits h.next) :
    (h.change o object).Sound where
  globalObject := hh.globalObject
  chains := hh.chains
  objects p := by
    show (Function.update h.objects o object p).Fits h.next
    by_cases hp : p = o
    · rw [hp, Function.update_self]
      exact ho
    · rw [Function.update_of_ne hp]
      exact hh.objects p

/-- An object is added. -/
theorem add (hh : h.Sound) {object : DukObject} (ho : object.Fits h.next) :
    ({ h with objects := Function.update h.objects h.next object, next := h.next + 1 } :
      DukHeap).Sound where
  globalObject := Nat.lt_succ_of_lt hh.globalObject
  chains p hp := Nat.lt_succ_of_lt (hh.chains p hp)
  objects p := by
    show (Function.update h.objects h.next object p).Fits (h.next + 1)
    by_cases hp : p = h.next
    · rw [hp, Function.update_self]
      exact ho.mono (Nat.le_succ _)
    · rw [Function.update_of_ne hp]
      exact (hh.objects p).mono (Nat.le_succ _)

theorem read (hh : h.Sound) {o : Nat} {k : Bytes} {v : DukValue}
    (hread : h.read o k = .value v) : v.Fits h.next := by
  unfold DukHeap.read at hread
  cases hfind : h.find k prototypeChainSanity (h.chain o) with
  | absent | limit => simp [hfind] at hread
  | property p property =>
      rw [hfind] at hread
      obtain ⟨slot, enumerable⟩ := property
      cases slot with
      | data v₁ writable =>
          cases hread
          exact (hh.objects p).values _ (mem_of_find hfind).2 v writable rfl
      | accessor getter setter =>
          cases getter with
          | none =>
              cases hread
              trivial
          | some g => cases hread

end DukHeap.Sound

theorem mem_setOwn {own : List (Bytes × DukProperty)} {k : Bytes} {p : DukProperty}
    {e : Bytes × DukProperty} (he : e ∈ DukHeap.setOwn own k p) : e = (k, p) ∨ e ∈ own := by
  unfold DukHeap.setOwn at he
  split at he
  · obtain ⟨e', he', rfl⟩ := List.mem_map.mp he
    by_cases hk : e'.1 = k
    · exact .inl (if_pos hk)
    · rw [if_neg hk]
      exact .inr he'
  · rcases List.mem_append.mp he with hmem | hlast
    · exact .inr hmem
    · exact .inl (List.mem_singleton.mp hlast)

end Poesie
