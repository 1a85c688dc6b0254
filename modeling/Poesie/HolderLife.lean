import Mathlib.Logic.Relation
import Poesie.JavascriptInstall
import Poesie.Unprotected

set_option autoImplicit false

/-! # How long the holders of JavaScript functions live

`JavascriptVm::install` stores the pointer to a holder in a function object of the VM and hands the
holder over to the map `m_ffuncs`. The VM never forgets the pointer as long as the object can be
reached; the map destroys a holder for whose name it has one already. So the second installation
under a name leaves a function object that points to nothing.

Scripts, setters and traps are lists of operations on the objects. They can copy a pointer from one
hidden property to another, and with `Duktape.Pointer` they can put one there that is none of the
backend's.
-/

namespace Poesie

open Wire Json SharedPtr Outcomes Runs

/-! ## Hidden properties -/

namespace DukHeap

variable (h : DukHeap)

/-- One object has a property that holds the other, inherits from it or is a proxy for it. -/
def Refers (o o' : Nat) : Prop :=
  (∃ e ∈ (h.objects o).own, ∃ writable, e.2.slot = .data (.object o') writable) ∨
    o' ∈ (h.objects o).prototypes ∨ (h.objects o).proxy = some o'

/-- Reachable from the global object. -/
def Reachable (o : Nat) : Prop := Relation.ReflTransGen h.Refers h.globalObject o

/-- The pointers in hidden properties are all of this kind. -/
def HoldersFit (P : Nat → Prop) : Prop :=
  ∀ o, ∀ e ∈ (h.objects o).own, e.1 = JavascriptVm.holderKey →
    ∀ p writable, e.2.slot = .data (.pointer p) writable → P p

variable {h}

/-- A property leads to another object. -/
theorem Reachable.read {o o' : Nat} {k : Bytes} (ho : h.Reachable o)
    (hread : h.read o k = .value (.object o')) : h.Reachable o' := by
  unfold DukHeap.read at hread
  cases hfind : h.find k prototypeChainSanity (h.chain o) with
  | absent | limit => simp [hfind] at hread
  | property p property =>
      rw [hfind] at hread
      obtain ⟨hchain, hmem⟩ := mem_of_find hfind
      have hp : h.Reachable p := by
        rcases List.mem_cons.mp hchain with rfl | hinherited
        · exact ho
        · exact ho.tail (.inr (.inl hinherited))
      obtain ⟨slot, enumerable⟩ := property
      cases slot with
      | data v writable =>
          cases hread
          exact hp.tail (.inl ⟨_, hmem, writable, rfl⟩)
      | accessor getter setter => cases getter <;> cases hread

end DukHeap

/-- The variables hold no other pointers. -/
def DukFrame.Fits (P : Nat → Prop) (f : DukFrame) : Prop := ∀ r p, f.vars r = .pointer p → P p

namespace HeapOp

/-- The operation puts no other pointer into a hidden property. -/
def Safe (P : Nat → Prop) (f : DukFrame) : HeapOp → Prop
  | .define _ k r _ _ => k = JavascriptVm.holderKey → ∀ p, f.vars r = .pointer p → P p
  | _ => True

/-- No operation does, in the state in which it comes. -/
def Careful (P : Nat → Prop) : List HeapOp → DukFrame → Prop
  | [], _ => True
  | op :: rest, f => op.Safe P f ∧ Careful P rest (op.apply f)

end HeapOp

/-- What setters and the traps `set` do in a state, and how they end. The object and the value are
in their first variables. -/
structure StoreCode where
  setter : Nat → DukFrame → List HeapOp × CodeEnd Unit
  trapSet : Nat → Bytes → DukFrame → List HeapOp × CodeEnd Bool

namespace StoreCode

/-- The variables of a setter or a trap. -/
def arguments (base v : DukValue) (h : DukHeap) : DukFrame where
  heap := h
  vars r := if r = 0 then base else if r = 1 then v else .undefined

/-- A VM in which assignments run that code. -/
def host (code : StoreCode) (h : DukHost) : DukHost :=
  { h with
    toDukCode := { h.toDukCode with
      setter := fun f base v w =>
        let frame := arguments base v w.1
        let (ops, ending) := code.setter f frame
        (ending, ((HeapOp.run ops frame).heap, w.2))
      trapSet := fun o k v w =>
        let frame := arguments (.object o) v w.1
        let (ops, ending) := code.trapSet o k frame
        (ending, ((HeapOp.run ops frame).heap, w.2)) } }

/-- With such pointers in its variables, no setter or trap puts another one into a hidden
property. -/
structure Careful (code : StoreCode) (P : Nat → Prop) : Prop where
  setter : ∀ f frame, frame.Fits P → HeapOp.Careful P (code.setter f frame).1 frame
  trapSet : ∀ o k frame, frame.Fits P → HeapOp.Careful P (code.trapSet o k frame).1 frame

end StoreCode

namespace DukHeap.HoldersFit

variable {P Q : Nat → Prop} {h : DukHeap}

theorem mono (hh : h.HoldersFit P) (hPQ : ∀ p, P p → Q p) : h.HoldersFit Q :=
  fun o e he hk p w hslot => hPQ p (hh o e he hk p w hslot)

theorem change (hh : h.HoldersFit P) {o : Nat} {object : DukObject}
    (ho : ∀ e ∈ object.own, e.1 = JavascriptVm.holderKey →
      ∀ p writable, e.2.slot = .data (.pointer p) writable → P p) :
    (h.change o object).HoldersFit P := by
  intro o' e he
  have he : e ∈ (Function.update h.objects o object o').own := he
  by_cases hself : o' = o
  · rw [hself, Function.update_self] at he
    exact ho e he
  · rw [Function.update_of_ne hself] at he
    exact hh o' e he

/-- An object without properties is added. -/
theorem add (hh : h.HoldersFit P) {object : DukObject} (hown : object.own = []) :
    ({ h with objects := Function.update h.objects h.next object, next := h.next + 1 } :
      DukHeap).HoldersFit P := by
  have hchange : (h.change h.next object).HoldersFit P := hh.change (by simp [hown])
  exact fun o e he => hchange o e he

theorem store (hh : h.HoldersFit P) (o : Nat) (k : Bytes) {v : DukValue}
    (hv : k = JavascriptVm.holderKey → ∀ p, v = .pointer p → P p) :
    (h.store o k v).HoldersFit P := by
  refine hh.change fun e he hk p w hslot => ?_
  have hold : e ∈ (h.objects o).own → P p := fun hmem => hh o e hmem hk p w hslot
  split at he
  · -- a property that was there keeps its place
    obtain ⟨e', he', rfl⟩ := List.mem_map.mp he
    by_cases hkey : e'.1 = k
    · rw [if_pos hkey] at hk hslot
      cases hslot
      exact hv hk p rfl
    · rw [if_neg hkey] at hk hslot
      exact hh o e' he' hk p w hslot
  · rcases List.mem_append.mp he with hmem | hlast
    · exact hold hmem
    · rw [List.mem_singleton.mp hlast] at hk hslot
      cases hslot
      exact hv hk p rfl

/-- What the binding of a function finds. -/
theorem read (hh : h.HoldersFit P) {o p : Nat}
    (hread : h.read o JavascriptVm.holderKey = .value (.pointer p)) : P p := by
  unfold DukHeap.read at hread
  cases hfind : h.find JavascriptVm.holderKey prototypeChainSanity (h.chain o) with
  | absent | limit => simp [hfind] at hread
  | property o' property =>
      rw [hfind] at hread
      obtain ⟨slot, enumerable⟩ := property
      have hmem := (DukHeap.mem_of_find hfind).2
      cases slot with
      | data v writable =>
          cases hread
          exact hh o' _ hmem rfl p writable rfl
      | accessor getter setter => cases getter <;> cases hread

end DukHeap.HoldersFit

namespace HeapOp

variable {P : Nat → Prop} {f : DukFrame}

/-- The object that a variable holds is changed. -/
theorem holdersFit_change (hf : f.heap.HoldersFit P) (base : Nat) {g : DukObject → DukObject}
    (hg : ∀ object : DukObject, ∀ e ∈ (g object).own, e ∈ object.own ∨
      (e.1 = JavascriptVm.holderKey → ∀ p writable, e.2.slot = .data (.pointer p) writable → P p)) :
    (f.change base g).heap.HoldersFit P := by
  unfold DukFrame.change
  split
  · refine hf.change fun e he hk p w hslot => ?_
    rcases hg _ e he with hmem | hnew
    · exact hf _ e hmem hk p w hslot
    · exact hnew hk p w hslot
  · exact hf

theorem holdersFit_apply (hf : f.heap.HoldersFit P) {op : HeapOp} (hop : op.Safe P f) :
    (op.apply f).heap.HoldersFit P := by
  cases op with
  | create r isArray => exact hf.add rfl
  | createProxy r target =>
      show (f.createProxy r target).heap.HoldersFit P
      unfold DukFrame.createProxy
      split
      · rename_i o hvar
        have hadded : (f.heap.alloc (f.heap.objects o).isArray).HoldersFit P := hf.add rfl
        exact hadded.change (by simp)
      · exact hf
  -- the only operation that can put a pointer into a property
  | define base k r writable enumerable =>
      refine holdersFit_change hf base fun object e he => ?_
      rcases mem_setOwn he with rfl | hmem
      · exact .inr fun hk p w hslot => hop hk p (DukSlot.data.inj hslot).1
      · exact .inl hmem
  | accessor base k getter setter enumerable =>
      refine holdersFit_change hf base fun object e he => ?_
      rcases mem_setOwn he with rfl | hmem
      · exact .inr fun hk p w hslot => by cases hslot
      · exact .inl hmem
  | delete base k =>
      have hsub : ∀ object : DukObject, ∀ e ∈ object.own.filter (fun e => e.1 ≠ k),
          e ∈ object.own ∨ (e.1 = JavascriptVm.holderKey →
            ∀ p writable, e.2.slot = .data (.pointer p) writable → P p) :=
        fun object e he => .inl (List.mem_of_mem_filter he)
      exact holdersFit_change hf base hsub
  | setPrototypes base prototypes =>
      exact holdersFit_change hf base fun object e he => .inl he
  | restrict base extensible fixedLength =>
      exact holdersFit_change hf base fun object e he => .inl he
  | rescue r o =>
      show (if o < f.heap.next then f.set r (.object o) else f).heap.HoldersFit P
      split
      · exact hf
      · exact hf
  | literal r v => exact hf
  | globalObject r => exact hf
  | get r base k => exact hf
  | makePointer r p => exact hf
  | grow n => exact hf

/-- Code that is careful leaves only such pointers in hidden properties. -/
theorem holdersFit_run {ops : List HeapOp} (hf : f.heap.HoldersFit P) (hops : Careful P ops f) :
    (run ops f).heap.HoldersFit P := by
  induction ops generalizing f with
  | nil => exact hf
  | cons op rest ih => exact ih (holdersFit_apply hf hops.1) hops.2

end HeapOp

/-! ## Assignments -/

namespace StoreCode.Careful

variable {code : StoreCode} {h : DukHost} {P : Nat → Prop} {w : DukWorld} {v : DukValue}

theorem fits_arguments {base : DukValue} {heap : DukHeap} (hbase : ∀ p, base = .pointer p → P p)
    (hv : ∀ p, v = .pointer p → P p) : (arguments base v heap).Fits P := by
  intro r p hvar
  have hvar : (if r = 0 then base else if r = 1 then v else .undefined) = DukValue.pointer p := hvar
  by_cases hzero : r = 0
  · rw [if_pos hzero] at hvar
    exact hbase p hvar
  · rw [if_neg hzero] at hvar
    by_cases hone : r = 1
    · rw [if_pos hone] at hvar
      exact hv p hvar
    · rw [if_neg hone] at hvar
      cases hvar

theorem ensures_putPlain (hcode : code.Careful P) (hw : w.1.HoldersFit P) (o : Nat) (k : Bytes)
    (hv : ∀ p, v = .pointer p → P p) :
    (Duk.putPlain (code.host h).toDukCode (.object o) k v).Ensures w
      fun _ w' => w'.1.HoldersFit P := by
  intro u w' hgives
  unfold Prog.Gives Duk.putPlain at hgives
  cases hwrite : w.1.write (.object o) k with
  | store target =>
      rw [hwrite] at hgives
      cases hgives
      exact hw.store target k fun _ => hv
  | setter f =>
      rw [hwrite] at hgives
      obtain rfl : ((code.host h).setter f (.object o) v w).2 = w' :=
        congrArg Prod.snd (Duk.gives_run_iff.mp hgives)
      exact HeapOp.holdersFit_run hw (hcode.setter f _ (fits_arguments (by simp) hv))
  | refused =>
      rw [hwrite] at hgives
      cases hgives

/-- An assignment, with the setter or the trap that it runs. -/
theorem ensures_putProp (hcode : code.Careful P) (hw : w.1.HoldersFit P) (o : Nat) (key : DukKey)
    (hv : ∀ p, v = .pointer p → P p) :
    (Duk.putProp (code.host h).toDukCode (.object o) key v).Ensures w
      fun _ w' => w'.1.HoldersFit P := by
  refine (Prog.Ensures.of_gives (Duk.gives_inspect _ w)
    (Q := fun target w₁ => target = w.1.target (.object o) ∧ w₁ = w) ⟨rfl, rfl⟩).bind ?_
  rintro target w₁ ⟨-, rfl⟩
  cases target with
  | some proxy =>
      obtain ⟨handler, target⟩ := proxy
      have htrap : (Duk.run ((code.host h).trapSet handler key.bytes v)).Ensures w₁
          fun _ w' => w'.1.HoldersFit P := by
        intro handled w' hgives
        obtain rfl : ((code.host h).trapSet handler key.bytes v w₁).2 = w' :=
          congrArg Prod.snd (Duk.gives_run_iff.mp hgives)
        exact HeapOp.holdersFit_run hw (hcode.trapSet handler key.bytes _
          (fits_arguments (by simp) hv))
      refine htrap.bind fun handled w' hw' => ?_
      cases handled with
      | true => exact .pure hw'
      | false => exact hcode.ensures_putPlain hw' target key.bytes hv
  | none =>
      refine (Prog.Ensures.of_gives (Duk.gives_inspect _ w₁)
        (Q := fun _ w₂ => w₂ = w₁) rfl).bind ?_
      rintro fast w₂ rfl
      cases fast with
      | some o' => exact .of_gives rfl (hw.store o' key.bytes fun _ => hv)
      | none => exact hcode.ensures_putPlain hw o key.bytes hv

end StoreCode.Careful

/-! ## Runs -/

namespace JavascriptVm

/-- What happens to a VM. -/
inductive HolderEvent where
  | install (name : Bytes) (holder : FunctionHolder)
  | script (ops : List HeapOp)

variable (code : StoreCode) (h : DukHost) (z : DukSizes)

/-- One event; `none` once an installation has ended the process. -/
def holderStep : Option JavascriptState → HolderEvent → Option JavascriptState
  | none, _ => none
  | some s, .install name holder => install (code.host h) z name holder s
  | some s, .script ops => some { s with thread := runScript ops s.thread }

/-- The holder is there, and the map owns it. -/
def Owned (s : JavascriptState) (p : Nat) : Prop :=
  s.holders p ≠ none ∧ ∃ name, (name, p) ∈ s.ffuncs

/-- Every function that can be reached and has a holder has one that the map owns. -/
def HoldersAlive : Option JavascriptState → Prop
  | none => True
  | some s => ∀ o p, s.thread.world.1.Reachable o →
      s.thread.world.1.read o holderKey = .value (.pointer p) → Owned s p

/-- The name is not in the map yet. What is run puts no other pointers into hidden properties than
those to holders that the map owns, and to the new one. -/
def HolderKept (s : JavascriptState) : HolderEvent → Prop
  | .install name _ =>
      (∀ f ∈ s.ffuncs, f.1 ≠ name) ∧ code.Careful fun p => Owned s p ∨ p = s.next
  | .script ops => HeapOp.Careful (Owned s) ops ⟨s.thread.world.1, fun _ => .undefined⟩

/-- What holds throughout a run. -/
structure HoldersSound (s : JavascriptState) : Prop where
  objects : s.thread.world.1.HoldersFit (Owned s)
  unused : ∀ p, s.holders p ≠ none → p < s.next

variable {code h z} {s s' : JavascriptState}

/-- The map goes on owning what it owned, and owns the new holder. -/
theorem owned_insertHolder {name : Bytes} (hnew : ∀ f ∈ s.ffuncs, f.1 ≠ name)
    {holder : FunctionHolder} (hunused : ∀ p, s.holders p ≠ none → p < s.next) {p : Nat}
    (hp : Owned s p ∨ p = s.next) : Owned (insertHolder name holder s) p := by
  rw [insertHolder_of_new hnew]
  rcases hp with ⟨hholder, name', hmem⟩ | rfl
  · have hlt := hunused p hholder
    refine ⟨?_, name', List.mem_append_left _ hmem⟩
    show Function.update s.holders s.next (some holder) p ≠ none
    rw [Function.update_of_ne (Nat.ne_of_lt hlt)]
    exact hholder
  · refine ⟨?_, name, by simp⟩
    show Function.update s.holders s.next (some holder) s.next ≠ none
    rw [Function.update_self]
    exact Option.some_ne_none holder

theorem HoldersSound.install (hs : HoldersSound s) {name : Bytes} {holder : FunctionHolder}
    (hnew : ∀ f ∈ s.ffuncs, f.1 ≠ name) (hcode : code.Careful fun p => Owned s p ∨ p = s.next)
    (hinstall : JavascriptVm.install (code.host h) z name holder s = some s') :
    HoldersSound s' := by
  obtain ⟨t', hafter, rfl⟩ := Option.map_eq_some_iff.mp hinstall
  obtain ⟨u, hgives⟩ := Prog.gives_of_after hafter
  obtain ⟨w, hholder, hname, -⟩ := of_gives_installFunction hgives
  have hfresh : s.thread.world.1.allocFunction.HoldersFit fun p => Owned s p ∨ p = s.next :=
    (hs.objects.mono fun p hp => .inl hp).add rfl
  have hpublished : w.1.HoldersFit fun p => Owned s p ∨ p = s.next := by
    refine hcode.ensures_putProp hfresh _ _ (fun p hp => .inr ?_) () w hholder
    exact (DukValue.pointer.inj hp).symm
  have hassigned : t'.world.1.HoldersFit fun p => Owned s p ∨ p = s.next :=
    hcode.ensures_putProp hpublished _ _ (by simp) () t'.world hname
  constructor
  · refine DukHeap.HoldersFit.mono ?_ fun p hp => owned_insertHolder (s := { s with thread := t' })
      hnew hs.unused hp
    rw [insertHolder_of_new (s := { s with thread := t' }) hnew]
    exact hassigned
  · exact unused_insertHolder (s := { s with thread := t' }) hnew _ hs.unused

/-- What one event keeps. -/
theorem HoldersSound.step (hs : HoldersSound s) {e : HolderEvent} (he : HolderKept code s e)
    (hstep : holderStep code h z (some s) e = some s') : HoldersSound s' := by
  cases e with
  | install name holder => exact hs.install he.1 he.2 hstep
  | script ops =>
      cases hstep
      exact ⟨HeapOp.holdersFit_run hs.objects he, hs.unused⟩

/-- **Holders stay alive.** In a run of installations under names that are new, and of scripts that
put no other pointers into hidden properties, the functions that can be reached have holders that
the map owns, in every state. -/
theorem holders_alive {t : DukThread} (ht : t.world.1.HoldersFit fun _ => False)
    {events : List HolderEvent} (halong : Along (holderStep code h z)
      (Before (HolderKept code)) (some (withoutFunctions t)) events) :
    Always (holderStep code h z) HoldersAlive (some (withoutFunctions t)) events := by
  -- the invariant, until the process ends
  have hkeep : ∀ (o : Option JavascriptState) (e : HolderEvent),
      (∀ s, o = some s → HoldersSound s) →
      Before (HolderKept code) o e → ∀ s', holderStep code h z o e = some s' →
        HoldersSound s' := by
    intro o e ho he s' hstep
    cases o with
    | none => cases hstep
    | some s => exact (ho s rfl).step he hstep
  have hstart : ∀ s, some (withoutFunctions t) = some s → HoldersSound s := by
    rintro s ⟨⟩
    exact ⟨ht.mono fun p hp => hp.elim, fun p hp => absurd rfl hp⟩
  refine (always_of_along hkeep hstart halong).mono fun o ho => ?_
  cases o with
  | none => trivial
  | some s => exact fun o p _ hread => (ho s rfl).objects.read hread

/-! ## Two runs -/

/-- A setter that keeps what is assigned under another name. -/
def keepsLast : StoreCode where
  setter f _ := (if f = 1 then [.define 0 (text "last") 1 true true] else [], .gave ())
  trapSet _ _ _ := ([], .gave false)

theorem careful_keepsLast (P : Nat → Prop) : keepsLast.Careful P where
  setter f frame _ := by
    have hkey : text "last" ≠ holderKey := by decide
    show HeapOp.Careful P (if f = 1 then [.define 0 (text "last") 1 true true] else []) frame
    split
    · exact ⟨fun h => absurd h hkey, trivial⟩
    · exact trivial
  trapSet o k frame _ := trivial

/-- A script gives the hidden property of `f` to a new object, and the global `g` that setter. -/
def copiesHolder : List HeapOp :=
  [.globalObject 0, .get 1 0 (text "f"), .get 2 1 holderKey, .create 3 false,
    .define 3 holderKey 2 true true, .define 0 (text "copy") 3 true true,
    .accessor 0 (text "g") none (some 1) true]

theorem careful_copiesHolder {P : Nat → Prop} {heap : DukHeap}
    (hpointer : ∀ p, (HeapOp.run (copiesHolder.take 4) ⟨heap, fun _ => .undefined⟩).vars 2 =
      .pointer p → P p) : HeapOp.Careful P copiesHolder ⟨heap, fun _ => .undefined⟩ := by
  have hkey : text "copy" ≠ holderKey := by decide
  exact ⟨trivial, trivial, trivial, trivial, fun _ => hpointer, fun h => absurd h hkey, trivial,
    trivial⟩

/-- A function of no arguments. -/
def nullary : FunctionHolder := ⟨fun _ => .ok null, 0⟩

theorem holdersFit_freshDuk : freshDuk.world.1.HoldersFit fun _ => False := by
  have hkeys : text "__proto__" ≠ holderKey ∧ text "length" ≠ holderKey := by decide
  intro o e he hkey
  by_cases hglobal : o = 2
  · subst hglobal
    cases he
  · have he : e ∈ (builtins.objects o).own := by
      rwa [← show freshDuk.world.1.objects o = builtins.objects o from
        Function.update_of_ne hglobal _ _]
    simp only [builtins] at he
    by_cases hzero : o = 0
    · rw [if_pos hzero] at he
      rw [List.mem_singleton.mp he] at hkey
      exact absurd hkey hkeys.1
    · rw [if_neg hzero] at he
      rw [List.mem_singleton.mp he] at hkey
      exact absurd hkey hkeys.2

/-- Two functions are installed, the second through the setter. The script in between copies the
pointer to the holder of the first. -/
theorem holders_alive_sample :
    let events : List HolderEvent :=
      [.install (text "f") nullary, .script copiesHolder, .install (text "g") nullary]
    Always (holderStep keepsLast inertHost dukSizes) HoldersAlive
        (some (withoutFunctions freshDuk)) events ∧
      (run (holderStep keepsLast inertHost dukSizes) (some (withoutFunctions freshDuk)) events).map
          (fun s => (s.ffuncs, s.thread.world.1.read 2 (text "last"),
            s.thread.world.1.read 4 holderKey, s.thread.world.1.read 5 holderKey)) =
        some ([(text "f", 0), (text "g", 1)], .value (.object 5), .value (.pointer 0),
          .value (.pointer 1)) := by
  intro events
  have hfirst : (holderStep keepsLast inertHost dukSizes (some (withoutFunctions freshDuk))
      (.install (text "f") nullary)).map (fun s => (s.ffuncs, (s.holders 0).isSome,
        (HeapOp.run (copiesHolder.take 4) ⟨s.thread.world.1, fun _ => .undefined⟩).vars 2)) =
        some ([(text "f", 0)], true, .pointer 0) := by
    decide +kernel
  obtain ⟨s, hstep, heq⟩ := Option.map_eq_some_iff.mp hfirst
  obtain ⟨hffuncs, hrest⟩ := Prod.mk.inj heq
  obtain ⟨hholder, hpointer⟩ := Prod.mk.inj hrest
  -- after the first installation the map owns holder 0, which the script reads
  have howned : Owned s 0 := by
    refine ⟨fun hnone => ?_, text "f", ?_⟩
    · rw [hnone] at hholder
      cases hholder
    · rw [hffuncs]
      exact List.mem_singleton_self _
  have halong : Along (holderStep keepsLast inertHost dukSizes) (Before (HolderKept keepsLast))
      (some (withoutFunctions freshDuk)) events := by
    refine ⟨⟨fun f hf => absurd hf List.not_mem_nil, careful_keepsLast _⟩, ?_⟩
    rw [hstep]
    refine ⟨careful_copiesHolder fun p hp => ?_, ⟨fun f hf => ?_, careful_keepsLast _⟩, trivial⟩
    · rw [hpointer] at hp
      rw [← DukValue.pointer.inj hp]
      exact howned
    · have hf : f ∈ s.ffuncs := hf
      rw [hffuncs] at hf
      rw [List.mem_singleton.mp hf]
      decide
  exact ⟨holders_alive holdersFit_freshDuk halong, by decide +kernel⟩

/-- The second installation under a name leaves a function object with a pointer to a holder that
was destroyed, and a script can put any pointer into the hidden property, whose key an argument
brought. -/
theorem installed_twice_dangles :
    (¬ ∀ events : List HolderEvent, Always (holderStep keepsLast inertHost dukSizes) HoldersAlive
      (some (withoutFunctions freshDuk)) events) ∧
    (run (holderStep keepsLast inertHost dukSizes) (some (withoutFunctions freshDuk))
        [.install (text "f") nullary, .install (text "f") nullary]).map
          (fun s => (s.ffuncs, (s.holders 1).isNone, s.thread.world.1.globalObject,
            s.thread.world.1.read 2 (text "f"),
            s.thread.world.1.read 4 holderKey)) =
      some ([(text "f", 0)], true, 2, .value (.object 4), .value (.pointer 1)) ∧
    (run (holderStep keepsLast inertHost dukSizes) (some (withoutFunctions freshDuk))
        [.install (text "f") nullary, .script [.globalObject 0, .get 1 0 (text "f"),
          .makePointer 2 7, .define 1 holderKey 2 true true]]).map
          (fun s => ((s.holders 7).isNone, s.thread.world.1.read 3 holderKey)) =
      some (true, .value (.pointer 7)) := by
  have htwice : (run (holderStep keepsLast inertHost dukSizes) (some (withoutFunctions freshDuk))
      [.install (text "f") nullary, .install (text "f") nullary]).map
        (fun s => (s.ffuncs, (s.holders 1).isNone, s.thread.world.1.globalObject,
            s.thread.world.1.read 2 (text "f"),
          s.thread.world.1.read 4 holderKey)) =
      some ([(text "f", 0)], true, 2, .value (.object 4), .value (.pointer 1)) := by
    decide +kernel
  refine ⟨fun hall => ?_, htwice, by decide +kernel⟩
  have halive := hall [.install (text "f") nullary, .install (text "f") nullary]
    [.install (text "f") nullary, .install (text "f") nullary] [] (List.append_nil _).symm
  obtain ⟨s, hrun, heq⟩ := Option.map_eq_some_iff.mp htwice
  rw [hrun] at halive
  simp only [Prod.mk.injEq] at heq
  obtain ⟨-, hgone, hglobal, hread, hpointer⟩ := heq
  -- the global `f` is the function object with the pointer to the holder that is gone
  have hreachable : s.thread.world.1.Reachable 4 := by
    refine DukHeap.Reachable.read (o := 2) (k := text "f") ?_ hread
    rw [← hglobal]
    exact .refl
  exact (halive 4 1 hreachable hpointer).1 (Option.isNone_iff_eq_none.mp hgone)

end JavascriptVm

end Poesie
