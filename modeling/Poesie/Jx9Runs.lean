import Poesie.Jx9Renumber

set_option autoImplicit false

/-! # Runs on the hash maps of a VM

Whatever operations are performed on the maps of a VM, in whatever order, they return what the
dictionaries of the maps say, as long as no map gets more entries than a table can be made for. The
memory objects that are not of maps are left alone.
-/

namespace Poesie

open Wire Chains Outcomes

namespace Jx9Hash

variable {V : Type} {ds : Nat → Dict V} {m : Nat}

/-- What an operation returns is put into a result. -/
theorem refines_map {α : Type} {f : Op V α} {g : α → Result V} {r : Except Fault (α × Dict V)}
    (hf : RefinesTo f ds (onMap ds m r)) :
    RefinesTo (f >>= fun x => pure (g x)) ds (onMap ds m (r.map fun x => (g x.1, x.2))) := by
  cases r with
  | error e => exact hf.bind_error
  | ok x => exact hf.bind_ok (Refines.pure (g x.1) _)

variable [Inhabited V]

/-- An operation on a map does what it does to the dictionary. -/
theorem call_refines (hsound : (ds m).Sound) (hsmall : (ds m).entries.length < maxEntries)
    (c : Call V) : RefinesTo (call m c) ds (onMap ds m ((ds m).step c)) := by
  cases c with
  | insert key value alloc =>
      exact refines_map (hashmapInsert_refines hsound hsmall key value alloc)
  | fetch key =>
      have hfetch := fetch_refines hsound key
      rw [← onMap_same ds m] at hfetch
      exact refines_map hfetch
  | pop => exact refines_map (pop_refines hsmall.le)
  | shift => exact refines_map (shift_refines hsmall.le)
  | reset => exact refines_map (jx9HashmapResetLoopCursor_refines ds m)
  | next => exact refines_map (jx9HashmapGetNextEntry_refines hsound)
  | walk =>
      have hwalk := jx9HashmapWalk_refines ds m
      rw [← onMap_same ds m] at hwalk
      exact refines_map hwalk

/-- The dictionaries are sound, and each of them has room for so many more entries. -/
def Room (n : Nat) (ds : Nat → Dict V) : Prop :=
  ∀ m, (ds m).Sound ∧ (ds m).entries.length + n ≤ maxEntries

theorem Room.step {n : Nat} (hroom : Room (n + 1) ds) {c : Nat × Call V}
    {x : Result V × (Nat → Dict V)} (hok : stepAt ds c = .ok x) : Room n x.2 := by
  obtain ⟨r, hstep, rfl⟩ := ok_of_map_ok hok
  obtain ⟨hsound, hlength⟩ := hroom c.1
  have hbound : (ds c.1).entries.length ≤ 2 ^ 63 := by
    have hmax : maxEntries ≤ 2 ^ 63 := by decide
    omega
  obtain ⟨hsound', hlength'⟩ := hsound.step hbound hstep
  intro m
  by_cases hm : m = c.1
  · rw [hm]
    show (Function.update ds c.1 r.2 c.1).Sound ∧
      (Function.update ds c.1 r.2 c.1).entries.length + n ≤ maxEntries
    rw [Function.update_self]
    exact ⟨hsound', by omega⟩
  · show (Function.update ds c.1 r.2 m).Sound ∧
      (Function.update ds c.1 r.2 m).entries.length + n ≤ maxEntries
    rw [Function.update_of_ne hm]
    obtain ⟨hsound₁, hlength₁⟩ := hroom m
    exact ⟨hsound₁, by omega⟩

/-- **The hash maps of the Jx9 VM.** Operations on the maps of a VM return what they return for the
dictionaries, and leave maps that show what they leave of those; they take a fault only where an
automatic index is past the largest integer. Memory objects that are not of maps are left alone. -/
theorem runCalls_refines (calls : List (Nat × Call V)) (hroom : Room calls.length ds) :
    Refines Shown LeavesForeign (runCalls calls) ds (runDicts calls ds) := by
  refine refines_runAll (fun n ds c (hroom : Room (n + 1) ds) => ?_) calls ds hroom
  obtain ⟨hsound, hlength⟩ := hroom c.1
  exact ⟨call_refines hsound (by omega) c.2, fun x hok => hroom.step hok⟩

/-! ## From the beginning -/

/-- A VM whose maps are new. Its memory objects are of other things. -/
def Vm.fresh (others : List V) : Vm V where
  nodes _ := none
  pool := 0
  aMemObj := others
  aFreeObj := []
  maps _ := jx9NewHashmap none none

omit [Inhabited V] in
/-- New maps stand for empty dictionaries. -/
theorem shown_fresh (others : List V) : Shown (Vm.fresh others) fun _ => Dict.empty := by
  refine ⟨Vm.fresh others, fun _ => Link.single, fun _ => Link.single, fun _ => [], rfl, ?_⟩
  refine ⟨⟨?_, ?_, ?_, List.nodup_nil, ?_⟩, fun m => ?_, fun m => ?_⟩
  · intro a e he
    cases he
  · intro a b e f he
    cases he
  · intro a e he
    cases he
  · intro i hi
    cases hi
  · refine ⟨?_, ⟨rfl, List.nodup_nil⟩, rfl, rfl, Or.inl ⟨rfl, rfl, rfl⟩⟩
    intro a ha
    cases ha
  · exact ⟨List.Forall₂.nil, rfl, rfl, rfl⟩

omit [Inhabited V] in
/-- No memory object of a new VM is of a map. -/
theorem foreign_fresh {others : List V} {i : Nat} (hi : i < others.length) :
    (Vm.fresh others).Foreign i := by
  refine ⟨hi, List.not_mem_nil, fun a e he => ?_⟩
  cases he

/-- Two maps. One is filled under an automatic index, strings and an integer, one of the values is
overwritten, and the first entry is taken off, so that the others are numbered again. -/
def sampleCalls : List (Nat × Call Nat) :=
  [(0, .insert .auto (some 10) true), (0, .insert (.string (text "a")) (some 11) true),
   (1, .insert (.string (text "7")) (some 20) true), (0, .insert (.int 5) (some 12) true),
   (0, .insert (.string (text "a")) (some 13) true), (0, .fetch (.string (text "a"))),
   (0, .shift), (0, .walk), (0, .next), (0, .next), (0, .next), (1, .insert .auto (some 21) true),
   (1, .walk), (1, .pop), (1, .fetch (.int 8))]

end Jx9Hash

end Poesie
