import Mathlib.Tactic

set_option autoImplicit false

/-! # Reference-counted objects

A `Store` holds objects, their reference counts, and a world on which the destructor of an
object acts when its count reaches zero. An object is named by its position and keeps the name
after its destruction.

`Balanced holders s` ties the counts to a program: the count of an object is the number of
pointers to it among the holders. The rules follow what pointers do (made, copied, dropped),
and in a balanced store the living objects are those that somebody holds.
-/

namespace SharedPtr

/-- Objects, their counts, and the world around them. -/
structure Store (α ω : Type) where
  counts : Nat → Nat
  objects : List α
  world : ω

variable {α ω : Type}

namespace Store

/-- Nothing has been made yet. -/
def empty (w : ω) : Store α ω := { counts := fun _ => 0, objects := [], world := w }

/-- The name of the next object. -/
def next (s : Store α ω) : Nat := s.objects.length

def live (s : Store α ω) (id : Nat) : Bool := 0 < s.counts id

/-- A new object, with one pointer to it. -/
def make (a : α) (s : Store α ω) : Store α ω :=
  { s with counts := Function.update s.counts s.next 1, objects := s.objects ++ [a] }

/-- Copy a pointer. -/
def retain (id : Nat) (s : Store α ω) : Store α ω :=
  { s with counts := Function.update s.counts id (s.counts id + 1) }

/-- Run the destructor of an object. -/
def destroy (dtor : α → ω → ω) (id : Nat) (s : Store α ω) : ω :=
  match s.objects[id]? with
  | some a => dtor a s.world
  | none => s.world

/-- Drop a pointer; the last one destroys the object. -/
def release (dtor : α → ω → ω) (id : Nat) (s : Store α ω) : Store α ω :=
  { s with
    counts := Function.update s.counts id (s.counts id - 1)
    world := if s.counts id = 1 then s.destroy dtor id else s.world }

/-- What a method leaves: a changed object in a changed world. -/
def put (id : Nat) (a : α) (w : ω) (s : Store α ω) : Store α ω :=
  { s with objects := s.objects.set id a, world := w }

def retainAll (ids : List Nat) (s : Store α ω) : Store α ω :=
  ids.foldl (fun s id => s.retain id) s

def releaseAll (dtor : α → ω → ω) (ids : List Nat) (s : Store α ω) : Store α ω :=
  ids.foldl (fun s id => s.release dtor id) s

theorem counts_make (a : α) (s : Store α ω) :
    (s.make a).counts = Function.update s.counts s.next 1 := rfl

theorem counts_retain (id : Nat) (s : Store α ω) :
    (s.retain id).counts = Function.update s.counts id (s.counts id + 1) := rfl

theorem counts_release (dtor : α → ω → ω) (id : Nat) (s : Store α ω) :
    (s.release dtor id).counts = Function.update s.counts id (s.counts id - 1) := rfl

@[simp] theorem next_make (a : α) (s : Store α ω) : (s.make a).next = s.next + 1 := by
  simp [make, next]

@[simp] theorem next_put (id : Nat) (a : α) (w : ω) (s : Store α ω) :
    (s.put id a w).next = s.next := by
  simp [put, next]

@[simp] theorem objects_retain (id : Nat) (s : Store α ω) :
    (s.retain id).objects = s.objects := rfl

@[simp] theorem objects_release (dtor : α → ω → ω) (id : Nat) (s : Store α ω) :
    (s.release dtor id).objects = s.objects := rfl

@[simp] theorem objects_retainAll (ids : List Nat) (s : Store α ω) :
    (s.retainAll ids).objects = s.objects := by
  induction ids generalizing s with
  | nil => rfl
  | cons id ids ih => exact ih (s.retain id)

@[simp] theorem objects_releaseAll (dtor : α → ω → ω) (ids : List Nat) (s : Store α ω) :
    (s.releaseAll dtor ids).objects = s.objects := by
  induction ids generalizing s with
  | nil => rfl
  | cons id ids ih => exact ih (s.release dtor id)

end Store

open Store

/-! ## Names -/

/-- The names given out from one moment to another. -/
def between (a b : Nat) : List Nat := List.range' a (b - a)

@[simp] theorem between_self (a : Nat) : between a a = [] := by simp [between]

theorem between_succ (a : Nat) : between a (a + 1) = [a] := by simp [between]

theorem mem_between {a b id : Nat} : id ∈ between a b ↔ a ≤ id ∧ id < b := by
  rw [between, List.mem_range'_1]
  omega

theorem between_nodup (a b : Nat) : (between a b).Nodup := List.nodup_range'

theorem between_append {a b c : Nat} (hab : a ≤ b) (hbc : b ≤ c) :
    between a b ++ between b c = between a c := by
  have h := List.range'_append_1 (s := a) (m := b - a) (n := c - b)
  rwa [show a + (b - a) = b by omega, show b - a + (c - b) = c - a by omega] at h

/-- The objects named from one moment to another, in the order of their names. -/
theorem filterMap_between (objects : List α) (a n : Nat) :
    ((between a (a + n)).filterMap fun id => objects[id]?) = (objects.drop a).take n := by
  rw [between, Nat.add_sub_cancel_left]
  induction n generalizing a with
  | zero => simp
  | succ n ih =>
      rw [List.range'_succ, List.filterMap_cons, ih]
      by_cases ha : a < objects.length
      · rw [List.getElem?_eq_getElem ha, List.drop_eq_getElem_cons ha, List.take_succ_cons]
      · rw [List.getElem?_eq_none (by omega), List.drop_eq_nil_of_le (by omega),
          List.drop_eq_nil_of_le (by omega), List.take_nil, List.take_nil]

/-! ## Balanced stores -/

/-- The count of every object is the number of pointers to it among the holders. -/
structure Balanced (holders : List Nat) (s : Store α ω) : Prop where
  counts : ∀ id, s.counts id = holders.count id
  made : ∀ id ∈ holders, id < s.next

namespace Balanced

variable {holders : List Nat} {s : Store α ω} {id : Nat}

theorem empty (w : ω) : Balanced [] (Store.empty w : Store α ω) :=
  ⟨fun _ => rfl, fun _ h => by cases h⟩

/-- The living objects are the ones that somebody holds. -/
theorem live_iff (h : Balanced holders s) (id : Nat) : s.live id = true ↔ id ∈ holders := by
  rw [Store.live, h.counts id, decide_eq_true_eq, List.count_pos_iff]

theorem perm {holders' : List Nat} (h : Balanced holders s) (hp : holders.Perm holders') :
    Balanced holders' s :=
  ⟨fun id => (h.counts id).trans (hp.count_eq id), fun id hid => h.made id (hp.mem_iff.mpr hid)⟩

theorem next_notMem (h : Balanced holders s) : s.next ∉ holders :=
  fun hmem => Nat.lt_irrefl _ (h.made _ hmem)

theorem make (h : Balanced holders s) (a : α) : Balanced (s.next :: holders) (s.make a) := by
  constructor
  · intro id
    by_cases hid : id = s.next
    · subst hid
      have hzero : holders.count s.next = 0 := List.count_eq_zero.mpr h.next_notMem
      rw [List.count_cons_self, hzero, counts_make, Function.update_self]
    · rw [List.count_cons_of_ne (Ne.symm hid), counts_make, Function.update_of_ne hid, h.counts]
  · intro id hid
    rw [next_make]
    rcases List.mem_cons.mp hid with rfl | hid
    · omega
    · have := h.made id hid
      omega

theorem retain (h : Balanced holders s) (hid : id < s.next) :
    Balanced (id :: holders) (s.retain id) := by
  constructor
  · intro j
    by_cases hj : j = id
    · subst hj
      rw [List.count_cons_self, counts_retain, Function.update_self, h.counts]
    · rw [List.count_cons_of_ne (Ne.symm hj), counts_retain, Function.update_of_ne hj, h.counts]
  · intro j hj
    rcases List.mem_cons.mp hj with rfl | hj
    · exact hid
    · exact h.made j hj

theorem release (h : Balanced (id :: holders) s) (dtor : α → ω → ω) :
    Balanced holders (s.release dtor id) := by
  constructor
  · intro j
    by_cases hj : j = id
    · subst hj
      rw [counts_release, Function.update_self, h.counts, List.count_cons_self, Nat.add_sub_cancel]
    · rw [counts_release, Function.update_of_ne hj, h.counts, List.count_cons_of_ne (Ne.symm hj)]
  · intro j hj
    exact h.made j (by simp [hj])

theorem put (h : Balanced holders s) (id : Nat) (a : α) (w : ω) :
    Balanced holders (s.put id a w) :=
  ⟨h.counts, fun j hj => by rw [next_put]; exact h.made j hj⟩

theorem retainAll (h : Balanced holders s) (ids : List Nat) (hids : ∀ id ∈ ids, id < s.next) :
    Balanced (ids ++ holders) (s.retainAll ids) := by
  induction ids generalizing holders s with
  | nil => exact h
  | cons id ids ih =>
      -- the new pointers end up in front of the old ones, in another order
      have hstep := ih (h.retain (hids id (by simp))) (fun j hj => hids j (by simp [hj]))
      exact hstep.perm List.perm_middle

theorem releaseAll (dtor : α → ω → ω) {ids : List Nat} (h : Balanced (ids ++ holders) s) :
    Balanced holders (s.releaseAll dtor ids) := by
  induction ids generalizing s with
  | nil => exact h
  | cons id ids ih =>
      have hcons : Balanced (id :: (ids ++ holders)) s := h
      exact ih (hcons.release dtor)

/-- Dropping a pointer that is not the last one leaves the world alone. -/
theorem world_release_of_mem (h : Balanced (id :: holders) s) (hid : id ∈ holders)
    (dtor : α → ω → ω) : (s.release dtor id).world = s.world := by
  have hpos : 0 < holders.count id := List.count_pos_iff.mpr hid
  have hcount := h.counts id
  rw [List.count_cons_self] at hcount
  exact if_neg (by omega)

/-- Dropping the last pointer runs the destructor. -/
theorem world_release_of_notMem (h : Balanced (id :: holders) s) (hid : id ∉ holders)
    (dtor : α → ω → ω) : (s.release dtor id).world = s.destroy dtor id := by
  have hzero : holders.count id = 0 := List.count_eq_zero.mpr hid
  have hcount := h.counts id
  rw [List.count_cons_self] at hcount
  exact if_pos (by omega)

/-- Dropping the last pointers to different objects destroys them one after the other. -/
theorem world_releaseAll {ids : List Nat} (h : Balanced ids s) (hnodup : ids.Nodup)
    (dtor : α → ω → ω) :
    (s.releaseAll dtor ids).world
      = (ids.filterMap fun id => s.objects[id]?).foldl (fun w a => dtor a w) s.world := by
  induction ids generalizing s with
  | nil => rfl
  | cons id ids ih =>
      -- nobody else in the list holds `id`, so that its destructor runs first
      obtain ⟨hid, hnodup⟩ := List.nodup_cons.mp hnodup
      have hworld := h.world_release_of_notMem hid dtor
      have hrest := ih (h.release dtor) hnodup
      rw [hworld, objects_release] at hrest
      have hmade : id < s.objects.length := h.made id (by simp)
      rw [Store.destroy, List.getElem?_eq_getElem hmade] at hrest
      calc (s.releaseAll dtor (id :: ids)).world
          = ((s.release dtor id).releaseAll dtor ids).world := rfl
        _ = (ids.filterMap fun id => s.objects[id]?).foldl (fun w a => dtor a w)
              (dtor s.objects[id] s.world) := hrest
        _ = ((id :: ids).filterMap fun id => s.objects[id]?).foldl (fun w a => dtor a w)
              s.world := by
            rw [List.filterMap_cons, List.getElem?_eq_getElem hmade, List.foldl_cons]

end Balanced

end SharedPtr
