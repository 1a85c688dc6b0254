import Mathlib.Data.List.Nodup
import Mathlib.Logic.Function.Basic

set_option autoImplicit false

/-! # Doubly linked chains

Nodes that are linked both ways, from a head on. A node comes in at the head (`push`) and goes out
wherever it is (`unlink`). `Chain` says which nodes are linked, in which order; only the links of
these nodes matter to it. A table of chains holds each node in the chain of its slot (`Bucketed`).
-/

namespace Chains

/-- The links of a node. -/
structure Link (α : Type) where
  next : Option α
  prev : Option α
  deriving DecidableEq, Repr

/-- A node that is linked to no other. -/
def Link.single {α : Type} : Link α := ⟨none, none⟩

variable {α : Type} [DecidableEq α] {links : α → Link α} {head prev : Option α} {a : α}
  {as bs : List α}

def setNext (a : α) (v : Option α) (links : α → Link α) : α → Link α :=
  Function.update links a { links a with next := v }

def setPrev (a : α) (v : Option α) (links : α → Link α) : α → Link α :=
  Function.update links a { links a with prev := v }

/-- The links after a node has come in at the head. -/
def push (head : Option α) (a : α) (links : α → Link α) : α → Link α :=
  match head with
  | none => links
  | some h => setPrev h (some a) (setNext a (some h) links)

/-- The links after the node before a node is linked to the one behind it. -/
def skipOver (a : α) (links : α → Link α) : α → Link α :=
  match (links a).prev with
  | none => links
  | some p => setNext p (links a).next links

/-- The links after the nodes around a node are linked to each other. -/
def unlink (a : α) (links : α → Link α) : α → Link α :=
  match (skipOver a links a).next with
  | none => skipOver a links
  | some n => setPrev n (skipOver a links a).prev (skipOver a links)

/-- The head after a node has gone. -/
def headWithout (a : α) (links : α → Link α) (head : Option α) : Option α :=
  if head = some a then (links a).next else head

/-! ## Chains -/

/-- The nodes that are linked from a head on, behind `prev`. -/
def ChainFrom (links : α → Link α) : Option α → Option α → List α → Prop
  | _, head, [] => head = none
  | prev, head, a :: as =>
      head = some a ∧ (links a).prev = prev ∧ ChainFrom links (some a) (links a).next as

/-- The nodes that are linked from a head on. -/
structure Chain (links : α → Link α) (head : Option α) (as : List α) : Prop where
  linked : ChainFrom links none head as
  nodup : as.Nodup

omit [DecidableEq α] in
theorem ChainFrom.congr {links' : α → Link α} (h : ChainFrom links prev head as)
    (heq : ∀ b ∈ as, links' b = links b) : ChainFrom links' prev head as := by
  induction as generalizing prev head with
  | nil => exact h
  | cons b as ih =>
      obtain ⟨hhead, hprev, hrest⟩ := h
      have hb := heq b List.mem_cons_self
      refine ⟨hhead, by rw [hb, hprev], ?_⟩
      rw [hb]
      exact ih hrest fun c hc => heq c (List.mem_cons_of_mem b hc)

omit [DecidableEq α] in
/-- Only the links of the nodes of a chain matter. -/
theorem Chain.congr {links' : α → Link α} (h : Chain links head as)
    (heq : ∀ b ∈ as, links' b = links b) : Chain links' head as :=
  ⟨h.linked.congr heq, h.nodup⟩

omit [DecidableEq α] in
theorem chain_nil : Chain links none [] := ⟨rfl, List.nodup_nil⟩

omit [DecidableEq α] in
theorem Chain.head_eq (h : Chain links head as) : head = as.head? := by
  cases as with
  | nil => exact h.linked
  | cons b as => exact h.linked.1

omit [DecidableEq α] in
theorem ChainFrom.around (h : ChainFrom links prev head (as ++ a :: bs)) :
    (links a).next = bs.head? ∧ (links a).prev = as.getLast?.or prev := by
  induction as generalizing prev head with
  | nil =>
      obtain ⟨-, hprev, hrest⟩ := h
      refine ⟨?_, by simpa using hprev⟩
      cases bs with
      | nil => exact hrest
      | cons c bs => exact hrest.1
  | cons b as ih =>
      obtain ⟨hnext, hprev⟩ := ih h.2.2
      refine ⟨hnext, hprev.trans ?_⟩
      cases as with
      | nil => rfl
      | cons c as => simp [List.getLast?_cons]

omit [DecidableEq α] in
/-- A node is linked to those around it. -/
theorem Chain.around (h : Chain links head (as ++ a :: bs)) :
    (links a).next = bs.head? ∧ (links a).prev = as.getLast? := by
  have haround := h.linked.around
  rwa [Option.or_none] at haround

theorem push_of_ne (head : Option α) {a b : α} (hb : b ≠ a) (hhead : head ≠ some b) :
    push head a links b = links b := by
  cases head with
  | none => rfl
  | some h =>
      have hne : b ≠ h := fun heq => hhead (congrArg some heq.symm)
      rw [push, setPrev, Function.update_of_ne hne, setNext, Function.update_of_ne hb]

/-- A node that comes in at the head. -/
theorem Chain.push (h : Chain links head as) (ha : a ∉ as) (hsingle : links a = Link.single) :
    Chain (push head a links) (some a) (a :: as) := by
  refine ⟨?_, List.nodup_cons.mpr ⟨ha, h.nodup⟩⟩
  cases as with
  | nil =>
      have hhead : head = none := h.linked
      subst hhead
      exact ⟨rfl, congrArg Link.prev hsingle, congrArg Link.next hsingle⟩
  | cons b as =>
      obtain ⟨rfl, hprev, hrest⟩ := h.linked
      have hne : a ≠ b := fun heq => ha (heq ▸ List.mem_cons_self)
      have hb : Chains.push (some b) a links b = { links b with prev := some a } := by
        rw [Chains.push, setPrev, Function.update_self, setNext, Function.update_of_ne hne.symm]
      have hnew : Chains.push (some b) a links a = ⟨some b, none⟩ := by
        rw [Chains.push, setPrev, Function.update_of_ne hne, setNext, Function.update_self, hsingle]
        rfl
      refine ⟨rfl, congrArg Link.prev hnew, ?_⟩
      rw [hnew]
      refine ⟨rfl, congrArg Link.prev hb, ?_⟩
      rw [hb]
      refine hrest.congr fun c hc => push_of_ne _ ?_ ?_
      · rintro rfl
        exact ha (List.mem_cons_of_mem b hc)
      · intro heq
        cases heq
        exact (List.nodup_cons.mp h.nodup).1 hc

/-! ## Taking a node out -/

theorem skipOver_self (hself : (links a).prev ≠ some a) : skipOver a links a = links a := by
  unfold skipOver
  cases hprev : (links a).prev with
  | none => rfl
  | some p =>
      have hp : a ≠ p := fun heq => hself (by rw [hprev, ← heq])
      exact Function.update_of_ne hp _ _

/-- The links of the nodes, after one of them has been taken out. -/
theorem unlink_apply (hself : (links a).prev ≠ some a) (b : α) :
    unlink a links b =
      ⟨if (links a).prev = some b then (links a).next else (links b).next,
        if (links a).next = some b then (links a).prev else (links b).prev⟩ := by
  have hskip : skipOver a links b =
      ⟨if (links a).prev = some b then (links a).next else (links b).next, (links b).prev⟩ := by
    unfold skipOver
    cases hprev : (links a).prev with
    | none => simp
    | some p =>
        by_cases hb : b = p
        · subst hb
          simp [setNext]
        · simp [setNext, Function.update_of_ne hb, Ne.symm hb]
  unfold unlink
  rw [skipOver_self hself]
  cases hnext : (links a).next with
  | none => simp [hskip, hnext]
  | some n =>
      by_cases hb : b = n
      · subst hb
        simp [setPrev, hskip, hnext]
      · simp [setPrev, hskip, hnext, Function.update_of_ne hb, Ne.symm hb]

theorem ChainFrom.unlink (h : ChainFrom links prev head (as ++ a :: bs))
    (hnodup : (as ++ a :: bs).Nodup) (hself : (links a).prev ≠ some a)
    (hbehind : ∀ p, prev = some p → p ∉ as ++ a :: bs) :
    ChainFrom (unlink a links) prev (if as = [] then (links a).next else head) (as ++ bs) := by
  induction as generalizing prev head with
  | nil =>
      -- the node behind is the first one now
      obtain ⟨-, rfl, hrest⟩ := h
      rw [if_pos rfl, List.nil_append]
      cases bs with
      | nil => exact hrest
      | cons n bs =>
          obtain ⟨hnext, -, hrest⟩ := hrest
          have hsame : ∀ c ∈ n :: bs, (unlink a links c).next = (links c).next := by
            intro c hc
            rw [unlink_apply hself]
            exact if_neg fun heq => hbehind c heq (List.mem_cons_of_mem a hc)
          refine ⟨hnext, ?_, ?_⟩
          · rw [unlink_apply hself, if_pos hnext]
          · rw [hsame n List.mem_cons_self]
            refine hrest.congr fun c hc => ?_
            have hne : (links a).next ≠ some c := by
              rw [hnext]
              rintro heq
              cases heq
              exact (List.nodup_cons.mp (List.nodup_cons.mp hnodup).2).1 hc
            rw [unlink_apply hself, if_neg hne,
              if_neg fun heq => hbehind c heq (List.mem_cons_of_mem a (List.mem_cons_of_mem n hc))]
  | cons b as ih =>
      obtain ⟨rfl, hprev, hrest⟩ := h
      have hnext := hrest.around.1
      rw [List.cons_append, List.nodup_cons] at hnodup
      have hb : (links a).next ≠ some b := by
        rw [hnext]
        intro heq
        exact hnodup.1 (by simp [List.mem_of_head? heq])
      rw [if_neg (List.cons_ne_nil b as)]
      refine ⟨rfl, ?_, ?_⟩
      · rw [unlink_apply hself, if_neg hb, hprev]
      · have hlast : (links a).prev = some b ↔ as = [] := by
          rw [hrest.around.2]
          constructor
          · intro heq
            by_contra hne
            obtain ⟨c, hc⟩ := Option.ne_none_iff_exists'.mp (mt List.getLast?_eq_none_iff.mp hne)
            rw [hc, Option.some_or] at heq
            cases heq
            exact hnodup.1 (by simp [List.mem_of_getLast? hc])
          · rintro rfl
            rfl
        have hrest' := ih hrest hnodup.2 fun p hp => by
          cases hp
          exact hnodup.1
        simp only [unlink_apply hself b, hlast]
        exact hrest'

theorem headWithout_eq (h : Chain links head (as ++ a :: bs)) :
    headWithout a links head = if as = [] then (links a).next else head := by
  rw [headWithout, h.head_eq]
  cases as with
  | nil => simp
  | cons b as =>
      have hb : b ≠ a := by
        rintro rfl
        exact (List.nodup_cons.mp h.nodup).1 (by simp)
      simp [hb]

omit [DecidableEq α] in
theorem Chain.not_self (h : Chain links head (as ++ a :: bs)) : (links a).prev ≠ some a := by
  rw [h.around.2]
  intro heq
  exact (List.nodup_append.mp h.nodup).2.2 a (List.mem_of_getLast? heq) a List.mem_cons_self rfl

/-- A node that goes. -/
theorem Chain.unlink (h : Chain links head (as ++ a :: bs)) :
    Chain (unlink a links) (headWithout a links head) (as ++ bs) := by
  rw [headWithout_eq h]
  refine ⟨h.linked.unlink h.nodup h.not_self (by simp), h.nodup.sublist ?_⟩
  exact List.Sublist.append_left (List.sublist_cons_self a bs) as

/-- The links of other nodes stay. -/
theorem Chain.unlink_other (h : Chain links head (as ++ a :: bs)) {b : α} (hb : b ∉ as ++ a :: bs) :
    Chains.unlink a links b = links b := by
  obtain ⟨hnext, hprev⟩ := h.around
  have hbefore : (links a).prev ≠ some b := by
    rw [hprev]
    exact fun heq => hb (by simp [List.mem_of_getLast? heq])
  have hafter : (links a).next ≠ some b := by
    rw [hnext]
    exact fun heq => hb (by simp [List.mem_of_head? heq])
  rw [unlink_apply h.not_self, if_neg hbefore, if_neg hafter]

/-! ## Tables of chains -/

/-- The chains from the heads in a table hold the nodes, each in the chain of its slot. -/
def Bucketed (links : α → Link α) (table : List (Option α)) (slot : α → Nat) (nodes : List α) :
    Prop :=
  ∀ i p, table[i]? = some p → ∃ as, Chain links p as ∧ ∀ a, a ∈ as ↔ a ∈ nodes ∧ slot a = i

section

variable {table : List (Option α)} {slot : α → Nat} {nodes : List α} {p : Option α}

omit [DecidableEq α] in
theorem bucketed_empty (links : α → Link α) (n : Nat) (slot : α → Nat) :
    Bucketed links (List.replicate n none) slot [] := by
  intro i p hp
  obtain ⟨hi, hp⟩ := List.getElem?_eq_some_iff.mp hp
  rw [List.getElem_replicate] at hp
  subst hp
  exact ⟨[], chain_nil, by simp⟩

omit [DecidableEq α] in
theorem Bucketed.congr {links' : α → Link α} {slot' : α → Nat}
    (h : Bucketed links table slot nodes) (hlinks : ∀ a ∈ nodes, links' a = links a)
    (hslot : ∀ a ∈ nodes, slot' a = slot a) : Bucketed links' table slot' nodes := by
  intro i p hp
  obtain ⟨as, hchain, hmem⟩ := h i p hp
  refine ⟨as, hchain.congr fun a ha => hlinks a ((hmem a).mp ha).1, fun a => ?_⟩
  rw [hmem]
  exact and_congr_right fun ha => by rw [hslot a ha]

/-- A node that comes into the chain of its slot. -/
theorem Bucketed.link (h : Bucketed links table slot nodes) (ha : a ∉ nodes)
    (hsingle : links a = Link.single) (hp : table[slot a]? = some p) :
    Bucketed (push p a links) (table.set (slot a) (some a)) slot (nodes ++ [a]) := by
  obtain ⟨as, hchain, hmem⟩ := h _ p hp
  intro i q hq
  -- the bucket of the node, and every other one
  by_cases hi : slot a = i
  · subst hi
    rw [List.getElem?_set_self (List.getElem?_eq_some_iff.mp hp).1] at hq
    cases hq
    refine ⟨a :: as, hchain.push (fun hin => ha ((hmem a).mp hin).1) hsingle, fun b => ?_⟩
    rw [List.mem_cons, hmem, List.mem_append, List.mem_singleton]
    constructor
    · rintro (rfl | hb)
      · exact ⟨Or.inr rfl, rfl⟩
      · exact ⟨Or.inl hb.1, hb.2⟩
    · rintro ⟨hb | hb, hslot⟩
      · exact Or.inr ⟨hb, hslot⟩
      · exact Or.inl hb
  · rw [List.getElem?_set_ne hi] at hq
    obtain ⟨bs, hother, hmemother⟩ := h i q hq
    refine ⟨bs, hother.congr fun b hb => ?_, fun b => ?_⟩
    · -- neither the node nor the old head is in another chain
      obtain ⟨hbin, hbslot⟩ := (hmemother b).mp hb
      refine push_of_ne p (fun heq => ha (heq ▸ hbin)) fun hhead => hi ?_
      rw [hchain.head_eq] at hhead
      rw [← hbslot, ((hmem b).mp (List.mem_of_head? hhead)).2]
    · rw [hmemother, List.mem_append, List.mem_singleton]
      constructor
      · exact fun hb => ⟨Or.inl hb.1, hb.2⟩
      · rintro ⟨hb | rfl, hslot⟩
        · exact ⟨hb, hslot⟩
        · exact absurd hslot hi

/-- A node that goes out of the chain of its slot. -/
theorem Bucketed.unlink (h : Bucketed links table slot nodes) (ha : a ∈ nodes)
    (hp : table[slot a]? = some p) {rest : List α}
    (hrest : ∀ b, b ∈ rest ↔ b ∈ nodes ∧ b ≠ a) :
    Bucketed (unlink a links) (table.set (slot a) (headWithout a links p)) slot rest := by
  obtain ⟨as, hchain, hmem⟩ := h _ p hp
  obtain ⟨bs, cs, rfl⟩ := List.append_of_mem ((hmem a).mpr ⟨ha, rfl⟩)
  intro i q hq
  -- the bucket of the node, and every other one
  by_cases hi : slot a = i
  · subst hi
    rw [List.getElem?_set_self (List.getElem?_eq_some_iff.mp hp).1] at hq
    cases hq
    refine ⟨bs ++ cs, hchain.unlink, fun b => ?_⟩
    rw [hrest, and_right_comm, ← hmem]
    have hnodup := hchain.nodup
    rw [List.nodup_middle, List.nodup_cons] at hnodup
    constructor
    · intro hb
      refine ⟨by simp only [List.mem_append, List.mem_cons] at hb ⊢; tauto, ?_⟩
      rintro rfl
      exact hnodup.1 hb
    · rintro ⟨hb, hne⟩
      simp only [List.mem_append, List.mem_cons] at hb ⊢
      tauto
  · rw [List.getElem?_set_ne hi] at hq
    obtain ⟨ds, hother, hmemother⟩ := h i q hq
    have hapart : ∀ b, slot b = i → b ∉ bs ++ a :: cs := fun b hb hin =>
      hi ((((hmem b).mp hin).2).symm.trans hb)
    refine ⟨ds, hother.congr fun b hb => hchain.unlink_other (hapart b ((hmemother b).mp hb).2),
      fun b => ?_⟩
    rw [hmemother, hrest]
    constructor
    · rintro ⟨hb, hslot⟩
      refine ⟨⟨hb, ?_⟩, hslot⟩
      rintro rfl
      exact hi hslot
    · exact fun hb => ⟨hb.1.1, hb.2⟩

end

end Chains
