import Poesie.DukObjects
import Poesie.JavascriptInstall

set_option autoImplicit false

/-! # Globals that are set without running code

`execute` makes `process.argv` before it runs a script, and `install` assigns to a global. Both may
run setters and traps, or fail, if scripts have left such things behind. Where they have not, both
only store values, and a global keeps the function that was installed under its name.
-/

namespace Poesie

open Wire Json SharedPtr Outcomes

/-! ## Stores -/

namespace DukHeap

variable {h : DukHeap}

theorem objects_store_of_ne {o p : Nat} (hp : p ≠ o) (k : Bytes) (v : DukValue) :
    (h.store o k v).objects p = h.objects p := Function.update_of_ne hp _ _

/-- A key that is not stored finds what it found. -/
theorem lookup_store_of_ne {o : Nat} {k k' : Bytes} (hk : k' ≠ k) (v : DukValue) (p : Nat) :
    ((h.store o k v).objects p).own.lookup k' = (h.objects p).own.lookup k' := by
  by_cases hp : p = o
  · subst hp
    unfold store
    dsimp only
    rw [Function.update_self]
    dsimp only
    split
    · induction (h.objects p).own with
      | nil => rfl
      | cons e rest ih =>
          rw [List.map_cons, List.lookup_cons, List.lookup_cons, ih]
          by_cases he : e.1 = k
          · rw [if_pos he, he, beq_eq_false_iff_ne.mpr hk]
          · rw [if_neg he]
    · have hlast : ([(k, (⟨.data v true, true⟩ : DukProperty))] : List _).lookup k' = none := by
        rw [List.lookup_cons, beq_eq_false_iff_ne.mpr hk]
        rfl
      rw [List.lookup_append, hlast, Option.or_none]
  · rw [objects_store_of_ne hp]

/-- The key that is stored finds the value. -/
theorem lookup_store_self (o : Nat) (k : Bytes) (v : DukValue) :
    ∃ e, ((h.store o k v).objects o).own.lookup k = some ⟨.data v true, e⟩ := by
  unfold store
  dsimp only
  rw [Function.update_self]
  dsimp only
  split
  · rename_i hsome
    generalize (h.objects o).own = own at hsome ⊢
    induction own with
    | nil => cases hsome
    | cons e rest ih =>
        rw [List.map_cons, List.lookup_cons]
        by_cases he : e.1 = k
        · rw [if_pos he, beq_self_eq_true]
          exact ⟨e.2.enumerable, rfl⟩
        · have hne : (k == e.1) = false := beq_eq_false_iff_ne.mpr fun heq => he heq.symm
          rw [List.lookup_cons, hne] at hsome
          rw [if_neg he, hne]
          exact ih hsome
  · rename_i hnone
    refine ⟨true, ?_⟩
    rw [List.lookup_append, Option.not_isSome_iff_eq_none.mp hnone, Option.none_or,
      List.lookup_cons, beq_self_eq_true]

/-- A look-up finds what it found, or the value that was stored. -/
theorem find_store (o : Nat) (k : Bytes) (v : DukValue) (k' : Bytes) (sanity : Nat)
    (chain : List Nat) : (h.store o k v).find k' sanity chain = h.find k' sanity chain ∨
      k' = k ∧ ∃ e, (h.store o k v).find k' sanity chain = .property o ⟨.data v true, e⟩ := by
  induction chain generalizing sanity with
  | nil => exact .inl (by rw [find_nil, find_nil])
  | cons p chain ih =>
      by_cases hstored : p = o ∧ k' = k
      · obtain ⟨rfl, rfl⟩ := hstored
        obtain ⟨e, he⟩ := lookup_store_self (h := h) p k' v
        refine .inr ⟨rfl, e, ?_⟩
        unfold find
        rw [he]
      · have hown : ((h.store o k v).objects p).own.lookup k' = (h.objects p).own.lookup k' := by
          by_cases hk : k' = k
          · rw [objects_store_of_ne fun hp => hstored ⟨hp, hk⟩]
          · exact lookup_store_of_ne hk v p
        unfold find
        rw [hown]
        cases (h.objects p).own.lookup k' with
        | some property => exact .inl rfl
        | none =>
            cases sanity with
            | zero => exact .inl rfl
            | succ sanity => exact ih sanity

/-- An own property is found first. -/
theorem find_own_first {k : Bytes} {o : Nat} {p : DukProperty} (sanity : Nat) (chain : List Nat)
    (hown : (h.objects o).own.lookup k = some p) :
    h.find k sanity (o :: chain) = .property o p := by
  unfold find
  rw [hown]

theorem mayAdd_store (o : Nat) (k : Bytes) (v : DukValue) (p : Nat) (k' : Bytes) :
    mayAdd ((h.store o k v).objects p) k' = mayAdd (h.objects p) k' := by
  by_cases hp : p = o
  · subst hp
    unfold store
    dsimp only
    rw [Function.update_self]
    rfl
  · rw [objects_store_of_ne hp]

theorem chain_store (o : Nat) (k : Bytes) (v : DukValue) (p : Nat) :
    (h.store o k v).chain p = h.chain p := by
  unfold chain
  rw [(objects_store_same o k v p).2]

/-- What is not there yet can be added where it is stored. -/
theorem Stores.mayAdd {o : Nat} {k : Bytes} (hstores : h.Stores o k)
    (hown : (h.objects o).own.lookup k = none) : DukHeap.mayAdd (h.objects o) k = true := by
  have hwrite := hstores.write
  unfold DukHeap.write at hwrite
  dsimp only at hwrite
  by_cases hadd : DukHeap.mayAdd (h.objects o) k = true
  · exact hadd
  · rw [if_neg hadd] at hwrite
    cases hfind : h.find k prototypeChainSanity (h.chain o) with
    | absent | limit =>
        rw [hfind] at hwrite
        cases hwrite
    | property p property =>
        rw [hfind] at hwrite
        obtain ⟨slot, e⟩ := property
        cases slot with
        | accessor g s => cases s <;> cases hwrite
        | data v writable =>
            cases writable with
            | false => cases hwrite
            | true =>
                by_cases hp : p = o
                · have hmem := (mem_of_find hfind).2
                  rw [hp] at hmem
                  rw [List.lookup_eq_none_iff] at hown
                  exact absurd (hown _ hmem) (by simp)
                · dsimp only at hwrite
                  rw [if_neg hp] at hwrite
                  cases hwrite

/-- Another store does not keep a value from being stored. -/
theorem Stores.store {o : Nat} {k : Bytes} (hstores : h.Stores o k) (o' : Nat) (k' : Bytes)
    (v : DukValue) : (h.store o' k' v).Stores o k := by
  refine ⟨by rw [(objects_store_same o' k' v o).1]; exact hstores.proxy, ?_⟩
  have hwrite := hstores.write
  unfold DukHeap.write at hwrite ⊢
  dsimp only at hwrite ⊢
  rw [chain_store, mayAdd_store]
  rcases find_store (h := h) o' k' v k prototypeChainSanity (h.chain o) with hsame | ⟨-, e, hnew⟩
  · rw [hsame]
    exact hwrite
  · -- the property that was stored shadows what was found, and is writable
    rw [hnew]
    dsimp only
    by_cases ho : o' = o
    · rw [if_pos ho]
    · rw [if_neg ho]
      cases hown : (h.objects o).own.lookup k with
      | none => rw [hstores.mayAdd hown, if_pos rfl]
      | some p =>
          rw [← objects_store_of_ne (h := h) (fun heq => ho heq.symm) k' v] at hown
          rw [chain, find_own_first _ _ hown] at hnew
          exact absurd (DukFound.property.inj hnew).1.symm ho

/-- A new object with these prototypes stores a property of its own. -/
def Admits (h : DukHeap) (prototypes : List Nat) (k : Bytes) : Prop :=
  h.find k (prototypeChainSanity - 1) prototypes = .absent ∨
    ∃ p v e, h.find k (prototypeChainSanity - 1) prototypes = .property p ⟨.data v true, e⟩

instance (h : DukHeap) (o : Nat) (k : Bytes) : Decidable (h.Stores o k) :=
  decidable_of_iff ((h.objects o).proxy = none ∧ h.write (.object o) k = .store o)
    ⟨fun hs => ⟨hs.1, hs.2⟩, fun hs => ⟨hs.proxy, hs.write⟩⟩

/-- What is found is absent, or data that can be written. -/
def isWritable : DukFound → Bool
  | .absent | .property _ ⟨.data _ true, _⟩ => true
  | _ => false

theorem admits_iff {prototypes : List Nat} {k : Bytes} : h.Admits prototypes k ↔
    isWritable (h.find k (prototypeChainSanity - 1) prototypes) = true := by
  unfold Admits
  cases h.find k (prototypeChainSanity - 1) prototypes with
  | absent => simp [isWritable]
  | limit => simp [isWritable]
  | property p property =>
      obtain ⟨slot, e⟩ := property
      cases slot with
      | data v writable => cases writable <;> simp [isWritable]
      | accessor g s => simp [isWritable]

instance (h : DukHeap) (prototypes : List Nat) (k : Bytes) : Decidable (h.Admits prototypes k) :=
  decidable_of_iff _ admits_iff.symm

theorem Admits.store {prototypes : List Nat} {k : Bytes} (hadmits : h.Admits prototypes k)
    (o : Nat) (k' : Bytes) (v : DukValue) : (h.store o k' v).Admits prototypes k := by
  unfold Admits at hadmits ⊢
  rcases find_store (h := h) o k' v k (prototypeChainSanity - 1) prototypes with
    hsame | ⟨-, e, hnew⟩
  · rw [hsame]
    exact hadmits
  · exact .inr ⟨o, v, e, hnew⟩

/-- It depends on the prototypes only. -/
theorem Admits.congr {h' : DukHeap} {prototypes : List Nat} {k : Bytes}
    (hadmits : h.Admits prototypes k) (hsame : ∀ p ∈ prototypes, h'.objects p = h.objects p) :
    h'.Admits prototypes k := by
  unfold Admits at hadmits ⊢
  rw [find_congr hsame]
  exact hadmits

theorem Stores.congr {h' : DukHeap} {o : Nat} {k : Bytes} (hstores : h.Stores o k)
    (hsame : ∀ p ∈ h.chain o, h'.objects p = h.objects p) : h'.Stores o k := by
  have ho : h'.objects o = h.objects o := hsame o (List.mem_cons_self ..)
  refine ⟨by rw [ho]; exact hstores.proxy, ?_⟩
  have hwrite := hstores.write
  have hchain : h'.chain o = h.chain o := by rw [chain, chain, ho]
  unfold DukHeap.write at hwrite ⊢
  dsimp only at hwrite ⊢
  rw [hchain, find_congr hsame, ho]
  exact hwrite

/-- An object without properties of its own stores those that its prototypes admit. -/
theorem stores_of_admits {o : Nat} {k : Bytes} (hadmits : h.Admits (h.objects o).prototypes k)
    (hproxy : (h.objects o).proxy = none) (hown : (h.objects o).own.lookup k = none)
    (hadd : DukHeap.mayAdd (h.objects o) k = true) : h.Stores o k := by
  refine ⟨hproxy, ?_⟩
  have hfind : h.find k prototypeChainSanity (h.chain o) =
      h.find k (prototypeChainSanity - 1) (h.objects o).prototypes := by
    rw [chain, show prototypeChainSanity = (prototypeChainSanity - 1) + 1 from rfl]
    conv => lhs; unfold find
    rw [hown]
    rfl
  unfold write
  dsimp only
  rw [hfind, hadd, if_pos rfl]
  rcases hadmits with habsent | ⟨p, v, e, hproperty⟩
  · rw [habsent]
  · rw [hproperty]
    dsimp only
    split
    · rfl
    · rfl

/-! ## The object `process` -/

/-- There is an object `process`, which stores its `argv`. -/
structure HasProcess (h : DukHeap) (p : Nat) : Prop where
  read : h.read h.globalObject (text "process") = .value (.object p)
  ne_global : p ≠ h.globalObject
  stores : h.Stores p (text "argv")

/-- No code is run when `process.argv` is set: there is such an object, or the global object stores
a new one. -/
structure Settable (h : DukHeap) : Prop where
  sound : h.Sound
  proxy : (h.objects h.globalObject).proxy = none
  process : (∃ p, h.HasProcess p) ∨
    h.read h.globalObject (text "process") = .absent ∧
      h.Stores h.globalObject (text "process") ∧ h.Admits h.objectPrototypes (text "argv")
  elements : h.Admits h.arrayPrototypes (indexKey 0)

/-- The global object keeps what is bound, and functions keep their holders. -/
structure KeepsBindings (h h' : DukHeap) : Prop where
  globalObject : h'.globalObject = h.globalObject
  next_le : h.next ≤ h'.next
  limit : h'.limit = h.limit
  globals : ∀ k p, (h.objects h.globalObject).own.lookup k = some p →
    (h'.objects h.globalObject).own.lookup k = some p
  holders : ∀ o < h.next, (h'.objects o).own.lookup JavascriptVm.holderKey =
    (h.objects o).own.lookup JavascriptVm.holderKey

theorem KeepsBindings.trans {h' h'' : DukHeap} (h₁ : h.KeepsBindings h')
    (h₂ : h'.KeepsBindings h'') : h.KeepsBindings h'' where
  globalObject := h₂.globalObject.trans h₁.globalObject
  next_le := h₁.next_le.trans h₂.next_le
  limit := h₂.limit.trans h₁.limit
  globals k p hp := by
    have hkept := h₂.globals k p
    rw [h₁.globalObject] at hkept
    exact hkept (h₁.globals k p hp)
  holders o ho := (h₂.holders o (ho.trans_le h₁.next_le)).trans (h₁.holders o ho)

/-- The objects on a chain were there. -/
theorem Sound.chain_lt (hh : h.Sound) {o : Nat} (ho : o < h.next) :
    ∀ p ∈ h.chain o, p < h.next := by
  intro p hp
  rcases List.mem_cons.mp hp with rfl | hp
  · exact ho
  · exact (hh.objects o).prototypes p hp

theorem read_of_lookup {o : Nat} {k : Bytes} {v : DukValue} {w e : Bool}
    (hown : (h.objects o).own.lookup k = some ⟨.data v w, e⟩) : h.read o k = .value v := by
  unfold DukHeap.read
  rw [chain, find_own_first _ _ hown]

/-- What is absent is not an own property. -/
theorem lookup_of_absent {o : Nat} {k : Bytes} (habsent : h.read o k = .absent) :
    (h.objects o).own.lookup k = none := by
  cases hown : (h.objects o).own.lookup k with
  | none => rfl
  | some p =>
      unfold DukHeap.read at habsent
      rw [chain, find_own_first _ _ hown] at habsent
      obtain ⟨slot, e⟩ := p
      cases slot with
      | data v w => cases habsent
      | accessor g s => cases g <;> cases habsent

theorem read_store_of_ne {k k' : Bytes} (hk : k' ≠ k) (o : Nat) (v : DukValue) (p : Nat) :
    (h.store o k v).read p k' = h.read p k' := by
  have hfind := (find_store (h := h) o k v k' prototypeChainSanity (h.chain p)).resolve_right
    fun heq => hk heq.1
  unfold DukHeap.read
  rw [chain_store, hfind]

theorem read_congr {h' : DukHeap} {o : Nat} {k : Bytes}
    (hsame : ∀ p ∈ h.chain o, h'.objects p = h.objects p) : h'.read o k = h.read o k := by
  have ho : h'.objects o = h.objects o := hsame o (List.mem_cons_self ..)
  have hchain : h'.chain o = h.chain o := by rw [chain, chain, ho]
  unfold DukHeap.read
  rw [hchain, find_congr hsame]

/-- A value that fits is stored. -/
theorem Sound.store (hh : h.Sound) (o : Nat) (k : Bytes) {v : DukValue} (hv : v.Fits h.next) :
    (h.store o k v).Sound := by
  refine hh.change ⟨fun e he v' writable hslot => ?_, (hh.objects o).prototypes⟩
  have hmem : e ∈ ((h.store o k v).objects o).own := by
    unfold DukHeap.store
    dsimp only
    rw [Function.update_self]
    exact he
  rcases mem_own_store hmem with hold | ⟨-, b, hnew⟩
  · exact (hh.objects o).values e hold v' writable hslot
  · rw [hnew] at hslot
    rw [← (DukSlot.data.inj hslot).1]
    exact hv

namespace Settable

/-- Another property is stored. -/
theorem store (hh : h.Settable) (o : Nat) {k : Bytes} {v : DukValue} (hv : v.Fits h.next)
    (hk : text "process" ≠ k) : (h.store o k v).Settable where
  sound := hh.sound.store o k hv
  proxy := by
    show ((h.store o k v).objects h.globalObject).proxy = none
    rw [(objects_store_same o k v _).1]
    exact hh.proxy
  process := by
    have hread := read_store_of_ne (h := h) hk o v h.globalObject
    rcases hh.process with ⟨p, hp⟩ | ⟨habsent, hstores, hadmits⟩
    · exact .inl ⟨p, hread.trans hp.read, hp.ne_global, hp.stores.store o k v⟩
    · exact .inr ⟨hread.trans habsent, hstores.store o k v, hadmits.store o k v⟩
  elements := hh.elements.store o k v

/-- The global object stores an object under `process`. -/
theorem storeProcess (hh : h.Settable) {p : Nat} (hlt : p < h.next) (hne : p ≠ h.globalObject)
    (hstores : h.Stores p (text "argv")) :
    (h.store h.globalObject (text "process") (.object p)).Settable ∧
      (h.store h.globalObject (text "process") (.object p)).HasProcess p := by
  have hp : (h.store h.globalObject (text "process") (.object p)).HasProcess p := by
    obtain ⟨e, he⟩ := lookup_store_self (h := h) h.globalObject (text "process") (.object p)
    exact ⟨read_of_lookup he, hne, hstores.store _ _ _⟩
  refine ⟨⟨hh.sound.store _ _ hlt, ?_, .inl ⟨p, hp⟩, hh.elements.store _ _ _⟩, hp⟩
  show ((h.store h.globalObject _ _).objects h.globalObject).proxy = none
  rw [(objects_store_same _ _ _ _).1]
  exact hh.proxy

/-- An object is added. -/
theorem add (hh : h.Settable) {object : DukObject} (ho : object.Fits h.next) :
    ({ h with objects := Function.update h.objects h.next object, next := h.next + 1 } :
      DukHeap).Settable := by
  have hsame : ∀ chain : List Nat, (∀ p ∈ chain, p < h.next) → ∀ p ∈ chain,
      ({ h with objects := Function.update h.objects h.next object, next := h.next + 1 } :
        DukHeap).objects p = h.objects p :=
    fun chain hchain p hp => Function.update_of_ne (Nat.ne_of_lt (hchain p hp)) _ _
  have hglobal := hsame _ (hh.sound.chain_lt hh.sound.globalObject)
  refine ⟨hh.sound.add ho, ?_, ?_, hh.elements.congr (hsame _ fun p hp => ?_)⟩
  · rw [hglobal _ (List.mem_cons_self ..)]
    exact hh.proxy
  · rcases hh.process with ⟨p, hp⟩ | ⟨habsent, hstores, hadmits⟩
    · have hlt : p < h.next := hh.sound.read hp.read
      exact .inl ⟨p, (read_congr hglobal).trans hp.read, hp.ne_global,
        hp.stores.congr (hsame _ (hh.sound.chain_lt hlt))⟩
    · refine .inr ⟨(read_congr hglobal).trans habsent, hstores.congr hglobal,
        hadmits.congr (hsame _ fun p hp => ?_)⟩
      exact hh.sound.chains p (.inr (.inl hp))
  · exact hh.sound.chains p (.inl hp)

theorem alloc (hh : h.Settable) (isArray : Bool) : (h.alloc isArray).Settable := by
  refine hh.add ⟨fun _ he => absurd he List.not_mem_nil, fun p hp => hh.sound.chains p ?_⟩
  cases isArray with
  | true => exact .inl hp
  | false => exact .inr (.inl hp)

theorem allocFunction (hh : h.Settable) : h.allocFunction.Settable :=
  hh.add ⟨fun _ he => absurd he List.not_mem_nil, fun p hp => hh.sound.chains p (.inr (.inr hp))⟩

end Settable

namespace KeepsBindings

/-- An object is added. -/
theorem add (hh : h.Sound) (object : DukObject) :
    h.KeepsBindings { h with objects := Function.update h.objects h.next object,
                             next := h.next + 1 } where
  globalObject := rfl
  next_le := Nat.le_succ _
  limit := rfl
  globals k p hp := by
    show (Function.update h.objects h.next object h.globalObject).own.lookup k = some p
    rw [Function.update_of_ne (Nat.ne_of_lt hh.globalObject)]
    exact hp
  holders o ho := by
    show (Function.update h.objects h.next object o).own.lookup _ = _
    rw [Function.update_of_ne (Nat.ne_of_lt ho)]

/-- A property is stored that is not hidden, and is no global that was there. -/
theorem store {o : Nat} {k : Bytes} (hk : JavascriptVm.holderKey ≠ k)
    (hnew : o = h.globalObject → (h.objects o).own.lookup k = none) (v : DukValue) :
    h.KeepsBindings (h.store o k v) where
  globalObject := rfl
  next_le := Nat.le_refl _
  limit := rfl
  globals k' p hp := by
    by_cases ho : h.globalObject = o
    · have hne : k' ≠ k := by
        rintro rfl
        rw [ho, hnew ho.symm] at hp
        cases hp
      rw [lookup_store_of_ne hne]
      exact hp
    · rw [objects_store_of_ne ho]
      exact hp
  holders p _ := lookup_store_of_ne hk v p

end KeepsBindings

end DukHeap

namespace DukHeap.Settable

variable {h : DukHeap}

/-- A new object becomes `process`. -/
theorem makeProcess (hh : h.Settable) (habsent : h.read h.globalObject (text "process") = .absent)
    (hstores : h.Stores h.globalObject (text "process"))
    (hadmits : h.Admits h.objectPrototypes (text "argv")) :
    (h.alloc false).Stores h.globalObject (text "process") ∧
      ((h.alloc false).store h.globalObject (text "process") (.object h.next)).Settable ∧
      ((h.alloc false).store h.globalObject (text "process") (.object h.next)).HasProcess h.next ∧
      h.KeepsBindings ((h.alloc false).store h.globalObject (text "process") (.object h.next)) := by
  have hsame : ∀ chain : List Nat, (∀ p ∈ chain, p < h.next) → ∀ p ∈ chain,
      (h.alloc false).objects p = h.objects p :=
    fun chain hchain p hp => Function.update_of_ne (Nat.ne_of_lt (hchain p hp)) _ _
  have hglobal := hsame _ (hh.sound.chain_lt hh.sound.globalObject)
  have hobject : (h.alloc false).objects h.next = h.freshObject false [] := objects_alloc false
  have hargv : (h.alloc false).Stores h.next (text "argv") := by
    refine stores_of_admits ?_ (by rw [hobject]; rfl) (by rw [hobject]; rfl) (by rw [hobject]; rfl)
    rw [hobject]
    exact hadmits.congr (hsame _ fun p hp => hh.sound.chains p (.inr (.inl hp)))
  have hnone : ((h.alloc false).objects h.globalObject).own.lookup (text "process") = none := by
    rw [hglobal _ (List.mem_cons_self ..)]
    exact lookup_of_absent habsent
  have hne : h.next ≠ h.globalObject := Nat.ne_of_gt hh.sound.globalObject
  obtain ⟨hsettable, hprocess⟩ :=
    (hh.alloc false).storeProcess (Nat.lt_succ_self h.next) hne hargv
  have hmade : h.KeepsBindings (h.alloc false) := .add hh.sound _
  exact ⟨hstores.congr hglobal, hsettable, hprocess,
    hmade.trans (.store (by decide) (fun _ => hnone) (.object h.next))⟩

/-- A new array becomes `process.argv`. -/
theorem makeArgv (hh : h.Settable) {p : Nat} (hp : h.HasProcess p) :
    (h.alloc true).Stores h.next (indexKey 0) ∧
    ((h.alloc true).store h.next (indexKey 0) (.string (text "poesie"))).Stores p (text "argv") ∧
    (((h.alloc true).store h.next (indexKey 0) (.string (text "poesie"))).store p (text "argv")
      (.object h.next)).Settable ∧
    h.KeepsBindings (((h.alloc true).store h.next (indexKey 0) (.string (text "poesie"))).store p
      (text "argv") (.object h.next)) := by
  have hsame : ∀ chain : List Nat, (∀ p ∈ chain, p < h.next) → ∀ p ∈ chain,
      (h.alloc true).objects p = h.objects p :=
    fun chain hchain p hp => Function.update_of_ne (Nat.ne_of_lt (hchain p hp)) _ _
  have hobject : (h.alloc true).objects h.next = h.freshObject true [] := objects_alloc true
  have helement : (h.alloc true).Stores h.next (indexKey 0) := by
    refine stores_of_admits ?_ (by rw [hobject]; rfl) (by rw [hobject]; rfl) (by rw [hobject]; rfl)
    rw [hobject]
    exact hh.elements.congr (hsame _ fun p hp => hh.sound.chains p (.inl hp))
  have hlt : p < h.next := hh.sound.read hp.read
  have hargv : (h.alloc true).Stores p (text "argv") :=
    hp.stores.congr (hsame _ (hh.sound.chain_lt hlt))
  have hfilled := (hh.alloc true).store h.next (k := indexKey 0) (v := .string (text "poesie"))
    trivial (by decide)
  refine ⟨helement, hargv.store _ _ _, hfilled.store p (Nat.lt_succ_self h.next) (by decide), ?_⟩
  have hne : h.next ≠ h.globalObject := Nat.ne_of_gt hh.sound.globalObject
  have hmade : h.KeepsBindings (h.alloc true) := .add hh.sound _
  have hstored := KeepsBindings.store (h := h.alloc true) (o := h.next) (k := indexKey 0)
    (by decide) (fun heq => absurd heq hne) (.string (text "poesie"))
  have hassigned := KeepsBindings.store
    (h := (h.alloc true).store h.next (indexKey 0) (.string (text "poesie"))) (o := p)
    (k := text "argv") (by decide) (fun heq => absurd heq hp.ne_global) (.object h.next)
  exact (hmade.trans hstored).trans hassigned

end DukHeap.Settable

/-! ## A new function -/

namespace DukHeap

variable {h : DukHeap}

/-- The heap in which a new function with a pointer is bound to a global. -/
def withFunction (h : DukHeap) (name : Bytes) (pointer : Nat) : DukHeap :=
  (h.allocFunction.store h.next JavascriptVm.holderKey (.pointer pointer)).store h.globalObject name
    (.object h.next)

/-- The global object stores a new function under the name, and the function the pointer to its
holder. As `process` it has to store an `argv`. -/
structure Bindable (h : DukHeap) (name : Bytes) : Prop where
  stores : h.Stores h.globalObject name
  holder : h.Admits h.functionPrototypes JavascriptVm.holderKey
  process : name = text "process" → h.Admits h.functionPrototypes (text "argv")

instance (h : DukHeap) (name : Bytes) : Decidable (h.Bindable name) :=
  decidable_of_iff (h.Stores h.globalObject name ∧
      h.Admits h.functionPrototypes JavascriptVm.holderKey ∧
      (name = text "process" → h.Admits h.functionPrototypes (text "argv")))
    ⟨fun hb => ⟨hb.1, hb.2.1, hb.2.2⟩, fun hb => ⟨hb.stores, hb.holder, hb.process⟩⟩

/-- A global is a function with the pointer. -/
structure IsFunction (h : DukHeap) (name : Bytes) (f pointer : Nat) : Prop where
  bound : ∃ w e, (h.objects h.globalObject).own.lookup name = some ⟨.data (.object f) w, e⟩
  holder : ∃ w e, (h.objects f).own.lookup JavascriptVm.holderKey =
    some ⟨.data (.pointer pointer) w, e⟩
  lt_next : f < h.next
  ne_global : f ≠ h.globalObject

theorem IsFunction.keeps {h' : DukHeap} {name : Bytes} {f pointer : Nat}
    (hf : h.IsFunction name f pointer) (hkeeps : h.KeepsBindings h') :
    h'.IsFunction name f pointer where
  bound := by
    obtain ⟨w, e, hown⟩ := hf.bound
    exact ⟨w, e, by rw [hkeeps.globalObject]; exact hkeeps.globals _ _ hown⟩
  holder := by
    obtain ⟨w, e, hown⟩ := hf.holder
    exact ⟨w, e, (hkeeps.holders f hf.lt_next).trans hown⟩
  lt_next := hf.lt_next.trans_le hkeeps.next_le
  ne_global := by
    rw [hkeeps.globalObject]
    exact hf.ne_global

variable {name : Bytes} {pointer : Nat}

theorem objects_allocFunction :
    h.allocFunction.objects h.next = ⟨false, none, [], h.functionPrototypes, true, none⟩ :=
  Function.update_self _ _ _

theorem allocFunction_same {chain : List Nat} (hchain : ∀ p ∈ chain, p < h.next) :
    ∀ p ∈ chain, h.allocFunction.objects p = h.objects p :=
  fun p hp => Function.update_of_ne (Nat.ne_of_lt (hchain p hp)) _ _

/-- Both are stored. -/
theorem Bindable.allocFunction (hname : h.Bindable name) (hh : h.Sound) :
    h.allocFunction.Stores h.next JavascriptVm.holderKey ∧
      h.allocFunction.Stores h.globalObject name ∧
      (name = text "process" → h.allocFunction.Stores h.next (text "argv")) := by
  have hprototypes := allocFunction_same fun p hp => hh.chains p (.inr (.inr hp))
  have hadmits : ∀ k, h.Admits h.functionPrototypes k → h.allocFunction.Stores h.next k := by
    intro k hk
    refine stores_of_admits ?_ ?_ ?_ ?_
    · rw [objects_allocFunction]
      exact hk.congr hprototypes
    · rw [objects_allocFunction]
    · rw [objects_allocFunction]
      rfl
    · rw [objects_allocFunction]
      rfl
  exact ⟨hadmits _ hname.holder,
    hname.stores.congr (allocFunction_same (hh.chain_lt hh.globalObject)),
    fun heq => hadmits _ (hname.process heq)⟩

/-- The new function does not keep `process.argv` from being set. -/
theorem Settable.withFunction (hh : h.Settable) (hname : h.Bindable name) (pointer : Nat) :
    (h.withFunction name pointer).Settable := by
  obtain ⟨-, -, hprocess⟩ := hname.allocFunction hh.sound
  have hheld := hh.allocFunction.store h.next (k := JavascriptVm.holderKey)
    (v := .pointer pointer) trivial (by decide)
  by_cases heq : name = text "process"
  · subst heq
    exact (hheld.storeProcess (p := h.next) (Nat.lt_succ_self _)
      (Nat.ne_of_gt hh.sound.globalObject) ((hprocess rfl).store _ _ _)).1
  · exact hheld.store h.globalObject (Nat.lt_succ_self h.next) fun heq' => heq heq'.symm

/-- The global is the new function. -/
theorem isFunction_new (hh : h.Sound) (name : Bytes) (pointer : Nat) :
    (h.withFunction name pointer).IsFunction name h.next pointer := by
  have hne : h.next ≠ h.globalObject := Nat.ne_of_gt hh.globalObject
  obtain ⟨e, hbound⟩ := lookup_store_self (h := h.allocFunction.store h.next
    JavascriptVm.holderKey (.pointer pointer)) h.globalObject name (.object h.next)
  obtain ⟨e', hholder⟩ := lookup_store_self (h := h.allocFunction) h.next
    JavascriptVm.holderKey (.pointer pointer)
  refine ⟨⟨true, e, hbound⟩, ⟨true, e', ?_⟩, Nat.lt_succ_self h.next, hne⟩
  unfold DukHeap.withFunction
  rw [objects_store_of_ne hne]
  exact hholder

/-- Other globals are the functions that they were. -/
theorem isFunction_old (hh : h.Sound) {other : Bytes} (hother : other ≠ name) {f pointer' : Nat}
    (hf : h.IsFunction other f pointer') (pointer : Nat) :
    (h.withFunction name pointer).IsFunction other f pointer' := by
  have hmade : h.KeepsBindings h.allocFunction := .add hh _
  have hne : h.globalObject ≠ h.next := Nat.ne_of_lt hh.globalObject
  have hnew : f ≠ h.next := Nat.ne_of_lt hf.lt_next
  obtain ⟨⟨w, e, hbound⟩, ⟨w', e', hholder⟩, hlt, hglobal⟩ := hf.keeps hmade
  refine ⟨⟨w, e, ?_⟩, ⟨w', e', ?_⟩, hlt, hglobal⟩
  · show ((h.withFunction name pointer).objects h.globalObject).own.lookup other = _
    unfold DukHeap.withFunction
    rw [lookup_store_of_ne hother, objects_store_of_ne hne]
    exact hbound
  · unfold DukHeap.withFunction
    rw [objects_store_of_ne hf.ne_global, objects_store_of_ne hnew]
    exact hholder

end DukHeap

/-! ## What runs before a script -/

namespace Duk

variable {c : DukCode} {w : DukWorld} {o : Nat} {k : Bytes}

theorem gives_getPlain {v : DukValue} (hread : w.1.read o k = .value v) :
    (getPlain c o k).Gives w (true, v) w := by
  unfold Prog.Gives getPlain
  rw [hread]

theorem gives_getPlain_absent (hread : w.1.read o k = .absent) :
    (getPlain c o k).Gives w (false, .undefined) w := by
  unfold Prog.Gives getPlain
  rw [hread]

end Duk

theorem DukHeap.source_of_value {h : DukHeap} {o : Nat} {k : Bytes} {v : DukValue}
    (hproxy : (h.objects o).proxy = none) (hread : h.read o k = .value v) :
    h.source o k = .plain := by
  unfold DukHeap.source
  rw [hproxy, hread]
  rfl

theorem DukHeap.source_of_absent {h : DukHeap} {o : Nat} {k : Bytes}
    (hproxy : (h.objects o).proxy = none) (hread : h.read o k = .absent) :
    h.source o k = .absent := by
  unfold DukHeap.source
  rw [hproxy, hread]
  rfl

namespace DukStack

variable {h : DukHost} {z : DukSizes} {t : DukThread}

/-- A property of the object on top is read without running code. -/
theorem gives_getPropString {below : List DukItem} {o : Nat} {key : Bytes} {found : Bool}
    {v : DukValue} {source : DukSource} (hstack : t.stack = below ++ [.value (.object o)])
    (hproxy : (t.world.1.objects o).proxy = none)
    (hget : (Duk.getPlain h.toDukCode o key).Gives t.world (found, v) t.world)
    (hsource : t.world.1.source o key = source) (hroom : t.Room (z.room (.get source))) :
    (getPropString h z (-1) key).Gives t found
      { t with stack := t.stack ++ [DukItem.value v] } := by
  subst hsource
  have hneed : (needFor z fun heap => .get (h.source (.object o) key heap)).Gives t () t :=
    if_pos hroom
  have hprop : (h.get (.object o) key).Gives t.world (found, v) t.world :=
    (Duk.getProp_of_not_proxy hproxy key).trans hget
  refine Prog.gives_bind_iff.mpr ⟨_, t, gives_itemAt_top hstack, ?_⟩
  refine Prog.gives_bind_iff.mpr ⟨(), t, hneed, ?_⟩
  exact Prog.gives_bind_iff.mpr ⟨_, t, gives_inWorld hprop, rfl⟩

/-- A new object comes on top. -/
theorem gives_pushObject (isArray : Bool) (hroom : t.Room 1) :
    ∃ index, (pushObject isArray).Gives t index ⟨(t.world.1.alloc isArray, t.world.2),
      t.stack ++ [.value (.object t.world.1.next)]⟩ := by
  obtain ⟨index, t', hgives, -, rfl⟩ := (exactly_pushObject (t := t) isArray).gives hroom
  exact ⟨index, hgives⟩

end DukStack

namespace JavascriptVm

open DukStack

variable {h : DukHost} {z : DukSizes} {m : Margo} {env : ViewId → Env} {t : DukThread}

/-- What `execute` needs on the stack before the script is run, and to run it. -/
def argvNeed (z : DukSizes) : Nat :=
  max (1 + max (z.room (.get .absent)) (z.room (.get .plain))) (max (4 + putNeed z) (z.room .eval))

/-- The object `process` comes on top of the global object. -/
theorem gives_pushProcess {below : List DukItem}
    (hstack : t.stack = below ++ [.value (.object t.world.1.globalObject)])
    (hsettable : t.world.1.Settable) (habsent : t.Room (z.room (.get .absent)))
    (hplain : t.Room (z.room (.get .plain))) (hput : t.Room (1 + putNeed z)) :
    ∃ heap p, (pushProcess h z).Gives t () ⟨(heap, t.world.2), t.stack ++ [.value (.object p)]⟩ ∧
      heap.Settable ∧ heap.HasProcess p ∧ t.world.1.KeepsBindings heap := by
  have hproxy := hsettable.proxy
  rcases hsettable.process with ⟨p, hp⟩ | ⟨hread, hstores, hadmits⟩
  · -- it is there
    have hfound := gives_getPropString (h := h) (z := z) hstack hproxy
      (Duk.gives_getPlain hp.read) (DukHeap.source_of_value hproxy hp.read) hplain
    refine ⟨t.world.1, p, Prog.gives_bind_iff.mpr ⟨true, _, hfound, rfl⟩, hsettable, hp, ?_⟩
    exact ⟨rfl, Nat.le_refl _, rfl, fun _ _ hown => hown, fun _ _ => rfl⟩
  · -- it is made
    have hmissing := gives_getPropString (h := h) (z := z) hstack hproxy
      (Duk.gives_getPlain_absent hread) (DukHeap.source_of_absent hproxy hread) habsent
    obtain ⟨hput', hmade, hp, hkeeps⟩ := hsettable.makeProcess hread hstores hadmits
    have hone : t.Room 1 := by
      unfold DukThread.Room at hput ⊢
      omega
    obtain ⟨index, hpush⟩ := gives_pushObject (t := t) false hone
    have htwo : t.stack ++ [DukItem.value (.object t.world.1.next)] =
        below ++ [.value (.object t.world.1.globalObject), .value (.object t.world.1.next)] := by
      rw [hstack, List.append_assoc]
      rfl
    have hassigned := gives_putBelow (h := h) (z := z) (.name (text "process"))
      (t := ⟨(t.world.1.alloc false, t.world.2), t.stack ++ [.value (.object t.world.1.next)]⟩)
      htwo hput' (by
        unfold DukThread.Room at hput ⊢
        rw [List.length_append, List.length_singleton]
        show _ ≤ t.world.1.limit
        omega)
    rw [← hstack] at hassigned
    refine ⟨_, t.world.1.next, ?_, hmade, hp, hkeeps⟩
    refine Prog.gives_bind_iff.mpr ⟨false, _, hmissing, ?_⟩
    refine Prog.gives_bind_iff.mpr ⟨(), t, gives_pop t.stack [_] rfl rfl, ?_⟩
    refine Prog.gives_bind_iff.mpr ⟨index, _, hpush, ?_⟩
    refine Prog.gives_bind_iff.mpr ⟨(), _, hassigned, ?_⟩
    -- it is looked up again, and is there
    have hagain := gives_getPropString (h := h) (z := z) (t := ⟨((t.world.1.alloc false).store
      t.world.1.globalObject (text "process") (.object t.world.1.next), t.world.2), t.stack⟩)
      hstack hmade.proxy (Duk.gives_getPlain hp.read) (DukHeap.source_of_value hmade.proxy hp.read)
      hplain
    exact Prog.gives_bind_iff.mpr ⟨true, _, hagain, rfl⟩

/-- A string comes on top. -/
theorem gives_pushString (m : Margo) (env : ViewId → Env) (s : Bytes) (hroom : t.Room 1) :
    (DukStack.JSONtoDukValue h.toDukCode z m env (string s) []).Gives t ()
      { t with stack := t.stack ++ [.value (.string (cString s))] } := by
  obtain ⟨u, t', hpush, rfl⟩ :=
    (exactly_push (t := withCopies [] t) (.string (cString s))).gives hroom
  unfold DukStack.JSONtoDukValue
  exact gives_withCopy hpush

/-- Where no code is run for it, `process.argv` is set. -/
theorem gives_setArgv (m : Margo) (env : ViewId → Env) (hsettable : t.world.1.Settable)
    (hroom : t.Room (argvNeed z)) :
    ∃ heap, (setArgv h z m env []).Gives t () ⟨(heap, t.world.2), t.stack⟩ ∧
      heap.Settable ∧ t.world.1.KeepsBindings heap := by
  have hheight : ∀ (heap : DukHeap) (items : List DukItem) (n : Nat),
      heap.limit = t.world.1.limit → items.length + n ≤ argvNeed z →
      DukThread.Room ⟨(heap, t.world.2), t.stack ++ items⟩ n := by
    intro heap items n hlimit hn
    unfold DukThread.Room at hroom ⊢
    rw [List.length_append]
    show _ ≤ heap.limit
    omega
  have hneeds : 1 + z.room (.get .absent) ≤ argvNeed z ∧ 1 + z.room (.get .plain) ≤ argvNeed z ∧
      4 + putNeed z ≤ argvNeed z := by
    unfold argvNeed
    omega
  have hglobal := gives_pushGlobalObject (t := t) (by
    unfold DukThread.Room at hroom ⊢
    omega)
  obtain ⟨heap, p, hprocess, hheap, hp, hkeeps⟩ := gives_pushProcess (h := h) (z := z)
    (t := ⟨t.world, t.stack ++ [.value (.object t.world.1.globalObject)]⟩) rfl hsettable
    (hheight _ [_] _ rfl hneeds.1) (hheight _ [_] _ rfl hneeds.2.1)
    (hheight _ [_] _ rfl (by rw [List.length_singleton]; omega))
  obtain ⟨helement, hargv, hset, hkeeps'⟩ := hheap.makeArgv hp
  -- the array is filled above the global object and `process`
  let items := [DukItem.value (.object t.world.1.globalObject), .value (.object p)]
  have hitems : t.stack ++ [.value (.object t.world.1.globalObject)] ++ [.value (.object p)] =
      t.stack ++ items := List.append_assoc _ _ _
  have harrayTop : t.stack ++ items ++ [.value (.object heap.next)] =
      t.stack ++ (items ++ [.value (.object heap.next)]) := List.append_assoc _ _ _
  rw [hitems] at hprocess
  obtain ⟨index, harray⟩ := gives_pushObject (t := ⟨(heap, t.world.2), t.stack ++ items⟩) true
    (hheight _ items _ hkeeps.limit (by show 2 + 1 ≤ _; omega))
  have hstring := gives_pushString (h := h) (z := z) m env
    (t := ⟨(heap.alloc true, t.world.2), t.stack ++ items ++ [.value (.object heap.next)]⟩)
    (text "poesie") (by
      rw [harrayTop]
      exact hheight _ _ _ hkeeps.limit (by show 3 + 1 ≤ _; omega))
  have hfill := gives_putBelow (h := h) (z := z) (.index 0)
    (t := ⟨(heap.alloc true, t.world.2), t.stack ++ items ++ [.value (.object heap.next)] ++
      [.value (.string (cString (text "poesie")))]⟩)
    (List.append_assoc _ _ _) helement (by
      rw [harrayTop, List.append_assoc]
      exact hheight _ _ _ hkeeps.limit (by show 4 + _ ≤ _; omega))
  have hassignTop : t.stack ++ items ++ [DukItem.value (.object heap.next)] =
      t.stack ++ [.value (.object t.world.1.globalObject)] ++
        [.value (.object p), .value (.object heap.next)] := by
    rw [← hitems, List.append_assoc]
    rfl
  have hassign := gives_putBelow (h := h) (z := z) (.name (text "argv"))
    (t := ⟨((heap.alloc true).store heap.next (indexKey 0) (.string (text "poesie")), t.world.2),
      t.stack ++ items ++ [.value (.object heap.next)]⟩) hassignTop hargv (by
      rw [harrayTop]
      exact hheight _ _ _ hkeeps.limit (by show 3 + _ ≤ _; omega))
  have hargs : (putArgs h z m env 0 [string (text "poesie")]).Gives
      ⟨(heap.alloc true, t.world.2), t.stack ++ items ++ [.value (.object heap.next)]⟩ ()
      ⟨((heap.alloc true).store heap.next (indexKey 0) (.string (text "poesie")), t.world.2),
        t.stack ++ items ++ [.value (.object heap.next)]⟩ :=
    Prog.gives_bind_iff.mpr ⟨(), _, hstring, Prog.gives_bind_iff.mpr ⟨(), _, hfill, rfl⟩⟩
  refine ⟨_, ?_, hset, hkeeps.trans hkeeps'⟩
  refine Prog.gives_bind_iff.mpr ⟨(), _, hglobal, Prog.gives_bind_iff.mpr ⟨(), _, hprocess, ?_⟩⟩
  refine Prog.gives_bind_iff.mpr ⟨index, _, harray, Prog.gives_bind_iff.mpr ⟨(), _, hargs, ?_⟩⟩
  exact Prog.gives_bind_iff.mpr ⟨(), _, hassign, gives_pop t.stack items hitems rfl⟩

end JavascriptVm

end Poesie
