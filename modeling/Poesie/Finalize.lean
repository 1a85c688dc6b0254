import Poesie.Runs

set_option autoImplicit false

/-! # Finalize callbacks of providers

A `Provider` registers a callback with its engine that resets the provider when the engine is
finalised. Its constructors and its destructor keep the engine's callbacks in step with the
objects, or are meant to: the move constructor takes away a callback of the new object, which
has none yet, where it should take away that of the object it moves from.
-/

namespace Poesie

open Runs

/-! ## Providers and callbacks -/

/-- The `Provider` objects by address, each with its `self`, and the finalize callbacks of the
engine, the latest first, each with the owner it is registered under and the address that the
lambda captured. Implementations are told apart by the order in which they were made. -/
structure Providers where
  objects : Nat → Option (Option Nat)
  callbacks : List (Nat × Nat)
  created : Nat

namespace Providers

def empty : Providers := ⟨fun _ => none, [], 0⟩

/-- `engine.push_finalize_callback` -/
def pushFinalizeCallback (w : Providers) (owner captured : Nat) : Providers :=
  { w with callbacks := (owner, captured) :: w.callbacks }

/-- `engine.pop_finalize_callback`: the latest callback under that owner, if there is one. -/
def popFinalizeCallback (w : Providers) (owner : Nat) : Providers :=
  { w with callbacks := w.callbacks.eraseP fun cb => cb.1 == owner }

/-- `Provider::Provider(engine, provider_id, config, pool)` -/
def construct (w : Providers) (a : Nat) : Providers :=
  let w := { w with objects := Function.update w.objects a (some (some w.created)),
                    created := w.created + 1 }
  w.pushFinalizeCallback a a

/-- `Provider::Provider(Provider&& other)` at `a`. A null `other.self` is dereferenced. -/
def move (w : Providers) (a other : Nat) : Option Providers :=
  match w.objects other with
  | some (some impl) =>
      let w := w.popFinalizeCallback a
      let objects := Function.update w.objects other (some none)
      let w := { w with objects := Function.update objects a (some (some impl)) }
      some (w.pushFinalizeCallback a a)
  | _ => none

/-- `Provider::~Provider` -/
def destroy (w : Providers) (a : Nat) : Providers :=
  let w := match w.objects a with
    | some (some _) => w.popFinalizeCallback a
    | _ => w
  { w with objects := Function.update w.objects a none }

/-- Finalising the engine runs the callbacks, `p->self.reset()` each. It gives what the objects
then are and the implementations that were reset, or nothing where a callback dereferences an
address without a provider. -/
def finalize : List (Nat × Nat) → (Nat → Option (Option Nat)) →
    Option ((Nat → Option (Option Nat)) × List Nat)
  | [], objects => some (objects, [])
  | (_, p) :: rest, objects =>
      match objects p with
      | none => none
      | some self =>
          (finalize rest (Function.update objects p (some none))).map fun after =>
            (after.1, self.toList ++ after.2)

end Providers

/-! ## Runs -/

/-- What a program does with its providers. The constructor may throw, before anything is
registered. -/
inductive ProviderEvent where
  | construct (a : Nat) (throws : Bool)
  | move (a other : Nat)
  | destroy (a : Nat)
  deriving DecidableEq, Repr

namespace Providers

/-- One event; `none` once behaviour is undefined. -/
def step : Option Providers → ProviderEvent → Option Providers
  | none, _ => none
  | some w, .construct a throws => some (if throws then w else w.construct a)
  | some w, .move a other => w.move a other
  | some w, .destroy a => some (w.destroy a)

/-- The events the language allows: an object is made where there is none, and moved from or
destroyed where there is one. -/
def Possible : Option Providers → ProviderEvent → Prop
  | none, _ => True
  | some w, .construct a _ => w.objects a = none
  | some w, .move a other => w.objects a = none ∧ w.objects other ≠ none
  | some w, .destroy a => w.objects a ≠ none

/-- The provider at `a` holds an implementation. -/
def Holds (w : Providers) (a : Nat) : Prop := ∃ impl, w.objects a = some (some impl)

/-- Exactly one callback for each provider that holds an implementation, under its address
and capturing it, and no other callbacks. -/
structure Registered (w : Providers) : Prop where
  own : ∀ cb ∈ w.callbacks, cb.1 = cb.2
  once : ∀ a, w.Holds a → w.callbacks.count (a, a) = 1
  only : ∀ a, ¬ w.Holds a → w.callbacks.count (a, a) = 0

/-- Finalising the engine now resets every implementation exactly once, and dereferences no
provider that was destroyed. -/
def FinalizesOnce (w : Providers) : Prop :=
  ∃ objects resets, finalize w.callbacks w.objects = some (objects, resets) ∧
    (∀ a impl, w.objects a = some (some impl) → resets.count impl = 1) ∧
    ∀ a impl, objects a ≠ some (some impl)

/-- The state is one the program can be in, and its callbacks are those of live providers. -/
def CallbacksLive (o : Option Providers) : Prop :=
  ∃ w, o = some w ∧ w.Registered ∧ w.FinalizesOnce

/-- No two providers share an implementation. -/
structure Distinct (w : Providers) : Prop where
  unique : ∀ a b impl, w.objects a = some (some impl) → w.objects b = some (some impl) → a = b
  made : ∀ a impl, w.objects a = some (some impl) → impl < w.created

/-! ## Finalising -/

/-- Finalising where each callback's provider is there and has only that callback. -/
theorem finalize_eq {cbs : List (Nat × Nat)} {objects : Nat → Option (Option Nat)}
    (hlive : ∀ cb ∈ cbs, objects cb.2 ≠ none) (hnodup : (cbs.map Prod.snd).Nodup) :
    ∃ after, finalize cbs objects
        = some (after, cbs.filterMap fun cb => (objects cb.2).join) ∧
      ∀ a, after a = if a ∈ cbs.map Prod.snd then some none else objects a := by
  induction cbs generalizing objects with
  | nil => exact ⟨objects, rfl, fun a => rfl⟩
  | cons cb rest ih =>
      obtain ⟨owner, p⟩ := cb
      rw [List.map_cons, List.nodup_cons] at hnodup
      obtain ⟨hp, hnodup⟩ := hnodup
      -- resetting `p` is not seen by the other callbacks
      have hother : ∀ cb ∈ rest, Function.update objects p (some none) cb.2 = objects cb.2 := by
        intro cb hcb
        apply Function.update_of_ne
        intro he
        exact hp (List.mem_map.mpr ⟨cb, hcb, he⟩)
      have hrest : ∀ cb ∈ rest, Function.update objects p (some none) cb.2 ≠ none := by
        intro cb hcb
        rw [hother cb hcb]
        exact hlive cb (by simp [hcb])
      obtain ⟨after, hafter, hat⟩ := ih hrest hnodup
      cases hself : objects p with
      | none => exact absurd hself (hlive (owner, p) (by simp))
      | some self =>
          refine ⟨after, ?_, fun a => ?_⟩
          · have hresets :
                rest.filterMap (fun cb => (Function.update objects p (some none) cb.2).join)
                = rest.filterMap fun cb => (objects cb.2).join := by
              apply List.filterMap_congr
              intro cb hcb
              rw [hother cb hcb]
            simp only [finalize, hself, hafter, hresets]
            cases self with
            | none => simp [hself]
            | some impl => simp [hself]
          · rw [hat a, List.map_cons]
            by_cases ha : a = p
            · subst ha
              simp [hp]
            · have hmem : a ∈ (owner, p).2 :: rest.map Prod.snd ↔ a ∈ rest.map Prod.snd := by
                rw [List.mem_cons, or_iff_right ha]
              rw [Function.update_of_ne ha]
              simp only [hmem]

theorem Registered.live {w : Providers} (h : w.Registered) {cb : Nat × Nat}
    (hcb : cb ∈ w.callbacks) : w.Holds cb.2 := by
  by_contra hnot
  have hzero := h.only cb.2 hnot
  have heq : (cb.2, cb.2) = cb := by
    rw [← h.own cb hcb]
    exact Prod.ext rfl (h.own cb hcb)
  rw [heq, List.count_eq_zero] at hzero
  exact hzero hcb

theorem Registered.nodup {w : Providers} (h : w.Registered) :
    (w.callbacks.map Prod.snd).Nodup := by
  have hself : ∀ cb ∈ w.callbacks, cb = (cb.2, cb.2) := by
    intro cb hcb
    exact Prod.ext (h.own cb hcb) rfl
  apply List.Nodup.map_on
  · intro cb hcb cb' hcb' he
    rw [hself cb hcb, hself cb' hcb', he]
  · rw [List.nodup_iff_count_le_one]
    intro cb
    by_cases hcb : cb ∈ w.callbacks
    · rw [hself cb hcb, h.once cb.2 (h.live hcb)]
    · rw [List.count_eq_zero.mpr hcb]
      omega

/-- Finalising is safe while the callbacks are registered as they should be. -/
theorem Registered.finalizesOnce {w : Providers} (h : w.Registered) (hdistinct : w.Distinct) :
    w.FinalizesOnce := by
  have hlive : ∀ cb ∈ w.callbacks, w.objects cb.2 ≠ none := by
    intro cb hcb hnone
    obtain ⟨impl, himpl⟩ := h.live hcb
    rw [hnone] at himpl
    cases himpl
  obtain ⟨objects, hfinal, hat⟩ := finalize_eq hlive h.nodup
  refine ⟨objects, _, hfinal, fun a impl ha => ?_, fun a impl ha => ?_⟩
  · -- the callback of `a` is the only one whose provider holds `impl`
    have hiff : ∀ cb ∈ w.callbacks,
        (((w.objects cb.2).join.map (· == impl)).getD false = true ↔ (cb == (a, a)) = true) := by
      intro cb hcb
      obtain ⟨impl', himpl'⟩ := h.live hcb
      have hown := h.own cb hcb
      rw [himpl']
      simp only [Option.join_some, Option.map_some, Option.getD_some, beq_iff_eq]
      constructor
      · rintro rfl
        have hcb' := hdistinct.unique _ _ _ himpl' ha
        exact Prod.ext (hown.trans hcb') hcb'
      · rintro rfl
        rw [ha] at himpl'
        cases himpl'
        rfl
    rw [List.count, List.countP_filterMap, List.countP_congr hiff]
    exact h.once a ⟨impl, ha⟩
  · -- no provider is left that holds an object
    rw [hat a] at ha
    by_cases hmem : a ∈ w.callbacks.map Prod.snd
    · rw [if_pos hmem] at ha
      cases ha
    · rw [if_neg hmem] at ha
      have hone := h.once a ⟨impl, ha⟩
      have hin : (a, a) ∈ w.callbacks := by
        rw [← List.count_pos_iff, hone]
        omega
      exact hmem (List.mem_map.mpr ⟨(a, a), hin, rfl⟩)

/-! ## What the events do -/

/-- With callbacks under their own addresses only, popping removes the one callback. -/
theorem pop_eq_erase {cbs : List (Nat × Nat)} (hown : ∀ cb ∈ cbs, cb.1 = cb.2) (a : Nat) :
    cbs.eraseP (fun cb => cb.1 == a) = cbs.erase (a, a) := by
  induction cbs with
  | nil => rfl
  | cons cb rest ih =>
      have hcb := hown cb (by simp)
      have hsame : (cb.1 == a) = (cb == (a, a)) := by
        rw [Bool.eq_iff_iff, beq_iff_eq, beq_iff_eq, Prod.ext_iff, ← hcb, and_self]
      have hrest := ih fun cb hcb => hown cb (by simp [hcb])
      rw [List.eraseP_cons, List.erase_cons, hsame, hrest]
      cases cb == (a, a) <;> rfl

theorem registered_empty : empty.Registered := by
  constructor
  · intro cb hcb
    cases hcb
  · rintro a ⟨impl, himpl⟩
    cases himpl
  · intro a _
    rfl

theorem distinct_empty : empty.Distinct := by
  constructor
  · intro a b impl ha
    cases ha
  · intro a impl ha
    cases ha

/-- Making a provider where there is none registers it. -/
theorem Registered.construct {w : Providers} (h : w.Registered) {a : Nat}
    (ha : w.objects a = none) : (w.construct a).Registered := by
  have hnot : ¬ w.Holds a := by
    rintro ⟨impl, himpl⟩
    rw [ha] at himpl
    cases himpl
  have hholds : ∀ b, b ≠ a → ((w.construct a).Holds b ↔ w.Holds b) := by
    intro b hb
    show (∃ impl, Function.update _ _ _ b = _) ↔ _
    rw [Function.update_of_ne hb]
    rfl
  -- the constructor pushes one callback, which is the provider's own
  have hcount : ∀ b, (w.construct a).callbacks.count (b, b)
      = w.callbacks.count (b, b) + if b = a then 1 else 0 := by
    intro b
    show ((a, a) :: w.callbacks).count (b, b) = _
    rw [List.count_cons]
    by_cases hb : b = a
    · subst hb
      simp
    · have hne : ((a, a) == (b, b)) = false := by
        rw [beq_eq_false_iff_ne]
        exact fun he => hb (Prod.ext_iff.mp he).1.symm
      rw [hne, if_neg hb]
      rfl
  constructor
  · intro cb hcb
    rcases List.mem_cons.mp hcb with rfl | hcb
    · rfl
    · exact h.own cb hcb
  · intro b hb
    rw [hcount]
    by_cases hba : b = a
    · subst hba
      rw [h.only b hnot, if_pos rfl]
    · rw [if_neg hba, h.once b ((hholds b hba).mp hb)]
  · intro b hb
    have hba : b ≠ a := by
      rintro rfl
      exact hb ⟨w.created, Function.update_self ..⟩
    rw [hcount, if_neg hba, h.only b fun hw => hb ((hholds b hba).mpr hw)]

theorem Distinct.construct {w : Providers} (h : w.Distinct) (a : Nat) :
    (w.construct a).Distinct := by
  have hat : ∀ b impl, (w.construct a).objects b = some (some impl) →
      (b = a ∧ impl = w.created) ∨ (b ≠ a ∧ w.objects b = some (some impl)) := by
    intro b impl hb
    by_cases hba : b = a
    · subst hba
      have hself : (w.construct b).objects b = some (some w.created) := Function.update_self ..
      rw [hself] at hb
      cases hb
      exact .inl ⟨rfl, rfl⟩
    · have hother : (w.construct a).objects b = w.objects b := Function.update_of_ne hba ..
      rw [hother] at hb
      exact .inr ⟨hba, hb⟩
  constructor
  · intro b c impl hb hc
    rcases hat b impl hb with ⟨rfl, rfl⟩ | ⟨-, hb⟩
    · rcases hat c _ hc with ⟨rfl, -⟩ | ⟨-, hc⟩
      · rfl
      · exact absurd (h.made c _ hc) (Nat.lt_irrefl _)
    · rcases hat c _ hc with ⟨-, rfl⟩ | ⟨-, hc⟩
      · exact absurd (h.made b _ hb) (Nat.lt_irrefl _)
      · exact h.unique b c impl hb hc
  · intro b impl hb
    show impl < w.created + 1
    rcases hat b impl hb with ⟨-, rfl⟩ | ⟨-, hb⟩
    · omega
    · have := h.made b impl hb
      omega

@[simp] theorem destroy_objects (w : Providers) (a : Nat) :
    (w.destroy a).objects = Function.update w.objects a none := by
  unfold Providers.destroy
  split <;> rfl

@[simp] theorem destroy_created (w : Providers) (a : Nat) : (w.destroy a).created = w.created := by
  unfold Providers.destroy
  split <;> rfl

/-- Destroying a provider takes its callback away. -/
theorem Registered.callbacks_destroy {w : Providers} (h : w.Registered) (a : Nat) :
    (w.destroy a).callbacks = w.callbacks.erase (a, a) := by
  by_cases hholds : w.Holds a
  · obtain ⟨impl, himpl⟩ := hholds
    rw [← pop_eq_erase h.own]
    simp only [Providers.destroy, himpl]
    rfl
  · -- a provider that was moved from has none
    have hnotMem : (a, a) ∉ w.callbacks := List.count_eq_zero.mp (h.only a hholds)
    rw [List.erase_of_not_mem hnotMem]
    unfold Providers.destroy
    cases hself : w.objects a with
    | none => rfl
    | some self =>
        cases self with
        | none => rfl
        | some impl => exact absurd ⟨impl, hself⟩ hholds

theorem Registered.destroy {w : Providers} (h : w.Registered) (a : Nat) :
    (w.destroy a).Registered := by
  have hcallbacks := h.callbacks_destroy a
  have hobjects := destroy_objects w a
  have hgone : ¬ (w.destroy a).Holds a := by
    rintro ⟨impl, himpl⟩
    rw [hobjects, Function.update_self] at himpl
    cases himpl
  have hholds : ∀ b, b ≠ a → ((w.destroy a).Holds b ↔ w.Holds b) := by
    intro b hb
    unfold Holds
    rw [hobjects, Function.update_of_ne hb]
  -- the callback that is erased is the one of the provider
  have hcount : ∀ b, b ≠ a →
      (w.destroy a).callbacks.count (b, b) = w.callbacks.count (b, b) := by
    intro b hb
    rw [hcallbacks]
    apply List.count_erase_of_ne
    exact fun he => hb (Prod.ext_iff.mp he).1
  constructor
  · intro cb hcb
    rw [hcallbacks] at hcb
    exact h.own cb (List.mem_of_mem_erase hcb)
  · intro b hb
    have hba : b ≠ a := by
      rintro rfl
      exact hgone hb
    rw [hcount b hba, h.once b ((hholds b hba).mp hb)]
  · intro b hb
    by_cases hba : b = a
    · subst hba
      rw [hcallbacks, List.count_erase_self]
      by_cases hw : w.Holds b
      · rw [h.once b hw]
      · rw [h.only b hw]
    · rw [hcount b hba, h.only b fun hw => hb ((hholds b hba).mpr hw)]

theorem Distinct.destroy {w : Providers} (h : w.Distinct) (a : Nat) : (w.destroy a).Distinct := by
  have hat : ∀ b impl, (w.destroy a).objects b = some (some impl) →
      w.objects b = some (some impl) := by
    intro b impl hb
    rw [destroy_objects] at hb
    by_cases hba : b = a
    · subst hba
      rw [Function.update_self] at hb
      cases hb
    · rwa [Function.update_of_ne hba] at hb
  constructor
  · intro b c impl hb hc
    exact h.unique b c impl (hat b impl hb) (hat c impl hc)
  · intro b impl hb
    rw [destroy_created]
    exact h.made b impl (hat b impl hb)

/-- Moving from a provider that holds an implementation. -/
theorem move_of_holds {w : Providers} {a other impl : Nat}
    (hother : w.objects other = some (some impl)) :
    ∃ w', w.move a other = some w' ∧
      w'.objects = Function.update (Function.update w.objects other (some none)) a
        (some (some impl)) ∧
      w'.callbacks = (a, a) :: w.callbacks.eraseP fun cb => cb.1 == a := by
  unfold Providers.move
  rw [hother]
  exact ⟨_, rfl, rfl, rfl⟩

theorem move_of_empty {w : Providers} {a other : Nat} (hother : ¬ w.Holds other) :
    w.move a other = none := by
  unfold Providers.move
  cases hself : w.objects other with
  | none => rfl
  | some self =>
      cases self with
      | none => rfl
      | some impl => exact absurd ⟨impl, hself⟩ hother

/-- A moved-from provider keeps its callback, or the move does not end at all. -/
theorem not_callbacksLive_move {w : Providers} (h : w.Registered) {a other : Nat}
    (ha : w.objects a = none) : ¬ CallbacksLive (w.move a other) := by
  rintro ⟨w', hmove, hregistered, -⟩
  by_cases hholds : w.Holds other
  · obtain ⟨impl, hother⟩ := hholds
    have hne : other ≠ a := by
      rintro rfl
      rw [ha] at hother
      cases hother
    obtain ⟨w'', hmoved, hobjects, hcallbacks⟩ := move_of_holds (a := a) hother
    rw [hmove] at hmoved
    cases hmoved
    -- `other` is empty now, and its callback is still there
    have hempty : ¬ w'.Holds other := by
      rintro ⟨impl', himpl'⟩
      rw [hobjects, Function.update_of_ne hne, Function.update_self] at himpl'
      cases himpl'
    have hzero := hregistered.only other hempty
    rw [hcallbacks, pop_eq_erase h.own, List.count_cons,
      List.count_erase_of_ne fun he => hne (Prod.ext_iff.mp he).1,
      h.once other ⟨impl, hother⟩] at hzero
    omega
  · rw [move_of_empty hholds] at hmove
    cases hmove

/-! ## Runs without moves -/

/-- What every event but a move keeps. -/
def Sound (o : Option Providers) : Prop := ∃ w, o = some w ∧ w.Registered ∧ w.Distinct

def isMove : ProviderEvent → Bool
  | .move _ _ => true
  | _ => false

theorem Sound.callbacksLive {o : Option Providers} (h : Sound o) : CallbacksLive o := by
  obtain ⟨w, rfl, hregistered, hdistinct⟩ := h
  exact ⟨w, rfl, hregistered, hregistered.finalizesOnce hdistinct⟩

theorem Sound.step {o : Option Providers} {e : ProviderEvent} (h : Sound o)
    (hpossible : Possible o e) (hmove : isMove e = false) : Sound (step o e) := by
  obtain ⟨w, rfl, hregistered, hdistinct⟩ := h
  cases e with
  | construct a throws =>
      cases throws with
      | true => exact ⟨w, rfl, hregistered, hdistinct⟩
      | false => exact ⟨_, rfl, hregistered.construct hpossible, hdistinct.construct a⟩
  | move a other => cases hmove
  | destroy a => exact ⟨_, rfl, hregistered.destroy a, hdistinct.destroy a⟩

/-- **Finalize callbacks.** In a run of constructions, moves and destructions the callbacks
always are those of the live providers if and only if no provider is moved. -/
theorem callbacksLive_iff (events : List ProviderEvent)
    (hpossible : Along step Possible (some empty) events) :
    Always step CallbacksLive (some empty) events ↔ ∀ e ∈ events, isMove e = false := by
  have hempty : Sound (some empty) := ⟨empty, rfl, registered_empty, distinct_empty⟩
  have hkeep : ∀ o e, Sound o → Possible o e → isMove e = false → Sound (step o e) :=
    fun o e h hp hmove => h.step hp hmove
  have hbreak : ∀ o e, Sound o → Possible o e → ¬ isMove e = false →
      ¬ CallbacksLive (step o e) := by
    intro o e h hp hmove
    obtain ⟨w, rfl, hregistered, -⟩ := h
    cases e with
    | move a other => exact not_callbacksLive_move hregistered hp.1
    | construct a throws => exact absurd rfl hmove
    | destroy a => exact absurd rfl hmove
  have halong := always_iff_along (fun o h => h.callbacksLive) hkeep hbreak hempty hpossible
  exact halong.trans along_of_events

/-- Two providers come and one of them goes. -/
theorem callbacksLive_sample :
    Always step CallbacksLive (some empty)
      [.construct 1 false, .construct 2 false, .destroy 1] := by
  have hpossible : Along step Possible (some empty)
      [.construct 1 false, .construct 2 false, .destroy 1] := by
    refine ⟨rfl, rfl, ?_, trivial⟩
    show (some (some 0) : Option (Option Nat)) ≠ none
    decide
  exact (callbacksLive_iff _ hpossible).mpr (by decide)

/-- A vector of one provider grows: the provider is moved from 1 to 2 and the old one is
destroyed. The callback of address 1 is still there, and dereferences it. -/
theorem callbacksLive_fails :
    (¬ ∀ events, Along step Possible (some empty) events →
      Always step CallbacksLive (some empty) events) ∧
    (run step (some empty) [.construct 1 false, .move 2 1, .destroy 1]).map
      (fun w => (w.callbacks, (finalize w.callbacks w.objects).isNone))
        = some ([(2, 2), (1, 1)], true) := by
  constructor
  · intro h
    have hpossible : Along step Possible (some empty) [.construct 1 false, .move 2 1] := by
      refine ⟨rfl, ⟨rfl, ?_⟩, trivial⟩
      show (some (some 0) : Option (Option Nat)) ≠ none
      decide
    have hlive : CallbacksLive ((empty.construct 1).move 2 1) :=
      h _ hpossible [.construct 1 false, .move 2 1] [] rfl
    have hregistered : (empty.construct 1).Registered := registered_empty.construct rfl
    exact not_callbacksLive_move hregistered rfl hlive
  · rfl

end Providers

end Poesie
