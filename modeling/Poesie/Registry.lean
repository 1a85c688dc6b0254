import Poesie.Runs

set_option autoImplicit false

/-! # Registries

A registry takes values under names, and a program that starts on it sees a value under a name.
An installation or a program may also bring the registry to an end. `LastWins` says that a program
can be started and sees the value that was installed last. By `Rules.always_lastWins` a registry has
that property throughout a run if each installation, under its condition, brings the new value under
its name and leaves the values under other names, and if programs do not change what was installed.
-/

namespace Registries

open Runs

variable {S P N V : Type}

/-- A registry of values `V` under names `N`, with the programs `P` that run on it. -/
structure Registry (S P N V : Type) where
  install : N → V → S → Option S
  execute : P → S → Option S
  /-- A program can be started. -/
  starts : S → Prop
  /-- What a program that is started finds under a name. -/
  sees : S → N → Option V

inductive RegistryEvent (P N V : Type) where
  | install (name : N) (v : V)
  | execute (program : P)

/-- A registry, if it still is there, with the value that was last installed under each name. -/
structure Traced (S N V : Type) where
  state : Option S
  latest : N → Option V

variable [DecidableEq N] (r : Registry S P N V)

def next (t : Traced S N V) : RegistryEvent P N V → Traced S N V
  | .install name v => ⟨t.state.bind (r.install name v), Function.update t.latest name (some v)⟩
  | .execute program => ⟨t.state.bind (r.execute program), t.latest⟩

/-- A program starts, and sees under each name what was installed last. -/
def LastWins (t : Traced S N V) : Prop :=
  ∃ s, t.state = some s ∧ r.starts s ∧ ∀ name v, t.latest name = some v → r.sees s name = some v

/-- The program leaves in place what is installed. `H` says that a value is installed. -/
def Leaves (H : S → N → V → Prop) (latest : N → Option V) (s : S) (program : P) : Prop :=
  ∀ name v, latest name = some v → H s name v →
    ∀ s', r.execute program s = some s' → H s' name v

/-- Installations meet their condition `C`. Programs meet their condition `E`, and leave in place
what is installed. -/
def Fine (H C : S → N → V → Prop) (E : S → P → Prop) (t : Traced S N V) :
    RegistryEvent P N V → Prop
  | .install name v => ∀ s, t.state = some s → C s name v
  | .execute program => ∀ s, t.state = some s → E s program ∧ Leaves r H t.latest s program

/-- What installations and programs that meet their conditions do, in states with the invariant `I`.
The names that can be installed have the property `Q`. -/
structure Rules (I : S → Prop) (Q : N → Prop) (H C : S → N → V → Prop) (E : S → P → Prop) :
    Prop where
  starts : ∀ {s}, I s → r.starts s
  sees : ∀ {s name v}, I s → H s name v → r.sees s name = some v
  named : ∀ {s name v}, C s name v → Q name
  install : ∀ {s name v}, I s → C s name v → ∃ s', r.install name v s = some s' ∧ I s' ∧
    H s' name v ∧ ∀ other w, Q other → other ≠ name → H s other w → H s' other w
  execute : ∀ {s program}, I s → E s program → ∃ s', r.execute program s = some s' ∧ I s'

/-- What holds throughout a run. -/
structure Sound (I : S → Prop) (Q : N → Prop) (H : S → N → V → Prop) (t : Traced S N V) (s : S) :
    Prop where
  state : t.state = some s
  invariant : I s
  named : ∀ name v, t.latest name = some v → Q name
  installed : ∀ name v, t.latest name = some v → H s name v

variable {r} {I : S → Prop} {Q : N → Prop} {H C : S → N → V → Prop} {E : S → P → Prop}

theorem Sound.next (rules : Rules r I Q H C E) {t : Traced S N V} {s : S} (ht : Sound I Q H t s)
    {e : RegistryEvent P N V} (he : Fine r H C E t e) : ∃ s', Sound I Q H (next r t e) s' := by
  cases e with
  | install name v =>
      have hC := he s ht.state
      obtain ⟨s', hinstall, hinvariant, hown, hothers⟩ := rules.install ht.invariant hC
      have hlatest : ∀ other w, Function.update t.latest name (some v) other = some w →
          (other = name ∧ w = v) ∨ (other ≠ name ∧ t.latest other = some w) := by
        intro other w h
        by_cases hother : other = name
        · rw [hother, Function.update_self] at h
          exact .inl ⟨hother, (Option.some.inj h).symm⟩
        · rw [Function.update_of_ne hother] at h
          exact .inr ⟨hother, h⟩
      refine ⟨s', ?_, hinvariant, fun other w h => ?_, fun other w h => ?_⟩
      · show t.state.bind (r.install name v) = some s'
        rw [ht.state, Option.bind_some, hinstall]
      · rcases hlatest other w h with ⟨rfl, -⟩ | ⟨-, h⟩
        · exact rules.named hC
        · exact ht.named other w h
      · rcases hlatest other w h with ⟨rfl, rfl⟩ | ⟨hother, h⟩
        · exact hown
        · exact hothers other w (ht.named other w h) hother (ht.installed other w h)
  | execute program =>
      obtain ⟨hE, hleaves⟩ := he s ht.state
      obtain ⟨s', hexecute, hinvariant⟩ := rules.execute ht.invariant hE
      refine ⟨s', ?_, hinvariant, ht.named, fun name v hlatest => ?_⟩
      · show t.state.bind (r.execute program) = some s'
        rw [ht.state, Option.bind_some, hexecute]
      · -- the script leaves in place what was installed
        exact hleaves name v hlatest (ht.installed name v hlatest) s' hexecute

/-- In a run of installations that meet their conditions and of programs that leave them in
place, the last value installed under a name is the one that is seen. -/
theorem Rules.always_lastWins (rules : Rules r I Q H C E) {t : Traced S N V} {s : S}
    (ht : Sound I Q H t s) {events : List (RegistryEvent P N V)}
    (halong : Along (next r) (Fine r H C E) t events) : Always (next r) (LastWins r) t events := by
  have hkeep : ∀ (t : Traced S N V) (e : RegistryEvent P N V), (∃ s, Sound I Q H t s) →
      Fine r H C E t e → ∃ s, Sound I Q H (next r t e) s := fun t e ⟨s, h⟩ he => h.next rules he
  refine (always_of_along hkeep ⟨s, ht⟩ halong).mono fun t ⟨s, h⟩ => ?_
  refine ⟨s, h.state, rules.starts h.invariant, fun name v hlatest => ?_⟩
  exact rules.sees h.invariant (h.installed name v hlatest)

/-- Nothing has been installed yet. -/
def fresh (s : S) : Traced S N V := ⟨some s, fun _ => none⟩

omit [DecidableEq N] in
theorem sound_fresh {s : S} (hs : I s) : Sound I Q H (fresh s : Traced S N V) s where
  state := rfl
  invariant := hs
  named name v h := by cases h
  installed name v h := by cases h

end Registries
