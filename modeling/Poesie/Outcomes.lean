import Poesie.Runs

set_option autoImplicit false

/-! # Programs that may end early

A program works on a state and returns a value, or ends early: by an error raised where
nothing protects the caller, by an exception, or by getting stuck. `Returns` says that it
returns, and `returns_bind_iff` takes it apart along the steps of the program.
-/

namespace Outcomes

/-- How a program ends. One that is stuck waits for ever, or runs out of stack. -/
inductive Outcome (ε α : Type) where
  | returned (a : α)
  | raised
  | thrown (e : ε)
  | stuck

def Outcome.isRaised {ε α : Type} : Outcome ε α → Bool
  | .raised => true
  | _ => false

theorem Outcome.isRaised_iff {ε α : Type} {o : Outcome ε α} : o.isRaised = true ↔ o = .raised := by
  cases o <;> simp [isRaised]

/-- A program over a state. -/
def Prog (ε σ α : Type) : Type := σ → Outcome ε α × σ

variable {ε σ α β : Type}

instance : Monad (Prog ε σ) where
  pure a := fun s => (.returned a, s)
  bind f g := fun s =>
    match f s with
    | (.returned a, s') => g a s'
    | (.raised, s') => (.raised, s')
    | (.thrown e, s') => (.thrown e, s')
    | (.stuck, s') => (.stuck, s')

instance : LawfulMonad (Prog ε σ) := by
  refine LawfulMonad.mk' _ ?id_map ?pure_bind ?bind_assoc
  case id_map =>
    intro α f
    funext s
    simp only [Functor.map]
    rcases f s with ⟨r, s'⟩
    cases r <;> rfl
  case pure_bind =>
    intro α β a g
    rfl
  case bind_assoc =>
    intro α β γ f g h
    funext s
    simp only [Bind.bind]
    rcases f s with ⟨r, s'⟩
    cases r <;> rfl

namespace Prog

def raise : Prog ε σ α := fun s => (.raised, s)

def stuck : Prog ε σ α := fun s => (.stuck, s)

/-- A step that always returns. -/
def total (f : σ → α × σ) : Prog ε σ α := fun s => (.returned (f s).1, (f s).2)

/-- What the program returns, and the state it leaves. -/
def Gives (f : Prog ε σ α) (s : σ) (a : α) (s' : σ) : Prop := f s = (.returned a, s')

/-- The program returns. -/
def Returns (f : Prog ε σ α) (s : σ) : Prop := ∃ a s', f.Gives s a s'

/-- The state after a program that returns. -/
def after (f : Prog ε σ α) (s : σ) : Option σ :=
  match f s with
  | (.returned _, s') => some s'
  | _ => none

@[simp] theorem gives_pure (a b : α) (s s' : σ) :
    Gives (pure a : Prog ε σ α) s b s' ↔ b = a ∧ s' = s := by
  constructor
  · intro h
    cases h
    exact ⟨rfl, rfl⟩
  · rintro ⟨rfl, rfl⟩
    rfl

theorem gives_total (f : σ → α × σ) (s : σ) :
    Gives (total f : Prog ε σ α) s (f s).1 (f s).2 := rfl

/-- What a composed program gives, its second part gives from what the first one gave. -/
theorem gives_bind_iff {f : Prog ε σ α} {g : α → Prog ε σ β} {s s'' : σ} {b : β} :
    Gives (f >>= g) s b s'' ↔ ∃ a s', f.Gives s a s' ∧ (g a).Gives s' b s'' := by
  constructor
  · intro h
    rcases hf : f s with ⟨r, s'⟩
    simp only [Gives, Bind.bind, hf] at h
    cases r with
    | returned a => exact ⟨a, s', hf, h⟩
    | raised => cases h
    | thrown e => cases h
    | stuck => cases h
  · rintro ⟨a, s', hf, hg⟩
    have hf : f s = (.returned a, s') := hf
    simp only [Gives, Bind.bind, hf]
    exact hg

/-- A composed program goes on with its second part where the first one returns. -/
theorem bind_of_gives {f : Prog ε σ α} {s s' : σ} {a : α} (h : f s = (.returned a, s'))
    (g : α → Prog ε σ β) : (f >>= g) s = g a s' := by
  simp only [Bind.bind, h]

theorem bind_of_thrown {f : Prog ε σ α} {s s' : σ} {e : ε} (h : f s = (.thrown e, s'))
    (g : α → Prog ε σ β) : (f >>= g) s = (.thrown e, s') := by
  simp only [Bind.bind, h]

theorem Gives.unique {f : Prog ε σ α} {s s₁ s₂ : σ} {a₁ a₂ : α} (h₁ : f.Gives s a₁ s₁)
    (h₂ : f.Gives s a₂ s₂) : a₁ = a₂ ∧ s₁ = s₂ := by
  have h : ((Outcome.returned a₁ : Outcome ε α), s₁) = (Outcome.returned a₂, s₂) := h₁.symm.trans h₂
  cases h
  exact ⟨rfl, rfl⟩

theorem returns_pure (a : α) (s : σ) : Returns (pure a : Prog ε σ α) s := ⟨a, s, rfl⟩

/-- Whether a program returns is up to what it does in that state. -/
theorem returns_congr {f g : Prog ε σ α} {s : σ} (h : f s = g s) :
    f.Returns s ↔ g.Returns s := by
  unfold Returns Gives
  rw [h]

theorem not_returns_of_raised {f : Prog ε σ α} {s : σ} (h : (f s).1 = .raised) : ¬ f.Returns s := by
  rintro ⟨a, s', hgives⟩
  have hgives : f s = (.returned a, s') := hgives
  rw [hgives] at h
  cases h

theorem not_returns_raise (s : σ) : ¬ Returns (raise : Prog ε σ α) s := by
  rintro ⟨a, s', h⟩
  cases h

theorem not_returns_stuck (s : σ) : ¬ Returns (stuck : Prog ε σ α) s := by
  rintro ⟨a, s', h⟩
  cases h

/-- A composed program returns if its first part does, in which case it is up to the second. -/
theorem returns_bind_iff {f : Prog ε σ α} {g : α → Prog ε σ β} {s : σ} {G : Prop}
    {P : α → σ → Prop} (hf : f.Returns s ↔ G)
    (hg : ∀ a s', f.Gives s a s' → ((g a).Returns s' ↔ P a s')) :
    Returns (f >>= g) s ↔ G ∧ ∀ a s', f.Gives s a s' → P a s' := by
  constructor
  · rintro ⟨b, s'', h⟩
    obtain ⟨a, s', hgives, hrest⟩ := gives_bind_iff.mp h
    refine ⟨hf.mp ⟨a, s', hgives⟩, fun a₁ s₁ h₁ => ?_⟩
    obtain ⟨rfl, rfl⟩ := hgives.unique h₁
    exact (hg a s' hgives).mp ⟨b, s'', hrest⟩
  · rintro ⟨hG, hrest⟩
    obtain ⟨a, s', hgives⟩ := hf.mpr hG
    obtain ⟨b, s'', hb⟩ := (hg a s' hgives).mpr (hrest a s' hgives)
    exact ⟨b, s'', gives_bind_iff.mpr ⟨a, s', hgives, hb⟩⟩

/-- A program followed by one that always returns. -/
theorem returns_bind_iff_left {f : Prog ε σ α} {g : α → Prog ε σ β} {s : σ}
    (hg : ∀ a s', (g a).Returns s') : Returns (f >>= g) s ↔ f.Returns s := by
  rw [returns_bind_iff Iff.rfl fun a s' _ => iff_of_true (hg a s') trivial]
  exact and_iff_left fun a s' _ => trivial

theorem returns_bind_of_gives {f : Prog ε σ α} {g : α → Prog ε σ β} {s s' : σ} {a : α}
    (hf : f.Gives s a s') : Returns (f >>= g) s ↔ (g a).Returns s' := by
  constructor
  · rintro ⟨b, s'', h⟩
    obtain ⟨a₁, s₁, h₁, hrest⟩ := gives_bind_iff.mp h
    obtain ⟨rfl, rfl⟩ := hf.unique h₁
    exact ⟨b, s'', hrest⟩
  · rintro ⟨b, s'', h⟩
    exact ⟨b, s'', gives_bind_iff.mpr ⟨a, s', hf, h⟩⟩

/-- The program does not come to an end. -/
def Stuck (f : Prog ε σ α) (s : σ) : Prop := (f s).1 = .stuck

theorem not_stuck_of_gives {f : Prog ε σ α} {s s' : σ} {a : α} (h : f.Gives s a s') :
    ¬ f.Stuck s := by
  have h : f s = (.returned a, s') := h
  rw [Stuck, h]
  exact fun hstuck => by cases hstuck

theorem not_stuck_pure (a : α) (s : σ) : ¬ Stuck (pure a : Prog ε σ α) s := fun h => by cases h

theorem not_stuck_raise (s : σ) : ¬ Stuck (raise : Prog ε σ α) s := fun h => by cases h

/-- A composed program is stuck in its first part, or in the second after the first. -/
theorem stuck_bind_iff {f : Prog ε σ α} {g : α → Prog ε σ β} {s : σ} :
    Stuck (f >>= g) s ↔ f.Stuck s ∨ ∃ a s', f.Gives s a s' ∧ (g a).Stuck s' := by
  rcases hf : f s with ⟨r, s'⟩
  simp only [Stuck, Gives, Bind.bind, hf]
  cases r with
  | returned a =>
      constructor
      · exact fun h => .inr ⟨a, s', rfl, h⟩
      · rintro (h | ⟨a₁, s₁, h, hstuck⟩)
        · cases h
        · cases h
          exact hstuck
  | raised => simp
  | thrown e => simp
  | stuck => simp

theorem stuck_bind_of_gives {f : Prog ε σ α} {g : α → Prog ε σ β} {s s' : σ} {a : α}
    (h : f.Gives s a s') : Stuck (f >>= g) s ↔ (g a).Stuck s' := by
  have h : f s = (.returned a, s') := h
  simp only [Stuck, Bind.bind, h]

/-- A program followed by one that comes to an end. -/
theorem stuck_bind_iff_left {f : Prog ε σ α} {g : α → Prog ε σ β} {s : σ}
    (hg : ∀ a s', ¬ (g a).Stuck s') : Stuck (f >>= g) s ↔ f.Stuck s :=
  stuck_bind_iff.trans (or_iff_left fun ⟨a, s', _, hstuck⟩ => hg a s' hstuck)

/-- Whatever the program returns, it has the property. -/
def Ensures (f : Prog ε σ α) (s : σ) (Q : α → σ → Prop) : Prop := ∀ a s', f.Gives s a s' → Q a s'

namespace Ensures

variable {f : Prog ε σ α} {g : α → Prog ε σ β} {s : σ} {a : α} {Q Q' : α → σ → Prop}
  {R : β → σ → Prop}

theorem pure (hQ : Q a s) : Ensures (Pure.pure a : Prog ε σ α) s Q := by
  intro b s' h
  obtain ⟨rfl, rfl⟩ := (gives_pure a b s s').mp h
  exact hQ

theorem of_gives {s' : σ} (h : f.Gives s a s') (hQ : Q a s') : Ensures f s Q := by
  intro b s'' h'
  obtain ⟨rfl, rfl⟩ := h.unique h'
  exact hQ

theorem raise : Ensures (Prog.raise : Prog ε σ α) s Q := fun a s' h => by cases h

theorem stuck : Ensures (Prog.stuck : Prog ε σ α) s Q := fun a s' h => by cases h

theorem mono (h : Ensures f s Q) (hQ : ∀ a s', Q a s' → Q' a s') : Ensures f s Q' :=
  fun a s' hgives => hQ a s' (h a s' hgives)

/-- The second part starts from whatever the first one ensures. -/
theorem bind (hf : Ensures f s Q) (hg : ∀ a s', Q a s' → Ensures (g a) s' R) :
    Ensures (f >>= g) s R := by
  intro b s'' h
  obtain ⟨a, s', hfirst, hrest⟩ := gives_bind_iff.mp h
  exact hg a s' (hf a s' hfirst) b s'' hrest

end Ensures

/-- The program returns exactly under a condition, and then has an outcome of this kind. -/
structure Exactly (f : Prog ε σ α) (s : σ) (C : Prop) (Q : α → σ → Prop) : Prop where
  gives : C → ∃ a s', f.Gives s a s' ∧ Q a s'
  only : f.Returns s → C

namespace Exactly

variable {f : Prog ε σ α} {g : α → Prog ε σ β} {s s' : σ} {a : α} {C D : Prop}
  {Q Q' : α → σ → Prop} {R : β → σ → Prop}

theorem of_gives (h : f.Gives s a s') (hQ : Q a s') : Exactly f s True Q where
  gives _ := ⟨a, s', h, hQ⟩
  only _ := trivial

theorem pure (hQ : Q a s) : Exactly (Pure.pure a : Prog ε σ α) s True Q := of_gives rfl hQ

theorem stuck (hC : ¬ C) : Exactly (Prog.stuck : Prog ε σ α) s C Q where
  gives h := absurd h hC
  only h := absurd h (not_returns_stuck s)

theorem congr (h : Exactly f s C Q) (hC : C ↔ D) (hQ : ∀ a s', Q a s' → Q' a s') :
    Exactly f s D Q' where
  gives hD := by
    obtain ⟨a, s', hgives, hq⟩ := h.gives (hC.mpr hD)
    exact ⟨a, s', hgives, hQ a s' hq⟩
  only hreturns := hC.mp (h.only hreturns)

/-- What a program does in a state is all that matters. -/
theorem of_eq {f' : Prog ε σ α} (heq : f s = f' s) (h : Exactly f' s C Q) : Exactly f s C Q where
  gives hC := by
    obtain ⟨a, s', hgives, hQ⟩ := h.gives hC
    exact ⟨a, s', heq.trans hgives, hQ⟩
  only hreturns := h.only ((returns_congr heq).mp hreturns)

/-- Where there is an outcome, the condition holds. -/
theorem also (h : Exactly f s C Q) : Exactly f s C fun a s' => C ∧ Q a s' where
  gives hC := by
    obtain ⟨a, s', hgives, hQ⟩ := h.gives hC
    exact ⟨a, s', hgives, hC, hQ⟩
  only := h.only

/-- Any outcome is of this kind. -/
theorem holds (h : Exactly f s C Q) (hgives : f.Gives s a s') : Q a s' := by
  obtain ⟨a₁, s₁, h₁, hQ⟩ := h.gives (h.only ⟨a, s', hgives⟩)
  obtain ⟨rfl, rfl⟩ := h₁.unique hgives
  exact hQ

theorem ensures (h : Exactly f s C Q) : f.Ensures s Q := fun _ _ hgives => h.holds hgives

/-- The second part starts from an outcome of the first. -/
theorem bind (hf : Exactly f s C Q) (hg : ∀ a s', Q a s' → Exactly (g a) s' D R) :
    Exactly (f >>= g) s (C ∧ D) R where
  gives := by
    rintro ⟨hC, hD⟩
    obtain ⟨a, s', hfirst, hQ⟩ := hf.gives hC
    obtain ⟨b, s'', hrest, hR⟩ := (hg a s' hQ).gives hD
    exact ⟨b, s'', gives_bind_iff.mpr ⟨a, s', hfirst, hrest⟩, hR⟩
  only := by
    rintro ⟨b, s'', h⟩
    obtain ⟨a, s', hfirst, hrest⟩ := gives_bind_iff.mp h
    exact ⟨hf.only ⟨a, s', hfirst⟩, (hg a s' (hf.holds hfirst)).only ⟨b, s'', hrest⟩⟩

/-- A first part that returns whatever happens. -/
theorem bind_of_gives (hf : f.Gives s a s') (hg : Exactly (g a) s' D R) :
    Exactly (f >>= g) s D R := by
  have hfirst : Exactly f s True fun a₁ s₁ => a₁ = a ∧ s₁ = s' := of_gives hf ⟨rfl, rfl⟩
  refine (hfirst.bind fun a₁ s₁ h => ?_).congr (Iff.of_eq (true_and D)) fun _ _ h => h
  rw [h.1, h.2]
  exact hg

end Exactly

/-- The program returns where there is enough for it, and wherever it returns the condition holds
and the outcome is of this kind. -/
structure Within (f : Prog ε σ α) (s : σ) (enough C : Prop) (Q : α → σ → Prop) : Prop where
  returns : enough → f.Returns s
  ensures : f.Ensures s fun a s' => C ∧ Q a s'

namespace Within

variable {f : Prog ε σ α} {g : α → Prog ε σ β} {s s' : σ} {a : α} {E F C D : Prop}
  {Q Q' : α → σ → Prop} {R : β → σ → Prop}

theorem of_exactly (h : Exactly f s C Q) : Within f s C C Q where
  returns hC := by
    obtain ⟨a, s', hgives, -⟩ := h.gives hC
    exact ⟨a, s', hgives⟩
  ensures a s' hgives := ⟨h.only ⟨a, s', hgives⟩, h.holds hgives⟩

theorem pure (hC : C) (hQ : Q a s) : Within (Pure.pure a : Prog ε σ α) s E C Q where
  returns _ := returns_pure a s
  ensures := .pure ⟨hC, hQ⟩

theorem stuck (hE : ¬ E) : Within (Prog.stuck : Prog ε σ α) s E C Q where
  returns h := absurd h hE
  ensures := .stuck

theorem congr (h : Within f s E C Q) (hE : F → E) (hC : C → D) (hQ : ∀ a s', Q a s' → Q' a s') :
    Within f s F D Q' where
  returns hF := h.returns (hE hF)
  ensures := h.ensures.mono fun a s' hQ₁ => ⟨hC hQ₁.1, hQ a s' hQ₁.2⟩

/-- The second part starts from an outcome of the first. -/
theorem bind (hf : Within f s E C Q) (hg : ∀ a s', Q a s' → Within (g a) s' F D R) :
    Within (f >>= g) s (E ∧ F) (C ∧ D) R where
  returns := by
    rintro ⟨hE, hF⟩
    obtain ⟨a, s', hfirst⟩ := hf.returns hE
    have hQ := (hf.ensures a s' hfirst).2
    exact (returns_bind_of_gives hfirst).mpr ((hg a s' hQ).returns hF)
  ensures := hf.ensures.bind fun a s' ⟨hC, hQ⟩ =>
    (hg a s' hQ).ensures.mono fun _ _ ⟨hD, hR⟩ => ⟨⟨hC, hD⟩, hR⟩

end Within

/-- A program that leaves the state as it is. -/
def ReadOnly (f : Prog ε σ α) : Prop := ∀ s a s', f.Gives s a s' → s' = s

theorem readOnly_pure (a : α) : ReadOnly (pure a : Prog ε σ α) := by
  intro s b s' h
  exact ((gives_pure a b s s').mp h).2

theorem ReadOnly.bind {f : Prog ε σ α} {g : α → Prog ε σ β} (hf : f.ReadOnly)
    (hg : ∀ a, (g a).ReadOnly) : ReadOnly (f >>= g) := by
  intro s b s'' h
  obtain ⟨a, s', hfirst, hrest⟩ := gives_bind_iff.mp h
  have hs := hf s a s' hfirst
  subst hs
  exact hg a _ b s'' hrest

/-- After a read-only program the second one starts where the first one did. -/
theorem returns_bind_of_readOnly {f : Prog ε σ α} {g : α → Prog ε σ β} {s : σ} {G P : Prop}
    (hreadOnly : f.ReadOnly) (hf : f.Returns s ↔ G) (hg : ∀ a, (g a).Returns s ↔ P) :
    Returns (f >>= g) s ↔ G ∧ P := by
  have hrest : ∀ a s', f.Gives s a s' → ((g a).Returns s' ↔ P) := by
    intro a s' hgives
    rw [hreadOnly s a s' hgives]
    exact hg a
  rw [returns_bind_iff hf hrest]
  constructor
  · rintro ⟨hG, hall⟩
    obtain ⟨a, s', hgives⟩ := hf.mpr hG
    exact ⟨hG, hall a s' hgives⟩
  · rintro ⟨hG, hP⟩
    exact ⟨hG, fun _ _ _ => hP⟩

theorem readOnly_mapM {f : α → Prog ε σ β} (hf : ∀ a, (f a).ReadOnly) (as : List α) :
    ReadOnly (as.mapM f) := by
  induction as with
  | nil =>
      rw [List.mapM_nil]
      exact readOnly_pure []
  | cons a rest ih =>
      rw [List.mapM_cons]
      exact (hf a).bind fun b => ih.bind fun bs => readOnly_pure _

/-- A read-only loop returns if it does for each element. -/
theorem returns_mapM_iff {f : α → Prog ε σ β} (hf : ∀ a, (f a).ReadOnly) (as : List α) (s : σ) :
    Returns (as.mapM f) s ↔ ∀ a ∈ as, (f a).Returns s := by
  induction as with
  | nil =>
      rw [List.mapM_nil]
      exact iff_of_true (returns_pure [] s) (by simp)
  | cons a rest ih =>
      rw [List.mapM_cons, List.forall_mem_cons, ← ih]
      apply returns_bind_of_readOnly (hf a) Iff.rfl
      intro b
      exact returns_bind_iff_left fun bs s' => returns_pure _ s'

/-- Only a program that returns leaves a state. -/
theorem after_ne_none_iff {f : Prog ε σ α} {s : σ} : f.after s ≠ none ↔ f.Returns s := by
  unfold after
  rcases hf : f s with ⟨r, s'⟩
  cases r with
  | returned a => exact iff_of_true (by simp) ⟨a, s', hf⟩
  | raised | thrown e | stuck =>
      refine iff_of_false (fun h => h rfl) ?_
      rintro ⟨a, s'', h⟩
      cases hf.symm.trans h

/-- The state that is left is that of a value that is given. -/
theorem gives_of_after {f : Prog ε σ α} {s s' : σ} (h : f.after s = some s') :
    ∃ a, f.Gives s a s' := by
  unfold after at h
  rcases hf : f s with ⟨r, s₁⟩
  rw [hf] at h
  cases r with
  | returned a =>
      cases h
      exact ⟨a, hf⟩
  | raised | thrown e | stuck => cases h

theorem after_of_gives {f : Prog ε σ α} {s s' : σ} {a : α} (h : f.Gives s a s') :
    f.after s = some s' := by
  have h : f s = (.returned a, s') := h
  rw [after, h]

end Prog

/-! ## Runs of operations -/

/-- A condition on the state before an operation, if there still is one. -/
def Before {Op : Type} (C : σ → Op → Prop) : Option σ → Op → Prop
  | none, _ => True
  | some s, op => C s op

/-- Where an operation leaves a state exactly under a condition, a run goes on to its end
exactly if the condition holds before every operation. -/
theorem always_ne_none_iff {Op : Type} {step : Option σ → Op → Option σ} {C : σ → Op → Prop}
    (hstep : ∀ s op, step (some s) op ≠ none ↔ C s op) (s : σ) (ops : List Op) :
    Runs.Always step (· ≠ none) (some s) ops ↔ Runs.Along step (Before C) (some s) ops := by
  have hiff : ∀ o op, o ≠ none → (step o op ≠ none ↔ Before C o op) := by
    intro o op ho
    cases o with
    | none => exact absurd rfl ho
    | some s => exact hstep s op
  have hany : Runs.Along step (fun _ _ => True) (some s) ops :=
    Runs.along_of_events.mpr fun _ _ => trivial
  apply Runs.always_iff_along (fun _ h => h) _ _ (by simp) hany
  · intro o op ho _ hC
    exact (hiff o op ho).mpr hC
  · intro o op ho _ hC
    exact mt (hiff o op ho).mp hC

end Outcomes
