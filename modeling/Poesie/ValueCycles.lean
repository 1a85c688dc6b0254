import Poesie.StackCalls
import Poesie.ValueGraphs

set_option autoImplicit false

/-! # Values that contain themselves

An object of JavaScript is visited on a stack and in a state of the heap: a getter or a trap that
runs on the way can change what is found next, and need not return. For all four backends, the
conversion of a value ends exactly if what it visits is grounded.
-/

namespace Poesie

open Wire Json SharedPtr Outcomes Traversal

/-! ## Programs as plans -/

section

variable {ε σ α β X : Type}

/-- How a program ends, with the state that it leaves. -/
def leaves (f : Prog ε σ α) (s : σ) : Ending σ :=
  match f s with
  | (.returned _, s') => .done s'
  | (.raised, _) => .failed
  | (.thrown _, _) => .failed
  | (.stuck, _) => .overflow

/-- A plan that starts with a step of a program. One that is stuck does not come back. -/
def ofStep (f : Prog ε σ α) (s : σ) (rest : α → σ → Plan X σ) : Plan X σ :=
  match f s with
  | (.returned a, s') => rest a s'
  | (.raised, _) => .fail
  | (.thrown _, _) => .fail
  | (.stuck, _) => .hang

theorem ofStep_of_gives {f : Prog ε σ α} {s s' : σ} {a : α} (h : f.Gives s a s')
    (rest : α → σ → Plan X σ) : ofStep f s rest = rest a s' := by
  have hf : f s = (.returned a, s') := h
  rw [ofStep, hf]

theorem ofStep_of_stuck {f : Prog ε σ α} {s : σ} (h : f.Stuck s) (rest : α → σ → Plan X σ) :
    ofStep f s rest = .hang := by
  rw [Prog.Stuck] at h
  rcases hf : f s with ⟨r, s'⟩
  rw [hf] at h
  obtain rfl : r = .stuck := h
  rw [ofStep, hf]

/-- A step, where what comes after it ends as the rest of the plan. -/
theorem leaves_bind_step {f : Prog ε σ α} {g : α → Prog ε σ β} {rest : α → σ → Plan X σ}
    {visit : X → Ending σ} (s : σ) (h : ∀ a s', leaves (g a) s' = (rest a s').eval visit) :
    leaves (f >>= g) s = (ofStep f s rest).eval visit := by
  rcases hf : f s with ⟨r, s'⟩
  simp only [leaves, ofStep, Bind.bind, hf]
  cases r with
  | returned a => exact h a s'
  | raised => rfl
  | thrown e => rfl
  | stuck => rfl

/-- A call, where what comes after it ends as the rest of the plan. -/
theorem leaves_bind_call {f : Prog ε σ α} {g : α → Prog ε σ β} {x : X} {next : σ → Plan X σ}
    {visit : X → Ending σ} {s : σ} (hf : leaves f s = visit x)
    (h : ∀ a s', leaves (g a) s' = (next s').eval visit) :
    leaves (f >>= g) s = (Plan.call x next).eval visit := by
  rw [Plan.eval, ← hf]
  rcases hs : f s with ⟨r, s'⟩
  simp only [leaves, Bind.bind, hs]
  cases r with
  | returned a => exact h a s'
  | raised => rfl
  | thrown e => rfl
  | stuck => rfl

end

namespace DukStack

variable (c : DukCode) (z : DukSizes)

/-! ## JavaScript -/

/-- The loop over the enumerator on top, with what is done to a key. A call at `-1` converts the
value, which is popped with its key. -/
def turns {κ : Type} (key : DukStack κ) : Nat → DukThread → Plan (Int × DukThread) DukThread
  | 0, _ => .hang
  | n + 1, t =>
      ofStep (next c z (-1)) t fun more t₁ =>
        if more then
          ofStep key t₁ fun _ t₂ =>
            .call (-1, t₂) fun t₃ => ofStep (pop 2) t₃ fun _ t₄ => turns key n t₄
        else ofStep (pop 1) t₁ fun _ t₂ => .done t₂

/-- What `dukValueToJSON` does at the value at an index. It does not come back from a step that the
stack has no room for, or that runs code which does not return. -/
def plan (x : Int × DukThread) : Plan (Int × DukThread) DukThread :=
  ofStep (itemAt x.1) x.2 fun item t =>
    match item with
    | some (.value (.object o)) =>
        let isArray := (t.world.1.objects o).isArray
        ofStep (enumerate c z x.1 isArray) t fun _ t₁ =>
          ofStep rounds t₁ fun n t₂ =>
            -- the elements of an array have no keys
            if isArray then turns c z (pure () : DukStack Unit) n t₂
            else turns c z (getString (-2)) n t₂
    | some (.enumerator _ _) => .hang
    | _ => .done t

variable {c z}

/-- The loop visits what the keys lead to. -/
theorem leaves_whileNext {κ β : Type} {depth : Nat} {visit : Int × DukThread → Ending DukThread}
    (hconvert : ∀ t, leaves (dukValueToJSON c z depth (-1)) t = visit (-1, t)) (key : DukStack κ)
    (add : β → κ → Json → β) (wrap : β → Json) (n : Nat) (out : β) (t : DukThread) :
    leaves (do
      let out ← whileNext c z (fun out => do
        let k ← key
        let j ← dukValueToJSON c z depth (-1)
        pop 2
        pure (add out k j)) n out
      pop 1
      pure (wrap out)) t = (turns c z key n t).eval visit := by
  induction n generalizing out t with
  | zero => rfl
  | succ n ih =>
      rw [whileNext, turns, bind_assoc]
      refine leaves_bind_step t fun more t₁ => ?_
      cases more with
      | false =>
          rw [if_neg Bool.false_ne_true, if_neg Bool.false_ne_true, pure_bind]
          exact leaves_bind_step t₁ fun _ t₂ => rfl
      | true =>
          rw [if_pos rfl, if_pos rfl]
          simp only [bind_assoc, pure_bind]
          refine leaves_bind_step t₁ fun k t₂ => ?_
          refine leaves_bind_call (hconvert t₂) fun j t₃ => ?_
          exact leaves_bind_step t₃ fun _ t₄ => ih (add out k j) t₄

theorem leaves_dukValueToJSON (depth : Nat) (index : Int) (t : DukThread) :
    leaves (dukValueToJSON c z depth index) t = Traversal.run (plan c z) depth (index, t) := by
  induction depth generalizing index t with
  | zero => rfl
  | succ depth ih =>
      rw [dukValueToJSON, Traversal.run, plan]
      refine leaves_bind_step t fun item t₁ => ?_
      rcases item with _ | ⟨v | ⟨base, keys⟩⟩
      · rfl
      · cases v with
        | object o =>
            have hlook : (inWorld (Duk.inspect fun h => (h.objects o).isArray)).Gives t₁
                (t₁.world.1.objects o).isArray t₁ := rfl
            dsimp only
            rw [← ofStep_of_gives hlook fun isArray t₁ =>
              ofStep (enumerate c z index isArray) t₁ fun _ t₂ => ofStep rounds t₂ fun n t₃ =>
                if isArray then turns c z (pure () : DukStack Unit) n t₃
                else turns c z (getString (-2)) n t₃]
            refine leaves_bind_step t₁ fun isArray t₁ => ?_
            cases isArray with
            | true =>
                refine leaves_bind_step t₁ fun _ t₂ => leaves_bind_step t₂ fun n t₃ => ?_
                exact leaves_whileNext (ih (-1)) (pure ()) (fun out _ j => out ++ [j]) array n [] t₃
            | false =>
                refine leaves_bind_step t₁ fun _ t₂ => leaves_bind_step t₂ fun n t₃ => ?_
                exact leaves_whileNext (ih (-1)) (getString (-2))
                  (fun out key j => StdMap.assign key j out) object n [] t₃
        | _ => rfl
      · rfl

variable (c z)

/-- The conversion of the value at an index ends if the C stack suffices, with JSON or with an error
that is thrown on the way. -/
def ConversionEnds (index : Int) (t : DukThread) : Prop :=
  ∃ depth, leaves (dukValueToJSON c z depth index) t ≠ .overflow

theorem conversionEnds_iff (index : Int) (t : DukThread) :
    ConversionEnds c z index t ↔ Ends (plan c z) (index, t) := by
  simp only [ConversionEnds, leaves_dukValueToJSON, Ends]

end DukStack

/-! ## Steps that do not come back -/

namespace Duk

variable (c : DukCode)

/-- The look-up comes to a getter that does not return. -/
def ReadHangs (o : Nat) (k : Bytes) (w : DukWorld) : Prop :=
  ∃ f, w.1.read o k = .getter f ∧ (c.getter f (.object o) w).1 = .never

/-- Reading the property runs a getter or a trap that does not return. -/
def GetHangs (o : Nat) (k : Bytes) (w : DukWorld) : Prop :=
  match (w.1.objects o).proxy with
  | none => ReadHangs c o k w
  | some target => (c.trapGet o k w).1 = .never ∨
      ∃ w₁, c.trapGet o k w = (.gave none, w₁) ∧ ReadHangs c target k w₁

variable {c}

theorem stuck_run_iff {α : Type} {f : DukWorld → CodeEnd α × DukWorld} {w : DukWorld} :
    (run f).Stuck w ↔ (f w).1 = .never := by
  unfold Prog.Stuck run
  rcases f w with ⟨r, w'⟩
  cases r <;> simp

theorem stuck_getPlain_iff (o : Nat) (k : Bytes) (w : DukWorld) :
    (getPlain c o k).Stuck w ↔ ReadHangs c o k w := by
  unfold ReadHangs
  cases h : w.1.read o k with
  | absent | limit | value v =>
      refine iff_of_false ?_ (by simp)
      unfold Prog.Stuck getPlain
      simp [h]
  | getter f =>
      have hrun : (getPlain c o k).Stuck w ↔ (run (c.getter f (.object o)) >>= fun v =>
          (pure (true, v) : Duk (Bool × DukValue))).Stuck w := by
        unfold Prog.Stuck getPlain
        rw [h]
      rw [hrun, Prog.stuck_bind_iff_left fun v w' => Prog.not_stuck_pure _ w', stuck_run_iff]
      simp

theorem stuck_getProp_iff (o : Nat) (k : Bytes) (w : DukWorld) :
    (getProp c o k).Stuck w ↔ GetHangs c o k w := by
  unfold getProp GetHangs
  rw [Prog.stuck_bind_of_gives (gives_inspect _ w)]
  cases (w.1.objects o).proxy with
  | none => exact stuck_getPlain_iff o k w
  | some target =>
      refine Prog.stuck_bind_iff.trans (or_congr stuck_run_iff ?_)
      simp only [gives_run_iff]
      constructor
      · rintro ⟨r, w₁, htrap, hstuck⟩
        cases r with
        | some v => exact absurd hstuck (Prog.not_stuck_of_gives rfl)
        | none => exact ⟨w₁, htrap, (stuck_getPlain_iff target k w₁).mp hstuck⟩
      · rintro ⟨w₁, htrap, hhangs⟩
        exact ⟨none, w₁, htrap, (stuck_getPlain_iff target k w₁).mpr hhangs⟩

theorem stuck_enumerate_iff (indicesOnly : Bool) (o : Nat) (w : DukWorld) :
    (enumerate c indicesOnly o).Stuck w ↔
      (w.1.objects o).proxy.isSome ∧ (c.trapKeys o w).1 = .never := by
  unfold enumerate
  rw [Prog.stuck_bind_of_gives (gives_inspect _ w)]
  cases (w.1.objects o).proxy with
  | none => exact iff_of_false (Prog.not_stuck_of_gives (gives_inspect _ w)) (by simp)
  | some target =>
      refine Prog.stuck_bind_iff.trans ?_
      rw [stuck_run_iff]
      refine (or_iff_left ?_).trans (by simp)
      rintro ⟨keys, w₁, -, hstuck⟩
      cases keys with
      | none => exact Prog.not_stuck_of_gives (gives_inspect _ w₁) hstuck
      | some keys => exact Prog.not_stuck_of_gives rfl hstuck

end Duk

namespace DukStack

variable (c : DukCode) (z : DukSizes)

/-- There is no room to list the keys of the object at the index, or a trap does not return. -/
def ListHangs (index : Int) (indicesOnly : Bool) (t : DukThread) : Prop :=
  ∃ o, t.item index = some (.value (.object o)) ∧
    let proxy := (t.world.1.objects o).proxy.isSome
    (¬ t.Room (z.room (.enum proxy)) ∨ proxy ∧ (c.trapKeys o t.world).1 = .never ∨
      ∃ base keys w, (Duk.enumerate c indicesOnly o).Gives t.world (base, keys) w ∧
        (w.1.objects base).proxy.isSome ∧ ¬ DukThread.Room ⟨w, t.stack⟩ (z.room .ownKeys))

/-- There is no room to read the next property, or a getter or a trap does not return. -/
def NextHangs (t : DukThread) : Prop :=
  ∃ base keys, t.item (-1) = some (.enumerator base keys) ∧
    (¬ t.Room (z.room .exhausted) ∨
      ∃ k rest, t.world.1.nextKey base keys = some (k, rest) ∧
        (¬ t.Room (z.room (.next (t.world.1.source base k))) ∨ Duk.GetHangs c base k t.world))

variable {c z} {t : DukThread}

theorem stuck_needFor_bind_iff {α : Type} (use : DukHeap → DukUse) {f : Unit → DukStack α} :
    Prog.Stuck (needFor z use >>= f) t ↔
      ¬ t.Room (z.room (use t.world.1)) ∨ (f ()).Stuck t := by
  by_cases hroom : t.Room (z.room (use t.world.1))
  · have hneed : (needFor z use).Gives t () t := if_pos hroom
    rw [Prog.stuck_bind_of_gives hneed]
    simp [hroom]
  · have hneed : needFor z use t = (.stuck, t) := if_neg hroom
    refine iff_of_true (Prog.stuck_bind_iff.mpr (.inl ?_)) (.inl hroom)
    rw [Prog.Stuck, hneed]

theorem stuck_copyKeys_iff (base : Nat) : (copyKeys z base).Stuck t ↔
    (t.world.1.objects base).proxy.isSome ∧ ¬ t.Room (z.room .ownKeys) := by
  have hlook : (inWorld (Duk.inspect fun h => (h.objects base).proxy.isSome)).Gives t
      (t.world.1.objects base).proxy.isSome t := rfl
  refine (Prog.stuck_bind_of_gives hlook).trans ?_
  cases (t.world.1.objects base).proxy.isSome with
  | false => exact iff_of_false (Prog.not_stuck_of_gives rfl) (by simp)
  | true =>
      have hneed := stuck_needFor_bind_iff (z := z) (t := t) (fun _ => .ownKeys)
        (f := fun _ => (pure () : DukStack Unit))
      rw [Prog.stuck_bind_iff_left fun _ t' => Prog.not_stuck_pure () t'] at hneed
      simpa [Prog.not_stuck_pure] using hneed

theorem stuck_enumerate_iff (index : Int) (indicesOnly : Bool) :
    (enumerate c z index indicesOnly).Stuck t ↔ ListHangs c z index indicesOnly t := by
  unfold enumerate ListHangs
  rw [Prog.stuck_bind_of_gives (gives_item index)]
  rcases hitem : t.item index with _ | ⟨v | ⟨o, keys⟩⟩
  · exact iff_of_false (Prog.not_stuck_raise t) (by simp)
  · cases v with
    | object o =>
        -- a proxy can run out of room once more, for its keys
        have hcopy : ∀ base (keys : List Bytes) t₁, Prog.Stuck (do
            copyKeys z base
            append (.enumerator base (keys.filter fun k => !isSymbol k))) t₁ ↔
              (t₁.world.1.objects base).proxy.isSome ∧ ¬ t₁.Room (z.room .ownKeys) :=
          fun base keys t₁ => (Prog.stuck_bind_iff_left fun _ _ =>
            Prog.not_stuck_of_gives rfl).trans (stuck_copyKeys_iff base)
        have hlist : Prog.Stuck (do
            needFor z fun h => .enum (h.objects o).proxy.isSome
            let found ← inWorld (Duk.enumerate c indicesOnly o)
            copyKeys z found.1
            append (.enumerator found.1 (found.2.filter fun k => !isSymbol k))) t ↔
            ¬ t.Room (z.room (.enum (t.world.1.objects o).proxy.isSome)) ∨
              ((t.world.1.objects o).proxy.isSome ∧ (c.trapKeys o t.world).1 = .never ∨
              ∃ base keys w, (Duk.enumerate c indicesOnly o).Gives t.world (base, keys) w ∧
                (w.1.objects base).proxy.isSome ∧
                  ¬ DukThread.Room ⟨w, t.stack⟩ (z.room .ownKeys)) := by
          refine (stuck_needFor_bind_iff _).trans (or_congr_right (Prog.stuck_bind_iff.trans ?_))
          refine or_congr (Duk.stuck_enumerate_iff indicesOnly o t.world) ⟨?_, ?_⟩
          · rintro ⟨found, t₁, hgives, hstuck⟩
            obtain ⟨hfound, hstack⟩ := of_gives_inWorld hgives
            obtain ⟨hproxy, hroom⟩ := (hcopy found.1 found.2 t₁).mp hstuck
            refine ⟨found.1, found.2, t₁.world, hfound, hproxy, ?_⟩
            rwa [DukThread.Room, ← hstack]
          · rintro ⟨base, keys, w, hfound, hproxy, hroom⟩
            exact ⟨(base, keys), _, gives_inWorld hfound, (hcopy base keys _).mpr ⟨hproxy, hroom⟩⟩
        simpa using hlist
    | _ => exact iff_of_false (Prog.not_stuck_raise t) (by simp)
  · exact iff_of_false (Prog.not_stuck_raise t) (by simp)

theorem stuck_next_iff : (next c z (-1)).Stuck t ↔ NextHangs c z t := by
  unfold next NextHangs
  rw [Prog.stuck_bind_of_gives (gives_item (-1))]
  rcases htop : t.item (-1) with _ | ⟨v | ⟨base, keys⟩⟩
  · exact iff_of_false (Prog.not_stuck_raise t) (by simp)
  · exact iff_of_false (Prog.not_stuck_raise t) (by simp)
  · obtain ⟨below, hstack⟩ := exists_top htop
    have hlook : (inWorld (Duk.inspect fun h => h.nextKey base keys)).Gives t
        (t.world.1.nextKey base keys) t := rfl
    refine Iff.trans ?_ exists_enumerator_iff.symm
    refine (stuck_needFor_bind_iff _).trans (or_congr_right ?_)
    rw [Prog.stuck_bind_of_gives hlook]
    rcases hfound : t.world.1.nextKey base keys with _ | ⟨k, rest⟩
    · refine iff_of_false ?_ (by simp)
      refine fun h => ?_
      rw [Prog.stuck_bind_of_gives (gives_replaceTop hstack (.enumerator base []))] at h
      exact Prog.not_stuck_of_gives rfl h
    · have hread : Prog.Stuck (do
          let found ← inWorld (Duk.getProp c base k)
          append (.value (.string k))
          append (.value found.2)
          pure true) ⟨t.world, below ++ [DukItem.enumerator base rest]⟩ ↔
          Duk.GetHangs c base k t.world :=
        (Prog.stuck_bind_iff_left fun _ _ => Prog.not_stuck_of_gives rfl).trans
          (Duk.stuck_getProp_iff base k t.world)
      refine (Prog.stuck_bind_of_gives (gives_replaceTop hstack (.enumerator base rest))).trans
        ((stuck_needFor_bind_iff _).trans ((or_congr_right hread).trans ?_))
      simp [DukThread.Room, hstack]

end DukStack

/-! ## The four converters -/

/-- A table whose element 1 is the table. -/
def tableInItself : LuaObjects Bool where
  node o := if o then .table [(false, true)] else .number ⟨0x3FF0000000000000⟩
  asSize _ := 1
  asString _ := .ok (text "1")

/-- A list whose element is the list. -/
def listInItself : PyObjects Unit :=
  { PyObjects.plain with
    isinstance := fun type _ => type = .list
    next := fun _ i => pure (if i = 0 then some () else none) }

/-- A list whose class has an iterator that gives `None` for ever. -/
def endlessList : PyObjects Bool :=
  { PyObjects.plain with
    isNone := fun o => !o
    isinstance := fun type _ => type = .list
    next := fun _ _ => pure (some false) }

/-- An array whose element is the array. -/
def arrayInItself : Mruby Unit Unit where
  api := .blank
  node _ _ := .array [()]
  poesie := ()
  objectFrozen _ := false
  constSet _ s := s
  loadString _ s := (.ok (), s)
  inspect _ s := ((), s)

theorem listInItself_cyclic : Cyclic listInItself.plan (.object ()) := by
  have hturn : Visits listInItself.plan (.object ()) (.turn () 0) := .here _ _
  have hback : Visits listInItself.plan (.turn () 0) (.object ()) := .here _ _
  exact ⟨.object (), .refl, .head hturn (.single hback)⟩

theorem endlessList_unfolds : Unfolds endlessList.plan (.object true) := by
  -- the list, and then one turn after the other
  refine ⟨fun n => Nat.casesOn n (.object true) (.turn true), rfl, fun n => ?_, ?_⟩
  · cases n with
    | zero => exact .here _ _
    | succ n =>
        have hnone : Completes endlessList.plan (endlessList.plan (.object false)) () := .done ()
        exact .later hnone (.here _ _)
  · intro i j heq
    cases i with
    | zero =>
        cases j with
        | zero => rfl
        | succ j => cases heq
    | succ i =>
        cases j with
        | zero => cases heq
        | succ j =>
            cases heq
            rfl

/-- An object whose property `o` is the object. -/
def objectInItself : DukWorld :=
  ({ builtins with
      objects := Function.update builtins.objects 2
        (builtins.freshObject false [DukHeap.plain ([111], .object 2)])
      next := 3 }, .empty fun _ => 0)

theorem listed_objectInItself (c : DukCode) :
    Duk.Listed c objectInItself 2 ([111], .object 2) := by
  have hobject : objectInItself.1.objects 2 =
      objectInItself.1.freshObject false ([([111], .object 2)].map DukHeap.plain) := rfl
  refine Duk.listed_of_fresh hobject ?_ (List.mem_singleton.mpr rfl) _
  rw [StdMap.distinct_iff]
  exact List.nodup_singleton _

/-- The loop over its keys comes to a nested call for the object, if there is room. -/
theorem eval_turns_objectInItself (c : DukCode) (z : DukSizes)
    {visit : Int × DukThread → Ending DukThread}
    (hvisit : ∀ below, visit (-1, ⟨objectInItself, below ++ [.value (.object 2)]⟩) = .overflow)
    (n : Nat) (below : List DukItem) :
    (DukStack.turns c z (DukStack.getString (-2)) n
      ⟨objectInItself, below ++ [.enumerator 2 [[111]]]⟩).eval visit = .overflow := by
  have hnext := DukStack.exactly_next (z := z) (listed_objectInItself c) below []
  cases n with
  | zero => rfl
  | succ n =>
      rw [DukStack.turns]
      by_cases hstuck : (DukStack.next c z (-1)).Stuck
          ⟨objectInItself, below ++ [.enumerator 2 [[111]]]⟩
      · rw [ofStep_of_stuck hstuck]
        rfl
      · -- what is not stuck has room
        have hroom : below.length + 1 + z.room .exhausted ≤ objectInItself.1.limit ∧
            below.length + 1 + z.room (.next .plain) ≤ objectInItself.1.limit := by
          by_contra hnone
          refine hstuck (DukStack.stuck_next_iff.mpr ⟨2, [[111]],
            (DukStack.gives_item (-1)).unique (DukStack.gives_itemAt_top rfl) |>.1, ?_⟩)
          have hlength : (below ++ [DukItem.enumerator 2 [[111]]]).length = below.length + 1 := by
            simp
          rcases Decidable.not_and_iff_or_not.mp hnone with hend | hmore
          · exact .inl (by rwa [DukThread.Room, hlength])
          · refine .inr ⟨[111], [], (listed_objectInItself c).found [], .inl ?_⟩
            rwa [DukThread.Room, hlength, (listed_objectInItself c).source]
        obtain ⟨more, t, hgives, rfl, rfl⟩ := hnext.gives hroom
        have hsplit : below ++ [DukItem.enumerator 2 [], .value (.string [111]),
            .value (.object 2)] = below ++ [.enumerator 2 []] ++
              [.value (.string [111]), .value (.object 2)] := by
          simp
        have hkey : (DukStack.getString (-2)).Gives ⟨objectInItself, below ++
            [.enumerator 2 [], .value (.string [111]), .value (.object 2)]⟩ [111] _ :=
          Prog.gives_bind_iff.mpr ⟨_, _, DukStack.gives_itemAt_second hsplit, rfl⟩
        -- the member is the object itself, one level deeper
        have hcall := hvisit (below ++ [.enumerator 2 [], .value (.string [111])])
        rw [List.append_assoc] at hcall
        rw [ofStep_of_gives hgives, if_pos rfl, ofStep_of_gives hkey, Plan.eval]
        rw [show [DukItem.enumerator 2 [], .value (.string [111]), .value (.object 2)] =
          [.enumerator 2 [], .value (.string [111])] ++ [DukItem.value (.object 2)] from rfl, hcall]
        rfl

/-- Each nested call finds the object again, until there is no room. -/
theorem run_objectInItself (c : DukCode) (z : DukSizes) (depth : Nat) (below : List DukItem) :
    Traversal.run (DukStack.plan c z) depth
      (-1, ⟨objectInItself, below ++ [.value (.object 2)]⟩) = .overflow := by
  induction depth generalizing below with
  | zero => rfl
  | succ depth ih =>
      have hslot : (DukStack.itemAt (-1)).Gives ⟨objectInItself, below ++ [.value (.object 2)]⟩
        (some (.value (.object 2))) _ := DukStack.gives_itemAt_top rfl
      have hobject : objectInItself.1.objects 2 =
          objectInItself.1.freshObject false ([([111], .object 2)].map DukHeap.plain) := rfl
      have hkeys : objectInItself.1.enumKeys false 2 = [[111]] := by decide +kernel
      have henum := DukStack.exactly_enumerate (c := c) (z := z) hslot hobject hkeys (by decide)
      have harray : (objectInItself.1.objects 2).isArray = false := rfl
      rw [Traversal.run, DukStack.plan, ofStep_of_gives hslot]
      dsimp only
      rw [harray]
      by_cases hroom : (below ++ [DukItem.value (.object 2)]).length + z.room (.enum false) ≤
          objectInItself.1.limit
      · obtain ⟨u, t, hgives, rfl⟩ := henum.gives hroom
        rw [ofStep_of_gives hgives, ofStep_of_gives DukStack.gives_rounds,
          if_neg Bool.false_ne_true]
        exact eval_turns_objectInItself c z ih _ _
      · have hstuck : (DukStack.enumerate c z (-1) false).Stuck
            ⟨objectInItself, below ++ [.value (.object 2)]⟩ :=
          (DukStack.stuck_enumerate_iff (-1) false).mpr
            ⟨2, (DukStack.gives_item (-1)).unique hslot |>.1, .inl hroom⟩
        rw [ofStep_of_stuck hstuck]
        rfl

/-- A getter that never returns. -/
def endlessGetter : DukCode := { inert with getter := fun _ _ w => (.never, w) }

/-- An object whose property `x` has it. -/
def getsForEver : DukWorld :=
  ({ builtins with
      objects := Function.update builtins.objects 2
        ⟨false, none, [([120], ⟨.accessor (some 0) none, true⟩)], [0], true, none⟩
      next := 3 }, .empty fun _ => 0)

end Poesie
