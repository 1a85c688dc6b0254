import Poesie.PushedTexts
import Poesie.StackReads

set_option autoImplicit false

/-! # What the converters leave on the stack

`JSONtoDukValue` pushes one value, and `dukValueToJSON` leaves the stack as it was, whatever the
objects are and whatever their code does: the calls in between push and pop as many values, in
every branch and in every turn of a loop. Nothing is said here about how deep the stack is.
-/

namespace Poesie

open Wire Json SharedPtr Outcomes

namespace DukStack

variable {α β : Type} {c : DukCode} {z : DukSizes} {m : Margo} {env : ViewId → Env}
  {t : DukThread}

/-! ## Calls -/

theorem ensures_need (n : Nat) : (need n).Ensures t fun _ t' => t'.stack = t.stack :=
  (exactly_need n).ensures.mono fun _ _ ht => congrArg DukThread.stack ht

theorem ensures_needFor (use : DukHeap → DukUse) :
    (needFor z use).Ensures t fun _ t' => t'.stack = t.stack :=
  (exactly_needFor use).ensures.mono fun _ _ ht => congrArg DukThread.stack ht

theorem ensures_inWorld (f : Duk α) : (inWorld f).Ensures t fun _ t' => t'.stack = t.stack :=
  fun _ _ hgives => (of_gives_inWorld hgives).2

theorem ensures_itemAt (index : Int) :
    (itemAt index).Ensures t fun _ t' => t'.stack = t.stack := .of_gives rfl rfl

theorem ensures_push (v : DukValue) :
    (push v).Ensures t fun _ t' => t'.stack = t.stack ++ [DukItem.value v] :=
  (exactly_push v).ensures.mono fun _ _ ht => congrArg DukThread.stack ht

theorem ensures_pushObject (isArray : Bool) :
    (pushObject isArray).Ensures t fun _ t' => ∃ v, t'.stack = t.stack ++ [DukItem.value v] :=
  (exactly_pushObject isArray).ensures.mono fun _ _ ht => ⟨_, congrArg DukThread.stack ht.2⟩

/-- What was pushed last is popped. -/
theorem ensures_pop (below above : List DukItem) {n : Nat} (hstack : t.stack = below ++ above)
    (hn : above.length = n) : (pop n).Ensures t fun _ t' => t'.stack = below :=
  .of_gives (gives_pop below above hstack hn) rfl

/-- A property is put with the value on top, which is popped. -/
theorem ensures_putProp {index : Int} {key : DukKey} {below : List DukItem} {item : DukItem}
    (hstack : t.stack = below ++ [item]) :
    (putProp c z index key).Ensures t fun _ t' => t'.stack = below := by
  unfold putProp
  refine (ensures_itemAt index).bind fun base t₁ h₁ => (ensures_itemAt (-1)).bind fun v t₂ h₂ => ?_
  rw [h₁, hstack] at h₂
  split
  · refine (ensures_needFor _).bind fun _ t₃ h₃ => (ensures_inWorld _).bind fun _ t₄ h₄ => ?_
    exact ensures_pop below [item] (by rw [h₄, h₃, h₂]) rfl
  · exact .raise

theorem ensures_copyKeys (base : Nat) :
    (copyKeys z base).Ensures t fun _ t' => t'.stack = t.stack := by
  refine (ensures_inWorld _).bind fun proxy t₁ h₁ => ?_
  split
  · exact (ensures_needFor _).mono fun _ _ h₂ => h₂.trans h₁
  · exact .pure h₁

/-- An enumerator is pushed. -/
theorem ensures_enumerate (index : Int) (indicesOnly : Bool) :
    (enumerate c z index indicesOnly).Ensures t fun _ t' =>
      ∃ item, t'.stack = t.stack ++ [item] := by
  unfold enumerate
  refine (ensures_itemAt index).bind fun item t₁ h₁ => ?_
  split
  · refine (ensures_needFor _).bind fun _ t₂ h₂ => (ensures_inWorld _).bind fun found t₃ h₃ => ?_
    refine (ensures_copyKeys found.1).bind fun _ t₄ h₄ => ?_
    exact .of_gives rfl ⟨_, by rw [h₄, h₃, h₂, h₁]⟩
  · exact .raise

/-- Another item on top. -/
theorem ensures_replace {below : List DukItem} {item : DukItem} (item' : DukItem)
    (hstack : t.stack = below ++ [item]) :
    (replace (-1) item').Ensures t fun _ t' => t'.stack = below ++ [item'] := by
  obtain ⟨w, stack⟩ := t
  subst hstack
  exact .of_gives (gives_replace_top item item') rfl

/-- A key with its value. -/
def Entry (above : List DukItem) : Prop := ∃ k v, above = [.value (.string k), .value v]

theorem Entry.length {above : List DukItem} (h : Entry above) : above.length = 2 := by
  obtain ⟨k, v, rfl⟩ := h
  rfl

/-- The next property of the enumerator on top: its key and its value are pushed, or nothing is. -/
theorem ensures_next {below : List DukItem} {item : DukItem} (hstack : t.stack = below ++ [item]) :
    (next c z (-1)).Ensures t fun more t' => ∃ item' above, t'.stack = below ++ [item'] ++ above ∧
      if more then Entry above else above = [] := by
  unfold next
  refine (ensures_itemAt (-1)).bind fun found t₁ h₁ => ?_
  split
  case h_1 base keys =>
    refine (ensures_needFor _).bind fun _ t₂ h₂ => (ensures_inWorld _).bind fun r t₃ h₃ => ?_
    have h₃ : t₃.stack = below ++ [item] := by rw [h₃, h₂, h₁, hstack]
    cases r with
    | none =>
        refine (ensures_replace _ h₃).bind fun _ t₄ h₄ => ?_
        exact .pure ⟨_, [], h₄.trans (List.append_nil _).symm, rfl⟩
    | some r =>
        refine (ensures_replace (.enumerator base r.2) h₃).bind fun _ t₄ h₄ => ?_
        refine (ensures_needFor _).bind fun _ t₅ h₅ => (ensures_inWorld _).bind fun v t₆ h₆ => ?_
        refine .of_gives rfl ⟨.enumerator base r.2, _, ?_, r.1, v.2, rfl⟩
        simp [h₆, h₅, h₄]
  case h_2 => exact .raise

/-! ## Reading -/

/-- The body of a loop leaves what lies below the key and the value. -/
def Consumes (body : β → DukStack β) : Prop := ∀ t out below above,
  t.stack = below ++ above → Entry above → (body out).Ensures t fun _ t' => t'.stack = below

/-- A loop leaves the enumerator on top. -/
theorem ensures_whileNext {body : β → DukStack β} (hbody : Consumes body) {below : List DukItem}
    (n : Nat) (out : β) {t : DukThread} {item : DukItem} (hstack : t.stack = below ++ [item]) :
    (whileNext c z body n out).Ensures t fun _ t' => ∃ item', t'.stack = below ++ [item'] := by
  induction n generalizing out t item with
  | zero => exact .stuck
  | succ n ih =>
      rw [whileNext]
      refine (ensures_next hstack).bind fun more t₁ h₁ => ?_
      obtain ⟨item', above, h₁, hentry⟩ := h₁
      cases more with
      | false =>
          -- nothing was pushed
          have hnone : above = [] := hentry
          rw [hnone, List.append_nil] at h₁
          exact .pure ⟨item', h₁⟩
      | true => exact (hbody t₁ out _ above h₁ hentry).bind fun out' t₂ h₂ => ih out' h₂

theorem ensures_rounds : rounds.Ensures t fun _ t' => t'.stack = t.stack := by
  refine (ensures_itemAt (-1)).bind fun item t₁ h₁ => ?_
  split
  · exact .pure h₁
  · exact .pure h₁

/-- An enumeration from `duk_enum` to the `duk_pop` of the enumerator. -/
theorem ensures_container {index : Int} {indicesOnly : Bool} {body : β → DukStack β}
    (hbody : Consumes body) (out : β) (wrap : β → Json) :
    Prog.Ensures (do
      enumerate c z index indicesOnly
      let n ← rounds
      let out ← whileNext c z body n out
      pop 1
      pure (wrap out)) t fun _ t' => t'.stack = t.stack := by
  refine (ensures_enumerate index indicesOnly).bind fun _ t₁ ⟨item, h₁⟩ => ?_
  refine ensures_rounds.bind fun n t₂ h₂ => ?_
  refine (ensures_whileNext hbody n out (h₂.trans h₁)).bind fun out t₃ ⟨item', h₃⟩ => ?_
  exact (ensures_pop t.stack [item'] h₃ rfl).bind fun _ t₄ h₄ => .pure h₄

theorem ensures_getString (index : Int) :
    (getString index).Ensures t fun _ t' => t'.stack = t.stack := by
  refine (ensures_itemAt index).bind fun item t₁ h₁ => ?_
  split
  · exact .pure h₁
  · exact .stuck

/-- Whatever is read, the stack is as it was. -/
theorem ensures_dukValueToJSON (depth : Nat) (index : Int) (t : DukThread) :
    (dukValueToJSON c z depth index).Ensures t fun _ t' => t'.stack = t.stack := by
  -- on the room that is left; the elements are read at `-1`, above the enumerator
  induction depth generalizing index t with
  | zero => exact .stuck
  | succ depth ih =>
      rw [dukValueToJSON]
      refine (ensures_itemAt index).bind fun item t₁ h₁ => ?_
      rw [← h₁]
      split
      case h_4 o =>
        refine (ensures_inWorld _).bind fun isArray t₂ h₂ => ?_
        rw [← h₂]
        split
        · refine ensures_container (fun t out below above hstack hentry => ?_) [] array
          refine (ih (-1) t).bind fun j t₃ h₃ => ?_
          exact (ensures_pop below above (h₃.trans hstack) hentry.length).bind fun _ t₄ h₄ => .pure h₄
        · refine ensures_container (fun t out below above hstack hentry => ?_) [] object
          -- the key lies below the value
          refine (ensures_getString (-2)).bind fun key t₃ h₃ => (ih (-1) t₃).bind fun j t₄ h₄ => ?_
          have hboth : t₄.stack = below ++ above := (h₄.trans h₃).trans hstack
          exact (ensures_pop below above hboth hentry.length).bind fun _ t₅ h₅ => .pure h₅
      case h_5 => exact .stuck
      all_goals exact .pure rfl

/-! ## Writing -/

/-- One value is pushed. -/
def Adds (f : DukStack Unit) : Prop := ∀ t,
  f.Ensures t fun _ t' => ∃ v, t'.stack = t.stack ++ [DukItem.value v]

theorem adds_withCopy {body : DukStack Unit} (hbody : Adds body) (created : List ViewId) :
    Adds (withCopy created body) := by
  intro t u t' hgives
  obtain ⟨t₁, hfirst, hstack, -⟩ := of_gives_withCopy hgives
  obtain ⟨v, hv⟩ := hbody _ u t₁ hfirst
  exact ⟨v, hstack.trans hv⟩

theorem adds_push (v : DukValue) : Adds (push v) := fun _ =>
  (ensures_push v).mono fun _ _ h => ⟨v, h⟩

/-- The elements of an array are put into it, one after the other. -/
theorem ensures_putItems {items : List Json} {created : List ViewId}
    (hitems : ∀ j ∈ items, Adds (JSONtoDukValue c z m env j created)) (arr_idx : Int) (i : Nat)
    (t : DukThread) : (putItems c z m env arr_idx i items created).Ensures t
      fun _ t' => t'.stack = t.stack := by
  induction items generalizing i t with
  | nil =>
      rw [putItems]
      exact .pure rfl
  | cons item rest ih =>
      rw [putItems]
      refine (hitems item (by simp) t).bind fun _ t₁ hpushed => ?_
      obtain ⟨v, h₁⟩ := hpushed
      refine (ensures_putProp h₁).bind fun _ t₂ h₂ => ?_
      split
      · rw [← h₂]
        exact ih (fun j hj => hitems j (by simp [hj])) (i + 1) t₂
      · exact .stuck

theorem ensures_putMembers {members : List (Bytes × Json)} {created : List ViewId}
    (hmembers : ∀ p ∈ members, Adds (JSONtoDukValue c z m env p.2 created)) (t : DukThread) :
    (putMembers c z m env members created).Ensures t fun _ t' => t'.stack = t.stack := by
  induction members generalizing t with
  | nil =>
      rw [putMembers]
      exact .pure rfl
  | cons p rest ih =>
      rw [putMembers]
      refine (hmembers p (by simp) t).bind fun _ t₁ hpushed => ?_
      obtain ⟨v, h₁⟩ := hpushed
      refine (ensures_putProp h₁).bind fun _ t₂ h₂ => ?_
      rw [← h₂]
      exact ih (fun q hq => hmembers q (by simp [hq])) t₂

/-- A container is pushed, and what is put into it is popped. -/
theorem adds_container {isArray : Bool} {fill : Int → DukStack Unit}
    (hfill : ∀ i t, (fill i).Ensures t fun _ t' => t'.stack = t.stack) :
    Adds (pushObject isArray >>= fill) := fun _ =>
  (ensures_pushObject isArray).bind fun i t₁ ⟨v, h₁⟩ =>
    (hfill i t₁).mono fun _ _ h₂ => ⟨v, h₂.trans h₁⟩

/-- Whatever is converted, one value is pushed. -/
theorem adds_JSONtoDukValue (j : Json) (created : List ViewId) :
    Adds (JSONtoDukValue c z m env j created) := by
  induction j using Json.ind generalizing created with
  | array items ih =>
      rw [JSONtoDukValue]
      refine adds_withCopy (adds_container fun arr_idx t => ?_) created
      exact ensures_putItems (fun j hj => ih j hj created) arr_idx 0 t
  | object members ih =>
      rw [JSONtoDukValue]
      refine adds_withCopy (adds_container fun _ t => ?_) created
      exact ensures_putMembers (fun p hp => ih p hp created) t
  | binary b st =>
      rw [JSONtoDukValue]
      split
      · exact fun t u t' hgives => ⟨.other, (of_gives_pushView hgives).1⟩
      · exact adds_withCopy (adds_push .other) created
  | _ =>
      rw [JSONtoDukValue]
      exact adds_withCopy (adds_push _) created

end DukStack

open DukStack

/-- **Stack discipline of the converters.** Whatever objects and code the VM holds, and whatever
lies on the stack: a conversion to a value that returns leaves one new value on top of it, and a
conversion from the value at an index that returns leaves it as it was. -/
theorem converters_keep_stack (c : DukCode) (z : DukSizes) (m : Margo) (env : ViewId → Env)
    (t t' : DukThread) :
    (∀ (j : Json) (created : List ViewId) (u : Unit),
      (DukStack.JSONtoDukValue c z m env j created).Gives t u t' →
        ∃ v, t'.stack = t.stack ++ [DukItem.value v]) ∧
    ∀ (depth : Nat) (index : Int) (j : Json),
      (DukStack.dukValueToJSON c z depth index).Gives t j t' → t'.stack = t.stack :=
  ⟨fun j created u hgives => adds_JSONtoDukValue j created t u t' hgives,
    fun depth index j hgives => ensures_dukValueToJSON depth index t j t' hgives⟩

theorem dukSample_kept : dukSample.tree.Every DukStack.Kept := fun n hn =>
  have h97 : Utf8 [97] := by decide
  have h98 : Utf8 [98] := by decide
  have notBinary : dukSample.tree.Every NotBinary := by simp [dukSample, NotBinary]
  have ints : dukSample.tree.Every (Integers fun n => n.natAbs ≤ 2 ^ 53) := by
    simp [dukSample, Integers]
  have texts : dukSample.tree.Every (Texts fun s => 0 ∉ s ∧ Utf8 s) := by
    simp [dukSample, Texts, h97, h98]
  have keys : dukSample.tree.Every (Keys fun k => k ≠ text "__proto__") := by
    simp [dukSample, Keys]
    decide
  ⟨notBinary n hn, ints n hn, texts n hn, keys n hn, dukSample.wellFormed.keysAscending n hn⟩

/-- On top of two other values, an object with an array and another object in it is pushed, and is
read at `-1` and at its index from the bottom. -/
theorem converters_keep_stack_sample :
    let t : DukThread :=
      ⟨(builtins, .empty fun _ => 0), [.value (.boolean true), .enumerator 0 [[97]]]⟩
    ∃ t₁ v, (DukStack.JSONtoDukValue inert dukSizes (Margo.loopback noName) (fun _ => .quiet)
        dukSample.tree []).Gives t () t₁ ∧ t₁.stack = t.stack ++ [DukItem.value v] ∧
      (∃ j t₂, (DukStack.dukValueToJSON inert dukSizes 3 (-1)).Gives t₁ j t₂ ∧
        j.EqNum dukSample.tree ∧ t₂.stack = t₁.stack) ∧
      ∃ j t₂, (DukStack.dukValueToJSON inert dukSizes 3 2).Gives t₁ j t₂ ∧
        j.EqNum dukSample.tree ∧ t₂.stack = t₁.stack := by
  intro t
  have hcounted : dukSample.tree.Every Counted := by simp [dukSample, Counted]
  have hpushes : Pushes inert dukSizes (Margo.loopback noName) (fun _ => .quiet) dukSample.tree :=
    pushes dukSample_kept
  have hpush := hpushes t [] pristine_builtins
  obtain ⟨u, t₁, hpushed⟩ := hpush.returns ⟨by decide, hcounted⟩
  obtain ⟨-, hgrows, w, hstack, hholds⟩ := hpush.ensures u t₁ hpushed
  obtain ⟨v, hkeeps⟩ := (converters_keep_stack inert dukSizes (Margo.loopback noName)
    (fun _ => .quiet) t t₁).1 dukSample.tree [] u hpushed
  have hpristine : t₁.world.1.Pristine := pristine_builtins.grows hgrows fun _ _ _ => id
  have hlimit : t₁.world.1.limit = 112 := hgrows.limit
  have hlength : t₁.stack.length = 3 := by rw [hstack]; rfl
  -- the value is read wherever it is found
  have hread : ∀ index, (itemAt index).Gives t₁ (some (.value w)) t₁ →
      ∃ j t₂, (DukStack.dukValueToJSON inert dukSizes 3 index).Gives t₁ j t₂ ∧
        j.EqNum dukSample.tree ∧ t₂.stack = t₁.stack := by
    intro index hslot
    obtain ⟨j, t₂, hgives, -, heq⟩ := (readsBack (c := inert) (z := dukSizes) dukSample_kept
      hcounted t₁ index 3 _ w hpristine hholds hslot (by omega)).gives
        ⟨by rw [hlength, hlimit]; decide, by decide⟩
    exact ⟨j, t₂, hgives, heq, (converters_keep_stack inert dukSizes (Margo.loopback noName)
      (fun _ => .quiet) t₁ t₂).2 3 index j hgives⟩
  refine ⟨t₁, v, hpushed, hkeeps, hread (-1) (gives_itemAt_top hstack), hread 2 ?_⟩
  refine gives_itemAt (i := 2) ?_ ?_
  · rw [hlength]
    rfl
  · rw [hstack]
    rfl

end Poesie
