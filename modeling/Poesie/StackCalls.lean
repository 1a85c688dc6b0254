import Poesie.JavascriptStack

set_option autoImplicit false

/-! # When a call on the stack returns

The calls of the JavaScript backend are not protected, and what they come to is up to the objects
that scripts have left behind. Here each of them gets a condition on the state before it: on the
room that the stack has, on the properties that are read and assigned, and on the getters, setters
and traps that are run on the way. Where a call consists of several, the later ones start from what
the earlier ones leave.
-/

namespace Poesie

open Wire Json SharedPtr Outcomes

namespace DukThread

variable (t : DukThread)

/-- The item at an index. -/
def item (index : Int) : Option DukItem :=
  (DukStack.normalize index t.stack.length).bind fun i => t.stack[i]?

/-- The stack has room for so many values. -/
def Room (n : Nat) : Prop := t.stack.length + n ≤ t.world.1.limit

end DukThread

/-- The property of a value can be read. -/
def DukHost.Gettable (h : DukHost) (v : DukValue) (key : Bytes) (w : DukWorld) : Prop :=
  match v with
  | .object o => Duk.Gettable h.toDukCode o key w
  | v => ∃ r, (h.getPrimitive v key w).1 = .gave r

namespace DukStack

/-! ## Properties -/

section

variable (h : DukHost) (c : DukCode) (z : DukSizes)

/-- There is a value at the index, and its property can be read. -/
def GetsAt (index : Int) (key : Bytes) (t : DukThread) : Prop :=
  ∃ v, t.item index = some (.value v) ∧ t.Room (z.room (.get (h.source v key t.world.1))) ∧
    h.Gettable v key t.world

/-- There is a value at the index, and the one on top can be assigned to its property. -/
def PutsAt (index : Int) (key : DukKey) (t : DukThread) : Prop :=
  ∃ base v, t.item index = some (.value base) ∧ t.item (-1) = some (.value v) ∧
    t.Room (z.room (.put (t.world.1.putTarget c.slot base key))) ∧
    Duk.Assignable c base key v t.world

/-- There is an object at the index, and its keys can be listed and copied. -/
def ListsAt (index : Int) (indicesOnly : Bool) (t : DukThread) : Prop :=
  ∃ o, t.item index = some (.value (.object o)) ∧
    t.Room (z.room (.enum (t.world.1.objects o).proxy.isSome)) ∧ Duk.Listable c o t.world ∧
    ∀ base keys w, (Duk.enumerate c indicesOnly o).Gives t.world (base, keys) w →
      (w.1.objects base).proxy.isSome → DukThread.Room ⟨w, t.stack⟩ (z.room .ownKeys)

/-- The next property of the enumerator on top can be read, or there is none. -/
def NextReads (t : DukThread) : Prop :=
  ∃ base keys, t.item (-1) = some (.enumerator base keys) ∧ t.Room (z.room .exhausted) ∧
    ∀ k rest, t.world.1.nextKey base keys = some (k, rest) →
      t.Room (z.room (.next (t.world.1.source base k))) ∧ Duk.Gettable c base k t.world

end

variable {α : Type} {h : DukHost} {c : DukCode} {z : DukSizes} {t : DukThread}

theorem gives_item (index : Int) : (itemAt index).Gives t (t.item index) t := rfl

theorem returns_need_bind_iff {n : Nat} {f : Unit → DukStack α} :
    Prog.Returns (need n >>= f) t ↔ t.Room n ∧ (f ()).Returns t := by
  refine Prog.returns_bind_of_readOnly (fun s u s' hgives => ?_) ?_ fun _ => Iff.rfl
  · exact (exactly_need n).holds hgives
  · exact ⟨(exactly_need n).only, fun hroom =>
      let ⟨u, t', hgives, _⟩ := (exactly_need n).gives hroom
      ⟨u, t', hgives⟩⟩

theorem returns_needFor_bind_iff (use : DukHeap → DukUse) {f : Unit → DukStack α} :
    Prog.Returns (needFor z use >>= f) t ↔ t.Room (z.room (use t.world.1)) ∧ (f ()).Returns t := by
  refine (Prog.returns_congr ?_).trans returns_need_bind_iff
  rfl

theorem returns_inWorld_iff {f : Duk α} : (inWorld f).Returns t ↔ f.Returns t.world := by
  constructor
  · rintro ⟨a, t', hgives⟩
    exact ⟨a, t'.world, (of_gives_inWorld hgives).1⟩
  · rintro ⟨a, w, hgives⟩
    exact ⟨a, _, gives_inWorld hgives⟩

theorem returns_push_iff (v : DukValue) : (push v).Returns t ↔ t.Room 1 :=
  returns_need_bind_iff.trans (and_iff_left ⟨_, _, rfl⟩)

theorem returns_pushObject_iff (isArray : Bool) : (pushObject isArray).Returns t ↔ t.Room 1 :=
  returns_need_bind_iff.trans (and_iff_left ⟨_, _, rfl⟩)

theorem returns_pushGlobalObject_iff : pushGlobalObject.Returns t ↔ t.Room 1 := by
  have hlook : (inWorld (Duk.inspect fun h => h.globalObject)).Gives t t.world.1.globalObject t :=
    rfl
  exact (Prog.returns_bind_of_gives hlook).trans (returns_push_iff _)

/-- A value at the index, or an error. -/
theorem returns_value_bind_iff {o : Option DukItem} {f : DukValue → DukStack α}
    {P : DukValue → Prop} (hf : ∀ v, o = some (.value v) → ((f v).Returns t ↔ P v)) :
    Prog.Returns (match o with
      | some (.value v) => f v
      | _ => Prog.raise) t ↔ ∃ v, o = some (.value v) ∧ P v := by
  cases o with
  | none => exact iff_of_false (Prog.not_returns_raise t) (by simp)
  | some item =>
      cases item with
      | enumerator base keys => exact iff_of_false (Prog.not_returns_raise t) (by simp)
      | value v => simpa using hf v rfl

theorem returns_getPropString_iff (index : Int) (key : Bytes) :
    (getPropString h z index key).Returns t ↔ GetsAt h z index key t := by
  have hget : ∀ v, (h.get v key).Returns t.world ↔ h.Gettable v key t.world := by
    intro v
    cases v with
    | object o => exact Duk.returns_getProp_iff o key t.world
    | _ => exact Duk.returns_run_iff
  refine (Prog.returns_bind_of_gives (gives_item index)).trans
    (returns_value_bind_iff fun v _ => ?_)
  refine (returns_needFor_bind_iff _).trans (and_congr_right fun _ => ?_)
  refine (Prog.returns_bind_iff_left fun r t' => ⟨_, _, rfl⟩).trans ?_
  exact returns_inWorld_iff.trans (hget v)

theorem returns_putProp_iff (index : Int) (key : DukKey) :
    (putProp c z index key).Returns t ↔ PutsAt c z index key t := by
  unfold putProp PutsAt
  rw [Prog.returns_bind_of_gives (gives_item index), Prog.returns_bind_of_gives (gives_item (-1))]
  have hput : ∀ base v, t.item (-1) = some (.value v) →
      (Prog.Returns (do
        needFor z fun h => .put (h.putTarget c.slot base key)
        inWorld (Duk.putProp c base key v)
        pop 1) t ↔ t.Room (z.room (.put (t.world.1.putTarget c.slot base key))) ∧
          Duk.Assignable c base key v t.world) := by
    intro base v htop
    refine (returns_needFor_bind_iff _).trans (and_congr_right fun _ => ?_)
    rw [Prog.returns_bind_iff returns_inWorld_iff (P := fun _ _ => True),
      Duk.returns_putProp_iff]
    · simp
    · -- the value on top is popped
      intro u t' hgives
      have hpos : 1 ≤ t.stack.length := by
        by_contra hnone
        have hnil : t.stack = [] := List.length_eq_zero_iff.mp (by omega)
        rw [DukThread.item, hnil] at htop
        cases htop
      have hpop : 1 ≤ t'.stack.length := by
        rw [(of_gives_inWorld hgives).2]
        exact hpos
      refine iff_of_true ⟨(), { t' with stack := t'.stack.take (t'.stack.length - 1) }, ?_⟩ trivial
      unfold Prog.Gives pop
      rw [if_pos hpop]
  -- only a value can be put into, and only a value can be put
  rcases hbase : t.item index with _ | ⟨base | ⟨o, keys⟩⟩
  · exact iff_of_false (Prog.not_returns_raise t) (by simp)
  · rcases htop : t.item (-1) with _ | ⟨v | ⟨o, keys⟩⟩
    · exact iff_of_false (Prog.not_returns_raise t) (by simp)
    · simpa using hput base v htop
    · exact iff_of_false (Prog.not_returns_raise t) (by simp)
  · exact iff_of_false (Prog.not_returns_raise t) (by simp)

/-! ## Enumerations -/

theorem returns_copyKeys_iff (base : Nat) : (copyKeys z base).Returns t ↔
    ((t.world.1.objects base).proxy.isSome → t.Room (z.room .ownKeys)) := by
  have hlook : (inWorld (Duk.inspect fun h => (h.objects base).proxy.isSome)).Gives t
      (t.world.1.objects base).proxy.isSome t := rfl
  refine (Prog.returns_bind_of_gives hlook).trans ?_
  cases (t.world.1.objects base).proxy.isSome with
  | false => exact iff_of_true (Prog.returns_pure () t) (by simp)
  | true =>
      have hneed : (needFor z fun _ => .ownKeys).Returns t ↔ t.Room (z.room .ownKeys) := by
        have hbind := returns_needFor_bind_iff (z := z) (t := t) (fun _ => .ownKeys)
          (f := fun _ => (pure () : DukStack Unit))
        rw [Prog.returns_bind_iff_left fun u t' => Prog.returns_pure () t'] at hbind
        exact hbind.trans (and_iff_left (Prog.returns_pure () t))
      simpa using hneed

theorem returns_enumerate_iff (index : Int) (indicesOnly : Bool) :
    (enumerate c z index indicesOnly).Returns t ↔ ListsAt c z index indicesOnly t := by
  unfold enumerate ListsAt
  rw [Prog.returns_bind_of_gives (gives_item index)]
  rcases hitem : t.item index with _ | ⟨v | ⟨o, keys⟩⟩
  · exact iff_of_false (Prog.not_returns_raise t) (by simp)
  · cases v with
    | object o =>
        -- the enumerator of a proxy has its keys copied, in room of their own
        have hcopy : ∀ found t', (inWorld (Duk.enumerate c indicesOnly o)).Gives t found t' →
            (Prog.Returns (do
              copyKeys z found.1
              append (.enumerator found.1 (found.2.filter fun k => !isSymbol k))) t' ↔
            ((t'.world.1.objects found.1).proxy.isSome → t'.Room (z.room .ownKeys))) :=
          fun found t' _ => (Prog.returns_bind_iff_left fun u t'' => ⟨_, _, rfl⟩).trans
            (returns_copyKeys_iff found.1)
        have hlist : Prog.Returns (do
            needFor z fun h => .enum (h.objects o).proxy.isSome
            let found ← inWorld (Duk.enumerate c indicesOnly o)
            copyKeys z found.1
            append (.enumerator found.1 (found.2.filter fun k => !isSymbol k))) t ↔
            t.Room (z.room (.enum (t.world.1.objects o).proxy.isSome)) ∧
              Duk.Listable c o t.world ∧ ∀ base keys w,
                (Duk.enumerate c indicesOnly o).Gives t.world (base, keys) w →
                  (w.1.objects base).proxy.isSome →
                    DukThread.Room ⟨w, t.stack⟩ (z.room .ownKeys) := by
          refine (returns_needFor_bind_iff _).trans (and_congr_right fun _ => ?_)
          refine (Prog.returns_bind_iff (returns_inWorld_iff.trans
            (Duk.returns_enumerate_iff indicesOnly o t.world)) hcopy).trans ?_
          refine and_congr_right fun _ => ⟨fun hall base keys w hgives => ?_, fun hall found t' h => ?_⟩
          · exact hall (base, keys) _ (gives_inWorld hgives)
          · obtain ⟨hgives, hstack⟩ := of_gives_inWorld h
            intro hproxy
            have hroom := hall found.1 found.2 t'.world hgives hproxy
            rwa [DukThread.Room, hstack]
        simpa using hlist
    | _ => exact iff_of_false (Prog.not_returns_raise t) (by simp)
  · exact iff_of_false (Prog.not_returns_raise t) (by simp)

/-- There is something on top where an item is found there. -/
theorem exists_top {item : DukItem} (htop : t.item (-1) = some item) :
    ∃ below, t.stack = below ++ [item] := by
  rcases List.eq_nil_or_concat t.stack with hnil | ⟨below, last, hstack⟩
  · rw [DukThread.item, hnil] at htop
    cases htop
  · rw [List.concat_eq_append] at hstack
    have hlast : t.item (-1) = some last := by
      have hgives := gives_itemAt_top hstack
      exact ((gives_item (-1)).unique hgives).1
    rw [hlast] at htop
    exact ⟨below, by rw [hstack, Option.some.inj htop]⟩

/-- Another item on top. -/
theorem gives_replaceTop {below : List DukItem} {item : DukItem}
    (hstack : t.stack = below ++ [item]) (item' : DukItem) :
    (replace (-1) item').Gives t () ⟨t.world, below ++ [item']⟩ := by
  obtain ⟨w, stack⟩ := t
  subst hstack
  exact gives_replace_top item item'

/-- An enumerator that is found on top is the one that lies there. -/
theorem exists_enumerator_iff {base : Nat} {keys : List Bytes} {Q : Nat → List Bytes → Prop} :
    (∃ base' keys', some (DukItem.enumerator base keys) = some (.enumerator base' keys') ∧
      Q base' keys') ↔ Q base keys := by
  constructor
  · rintro ⟨_, _, hitem, hcond⟩
    cases hitem
    exact hcond
  · exact fun hcond => ⟨base, keys, rfl, hcond⟩

theorem returns_next_iff : (next c z (-1)).Returns t ↔ NextReads c z t := by
  unfold next NextReads
  rw [Prog.returns_bind_of_gives (gives_item (-1))]
  rcases htop : t.item (-1) with _ | ⟨v | ⟨base, keys⟩⟩
  · exact iff_of_false (Prog.not_returns_raise t) (by simp)
  · exact iff_of_false (Prog.not_returns_raise t) (by simp)
  · obtain ⟨below, hstack⟩ := exists_top htop
    have hlook : (inWorld (Duk.inspect fun h => h.nextKey base keys)).Gives t
        (t.world.1.nextKey base keys) t := rfl
    refine Iff.trans ?_ exists_enumerator_iff.symm
    refine (returns_needFor_bind_iff _).trans (and_congr_right fun _ => ?_)
    rw [Prog.returns_bind_of_gives hlook]
    rcases hfound : t.world.1.nextKey base keys with _ | ⟨k, rest⟩
    · refine iff_of_true ?_ (by simp)
      exact (Prog.returns_bind_of_gives (gives_replaceTop hstack _)).mpr (Prog.returns_pure _ _)
    · have hread : Prog.Returns (do
          let found ← inWorld (Duk.getProp c base k)
          append (.value (.string k))
          append (.value found.2)
          pure true) ⟨t.world, below ++ [DukItem.enumerator base rest]⟩ ↔
          Duk.Gettable c base k t.world :=
        (Prog.returns_bind_iff_left fun _ _ => ⟨_, _, rfl⟩).trans
          (returns_inWorld_iff.trans (Duk.returns_getProp_iff base k t.world))
      refine (Prog.returns_bind_of_gives (gives_replaceTop hstack _)).trans
        ((returns_needFor_bind_iff _).trans ((and_congr_right fun _ => hread).trans ?_))
      simp [DukThread.Room, hstack]

/-! ## Reading -/

section

variable (c : DukCode) (z : DukSizes)

/-- As often as there is another property, it can be read, and its value can be converted. -/
def ReadsAll (depth : Nat) (Reads : DukThread → Prop) : Nat → DukThread → Prop
  | 0, _ => False
  | n + 1, t => NextReads c z t ∧ ∀ t₁, (next c z (-1)).Gives t true t₁ →
      Reads t₁ ∧ ∀ j t₂, (dukValueToJSON c z depth (-1)).Gives t₁ j t₂ →
        ∀ t₃, (pop 2).Gives t₂ () t₃ → ReadsAll depth Reads n t₃

/-- The value at the index can be converted: the properties of an object, and what is nested in
them, can be read one after the other. -/
def Reads : Nat → Int → DukThread → Prop
  | 0, _, _ => False
  | depth + 1, index, t =>
      match t.item index with
      | some (.value (.object o)) =>
          let indicesOnly := (t.world.1.objects o).isArray
          ListsAt c z index indicesOnly t ∧
            (enumerate c z index indicesOnly).Ensures t fun _ t₁ =>
              rounds.Ensures t₁ fun n t₂ => ReadsAll c z depth (Reads depth (-1)) n t₂
      | some (.enumerator _ _) => False
      | _ => True

end

/-- A loop body that converts the value of an entry. -/
def Converts {β : Type} (c : DukCode) (z : DukSizes) (depth : Nat) (body : β → DukStack β) : Prop :=
  ∀ t out below above, t.stack = below ++ above → Entry above →
    ((body out).Returns t ↔ (dukValueToJSON c z depth (-1)).Returns t) ∧
    ∀ out' t', (body out).Gives t out' t' → ∃ j t₁,
      (dukValueToJSON c z depth (-1)).Gives t j t₁ ∧ (pop 2).Gives t₁ () t'

theorem returns_whileNext_iff {β : Type} {depth : Nat} {R : DukThread → Prop}
    (hR : ∀ t, (dukValueToJSON c z depth (-1)).Returns t ↔ R t) {body : β → DukStack β}
    (hbody : Converts c z depth body) (n : Nat) (out : β) (t : DukThread) :
    (whileNext c z body n out).Returns t ↔ ReadsAll c z depth R n t := by
  induction n generalizing out t with
  | zero => exact iff_of_false (Prog.not_returns_stuck t) id
  | succ n ih =>
      rw [whileNext, ReadsAll]
      have hturn : ∀ more t₁, (next c z (-1)).Gives t more t₁ →
          (Prog.Returns (if more then body out >>= whileNext c z body n else pure out) t₁ ↔
            (more = true → R t₁ ∧ ∀ j t₂, (dukValueToJSON c z depth (-1)).Gives t₁ j t₂ →
              ∀ t₃, (pop 2).Gives t₂ () t₃ → ReadsAll c z depth R n t₃)) := by
        intro more t₁ hgives
        cases more with
        | false => exact iff_of_true (Prog.returns_pure out t₁) (by simp)
        | true =>
            -- the entry lies on the enumerator, where the body looks for it
            obtain ⟨base, keys, htop, -⟩ := returns_next_iff.mp ⟨_, _, hgives⟩
            obtain ⟨below, hstack⟩ := exists_top htop
            obtain ⟨item, above, hstack₁, hentry⟩ := ensures_next hstack true t₁ hgives
            obtain ⟨hreturns, hleft⟩ := hbody t₁ out _ above hstack₁ hentry
            simp only [if_true, true_imp_iff]
            refine (Prog.returns_bind_iff (hreturns.trans (hR t₁)) fun out' t₂ _ =>
              ih out' t₂).trans (and_congr_right fun hread => ?_)
            constructor
            · intro hall j t₂ hj t₃ hpop
              obtain ⟨out', t', hout⟩ := hreturns.mpr ⟨j, t₂, hj⟩
              obtain ⟨j', t₂', hj', hpop'⟩ := hleft out' t' hout
              obtain ⟨-, rfl⟩ := hj.unique hj'
              obtain ⟨-, rfl⟩ := hpop.unique hpop'
              exact hall out' t₃ hout
            · intro hall out' t' hout
              obtain ⟨j, t₂, hj, hpop⟩ := hleft out' t' hout
              exact hall j t₂ hj t' hpop
      refine (Prog.returns_bind_iff returns_next_iff hturn).trans (and_congr_right fun _ => ?_)
      exact ⟨fun hall t₁ h => hall true t₁ h rfl, fun hall more t₁ h hmore =>
        hall t₁ (by rwa [hmore] at h)⟩

/-- A turn of a loop: the value is converted, and popped with its key. -/
theorem converts_entry {β : Type} (depth : Nat) {t : DukThread} {below above : List DukItem}
    (hstack : t.stack = below ++ above) (hentry : Entry above) (g : Json → β) :
    (Prog.Returns (do
      let j ← dukValueToJSON c z depth (-1)
      pop 2
      pure (g j)) t ↔ (dukValueToJSON c z depth (-1)).Returns t) ∧
    ∀ out' t', Prog.Gives (do
      let j ← dukValueToJSON c z depth (-1)
      pop 2
      pure (g j)) t out' t' → ∃ j t₁,
        (dukValueToJSON c z depth (-1)).Gives t j t₁ ∧ (pop 2).Gives t₁ () t' := by
  have hrest : ∀ j t₁, (dukValueToJSON c z depth (-1)).Gives t j t₁ →
      (Prog.Returns (pop 2 >>= fun _ => (pure (g j) : DukStack β)) t₁ ↔ True) := by
    intro j t₁ hj
    have hstack₁ := (ensures_dukValueToJSON depth (-1) t j t₁ hj).trans hstack
    have hpop := gives_pop below above hstack₁ hentry.length
    exact iff_of_true ((Prog.returns_bind_of_gives hpop).mpr (Prog.returns_pure _ _)) trivial
  refine ⟨(Prog.returns_bind_iff Iff.rfl hrest).trans (and_iff_left fun _ _ _ => trivial), ?_⟩
  intro out' t' hgives
  obtain ⟨j, t₁, hj, hrest⟩ := Prog.gives_bind_iff.mp hgives
  obtain ⟨u, t₂, hpop, hpure⟩ := Prog.gives_bind_iff.mp hrest
  obtain ⟨-, rfl⟩ := (Prog.gives_pure _ _ _ _).mp hpure
  exact ⟨j, t₁, hj, hpop⟩

theorem Converts.consumes {β : Type} {depth : Nat} {body : β → DukStack β}
    (hbody : Converts c z depth body) : Consumes body := by
  intro t out below above hstack hentry out' t' hgives
  obtain ⟨j, t₁, hj, hpop⟩ := (hbody t out below above hstack hentry).2 out' t' hgives
  have hstack₁ := (ensures_dukValueToJSON depth (-1) t j t₁ hj).trans hstack
  exact ensures_pop below above hstack₁ hentry.length () t' hpop

/-- An enumeration from `duk_enum` to the `duk_pop` of the enumerator. -/
theorem returns_container_iff {β : Type} {depth : Nat} {R : DukThread → Prop}
    (hR : ∀ t, (dukValueToJSON c z depth (-1)).Returns t ↔ R t) {body : β → DukStack β}
    (hbody : Converts c z depth body) (index : Int) (indicesOnly : Bool) (out : β)
    (wrap : β → Json) :
    Prog.Returns (do
      enumerate c z index indicesOnly
      let n ← rounds
      let out ← whileNext c z body n out
      pop 1
      pure (wrap out)) t ↔ ListsAt c z index indicesOnly t ∧
        (enumerate c z index indicesOnly).Ensures t fun _ t₁ =>
          rounds.Ensures t₁ fun n t₂ => ReadsAll c z depth R n t₂ := by
  refine Prog.returns_bind_iff (returns_enumerate_iff index indicesOnly) fun u t₁ hlist => ?_
  obtain ⟨item, h₁⟩ := ensures_enumerate index indicesOnly u t₁ hlist
  have hrounds : rounds.Returns t₁ ↔ True := by
    refine iff_of_true ((Prog.returns_bind_of_gives (gives_item (-1))).mpr ?_) trivial
    split
    · exact Prog.returns_pure _ t₁
    · exact Prog.returns_pure _ t₁
  refine (Prog.returns_bind_iff hrounds fun n t₂ hn => ?_).trans (Iff.of_eq (true_and _))
  have h₂ := (ensures_rounds n t₂ hn).trans h₁
  refine (Prog.returns_bind_iff (returns_whileNext_iff hR hbody n out t₂) (P := fun _ _ => True)
    fun out' t₃ hloop => ?_).trans (and_iff_left fun _ _ _ => trivial)
  -- the enumerator is left to be popped
  obtain ⟨item', h₃⟩ := ensures_whileNext hbody.consumes n out h₂ out' t₃ hloop
  exact iff_of_true ((Prog.returns_bind_of_gives (gives_pop t.stack [item'] h₃ rfl)).mpr
    (Prog.returns_pure _ _)) trivial

theorem returns_dukValueToJSON_iff (depth : Nat) (index : Int) (t : DukThread) :
    (dukValueToJSON c z depth index).Returns t ↔ Reads c z depth index t := by
  induction depth generalizing index t with
  | zero => exact iff_of_false (Prog.not_returns_stuck t) id
  | succ depth ih =>
      rw [dukValueToJSON, Reads, Prog.returns_bind_of_gives (gives_item index)]
      rcases t.item index with _ | ⟨v | ⟨base, keys⟩⟩
      · exact iff_of_true (Prog.returns_pure _ t) trivial
      · cases v with
        | object o =>
            have hlook : (inWorld (Duk.inspect fun h => (h.objects o).isArray)).Gives t
                (t.world.1.objects o).isArray t := rfl
            refine (Prog.returns_bind_of_gives hlook).trans ?_
            dsimp only
            cases (t.world.1.objects o).isArray with
            | true =>
                rw [if_pos rfl]
                refine returns_container_iff (ih (-1)) (fun t out below above hstack hentry => ?_)
                  index true [] array
                exact converts_entry depth hstack hentry fun j => out ++ [j]
            | false =>
                rw [if_neg Bool.false_ne_true]
                refine returns_container_iff (ih (-1)) (fun t out below above hstack hentry => ?_)
                  index false [] object
                obtain ⟨k, v, rfl⟩ := hentry
                -- the key lies under the value
                have hkey : (getString (-2)).Gives t (cString k) t :=
                  Prog.gives_bind_iff.mpr ⟨_, t, gives_itemAt_second hstack, rfl⟩
                obtain ⟨hreturns, hleft⟩ := converts_entry (c := c) (z := z) depth hstack
                  ⟨k, v, rfl⟩ fun j => StdMap.assign (cString k) j out
                refine ⟨(Prog.returns_bind_of_gives hkey).trans hreturns, fun out' t' hgives => ?_⟩
                obtain ⟨key, t₁, h₁, hrest⟩ := Prog.gives_bind_iff.mp hgives
                obtain ⟨rfl, rfl⟩ := hkey.unique h₁
                exact hleft out' t' hrest
        | _ => exact iff_of_true (Prog.returns_pure _ t) trivial
      · exact iff_of_false (Prog.not_returns_stuck t) id

/-! ## Writing -/

section

variable (c : DukCode) (z : DukSizes) (m : Margo) (env : ViewId → Env)

/-- The state in which a call with `createdViews` by value is made. -/
def withCopies (created : List ViewId) (t : DukThread) : DukThread :=
  { t with world := (t.world.1, t.world.2.retainAll created) }

/-- A view can be made of the bytes, and its data can be had. -/
def Viewable (j : Json) (created : List ViewId) (t : DukThread) : Prop :=
  ∃ v created' heap, Conv.addView m env (Poesie.JSONtoDukValue VmApi.blank) j created
    (t.world.2.retainAll created) = (.ok v, created', heap)

mutual

/-- The value can be converted: there is room for it, and what is nested in it can be converted and
put into it, one after the other. -/
def Pushable : Json → List ViewId → DukThread → Prop
  | array items, created, t =>
      (withCopies created t).Room 1 ∧
        (pushObject true).Ensures (withCopies created t) fun arr_idx t₁ =>
          ItemsPuttable arr_idx 0 items created t₁
  | object members, created, t =>
      (withCopies created t).Room 1 ∧
        (pushObject false).Ensures (withCopies created t) fun _ t₁ =>
          MembersPuttable members created t₁
  | binary b st, created, t =>
      if isMemoryView (binary b st) then Viewable m env (binary b st) created t ∧ t.Room 1
      else t.Room 1
  | _, _, t => t.Room 1

/-- The elements from index `i` on. -/
def ItemsPuttable (arr_idx : Int) (i : Nat) : List Json → List ViewId → DukThread → Prop
  | [], _, _ => True
  | item :: rest, created, t =>
      Pushable item created t ∧
        (JSONtoDukValue c z m env item created).Ensures t fun _ t₁ =>
          PutsAt c z arr_idx (.index i) t₁ ∧
            (putProp c z arr_idx (.index i)).Ensures t₁ fun _ t₂ =>
              i + 1 < 2 ^ 31 ∧ ItemsPuttable arr_idx (i + 1) rest created t₂

def MembersPuttable : List (Bytes × Json) → List ViewId → DukThread → Prop
  | [], _, _ => True
  | (key, j) :: rest, created, t =>
      Pushable j created t ∧
        (JSONtoDukValue c z m env j created).Ensures t fun _ t₁ =>
          PutsAt c z (-2) (.name (cString key)) t₁ ∧
            (putProp c z (-2) (.name (cString key))).Ensures t₁ fun _ t₂ =>
              MembersPuttable rest created t₂

end

end

variable {m : Margo} {env : ViewId → Env}

theorem gives_withCopy {created : List ViewId} {body : DukStack Unit} {u : Unit} {t₁ : DukThread}
    (hbody : body.Gives (withCopies created t) u t₁) : (withCopy created body).Gives t u { t₁ with
      world := (t₁.world.1, t₁.world.2.releaseAll MemoryViewImpl.destroy created) } := by
  have hbody : body { t with world := (t.world.1, t.world.2.retainAll created) } =
      (.returned u, t₁) := hbody
  unfold Prog.Gives withCopy
  rw [hbody]

theorem returns_withCopy_iff {created : List ViewId} {body : DukStack Unit} :
    (withCopy created body).Returns t ↔ body.Returns (withCopies created t) := by
  constructor
  · rintro ⟨u, t', hgives⟩
    obtain ⟨t₁, hbody, -⟩ := of_gives_withCopy hgives
    exact ⟨u, t₁, hbody⟩
  · rintro ⟨u, t₁, hbody⟩
    exact ⟨u, _, gives_withCopy hbody⟩

theorem returns_pushView_iff (j : Json) (created : List ViewId) :
    (pushView m env j created).Returns t ↔ Viewable m env j created t ∧ t.Room 1 := by
  unfold Viewable
  constructor
  · rintro ⟨u, t', hgives⟩
    unfold Prog.Gives pushView at hgives
    rcases hview : Conv.addView m env (Poesie.JSONtoDukValue VmApi.blank) j created
      (t.world.2.retainAll created) with ⟨outcome, created', heap⟩
    rw [hview] at hgives
    rcases outcome with e | v
    · cases e with
      | thrown e => cases (Prod.mk.inj hgives).1
      | outOfRange lo hi => cases (Prod.mk.inj hgives).1
    · dsimp only at hgives
      -- the view is made before the push asks for its slot
      rcases hpush : push .other { t with world := (t.world.1, heap) } with ⟨r, t₁⟩
      rw [hpush] at hgives
      obtain ⟨rfl, -⟩ := Prod.mk.inj hgives
      have hroom := (returns_push_iff .other (t := { t with world := (t.world.1, heap) })).mp
        ⟨u, t₁, hpush⟩
      exact ⟨⟨v, created', heap, rfl⟩, hroom⟩
  · rintro ⟨⟨v, created', heap, hview⟩, hroom⟩
    obtain ⟨u, t₁, hpush⟩ := (returns_push_iff .other
      (t := { t with world := (t.world.1, heap) })).mpr hroom
    have hpush : push .other { t with world := (t.world.1, heap) } = (.returned u, t₁) := hpush
    have hpushed : pushView m env j created t = (.returned u, { t₁ with world :=
        (t₁.world.1, t₁.world.2.releaseAll MemoryViewImpl.destroy created') }) := by
      unfold pushView
      rw [hview]
      dsimp only
      rw [hpush]
    exact ⟨u, _, hpushed⟩

theorem returns_putItems_iff {items : List Json} {created : List ViewId}
    (hitems : ∀ j ∈ items, ∀ t, (JSONtoDukValue c z m env j created).Returns t ↔
      Pushable c z m env j created t) (arr_idx : Int) (i : Nat) (t : DukThread) :
    (putItems c z m env arr_idx i items created).Returns t ↔
      ItemsPuttable c z m env arr_idx i items created t := by
  induction items generalizing i t with
  | nil => exact iff_of_true (Prog.returns_pure () t) trivial
  | cons item rest ih =>
      have hrest : ∀ t₂, (if i + 1 < 2 ^ 31 then putItems c z m env arr_idx (i + 1) rest created
          else Prog.stuck).Returns t₂ ↔
            i + 1 < 2 ^ 31 ∧ ItemsPuttable c z m env arr_idx (i + 1) rest created t₂ := by
        intro t₂
        split
        · rename_i hlt
          exact (ih (fun j hj => hitems j (by simp [hj])) (i + 1) t₂).trans
            (and_iff_right hlt).symm
        · rename_i hnot
          exact iff_of_false (Prog.not_returns_stuck t₂) fun h => hnot h.1
      rw [putItems, ItemsPuttable]
      refine Prog.returns_bind_iff (hitems item (by simp) t) fun _ t₁ _ => ?_
      exact Prog.returns_bind_iff (returns_putProp_iff arr_idx (.index i)) fun _ t₂ _ => hrest t₂

theorem returns_putMembers_iff {members : List (Bytes × Json)} {created : List ViewId}
    (hmembers : ∀ p ∈ members, ∀ t, (JSONtoDukValue c z m env p.2 created).Returns t ↔
      Pushable c z m env p.2 created t) (t : DukThread) :
    (putMembers c z m env members created).Returns t ↔
      MembersPuttable c z m env members created t := by
  induction members generalizing t with
  | nil => exact iff_of_true (Prog.returns_pure () t) trivial
  | cons p rest ih =>
      obtain ⟨key, j⟩ := p
      rw [putMembers, MembersPuttable]
      refine Prog.returns_bind_iff (hmembers (key, j) (by simp) t) fun _ t₁ _ => ?_
      refine Prog.returns_bind_iff (returns_putProp_iff (-2) (.name (cString key))) fun _ t₂ _ => ?_
      exact ih (fun q hq => hmembers q (by simp [hq])) t₂

theorem returns_JSONtoDukValue_iff (j : Json) (created : List ViewId) (t : DukThread) :
    (JSONtoDukValue c z m env j created).Returns t ↔ Pushable c z m env j created t := by
  induction j using Json.ind generalizing created t with
  | array items ih =>
      rw [JSONtoDukValue, Pushable, returns_withCopy_iff]
      refine Prog.returns_bind_iff (returns_pushObject_iff true) fun arr_idx t₁ _ => ?_
      exact returns_putItems_iff (fun j hj => ih j hj created) arr_idx 0 t₁
  | object members ih =>
      rw [JSONtoDukValue, Pushable, returns_withCopy_iff]
      refine Prog.returns_bind_iff (returns_pushObject_iff false) fun _ t₁ _ => ?_
      exact returns_putMembers_iff (fun p hp => ih p hp created) t₁
  | binary b st =>
      rw [JSONtoDukValue, Pushable]
      split
      · exact returns_pushView_iff (binary b st) created
      · exact returns_withCopy_iff.trans (returns_push_iff .other)
  | _ =>
      rw [JSONtoDukValue]
      exact returns_withCopy_iff.trans (returns_push_iff _)

end DukStack

end Poesie
