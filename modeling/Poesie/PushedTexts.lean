import Poesie.DukObjects
import Poesie.StackReads
import Poesie.VmTexts

set_option autoImplicit false

/-! # Texts that are pushed

`JSONtoDukValue` hands strings and keys to Duktape as C strings, and puts the values of an object
one after the other. Whether the value that it pushes carries all texts of the JSON value is seen
in the objects that it is made of, once it has returned.
-/

namespace Poesie

open Wire Json SharedPtr Outcomes

namespace DukStack

/-! ## What a value carries -/

/-- The values of Duktape: an own property is an element or a member. -/
def view (c : DukCode) (z : DukSizes) (h : DukHeap) : TextView DukValue Bytes where
  spells s v := v = .string s ∧ ∀ w : DukWorld,
    (dukValueToJSON c z 1 (-1)).Gives ⟨w, [.value v]⟩ (string s) ⟨w, [.value v]⟩
  spellsKey k k' := k' = k ∧ ∀ w : DukWorld,
    (getString (-1)).Gives ⟨w, [.value (.string k')]⟩ k ⟨w, [.value (.string k')]⟩
  elements v vs := ∃ (o : Nat) (es : List (Bytes × DukValue)), v = .object o ∧
    (h.objects o).own = es.map DukHeap.plain ∧ vs = es.map Prod.snd
  entries v es := ∃ o : Nat, v = .object o ∧ (h.objects o).own = es.map DukHeap.plain

/-- What carries all texts: no NUL bytes, and no key `__proto__`. -/
abbrev Clean : Json → Prop := Json.Clean fun k => k ≠ text "__proto__"

variable {c : DukCode} {z : DukSizes} {h : DukHeap}

theorem spells_cString_iff {s : Bytes} :
    (view c z h).spells s (.string (cString s)) ↔ 0 ∉ s := by
  have hspells : (view c z h).spells s (.string (cString s)) ↔
      DukValue.string (cString s) = .string s ∧ ∀ w : DukWorld,
        (dukValueToJSON c z 1 (-1)).Gives ⟨w, [.value (.string (cString s))]⟩ (string s)
          ⟨w, [.value (.string (cString s))]⟩ := Iff.rfl
  rw [hspells, DukValue.string.injEq, cString_eq_self_iff, and_iff_left_iff_imp]
  intro hs w
  have hread : (dukValueToJSON c z 1 (-1)).Gives ⟨w, [.value (.string (cString s))]⟩
      (string (cString (cString s))) ⟨w, [.value (.string (cString s))]⟩ := rfl
  rw [cString_of_notMem hs, cString_of_notMem hs] at hread
  rw [cString_of_notMem hs]
  exact hread

theorem spellsKey_of_notMem {k : Bytes} (hk : 0 ∉ k) : (view c z h).spellsKey k k := by
  refine ⟨rfl, fun w => ?_⟩
  have hread : (getString (-1)).Gives ⟨w, [.value (.string k)]⟩ (cString k)
      ⟨w, [.value (.string k)]⟩ := rfl
  rw [cString_of_notMem hk] at hread
  exact hread

theorem plain_injective : Function.Injective DukHeap.plain := by
  rintro ⟨k, v⟩ ⟨k', v'⟩ h
  simp only [DukHeap.plain, Prod.mk.injEq, DukProperty.mk.injEq, DukSlot.data.injEq, and_true] at h
  exact Prod.ext h.1 h.2

/-! ## When it carries them all -/

/-- What an array carries when its elements were put under their indices. -/
theorem carries_array_iff {o : Nat} {items : List Json} {vs : List DukValue}
    (htakes : h.Takes o true (elements vs))
    (hitems : List.Forall₂ (fun j v => (view c z h).Carries j v ↔ j.Every Clean) items vs) :
    (view c z h).Carries (array items) (.object o) ↔ (array items).Every Clean := by
  have hproto : text "__proto__" ∉ (elements vs).map Prod.fst := by
    rw [keys_elements]
    intro hmem
    obtain ⟨i, -, hi⟩ := List.mem_map.mp hmem
    exact indexKey_ne_proto i hi
  have hown : (h.objects o).own = (elements vs).map DukHeap.plain := by
    rw [htakes.exact hproto (distinct_elements vs)]
    rfl
  have hvalues : (elements vs).map Prod.snd = vs := by
    rw [elements, List.map_map]
    exact List.zipIdx_map_fst 0 vs
  rw [every_array, and_iff_right (show (array items).Clean _ from ⟨trivial, trivial⟩)]
  refine TextView.carries_array_iff (fun vs' => ⟨?_, ?_⟩) hitems
  · rintro ⟨o', es, ho, hes, rfl⟩
    cases ho
    have heq : es = elements vs :=
      (List.map_injective_iff.mpr plain_injective) (hes.symm.trans hown)
    rw [heq, hvalues]
  · rintro rfl
    exact ⟨o, elements vs', rfl, hown, hvalues.symm⟩

/-- What an object carries when the values of its members were put under C strings. -/
theorem carries_object_iff {o : Nat} {members : List (Bytes × Json)}
    {es : List (Bytes × DukValue)} (distinct : StdMap.Distinct members)
    (htakes : h.Takes o false es)
    (hkeys : List.Forall₂ (fun p e => e.1 = cString p.1) members es)
    (hmembers : List.Forall₂ (fun p e => (view c z h).Carries p.2 e.2 ↔ p.2.Every Clean)
      members es) :
    (view c z h).Carries (object members) (.object o) ↔ (object members).Every Clean := by
  have hdistinct : (∀ p ∈ members, 0 ∉ p.1) → StdMap.Distinct es := by
    intro hnul
    have hself := forall₂_cString hnul hkeys
    exact distinct_of_forall₂ (R := fun _ _ => True) distinct
      (hself.imp fun p e he => ⟨he, trivial⟩)
  have hown : (∀ p ∈ members, 0 ∉ p.1) → (∀ p ∈ members, p.1 ≠ text "__proto__") →
      (h.objects o).own = es.map DukHeap.plain := by
    intro hnul hproto
    have hnone : text "__proto__" ∉ es.map Prod.fst := by
      intro hmem
      obtain ⟨e, he, hkey⟩ := List.mem_map.mp hmem
      obtain ⟨p, hp, hsame⟩ := forall₂_exists (forall₂_cString hnul hkeys).flip e he
      exact hproto p hp (hsame.symm.trans hkey)
    rw [htakes.exact hnone (hdistinct hnul)]
    rfl
  rw [every_object]
  refine TextView.carries_object_iff ?_ ?_
  · rintro es' ⟨o', ho, hes'⟩ hspelled
    cases ho
    -- every own key is a C string that was put
    have hnul : ∀ p ∈ members, 0 ∉ p.1 := by
      intro p hp
      obtain ⟨e, he, hkey⟩ := forall₂_exists hspelled p hp
      have hmem : DukHeap.plain e ∈ (h.objects o).own := hes' ▸ List.mem_map_of_mem he
      obtain ⟨e', he', hsame⟩ := List.mem_map.mp (htakes.keys _ hmem)
      obtain ⟨q, -, hq⟩ := forall₂_exists hkeys.flip e' he'
      have hcString : p.1 = cString q.1 := hkey.1.symm.trans (hsame.symm.trans hq)
      rw [hcString]
      exact zero_notMem_cString q.1
    refine ⟨hnul, fun p hp heq => ?_⟩
    obtain ⟨e, he, hkey⟩ := forall₂_exists hspelled p hp
    refine htakes.lacks (hdistinct hnul) (List.mem_map.mpr ⟨DukHeap.plain e, ?_, ?_⟩)
    · exact hes' ▸ List.mem_map_of_mem he
    · exact hkey.1.trans heq
  · rintro ⟨hnul, hproto⟩
    have hes := hown hnul hproto
    have hself := forall₂_cString hnul hkeys
    refine ⟨es, ⟨o, rfl, hes⟩, ?_, ?_, hmembers⟩
    · refine ((List.forall₂_and_left _ _).mpr ⟨fun p hp => hp, hself⟩).imp fun p e he => ?_
      rw [he.2]
      exact spellsKey_of_notMem (hnul p he.1)
    · rintro es' ⟨o', ho, hes'⟩ -
      cases ho
      exact (List.map_injective_iff.mpr plain_injective) (hes'.symm.trans hes)

/-! ## Runs that return -/

variable {m : Margo} {env : ViewId → Env} {lo : Nat} {t t' : DukThread}

/-- The copies of the views do not matter to the stack and to the objects. -/
theorem of_gives_withCopy {created : List ViewId} {body : DukStack Unit} {u : Unit}
    (hgives : (withCopy created body).Gives t u t') :
    ∃ t₁, body.Gives { t with world := (t.world.1, t.world.2.retainAll created) } u t₁ ∧
      t'.stack = t₁.stack ∧ t'.world.1 = t₁.world.1 := by
  unfold Prog.Gives withCopy at hgives
  rcases hbody : body { t with world := (t.world.1, t.world.2.retainAll created) } with ⟨r, t₁⟩
  rw [hbody] at hgives
  obtain ⟨rfl, rfl⟩ := Prod.mk.inj hgives
  exact ⟨t₁, hbody, rfl, rfl⟩

theorem of_gives_inWorld {α : Type} {f : Duk α} {a : α} (hgives : (inWorld f).Gives t a t') :
    f.Gives t.world a t'.world ∧ t'.stack = t.stack := by
  unfold Prog.Gives inWorld at hgives
  obtain ⟨hresult, rfl⟩ := Prod.mk.inj hgives
  exact ⟨Prod.ext hresult rfl, rfl⟩

/-- The value on top was put into the one at the index, and popped. -/
theorem of_gives_putProp {index : Int} {key : DukKey} {base v : DukValue} {below : List DukItem}
    {u : Unit} (hstack : t.stack = below ++ [DukItem.value v])
    (hbase : (itemAt index).Gives t (some (.value base)) t)
    (hgives : (putProp c z index key).Gives t u t') :
    (Duk.putProp c base key v).Gives t.world () t'.world ∧ t'.stack = below := by
  rw [putProp, Prog.gives_bind_iff] at hgives
  obtain ⟨item, t₁, hfirst, hrest⟩ := hgives
  obtain ⟨rfl, rfl⟩ := hfirst.unique hbase
  obtain ⟨item', t₂, hsecond, hafter⟩ := Prog.gives_bind_iff.mp hrest
  obtain ⟨rfl, rfl⟩ := hsecond.unique (gives_itemAt_top hstack)
  obtain ⟨u₁, t₃, hneed, hroom⟩ := Prog.gives_bind_iff.mp hafter
  obtain rfl := (exactly_needFor _).holds hneed
  obtain ⟨u₂, t₄, hworld, hpop⟩ := Prog.gives_bind_iff.mp hroom
  obtain ⟨hput, hsame⟩ := of_gives_inWorld hworld
  have hstack₄ : t₄.stack = below ++ [DukItem.value v] := hsame.trans hstack
  obtain ⟨-, rfl⟩ := hpop.unique (gives_pop below [.value v] hstack₄ rfl)
  exact ⟨hput, rfl⟩

/-- A buffer is pushed, of whatever view. -/
theorem of_gives_pushView {j : Json} {created : List ViewId} {u : Unit}
    (hgives : (pushView m env j created).Gives t u t') :
    t'.stack = t.stack ++ [DukItem.value .other] ∧ t'.world.1 = t.world.1 := by
  unfold Prog.Gives pushView at hgives
  rcases hview : Conv.addView m env (Poesie.JSONtoDukValue VmApi.blank) j created
    (t.world.2.retainAll created) with ⟨outcome, created', heap⟩
  rw [hview] at hgives
  cases outcome with
  | ok v =>
      dsimp only at hgives
      rcases hpush : push .other { t with world := (t.world.1, heap) } with ⟨r, t₁⟩
      rw [hpush] at hgives
      obtain ⟨rfl, rfl⟩ := Prod.mk.inj hgives
      have ht₁ := (exactly_push .other).holds hpush
      rw [ht₁]
      exact ⟨rfl, rfl⟩
  | error e =>
      cases e with
      | thrown e => cases (Prod.mk.inj hgives).1
      | outOfRange lo hi => cases (Prod.mk.inj hgives).1

/-- What a push finds: the built-in prototypes, and objects that were made of JSON values. -/
structure Ready (c : DukCode) (lo : Nat) (h : DukHeap) : Prop where
  pristine : h.Pristine
  proto : HasProto c h
  tame : h.Tame lo
  le_next : lo ≤ h.next

theorem Ready.of_grows {changed : Nat → Prop} {h' : DukHeap} (hready : Ready c lo h)
    (hgrows : DukHeap.Grows changed h h')
    (hkept : ∀ isArray, ∀ p ∈ h.freshPrototypes isArray, ¬ changed p) (htame : h'.Tame lo) :
    Ready c lo h' where
  pristine := hready.pristine.grows hgrows hkept
  proto := HasProto.grows hready.proto hready.pristine hgrows hkept
  tame := htame
  le_next := hready.le_next.trans hgrows.next_le

/-- A later heap in which the objects are as they were when they had been made. -/
structure Agrees (h h' later : DukHeap) : Prop where
  objects : ∀ p, h.next ≤ p → p < h'.next → later.objects p = h'.objects p
  prototypes : later.freshPrototypes = h'.freshPrototypes

/-- What was made before a later step is as it was, if that step changed an older object only. -/
theorem Agrees.left {h h₁ h' later : DukHeap} {o : Nat} (hlater : Agrees h h' later)
    (hgrows : DukHeap.Grows (· = o) h₁ h') (ho : o < h.next) : Agrees h h₁ later where
  objects p hp hp' := by
    rw [hlater.objects p hp (Nat.lt_of_lt_of_le hp' hgrows.next_le)]
    exact hgrows.objects p hp' (by omega)
  prototypes := hlater.prototypes.trans hgrows.prototypes

theorem Agrees.right {h h₁ h' later : DukHeap} (hlater : Agrees h h' later)
    (hle : h.next ≤ h₁.next) : Agrees h₁ h' later where
  objects p hp hp' := hlater.objects p (hle.trans hp) hp'
  prototypes := hlater.prototypes

/-- A value was pushed. In any later heap it carries all texts if these are clean, and only then. -/
structure Made (c : DukCode) (z : DukSizes) (lo : Nat) (j : Json) (t t' : DukThread) : Prop where
  grows : DukHeap.Grows (fun _ => False) t.world.1 t'.world.1
  tame : t'.world.1.Tame lo
  top : ∃ v, t'.stack = t.stack ++ [DukItem.value v] ∧ DukHeap.Made lo t'.world.1 v ∧
    ∀ later, Agrees t.world.1 t'.world.1 later → ((view c z later).Carries j v ↔ j.Every Clean)

variable (c z m env lo) in
def Makes (j : Json) : Prop := ∀ t created u t', Ready c lo t.world.1 →
  (JSONtoDukValue c z m env j created).Gives t u t' → Made c z lo j t t'

/-- An object on top of the stack, while values are put into it. -/
structure Building (c : DukCode) (lo o : Nat) (below : List DukItem) (isArray : Bool)
    (es : List (Bytes × DukValue)) (t : DukThread) : Prop where
  stack : t.stack = below ++ [DukItem.value (.object o)]
  ready : Ready c lo t.world.1
  lo_le : lo ≤ o
  lt_next : o < t.world.1.next
  no_prototype : ∀ isArray, o ∉ t.world.1.freshPrototypes isArray
  takes : t.world.1.Takes o isArray es

/-- One value is pushed and put into the object. -/
theorem building_put {o : Nat} {below : List DukItem} {isArray : Bool}
    {es : List (Bytes × DukValue)} {created : List ViewId} {j : Json} {key : DukKey}
    {index : Int} {u : Unit} (hj : Makes c z m env lo j)
    (hbuilding : Building c lo o below isArray es t)
    (hindex : normalize index (below.length + 2) = some below.length)
    (hgives : Prog.Gives (JSONtoDukValue c z m env j created >>= fun _ => putProp c z index key) t
      u t') :
    DukHeap.Grows (· = o) t.world.1 t'.world.1 ∧
      ∃ v, Building c lo o below isArray (es ++ [(key.bytes, v)]) t' ∧
        ∀ later, Agrees t.world.1 t'.world.1 later →
          ((view c z later).Carries j v ↔ j.Every Clean) := by
  obtain ⟨u₁, t₁, hpush, hput⟩ := Prog.gives_bind_iff.mp hgives
  obtain ⟨hgrows, htame, v, hstack, hmade, hcarries⟩ := hj t created u₁ t₁ hbuilding.ready hpush
  have hready := hbuilding.ready.of_grows hgrows (fun _ _ _ => id) htame
  have hhigh : o < t₁.world.1.next := Nat.lt_of_lt_of_le hbuilding.lt_next hgrows.next_le
  have hold : ∀ isArray, o ∉ t₁.world.1.freshPrototypes isArray := by
    rw [hgrows.prototypes]
    exact hbuilding.no_prototype
  have htakes := hbuilding.takes.congr (hgrows.objects o hbuilding.lt_next id) hgrows.prototypes
  -- the object is below the value, whichever index it is addressed by
  have hbase : (itemAt index).Gives t₁ (some (.value (.object o))) t₁ := by
    refine gives_itemAt (i := below.length) ?_ ?_
    · have hlength : t₁.stack.length = below.length + 2 := by
        rw [hstack, hbuilding.stack]
        simp
      rw [hlength]
      exact hindex
    · rw [hstack, hbuilding.stack, List.append_assoc, List.getElem?_append_right (Nat.le_refl _)]
      simp
  obtain ⟨hput, hstack'⟩ := of_gives_putProp hstack hbase hput
  have hcases := Duk.putProp_cases hready.pristine hready.proto htame hbuilding.lo_le hhigh hput
  -- the assignment stores the value, or makes it the prototype
  have hput_grows : DukHeap.Grows (· = o) t₁.world.1 t'.world.1 ∧ t'.world.1.Tame lo := by
    rcases hcases with hw | ⟨-, hw⟩
    · rw [hw]
      exact ⟨DukHeap.grows_store o key.bytes v, htame.store o key.bytes v⟩
    · rw [hw]
      exact ⟨DukHeap.grows_reparent o _, htame.reparent hbuilding.lo_le hhigh hmade⟩
  obtain ⟨hgrows', htame'⟩ := hput_grows
  refine ⟨(hgrows.mono fun _ _ h => h.elim).trans hgrows', v, ⟨hstack'.trans hbuilding.stack, ?_,
    hbuilding.lo_le, Nat.lt_of_lt_of_le hhigh hgrows'.next_le, ?_, ?_⟩, fun later hlater => ?_⟩
  · exact hready.of_grows hgrows' (fun isArray p hp heq => hold isArray (heq ▸ hp)) htame'
  · rw [hgrows'.prototypes]
    exact hold
  · exact htakes.put hready.pristine hready.proto htame hbuilding.lo_le hhigh hput
  · -- the object is older than what the value is made of
    exact hcarries later (hlater.left hgrows' hbuilding.lt_next)

/-- The elements are put behind those that are there. -/
theorem building_putItems {o : Nat} {below : List DukItem} {created : List ViewId}
    {items : List Json} (hitems : ∀ j ∈ items, Makes c z m env lo j) {done : List DukValue}
    {t : DukThread} {u : Unit} (hbuilding : Building c lo o below true (elements done) t)
    (hgives : (putItems c z m env below.length done.length items created).Gives t u t') :
    DukHeap.Grows (· = o) t.world.1 t'.world.1 ∧ ∃ vs,
      Building c lo o below true (elements (done ++ vs)) t' ∧
        ∀ later, Agrees t.world.1 t'.world.1 later →
          List.Forall₂ (fun j v => (view c z later).Carries j v ↔ j.Every Clean) items vs := by
  induction items generalizing done t with
  | nil =>
      rw [putItems] at hgives
      obtain ⟨-, rfl⟩ := (Prog.gives_pure _ _ _ _).mp hgives
      exact ⟨.refl _ _, [], by rw [List.append_nil]; exact hbuilding, fun _ _ => .nil⟩
  | cons j rest ih =>
      rw [putItems, ← bind_assoc] at hgives
      obtain ⟨u₁, t₁, hput, hrest⟩ := Prog.gives_bind_iff.mp hgives
      obtain ⟨hgrows, v, hbuilding₁, hcarries⟩ := building_put (hitems j (by simp)) hbuilding
        (normalize_of_nonneg (by omega)) hput
      have hdone : elements done ++ [((DukKey.index done.length).bytes, v)]
          = elements (done ++ [v]) := (elements_concat done v).symm
      rw [hdone] at hbuilding₁
      -- the loop goes on while the counter fits into an `int`
      split at hrest
      · have hlength : (done ++ [v]).length = done.length + 1 := by simp
        rw [← hlength] at hrest
        obtain ⟨hgrows', vs, hbuilding', hcarries'⟩ :=
          ih (fun i hi => hitems i (by simp [hi])) hbuilding₁ hrest
        refine ⟨hgrows.trans hgrows', v :: vs, ?_, fun later hlater => .cons ?_ ?_⟩
        · rw [← List.singleton_append, ← List.append_assoc]
          exact hbuilding'
        · exact hcarries later (hlater.left hgrows' hbuilding.lt_next)
        · exact hcarries' later (hlater.right hgrows.next_le)
      · cases hrest

/-- The members are put behind those that are there. -/
theorem building_putMembers {o : Nat} {below : List DukItem} {created : List ViewId}
    {members : List (Bytes × Json)} (hmembers : ∀ p ∈ members, Makes c z m env lo p.2)
    {done : List (Bytes × DukValue)} {t : DukThread} {u : Unit}
    (hbuilding : Building c lo o below false done t)
    (hgives : (putMembers c z m env members created).Gives t u t') :
    DukHeap.Grows (· = o) t.world.1 t'.world.1 ∧ ∃ es,
      Building c lo o below false (done ++ es) t' ∧
        ∀ later, Agrees t.world.1 t'.world.1 later →
          List.Forall₂ (fun p e => e.1 = cString p.1) members es ∧
            List.Forall₂ (fun p e => (view c z later).Carries p.2 e.2 ↔ p.2.Every Clean)
              members es := by
  induction members generalizing done t with
  | nil =>
      rw [putMembers] at hgives
      obtain ⟨-, rfl⟩ := (Prog.gives_pure _ _ _ _).mp hgives
      exact ⟨.refl _ _, [], by rw [List.append_nil]; exact hbuilding, fun _ _ => ⟨.nil, .nil⟩⟩
  | cons p rest ih =>
      obtain ⟨k, j⟩ := p
      rw [putMembers, ← bind_assoc] at hgives
      obtain ⟨u₁, t₁, hput, hrest⟩ := Prog.gives_bind_iff.mp hgives
      obtain ⟨hgrows, v, hbuilding₁, hcarries⟩ := building_put (hmembers (k, j) (by simp))
        hbuilding (normalize_of_neg (i := 2) (by omega) (by omega)) hput
      -- the members that are left
      obtain ⟨hgrows', es, hbuilding', hcarries'⟩ :=
        ih (fun p hp => hmembers p (by simp [hp])) hbuilding₁ hrest
      refine ⟨hgrows.trans hgrows', (cString k, v) :: es, ?_, fun later hlater => ?_⟩
      · rw [← List.singleton_append, ← List.append_assoc]
        exact hbuilding'
      · obtain ⟨hkeys, hvalues⟩ := hcarries' later (hlater.right hgrows.next_le)
        exact ⟨.cons rfl hkeys,
          .cons (hcarries later (hlater.left hgrows' hbuilding.lt_next)) hvalues⟩

/-- A fresh object is on top, and nothing was put into it. -/
theorem building_alloc (isArray : Bool) (hready : Ready c lo t.world.1) :
    Building c lo t.world.1.next t.stack isArray [] ⟨(t.world.1.alloc isArray, t.world.2),
      t.stack ++ [DukItem.value (.object t.world.1.next)]⟩ where
  stack := rfl
  ready := hready.of_grows (DukHeap.grows_alloc isArray) (fun _ _ _ => id)
    (hready.tame.alloc isArray)
  lo_le := hready.le_next
  lt_next := Nat.lt_succ_self _
  no_prototype isArray hmem := Nat.lt_irrefl _ (hready.pristine.older isArray _ hmem)
  takes := DukHeap.takes_alloc

/-- The container is made once it was filled. -/
theorem made_of_building {j : Json} {isArray : Bool} {es : List (Bytes × DukValue)}
    (hgrows : DukHeap.Grows (· = t.world.1.next) (t.world.1.alloc isArray) t'.world.1)
    (hbuilding : Building c lo t.world.1.next t.stack isArray es t')
    (hcarries : ∀ later, Agrees t.world.1 t'.world.1 later →
      ((view c z later).Carries j (.object t.world.1.next) ↔ j.Every Clean)) :
    Made c z lo j t t' where
  grows := grows_of_filled hgrows
  tame := hbuilding.ready.tame
  top := by
    refine ⟨.object t.world.1.next, hbuilding.stack, ?_, hcarries⟩
    rintro p hp
    cases hp
    exact ⟨hbuilding.lo_le, hbuilding.lt_next⟩

theorem Made.congr {j : Json} {t₀ t₁ : DukThread} (hmade : Made c z lo j t₀ t₁)
    (hstack₀ : t.stack = t₀.stack) (hworld₀ : t.world.1 = t₀.world.1)
    (hstack₁ : t'.stack = t₁.stack) (hworld₁ : t'.world.1 = t₁.world.1) : Made c z lo j t t' := by
  obtain ⟨hgrows, htame, v, htop⟩ := hmade
  refine ⟨?_, ?_, v, ?_⟩
  · rw [hworld₀, hworld₁]
    exact hgrows
  · rw [hworld₁]
    exact htame
  · rw [hstack₀, hstack₁, hworld₀, hworld₁]
    exact htop

/-- The copies of the views do not matter to what is made. -/
theorem makes_of_body {j : Json} {body : List ViewId → DukStack Unit}
    (hprogram : ∀ created, JSONtoDukValue c z m env j created = withCopy created (body created))
    (hbody : ∀ created t u t', Ready c lo t.world.1 → (body created).Gives t u t' →
      Made c z lo j t t') : Makes c z m env lo j := by
  intro t created u t' hready hgives
  rw [hprogram] at hgives
  obtain ⟨t₁, hrun, hstack, hworld⟩ := of_gives_withCopy hgives
  exact (hbody created { t with world := (t.world.1, t.world.2.retainAll created) } u t₁ hready
    hrun).congr rfl rfl hstack hworld

/-- A value that is no container. -/
theorem makes_of_push {j : Json} {v : DukValue}
    (hprogram : ∀ created, JSONtoDukValue c z m env j created = withCopy created (push v))
    (hobject : ∀ p, v ≠ .object p)
    (hcarries : ∀ later, (view c z later).Carries j v ↔ j.Every Clean) : Makes c z m env lo j := by
  refine makes_of_body hprogram fun created t u t' hready hpush => ?_
  obtain rfl := (exactly_push v).holds hpush
  exact ⟨.refl _ _, hready.tame, v, rfl, fun p hp => absurd hp (hobject p), fun _ _ => hcarries _⟩

theorem makes_scalar {j : Json} (hj : j.Scalar) : Makes c z m env lo j := by
  cases j with
  | array items => exact absurd hj id
  | object members => exact absurd hj id
  | binary b st => exact absurd hj id
  | string s =>
      refine makes_of_push (fun _ => rfl) (fun p => DukValue.noConfusion) fun later => ?_
      rw [every_string]
      exact spells_cString_iff.trans (and_iff_left trivial).symm
  | _ =>
      refine makes_of_push (fun _ => rfl) (fun p => DukValue.noConfusion) fun later => ?_
      exact iff_of_true trivial (every_clean_of_scalar trivial trivial)

theorem makes_binary (b : Bytes) (st : Option UInt64) :
    Makes c z m env lo (binary b st) := by
  have hcarries : ∀ later,
      (view c z later).Carries (binary b st) .other ↔ (binary b st).Every Clean := fun later =>
    iff_of_true trivial (every_binary.mpr ⟨trivial, trivial⟩)
  by_cases hview : isMemoryView (binary b st) = true
  · intro t created u t' hready hgives
    rw [JSONtoDukValue, if_pos hview] at hgives
    obtain ⟨hstack, hworld⟩ := of_gives_pushView hgives
    refine ⟨?_, ?_, .other, hstack, fun p hp => DukValue.noConfusion hp, fun _ _ => hcarries _⟩
    · rw [hworld]
      exact .refl _ _
    · rw [hworld]
      exact hready.tame
  · refine makes_of_push (v := .other) (fun created => ?_) (fun p => DukValue.noConfusion) hcarries
    rw [JSONtoDukValue, if_neg hview]

theorem makes_array {items : List Json} (hitems : ∀ j ∈ items, Makes c z m env lo j) :
    Makes c z m env lo (array items) := by
  refine makes_of_body (fun _ => by rw [JSONtoDukValue]) fun created t u t' hready hgives => ?_
  obtain ⟨i, t₁, hpush, hloop⟩ := Prog.gives_bind_iff.mp hgives
  obtain ⟨rfl, rfl⟩ := (exactly_pushObject true).holds hpush
  have hstart : Building c lo t.world.1.next t.stack true (elements []) _ :=
    building_alloc true hready
  obtain ⟨hgrows, vs, hbuilding, hcarries⟩ := building_putItems hitems hstart hloop
  refine made_of_building hgrows hbuilding fun later hlater => ?_
  have hobject := hlater.objects _ (Nat.le_refl _) hbuilding.lt_next
  exact carries_array_iff (hbuilding.takes.congr hobject hlater.prototypes)
    (hcarries later (hlater.right (Nat.le_succ _)))

theorem makes_object {members : List (Bytes × Json)}
    (hmembers : ∀ p ∈ members, Makes c z m env lo p.2) (distinct : StdMap.Distinct members) :
    Makes c z m env lo (object members) := by
  refine makes_of_body (fun _ => by rw [JSONtoDukValue]) fun created t u t' hready hgives => ?_
  obtain ⟨i, t₁, hpush, hloop⟩ := Prog.gives_bind_iff.mp hgives
  obtain ⟨rfl, rfl⟩ := (exactly_pushObject false).holds hpush
  obtain ⟨hgrows, es, hbuilding, hcarries⟩ :=
    building_putMembers hmembers (building_alloc false hready) hloop
  refine made_of_building hgrows hbuilding fun later hlater => ?_
  have hobject := hlater.objects _ (Nat.le_refl _) hbuilding.lt_next
  obtain ⟨hkeys, hvalues⟩ := hcarries later (hlater.right (Nat.le_succ _))
  exact carries_object_iff distinct (hbuilding.takes.congr hobject hlater.prototypes) hkeys hvalues

theorem makes {j : Json} (hj : j.Every KeysAscending) : Makes c z m env lo j := by
  induction j using Json.ind with
  | array items ih =>
      exact makes_array fun i hi => ih i hi ((every_array.mp hj).2 i hi)
  | object members ih =>
      obtain ⟨hself, heach⟩ := every_object.mp hj
      exact makes_object (fun p hp => ih p hp (heach p hp)) (StdMap.Ascending.distinct hself)
  | binary b st => exact makes_binary b st
  | _ => exact makes_scalar trivial

end DukStack

end Poesie
