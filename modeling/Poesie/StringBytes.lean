import Poesie.Jx9Values
import Poesie.PushedTexts
import Poesie.RubyValues
import Poesie.VmTerm

set_option autoImplicit false

/-! # Bytes of strings and keys

Jx9, JavaScript and Ruby are given strings and keys as C strings, and are asked for them as C
strings. What comes before the first NUL byte is kept, and of the keys of an object no more than
what the VM takes for a key of its own.
-/

namespace Poesie

open Wire Json SharedPtr Outcomes

/-! ## Jx9 -/

/-- The values of Jx9. -/
def jx9View : TextView Jx9Value Jx9Key where
  spells s v := v = .string s ∧ Jx9ValueToJSON v = string s
  spellsKey k key := key.cString = k
  elements v vs := ∃ isObject entries, v = .hashmap isObject entries ∧ vs = entries.map Prod.snd
  entries v es := ∃ isObject, v = .hashmap isObject es

theorem jx9_spells_iff {s : Bytes} : jx9View.spells s (.string (cString s)) ↔ 0 ∉ s := by
  have hspells : jx9View.spells s (.string (cString s)) ↔
      Jx9Value.string (cString s) = .string s ∧ Json.string (cString (cString s)) = string s := by
    rw [← Jx9ValueToJSON]
    exact Iff.rfl
  rw [hspells, Jx9Value.string.injEq, Json.string.injEq, cString_eq_self_iff]
  refine and_iff_left_iff_imp.mpr fun hs => ?_
  rw [cString_of_notMem hs, cString_of_notMem hs]

/-- The numeral of an integer has a digit, and no NUL byte. -/
theorem text_int_clean (n : Int) : text (toString n) ≠ [] ∧ 0 ∉ text (toString n) := by
  have hdigits : 0 ∉ text n.natAbs.repr := fun hmem =>
    absurd (digit_of_mem_text_repr 0 hmem).1 (by decide)
  rw [text_int]
  split
  · exact ⟨text_repr_ne_nil _, hdigits⟩
  · refine ⟨List.cons_ne_nil _ _, fun hmem => ?_⟩
    rcases List.mem_cons.mp hmem with h | h
    · exact absurd h (by decide)
    · exact hdigits h

/-- The key of an entry that was made of C strings. -/
theorem plainKey_of_entry {es : List (Bytes × Jx9Value)} {isObject : Bool}
    {entries : Jx9Map.Entries} (htable : jx9Api.table es = .hashmap isObject entries)
    (hnul : ∀ e ∈ es, 0 ∉ e.1) {entry : Jx9Key × Jx9Value} (hentry : entry ∈ entries) :
    0 ∉ entry.1.cString ∧ PlainKey entry.1.cString := by
  rcases key_of_mem_foldl htable entry hentry with ⟨n, hkey⟩ | ⟨e, he, hkey, hne, hint⟩ | h
  · obtain ⟨hne, hclean⟩ := text_int_clean (max n.toInt (-9223372036854775807))
    rw [hkey]
    exact ⟨hclean, hne, fun _ => ⟨n, rfl⟩⟩
  · have hself : entry.1.cString = e.1 := by
      rw [hkey]
      exact cString_of_notMem (hnul e he)
    rw [hself]
    refine ⟨hnul e he, hne, fun h => ?_⟩
    rw [hint] at h
    cases h
  · obtain ⟨e, he, -⟩ := h
    cases he

/-- What an object of Jx9 carries. -/
theorem jx9_carries_table {members : List (Bytes × Json)} {es : List (Bytes × Jx9Value)}
    {Q : Json → Prop} (distinct : StdMap.Distinct members)
    (hkeys : List.Forall₂ (fun p e => e.1 = cString p.1) members es)
    (hvalues : List.Forall₂ (fun p e => jx9View.Carries p.2 e.2 ↔ Q p.2) members es) :
    jx9View.Carries (object members) (jx9Api.table es) ↔
      (object members).Clean PlainKey ∧ ∀ p ∈ members, Q p.2 := by
  -- every key was cut at its first NUL byte on the way in
  have hcStrings : ∀ e ∈ es, 0 ∉ e.1 := by
    intro e he
    obtain ⟨p, -, hp⟩ := forall₂_exists hkeys.flip e he
    have hkey : e.1 = cString p.1 := hp
    rw [hkey]
    exact zero_notMem_cString p.1
  refine TextView.carries_object_iff ?_ ?_
  · rintro entries ⟨isObject, htable⟩ hspelled
    have hplain : ∀ p ∈ members, 0 ∉ p.1 ∧ PlainKey p.1 := by
      intro p hp
      obtain ⟨entry, hentry, hkey⟩ := forall₂_exists hspelled p hp
      have hkey : entry.1.cString = p.1 := hkey
      rw [← hkey]
      exact plainKey_of_entry htable hcStrings hentry
    exact ⟨fun p hp => (hplain p hp).1, fun p hp => (hplain p hp).2⟩
  · rintro ⟨hnul, hplain⟩
    have hself := forall₂_cString hnul hkeys
    have hsame : List.Forall₂ (fun p (e : Bytes × Jx9Value) => e.1 = p.1 ∧ True) members es :=
      hself.imp fun p e he => ⟨he, trivial⟩
    have hplain' : ∀ e ∈ es, PlainKey e.1 :=
      key_of_forall₂ (R := fun _ _ => True) (P := PlainKey) hplain hsame
    have hdistinct : StdMap.Distinct es :=
      distinct_of_forall₂ (R := fun _ _ => True) distinct hsame
    have htable := jx9Api_table hcStrings hplain' hdistinct
    refine ⟨es.map fun e => (jx9Key e.1, e.2), ⟨_, htable⟩, ?_, ?_, ?_⟩
    · rw [List.forall₂_map_right_iff]
      refine ((List.forall₂_and_left _ _).mpr ⟨fun p hp => hp, hself⟩).imp fun p e he => ?_
      rw [he.2]
      exact cString_jx9Key (hnul p he.1) (hplain p he.1)
    · rintro es' ⟨isObject, htable'⟩ -
      exact (Jx9Value.hashmap.inj (htable'.symm.trans htable)).2
    · rw [List.forall₂_map_right_iff]
      exact hvalues

theorem jx9_carries_list {items : List Json} {vs : List Jx9Value} {Q : Json → Prop}
    (fits : items.length < 2 ^ 64)
    (h : List.Forall₂ (fun j v => jx9View.Carries j v ↔ Q j) items vs) :
    jx9View.Carries (array items) (jx9Api.list vs) ↔ ∀ j ∈ items, Q j := by
  have hvalues : (Jx9Map.indexed vs).map Prod.snd = vs := by
    rw [Jx9Map.indexed, List.map_map]
    exact List.zipIdx_map_fst 0 vs
  rw [jx9Api_list (h.length_eq ▸ fits)]
  refine TextView.carries_array_iff (fun vs' => ⟨?_, ?_⟩) h
  · rintro ⟨isObject, entries, heq, rfl⟩
    cases heq
    exact hvalues
  · rintro rfl
    exact ⟨false, _, rfl, hvalues.symm⟩

/-- Whatever is converted, the value of Jx9 carries all texts exactly if they are clean. -/
theorem jx9_carries_iff {m : Margo} {env : ViewId → Env} (j : Json) :
    (convert m env (JSONtoJx9Value jx9Api) j).Makes fun v =>
      j.Every WellFormed → (jx9View.Carries j v ↔ j.Every (Clean PlainKey)) := by
  refine makes_convert (R := fun j v => j.Every WellFormed →
    (jx9View.Carries j v ↔ j.Every (Clean PlainKey))) (fun j v hscalar hv _ => ?_)
    (fun b st v _ _ => ?_) (fun b st id _ => ?_) (fun items vs hvs hj => ?_)
    (fun members es hes hj => ?_) j
  · cases j with
    | array items => exact absurd hscalar id
    | object members => exact absurd hscalar id
    | binary b st => exact absurd hscalar id
    | string s =>
        obtain rfl : v = .string (cString s) := (Except.ok.inj hv).symm
        rw [every_string]
        exact jx9_spells_iff.trans (and_iff_left trivial).symm
    | _ => exact iff_of_true trivial (every_clean_of_scalar trivial trivial)
  · exact iff_of_true trivial (every_binary.mpr ⟨trivial, trivial⟩)
  · exact iff_of_true trivial (every_binary.mpr ⟨trivial, trivial⟩)
  · obtain ⟨hself, heach⟩ := every_array.mp hj
    have hitems : List.Forall₂ (fun j v => jx9View.Carries j v ↔ j.Every (Clean PlainKey))
        items vs :=
      ((List.forall₂_and_left _ _).mpr ⟨heach, hvs⟩).imp fun j v h => h.2 h.1
    cases hself with
    | array fits _ =>
        rw [every_array, and_iff_right (show (array items).Clean PlainKey from ⟨trivial, trivial⟩)]
        exact jx9_carries_list fits hitems
  · obtain ⟨hself, heach⟩ := every_object.mp hj
    have hvalues : List.Forall₂ (fun (p : Bytes × Json) (e : Bytes × Jx9Value) =>
        jx9View.Carries p.2 e.2 ↔ p.2.Every (Clean PlainKey)) members es :=
      ((List.forall₂_and_left _ _).mpr ⟨heach, hes⟩).imp fun p e h => h.2.2 h.1
    have hkeys : List.Forall₂ (fun (p : Bytes × Json) (e : Bytes × Jx9Value) =>
        e.1 = cString p.1) members es := hes.imp fun p e h => (Except.ok.inj h.1).symm
    cases hself with
    | object _ ascending _ _ =>
        rw [every_object]
        exact jx9_carries_table (StdMap.Ascending.distinct ascending) hkeys hvalues

/-! ## Ruby -/

namespace RubyVm

variable {S O : Type} (p : Mruby S O) (s : S × Heap)

/-- The values of mruby in a state. A hash lists its entries in some order. -/
def view : TextView O O where
  spells str v := p.node s.1 v = .string str ∧ (mrb_value_to_json p 1 v).Gives s (string str) s
  spellsKey k key := p.node s.1 key = .string k ∧ (mrb_str_to_cstr p key).Gives s k s
  elements v vs := p.node s.1 v = .array vs
  entries v es := ∃ listed, p.node s.1 v = .hash listed ∧ listed.Perm es

variable {p s}

theorem spells_of_node {str : Bytes} {v : O} (hnode : p.node s.1 v = .string (cString str)) :
    (view p s).spells str v ↔ 0 ∉ str := by
  have hspells : (view p s).spells str v ↔ p.node s.1 v = .string str ∧
      (mrb_value_to_json p 1 v).Gives s (string str) s := Iff.rfl
  rw [hspells, hnode, MrbNode.string.injEq, cString_eq_self_iff]
  refine and_iff_left_iff_imp.mpr fun hnul => ?_
  rw [cString_of_notMem hnul] at hnode
  rw [mrb_value_to_json, gives_look_bind hnode]
  exact Prog.gives_bind_iff.mpr ⟨str, s, gives_mrb_str_to_cstr hnode hnul, rfl⟩

/-- Keys that are spelled alike, in the same places. -/
theorem eq_of_spelled {members : List (Bytes × Json)} {es es' : List (O × O)}
    (distinct : StdMap.Distinct members) (hperm : es'.Perm es)
    (hes : List.Forall₂ (fun q e => p.node s.1 e.1 = .string q.1) members es)
    (hes' : List.Forall₂ (fun q e => p.node s.1 e.1 = .string q.1) members es') : es' = es := by
  induction hes generalizing es' with
  | nil => exact List.forall₂_nil_left_iff.mp hes'
  | @cons q e members es hq hrest ih =>
      obtain ⟨e', rest', hq', hrest', rfl⟩ := List.forall₂_cons_left_iff.mp hes'
      obtain ⟨hne, hdistinct⟩ := List.pairwise_cons.mp distinct
      have hhead : e' = e := by
        rcases List.mem_cons.mp (hperm.mem_iff.mp List.mem_cons_self) with heq | hmem
        · exact heq
        · obtain ⟨r, hr, hnode⟩ := forall₂_exists hrest.flip e' hmem
          have hnode : p.node s.1 e'.1 = .string r.1 := hnode
          exact absurd (MrbNode.string.inj (hq'.symm.trans hnode)) (hne r hr)
      rw [hhead] at hperm ⊢
      rw [ih hdistinct hperm.cons_inv hrest']

end RubyVm

namespace MrubyLaws

open RubyVm

variable {S O : Type} {p : Mruby S O} {s : S × Heap} (laws : MrubyLaws p.api (p.node s.1))

/-- Each key of a hash is one that was given. -/
def KeysGiven (api : VmApi O) (node : O → MrbNode O) : Prop :=
  ∀ es listed, node (api.table es) = .hash listed →
    ∀ entry ∈ listed, ∃ e ∈ es, node entry.1 = .string e.1

include laws

theorem carries_hash {members : List (Bytes × Json)} {es : List (Bytes × O)} {Q : Json → Prop}
    (given : KeysGiven p.api (p.node s.1)) (distinct : StdMap.Distinct members)
    (hkeys : List.Forall₂ (fun q e => e.1 = cString q.1) members es)
    (hvalues : List.Forall₂ (fun q e => (view p s).Carries q.2 e.2 ↔ Q q.2) members es) :
    (view p s).Carries (object members) (p.api.table es) ↔
      (object members).Clean (fun _ => True) ∧ ∀ q ∈ members, Q q.2 := by
  refine TextView.carries_object_iff ?_ ?_
  · rintro es' ⟨listed, hnode, hperm⟩ hspelled
    refine ⟨fun q hq => ?_, fun _ _ => trivial⟩
    obtain ⟨entry, hentry, hkey⟩ := forall₂_exists hspelled q hq
    obtain ⟨e, he, hstring⟩ := given es listed hnode entry (hperm.mem_iff.mpr hentry)
    obtain ⟨r, -, hr⟩ := forall₂_exists hkeys.flip e he
    have hcString : q.1 = cString r.1 :=
      (MrbNode.string.inj (hkey.1.symm.trans hstring)).trans hr
    rw [hcString]
    exact zero_notMem_cString r.1
  · rintro ⟨hnul, -⟩
    have hself := forall₂_cString hnul hkeys
    have hdistinct : StdMap.Distinct es := distinct_of_forall₂ (R := fun _ _ => True) distinct
      (hself.imp fun q e he => ⟨he, trivial⟩)
    obtain ⟨entries, listed, hnode, hperm, hentries⟩ := laws.hash es hdistinct
    -- the entries in the order of the members
    obtain ⟨ordered, hordered, hsame⟩ := List.perm_comp_forall₂ hperm.symm hentries
    have hnodes : List.Forall₂ (fun (q : Bytes × Json) (e : O × O) =>
        p.node s.1 e.1 = .string q.1) members ordered :=
      forall₂_trans (fun q e entry he hentry => by rw [hentry.1, he]) hself hordered
    refine ⟨ordered, ⟨entries, hnode, hsame.symm⟩, ?_, ?_, ?_⟩
    · refine ((List.forall₂_and_left _ _).mpr ⟨hnul, hnodes⟩).imp fun q e he => ?_
      exact ⟨he.2, gives_mrb_str_to_cstr he.2 he.1⟩
    · rintro es' ⟨listed', hnode', hperm'⟩ hspelled
      cases hnode.symm.trans hnode'
      exact eq_of_spelled distinct (hperm'.symm.trans hsame.symm) hnodes
        (hspelled.imp fun q e he => he.1)
    · refine forall₂_trans (fun q e entry he hentry => ?_) hvalues hordered
      rw [hentry.2]
      exact he

/-- Whatever is converted, the value of Ruby carries all texts exactly if they have no NUL byte. -/
theorem carries_iff {m : Margo} {env : ViewId → Env} (given : KeysGiven p.api (p.node s.1))
    (j : Json) : (convert m env (json_to_mrb_value p.api) j).Makes fun v =>
      j.Every KeysAscending → ((view p s).Carries j v ↔ j.Every (Clean fun _ => True)) := by
  refine makes_convert (R := fun j v => j.Every KeysAscending →
    ((view p s).Carries j v ↔ j.Every (Clean fun _ => True))) (fun j v hscalar hv _ => ?_)
    (fun b st v _ _ => ?_) (fun b st id _ => ?_) (fun items vs hvs hj => ?_)
    (fun members es hes hj => ?_) j
  · cases j with
    | array items => exact absurd hscalar id
    | object members => exact absurd hscalar id
    | binary b st => exact absurd hscalar id
    | string str =>
        obtain ⟨o, ho, hnode⟩ := laws.string (cString str)
        obtain rfl : v = o := Except.ok.inj (hv.symm.trans ho)
        rw [every_string]
        exact (spells_of_node hnode).trans (and_iff_left trivial).symm
    | _ => exact iff_of_true trivial (every_clean_of_scalar trivial trivial)
  · exact iff_of_true trivial (every_binary.mpr ⟨trivial, trivial⟩)
  · exact iff_of_true trivial (every_binary.mpr ⟨trivial, trivial⟩)
  · have hitems : List.Forall₂ (fun j v => (view p s).Carries j v ↔
        j.Every (Clean fun _ => True)) items vs :=
      ((List.forall₂_and_left _ _).mpr ⟨(every_array.mp hj).2, hvs⟩).imp fun j v h => h.2 h.1
    rw [every_array, and_iff_right (show (Json.array items).Clean _ from ⟨trivial, trivial⟩)]
    refine TextView.carries_array_iff (fun vs' => ?_) hitems
    have helements : (view p s).elements (p.api.list vs) vs' ↔
        p.node s.1 (p.api.list vs) = .array vs' := Iff.rfl
    rw [laws.array, MrbNode.array.injEq, eq_comm] at helements
    exact helements
  · obtain ⟨hself, heach⟩ := every_object.mp hj
    have hvalues : List.Forall₂ (fun (q : Bytes × Json) (e : Bytes × O) =>
        (view p s).Carries q.2 e.2 ↔ q.2.Every (Clean fun _ => True)) members es :=
      ((List.forall₂_and_left _ _).mpr ⟨heach, hes⟩).imp fun q e h => h.2.2 h.1
    have hkeys : List.Forall₂ (fun (q : Bytes × Json) (e : Bytes × O) => e.1 = cString q.1)
        members es := hes.imp fun q e h => (Except.ok.inj h.1).symm
    rw [every_object]
    exact laws.carries_hash given (StdMap.Ascending.distinct hself) hkeys hvalues

end MrubyLaws

/-! ## All three -/

/-- **Bytes of strings and keys.** Whatever argument is converted for Jx9, JavaScript or Ruby, and
whatever views and objects there are, the VM value has every string and every key of it, each in
its place and read as it, if and only if none of them has a NUL byte, and no key is one that the
VM takes for something else: the empty key and other spellings of integers in Jx9, `__proto__` in
JavaScript. -/
theorem strings_kept_iff {S O : Type} (j : JsonValue) (m : Margo) (env : ViewId → Env)
    (created : List ViewId) (heap : Heap) (c : DukCode) (z : DukSizes) (t : DukThread)
    (pristine : t.world.1.Pristine) (proto : HasProto c t.world.1) (p : Mruby S O) (s : S × Heap)
    (laws : MrubyLaws p.api (p.node s.1)) (given : MrubyLaws.KeysGiven p.api (p.node s.1)) :
    (∀ v, (convert m env (JSONtoJx9Value jx9Api) j.tree created heap).1 = .ok v →
      (jx9View.Carries j.tree v ↔ j.tree.Every (Clean PlainKey))) ∧
    (∀ u t', (DukStack.JSONtoDukValue c z m env j.tree created).Gives t u t' →
      ∃ v, t'.stack = t.stack ++ [DukItem.value v] ∧
        ((DukStack.view c z t'.world.1).Carries j.tree v ↔
          j.tree.Every (Clean fun k => k ≠ text "__proto__"))) ∧
    ∀ v, (convert m env (json_to_mrb_value p.api) j.tree created heap).1 = .ok v →
      ((RubyVm.view p s).Carries j.tree v ↔ j.tree.Every (Clean fun _ => True)) := by
  have hkeys := j.wellFormed.keysAscending
  refine ⟨fun v hv => ?_, fun u t' hgives => ?_, fun v hv => ?_⟩
  · exact jx9_carries_iff j.tree created heap v hv j.wellFormed.every
  · have hready : DukStack.Ready c t.world.1.next t.world.1 :=
      ⟨pristine, proto, ⟨fun p hp hp' => by omega, fun p hp hp' => by omega,
        fun p hp hp' => by omega⟩, Nat.le_refl _⟩
    obtain ⟨-, -, v, hstack, -, hcarries⟩ := DukStack.makes hkeys t created u t' hready hgives
    exact ⟨v, hstack, hcarries t'.world.1 ⟨fun _ _ _ => rfl, rfl⟩⟩
  · exact laws.carries_iff given j.tree created heap v hv hkeys

/-- The functions of a VM that has run no script: the one setter is that of `__proto__`. -/
def builtinCode : DukCode where
  getter _ _ w := (.gave .undefined, w)
  setter _ base v w := match base with
    | .object o => (.gave (), (w.1.reparent o (w.1.protoChain o v), w.2))
    | _ => (.threw, w)
  trapGet _ _ w := (.gave none, w)
  trapSet _ _ _ w := (.gave false, w)
  trapKeys _ w := (.gave none, w)
  slot _ _ _ := false
  eval _ w := (.ok .undefined, w)
  safeToString _ w := ([], w)

theorem hasProto_builtins : HasProto builtinCode builtins := by
  intro isArray sanity hsanity
  obtain rfl : sanity = 9997 + 2 := Nat.succ_injective hsanity
  refine ⟨0, some 0, 0, false, ?_, fun o v w => rfl⟩
  cases isArray with
  | false =>
      unfold DukHeap.find
      rfl
  | true =>
      have hchain : builtins.freshPrototypes true = [1, 0] := rfl
      have hnone : (builtins.objects 1).own.lookup (text "__proto__") = none := by decide
      rw [hchain]
      unfold DukHeap.find
      rw [hnone]
      dsimp only
      unfold DukHeap.find
      rfl

theorem strings_kept_sample :
    (∀ v, (convert (Margo.loopback noName) (fun _ => .quiet) (JSONtoJx9Value jx9Api)
        rubySample.tree [] (.empty fun _ => 0)).1 = .ok v →
      (jx9View.Carries rubySample.tree v ↔ rubySample.tree.Every (Clean PlainKey))) ∧
    (∀ u t', (DukStack.JSONtoDukValue builtinCode dukSizes (Margo.loopback noName)
        (fun _ => .quiet) rubySample.tree []).Gives ⟨(builtins, .empty fun _ => 0), []⟩ u t' →
      ∃ v, t'.stack = [] ++ [DukItem.value v] ∧
        ((DukStack.view builtinCode dukSizes t'.world.1).Carries rubySample.tree v ↔
          rubySample.tree.Every (Clean fun k => k ≠ text "__proto__"))) ∧
    ∀ v, (convert (Margo.loopback noName) (fun _ => .quiet) (json_to_mrb_value MrbTree.mruby.api)
        rubySample.tree [] (.empty fun _ => 0)).1 = .ok v →
      ((RubyVm.view MrbTree.mruby ((), .empty fun _ => 0)).Carries rubySample.tree v ↔
        rubySample.tree.Every (Clean fun _ => True)) :=
  strings_kept_iff rubySample _ _ [] _ builtinCode dukSizes ⟨(builtins, .empty fun _ => 0), []⟩
    pristine_builtins hasProto_builtins MrbTree.mruby ((), .empty fun _ => 0) (MrbTree.laws ())
    (by
      rintro es listed hnode entry hentry
      obtain rfl : es.map (fun e => (MrbTree.string e.1, e.2)) = listed := MrbNode.hash.inj hnode
      obtain ⟨e, he, rfl⟩ := List.mem_map.mp hentry
      exact ⟨e, he, rfl⟩)

/-- Of the string with the bytes 97, 0 and 98 only the first arrives in any of the VMs. Of two keys
that differ behind a NUL byte only one does. -/
theorem string_with_nul_changes :
    ((convert (Margo.loopback noName) (fun _ => Env.quiet) (JSONtoJx9Value jx9Api)
        (string [97, 0, 98]) [] (.empty fun _ => 0)).1 = .ok (.string [97]) ∧
      ¬ jx9View.Carries (string [97, 0, 98]) (.string [97])) ∧
    ((DukStack.JSONtoDukValue builtinCode dukSizes (Margo.loopback noName) (fun _ => .quiet)
        (string [97, 0, 98]) [] ⟨(builtins, .empty fun _ => 0), []⟩).2.stack
          = [.value (.string [97])] ∧
      ∀ h, ¬ (DukStack.view builtinCode dukSizes h).Carries (string [97, 0, 98]) (.string [97])) ∧
    ((convert (Margo.loopback noName) (fun _ => Env.quiet) (json_to_mrb_value MrbTree.mruby.api)
        (string [97, 0, 98]) [] (.empty fun _ => 0)).1 = .ok (.string [97]) ∧
      ∀ s, ¬ (RubyVm.view MrbTree.mruby s).Carries (string [97, 0, 98]) (.string [97])) ∧
    (convert (Margo.loopback noName) (fun _ => Env.quiet) (JSONtoJx9Value jx9Api)
      (object [([97], null), ([97, 0], boolean true)]) [] (.empty fun _ => 0)).1
        = .ok (.hashmap true [(.blob [97], .bool true)]) := by
  have hne : ([97] : Bytes) ≠ [97, 0, 98] := by decide
  refine ⟨⟨rfl, fun h => ?_⟩, ⟨rfl, fun heap h => ?_⟩, ⟨rfl, fun s h => ?_⟩, rfl⟩
  · exact hne (Jx9Value.string.inj h.1)
  · exact hne (DukValue.string.inj h.1)
  · exact hne (MrbNode.string.inj h.1)

end Poesie
