import Poesie.ReadBack
import Poesie.RubyVm

set_option autoImplicit false

/-! # Values through Ruby

`json_to_mrb_value` makes a value of mruby and `mrb_value_to_json` reads it back: arrays by
index, hashes by their list of keys. What mruby does with the constructors is a parameter,
`MrubyLaws`; the state in which the value is read is any in which they hold.
-/

namespace Poesie

open Wire Json Outcomes

variable {S O : Type}

/-- What the value a constructor made is later taken for. A hash lists each of its keys once,
with the entry that is found under it. -/
structure MrubyLaws (api : VmApi O) (node : O → MrbNode O) : Prop where
  nil : node api.nil = .nil
  true : node (api.boolean Bool.true) = .true
  false : node (api.boolean Bool.false) = .false
  fixnum : ∀ n : Int, InInt n → node (api.int n) = .fixnum (Int64.ofInt n)
  float : ∀ x, node (api.double x) = .float x
  string : ∀ s, ∃ o, api.string s = .ok o ∧ node o = .string s
  array : ∀ vs, node (api.list vs) = .array vs
  hash : ∀ es, StdMap.Distinct es → ∃ entries listed, node (api.table es) = .hash entries ∧
    listed.Perm es ∧
      List.Forall₂ (fun e entry => node entry.1 = .string e.1 ∧ entry.2 = e.2) listed entries

/-- What Ruby keeps: no binary, integers of type `int`, and texts without NUL bytes. -/
structure MrubyLaws.Kept (j : Json) : Prop where
  notBinary : NotBinary j
  integers : Integers InInt j
  texts : Texts (fun s => 0 ∉ s) j
  keys : KeysAscending j

namespace RubyVm

variable (p : Mruby S O) (s : S × Heap)

/-- The reader of the Ruby backend, which leaves the state as it is. -/
def reads (depth : Nat) (v : O) (j : Json) : Prop := (mrb_value_to_json p depth v).Gives s j s

variable {p s}

theorem gives_mrb_str_to_cstr {v : O} {bytes : Bytes} (hnode : p.node s.1 v = .string bytes)
    (hnul : 0 ∉ bytes) : (mrb_str_to_cstr p v).Gives s bytes s := by
  rw [mrb_str_to_cstr, Prog.gives_bind_iff]
  refine ⟨_, s, gives_look v s, ?_⟩
  rw [hnode]
  dsimp only
  rw [if_neg hnul, Prog.gives_pure]
  exact ⟨rfl, rfl⟩

/-- A read starts with a look at the value. -/
theorem gives_look_bind {v : O} {j : Json} {node : MrbNode O} {k : MrbNode O → VmProg S Json}
    (hnode : p.node s.1 v = node) :
    Prog.Gives (look p v >>= k) s j s ↔ (k node).Gives s j s := by
  subst hnode
  rfl

/-- The loop over the elements of an array. -/
theorem gives_mapM {α β : Type} {f : α → VmProg S β} {xs : List α} {ys : List β}
    (h : List.Forall₂ (fun x y => (f x).Gives s y s) xs ys) : (xs.mapM f).Gives s ys s := by
  induction h with
  | nil =>
      rw [List.mapM_nil, Prog.gives_pure]
      exact ⟨rfl, rfl⟩
  | cons hx _ ih =>
      rw [List.mapM_cons]
      refine Prog.gives_bind_iff.mpr ⟨_, s, hx, Prog.gives_bind_iff.mpr ⟨_, s, ih, ?_⟩⟩
      rw [Prog.gives_pure]
      exact ⟨rfl, rfl⟩

end RubyVm

namespace MrubyLaws

open RubyVm

variable {p : Mruby S O} {s : S × Heap} (laws : MrubyLaws p.api (p.node s.1))

include laws

theorem back_list {items : List Json} {vs : List O}
    (h : List.Forall₂ (Back (reads p s) numberFloat) items vs) :
    Back (reads p s) numberFloat (Json.array items) (p.api.list vs) := by
  refine back_array (fun depth outs hreads => ?_) h
  rw [reads, mrb_value_to_json, gives_look_bind (laws.array vs)]
  exact Prog.gives_bind_iff.mpr ⟨outs, s, gives_mapM hreads, rfl⟩

/-- What is built from the members of an object is read back, whatever the order of the keys is
in the hash. -/
theorem back_hash {members : List (Bytes × Json)} {es : List (Bytes × O)}
    (ascending : StdMap.Ascending members) (noNul : ∀ q ∈ members, 0 ∉ q.1)
    (h : List.Forall₂ (fun q e => e.1 = q.1 ∧ Back (reads p s) numberFloat q.2 e.2) members es) :
    Back (reads p s) numberFloat (object members) (p.api.table es) := by
  obtain ⟨entries, listed, hnode, hperm, hentries⟩ :=
    laws.hash es (distinct_of_forall₂ ascending.distinct h)
  refine back_object ascending h hperm fun depth outs hreads => ?_
  rw [reads, mrb_value_to_json, gives_look_bind hnode]
  refine Prog.gives_bind_iff.mpr ⟨outs, s, gives_mapM ?_, rfl⟩
  have hkeys : ∀ e ∈ es, 0 ∉ e.1 := key_of_forall₂ (P := fun k => 0 ∉ k) noNul h
  have hlisted : ∀ e ∈ listed, 0 ∉ e.1 := fun e he => hkeys e (hperm.mem_iff.mp he)
  clear hnode hperm
  induction hentries generalizing outs with
  | nil =>
      cases hreads
      exact .nil
  | @cons e entry listed entries hentry _ ih =>
      cases hreads with
      | @cons _ out _ outs hout hrest =>
          refine .cons ?_ (ih _ hrest fun e he => hlisted e (by simp [he]))
          have hkey := gives_mrb_str_to_cstr hentry.1 (hlisted e (by simp))
          have hvalue : (mrb_value_to_json p depth entry.2).Gives s out.2 s := by
            rw [hentry.2]
            exact hout.2
          refine Prog.gives_bind_iff.mpr ⟨out.2, s, hvalue, Prog.gives_bind_iff.mpr
            ⟨e.1, s, hkey, ?_⟩⟩
          rw [Prog.gives_pure]
          exact ⟨Prod.ext hout.1 rfl, rfl⟩

/-- An integer of type `int` is read back. -/
theorem back_int {j : Json} {n : Int} (hn : InInt n)
    (hj : (integer n).normal numberFloat = j.normal numberFloat) :
    Back (reads p s) numberFloat j (p.api.int n) := by
  have hint : integer n = numberInteger (Int64.ofInt n) := if_pos (by have := hn.2; omega)
  refine ⟨numberInteger (Int64.ofInt n), readAs_of_succ fun depth => ?_, hint ▸ hj⟩
  rw [reads, mrb_value_to_json, gives_look_bind (laws.fixnum n hn)]
  rfl

theorem back_scalar {j : Json} (hkept : Kept j) (hscalar : j.Scalar) :
    ∃ v, (json_to_mrb_value p.api).scalar j = .ok v ∧ Back (reads p s) numberFloat j v := by
  cases j with
  | null =>
      refine ⟨_, rfl, null, readAs_of_succ fun d => ?_, rfl⟩
      rw [reads, mrb_value_to_json, gives_look_bind laws.nil]
      rfl
  | boolean b =>
      refine ⟨_, rfl, boolean b, readAs_of_succ fun d => ?_, rfl⟩
      cases b with
      | false =>
          rw [reads, mrb_value_to_json, gives_look_bind laws.false]
          rfl
      | true =>
          rw [reads, mrb_value_to_json, gives_look_bind laws.true]
          rfl
  | numberInteger n =>
      have hn : InInt n.toInt := hkept.integers
      refine ⟨_, rfl, ?_⟩
      rw [getInt32_integer, (bmod_eq_self_iff _).mpr hn]
      exact laws.back_int hn (by rw [integer_of_int64])
  | numberUnsigned n =>
      have hn : InInt n.toNat := hkept.integers
      refine ⟨_, rfl, ?_⟩
      rw [getInt32_unsigned, (bmod_eq_self_iff _).mpr hn]
      exact laws.back_int hn (normal_integer_unsigned _ n)
  | numberFloat x =>
      refine ⟨_, rfl, numberFloat x, readAs_of_succ fun d => ?_, rfl⟩
      rw [reads, mrb_value_to_json, gives_look_bind (laws.float x)]
      rfl
  | string str =>
      have hnul : 0 ∉ str := hkept.texts
      obtain ⟨v, hv, hnode⟩ := laws.string str
      refine ⟨v, ?_, Json.string str, readAs_of_succ fun d => ?_, rfl⟩
      · show p.api.string (cString str) = _
        rw [cString_of_notMem hnul, hv]
      · rw [reads, mrb_value_to_json, gives_look_bind hnode]
        exact Prog.gives_bind_iff.mpr ⟨str, s, gives_mrb_str_to_cstr hnode hnul, rfl⟩
  | binary b st => exact absurd hscalar id
  | array items => exact absurd hscalar id
  | object members => exact absurd hscalar id

/-- What is built from a value is read back as it. -/
theorem back_build {j : Json} (h : j.Every Kept) :
    ∃ v, (json_to_mrb_value p.api).build j = .ok v ∧ Back (reads p s) numberFloat j v := by
  have hkey : ∀ k, 0 ∉ k → (json_to_mrb_value p.api).key k = .ok k := by
    intro k hk
    show Except.ok (cString k) = .ok k
    rw [cString_of_notMem hk]
  refine Converter.exists_build (fun b st h => absurd h.notBinary id)
    (fun j hj => laws.back_scalar hj) (fun items vs _ => laws.back_list)
    (fun members hj q hq => ⟨q.1, hkey q.1 (hj.texts q hq)⟩)
    (fun members es hj hes => ?_) h
  exact laws.back_hash hj.keys hj.texts
    (Converter.forall₂_keys (fun q hq => hkey q.1 (hj.texts q hq)) hes)

end MrubyLaws

/-- **Round trip through Ruby.** Whatever views and heap there are, a value without binaries is
converted, and read back as an equal value if the stack suffices for it. -/
theorem mrb_value_to_json_json_to_mrb_value (p : Mruby S O) (s : S × Heap)
    (laws : MrubyLaws p.api (p.node s.1)) (j : JsonValue) (notBinary : j.tree.Every NotBinary)
    (ints : j.tree.Every (Integers InInt)) (noNul : j.tree.Every (Texts fun str => 0 ∉ str))
    (m : Margo) (env : ViewId → Env) (created : List ViewId) (heap : Heap) :
    ∃ v, (convert m env (json_to_mrb_value p.api) j.tree created heap).1 = .ok v ∧
      ∃ out least, (∀ depth, least ≤ depth →
          (RubyVm.mrb_value_to_json p depth v).Gives s out s) ∧ out.EqInt j.tree := by
  have hkept : j.tree.Every MrubyLaws.Kept := fun n hn =>
    ⟨notBinary n hn, ints n hn, noNul n hn, j.wellFormed.keysAscending n hn⟩
  obtain ⟨v, hv, out, ⟨least, hread⟩, heq⟩ := laws.back_build hkept
  refine ⟨v, ?_, out, least, hread, heq⟩
  rw [convert_eq_build notBinary created heap, hv]
  rfl

/-! ## An interpreter that meets the laws -/

/-- Values as trees. -/
inductive MrbTree where
  | nil
  | fixnum (n : Int64)
  | float (x : Float64)
  | bool (b : Bool)
  | string (s : Bytes)
  | array (items : List MrbTree)
  | hash (entries : List (MrbTree × MrbTree))
  | data (view : ViewId)

namespace MrbTree

/-- What `mrb_value_to_json` tells the trees apart by. -/
def node : MrbTree → MrbNode MrbTree
  | nil => .nil
  | fixnum n => .fixnum n
  | float x => .float x
  | bool true => .true
  | bool false => .false
  | string s => .string s
  | array items => .array items
  | hash entries => .hash entries
  | data _ => .other

def api : VmApi MrbTree where
  nil := nil
  boolean := bool
  int n := fixnum (Int64.ofInt n)
  double := float
  string s := .ok (string s)
  bytes := string
  list := array
  table entries := hash (entries.map fun e => (string e.1, e.2))
  buffer := data

/-- An interpreter whose scripts return nil. -/
def mruby : Mruby Unit MrbTree where
  api := api
  node _ := node
  poesie := string (text "poesie")
  objectFrozen _ := false
  constSet _ s := s
  loadString _ w := (.ok nil, w)
  inspect v w := (v, w)

theorem laws (u : Unit) : MrubyLaws mruby.api (mruby.node u) where
  nil := rfl
  true := rfl
  false := rfl
  fixnum _ _ := rfl
  float _ := rfl
  string s := ⟨string s, rfl, rfl⟩
  array _ := rfl
  hash es _ := by
    have hlisted : ∀ es : List (Bytes × MrbTree), List.Forall₂
        (fun e entry => mruby.node u entry.1 = .string e.1 ∧ entry.2 = e.2) es
        (es.map fun e => (string e.1, e.2)) := by
      intro es
      induction es with
      | nil => exact .nil
      | cons e es ih => exact .cons ⟨rfl, rfl⟩ ih
    exact ⟨es.map fun e => (string e.1, e.2), es, rfl, List.Perm.refl _, hlisted es⟩

end MrbTree

/-- A hash with nil and false in it, next to an empty one. -/
def rubySample : JsonValue where
  tree := array [object [([97], null), ([98], boolean false)], object [],
    numberInteger (-2147483648)]
  wellFormed := .array (by decide) (by
    simp only [List.mem_cons, List.not_mem_nil, or_false, forall_eq_or_imp, forall_eq]
    refine ⟨.object (by decide) ?_ ?_ ?_, .object (by decide) .nil (by simp) (by simp),
      .numberInteger _⟩
    · exact .cons (by simp; decide) (List.pairwise_singleton _ _)
    · simp
    · simp only [List.mem_cons, List.not_mem_nil, or_false, forall_eq_or_imp, forall_eq]
      exact ⟨.null, .boolean _⟩)

theorem ruby_round_trip_sample :
    ∃ v, (convert (Margo.loopback noName) (fun _ => Env.quiet) (json_to_mrb_value MrbTree.mruby.api)
        rubySample.tree [] (.empty fun _ => 0)).1 = .ok v ∧
      ∃ out least, (∀ depth, least ≤ depth →
          (RubyVm.mrb_value_to_json MrbTree.mruby depth v).Gives ((), .empty fun _ => 0) out
            ((), .empty fun _ => 0)) ∧ out.EqInt rubySample.tree :=
  mrb_value_to_json_json_to_mrb_value MrbTree.mruby ((), .empty fun _ => 0) (MrbTree.laws ())
    rubySample (by simp [rubySample, NotBinary]) (by simp [rubySample, Integers, InInt])
    (by simp [rubySample, Texts]) _ _ _ _

end Poesie
