import Poesie.Limited
import Poesie.PythonVm
import Poesie.ReadBack

set_option autoImplicit false

/-! # Values through Python

`from_json` makes an object of a JSON value and `to_json` reads it back. What pybind11 and Python
do with the constructors is a parameter, `PyLaws`. The law of the round trip is proved along the
traversal: what is built is read back, at whatever depth the reader can reach it.
-/

namespace Poesie

open Wire Json

variable {O : Type}

/-- The object is no `None`, and an instance of these types only. -/
structure PyObjects.IsA (objects : PyObjects O) (types : List PyType) (o : O) : Prop where
  notNone : objects.isNone o = false
  isinstance : ∀ type, objects.isinstance type o = decide (type ∈ types)

/-- What `isinstance`, the casts and the iterators tell of the objects that pybind11 makes. A `bool`
is an `int` as well, and a `dict` lists each of its keys once. -/
structure PyLaws (api : VmApi O) (objects : PyObjects O) : Prop where
  none : objects.isNone api.nil = true
  bool : ∀ b, objects.IsA [.bool_, .int_] (api.boolean b) ∧ objects.castBool (api.boolean b) = b
  int : ∀ n, objects.IsA [.int_] (api.int n) ∧ objects.castInt (api.int n) = n ∧
    ∀ m, objects.equal m (api.int n) = pure (decide (m = n))
  float : ∀ x, x.isNaN = false →
    objects.IsA [.float_] (api.double x) ∧ objects.castDouble (api.double x) = x
  str : ∀ s, Utf8 s →
    ∃ o, api.string s = .ok o ∧ objects.IsA [.str] o ∧ objects.castString o = .ok s
  list : ∀ vs, objects.IsA [.list] (api.list vs) ∧ Limited.Lists (objects.next (api.list vs)) 0 vs
  dict : ∀ es, StdMap.Distinct es → (∀ e ∈ es, Utf8 e.1) → objects.IsA [.dict] (api.table es) ∧
    ∃ keys listed, Limited.Lists (objects.next (api.table es)) 0 keys ∧ listed.Perm es ∧
      List.Forall₂ (fun e key => objects.getItem (api.table es) key = pure e.2 ∧
        objects.str key = pure e.1) listed keys

/-- What Python keeps: no binary, texts that are UTF-8, and no NaN. -/
structure PyLaws.Kept (j : Json) : Prop where
  notBinary : NotBinary j
  texts : Texts Utf8 j
  floats : Floats (fun x => x.isNaN = false) j
  keys : KeysAscending j

namespace PyObjects

variable (objects : PyObjects O)

/-- The reader of the Python backend, with at least so much stack and time. -/
def reads (least : Nat) (o : O) (j : Json) : Prop :=
  ∀ rounds depth, least ≤ rounds → least ≤ depth → to_json objects rounds depth o = pure j

/-- A key of a dictionary and its value are read as a member of an object. -/
def EntryRead (objects : PyObjects O) (rounds depth : Nat) (o key : O) (member : Bytes × Json) :
    Prop :=
  ∃ value, objects.getItem o key = pure value ∧ to_json objects rounds depth value = pure member.2 ∧
    objects.str key = pure member.1

variable {objects}

/-- What is read in one step, whatever stack and time there is. -/
theorem readAs_of_step {o : O} {j : Json}
    (h : ∀ rounds depth, to_json objects rounds (depth + 1) o = pure j) :
    ReadAs objects.reads o j := by
  refine ⟨1, fun least hleast rounds depth _ hdepth => ?_⟩
  obtain ⟨d, rfl⟩ : ∃ d, depth = d + 1 := ⟨depth - 1, by omega⟩
  exact h rounds d

/-- What a list is read as. -/
theorem to_json_sequence_iff {rounds depth : Nat} {o : O} {elements : List O} {j : Json}
    (hnode : objects.node o = .sequence) (hlists : Limited.Lists (objects.next o) 0 elements) :
    to_json objects rounds (depth + 1) o = pure j ↔ elements.length < rounds ∧
      ∃ items, j = array items ∧
        List.Forall₂ (fun v item => to_json objects rounds depth v = pure item) elements items := by
  have hloop : ∀ acc (out : List Json),
      elements.foldlM (addItem (to_json objects rounds depth)) acc = pure out ↔
        ∃ items, List.Forall₂ (fun v item => to_json objects rounds depth v = pure item)
          elements items ∧ out = items.foldl (fun out item => out ++ [item]) acc := by
    intro acc out
    refine Limited.foldlM_eq_pure_iff fun acc value out => ?_
    simp only [addItem, Limited.bind_eq_pure_iff, Limited.pure_inj]
    constructor
    · rintro ⟨item, hitem, rfl⟩
      exact ⟨item, hitem, rfl⟩
    · rintro ⟨item, hitem, rfl⟩
      exact ⟨item, hitem, rfl⟩
  rw [to_json, hnode]
  dsimp only
  rw [Limited.bind_eq_pure_iff]
  constructor
  · rintro ⟨out, hout, hj⟩
    obtain ⟨elements', hlists', hlt, hfold⟩ := Limited.loop_eq_pure_iff.mp hout
    obtain rfl := hlists.unique hlists'
    obtain ⟨items, hitems, rfl⟩ := (hloop [] out).mp hfold
    rw [foldl_concat, List.nil_append, Limited.pure_inj] at hj
    exact ⟨hlt, items, hj.symm, hitems⟩
  · rintro ⟨hlt, items, rfl, hitems⟩
    refine ⟨items, Limited.loop_eq_pure_iff.mpr ⟨elements, hlists, hlt, ?_⟩, rfl⟩
    exact (hloop [] items).mpr ⟨items, hitems, by rw [foldl_concat, List.nil_append]⟩

/-- What a dictionary is read as. -/
theorem to_json_dict_iff {rounds depth : Nat} {o : O} {keys : List O} {j : Json}
    (hnode : objects.node o = .dict) (hlists : Limited.Lists (objects.next o) 0 keys) :
    to_json objects rounds (depth + 1) o = pure j ↔ keys.length < rounds ∧
      ∃ members, j = object (members.foldl (fun m e => StdMap.assign e.1 e.2 m) []) ∧
        List.Forall₂ (objects.EntryRead rounds depth o) keys members := by
  have hloop : ∀ acc (out : List (Bytes × Json)),
      keys.foldlM (objects.addMember (to_json objects rounds depth) o) acc = pure out ↔
        ∃ members, List.Forall₂ (objects.EntryRead rounds depth o) keys members ∧
          out = members.foldl (fun m e => StdMap.assign e.1 e.2 m) acc := by
    intro acc out
    refine Limited.foldlM_eq_pure_iff fun acc key out => ?_
    simp only [addMember, Limited.bind_eq_pure_iff, Limited.pure_inj]
    constructor
    · rintro ⟨value, hvalue, j, hj, name, hname, rfl⟩
      exact ⟨(name, j), ⟨value, hvalue, hj, hname⟩, rfl⟩
    · rintro ⟨member, ⟨value, hvalue, hj, hname⟩, rfl⟩
      exact ⟨value, hvalue, _, hj, _, hname, rfl⟩
  rw [to_json, hnode]
  dsimp only
  rw [Limited.bind_eq_pure_iff]
  constructor
  · rintro ⟨out, hout, hj⟩
    obtain ⟨keys', hlists', hlt, hfold⟩ := Limited.loop_eq_pure_iff.mp hout
    obtain rfl := hlists.unique hlists'
    obtain ⟨members, hmembers, rfl⟩ := (hloop [] out).mp hfold
    exact ⟨hlt, members, (Limited.pure_inj.mp hj).symm, hmembers⟩
  · rintro ⟨hlt, members, rfl, hmembers⟩
    exact ⟨_, Limited.loop_eq_pure_iff.mpr
      ⟨keys, hlists, hlt, (hloop [] _).mpr ⟨members, hmembers, rfl⟩⟩, rfl⟩

end PyObjects

theorem tryCast_of_equal {inRange : Prop} [Decidable inRange] :
    tryCast inRange (pure true) = pure (decide inRange) := by
  unfold tryCast
  by_cases h : inRange
  · rw [if_pos h, decide_eq_true h]
    rfl
  · rw [if_neg h, decide_eq_false h]

/-- Between the two ranges there is no gap. -/
theorem PyObjects.intToJson_of_range {objects : PyObjects O} {o : O} {n : Int}
    (hcast : objects.castInt o = n) (hequal : objects.equal n o = pure true) (hlow : -2 ^ 63 ≤ n)
    (hhigh : n < 2 ^ 64) : objects.intToJson o = pure (some (integer n)) := by
  unfold intToJson integer
  simp only [hcast, hequal, tryCast_of_equal, pure_bind]
  by_cases h63 : n < 2 ^ 63
  · rw [decide_eq_true (show -2 ^ 63 ≤ n ∧ n < 2 ^ 63 from ⟨hlow, h63⟩), if_pos h63]
    rfl
  · rw [decide_eq_false (show ¬(-2 ^ 63 ≤ n ∧ n < 2 ^ 63) from fun h => h63 h.2), if_neg h63,
      decide_eq_true (show 0 ≤ n ∧ n < 2 ^ 64 by omega)]
    rfl

namespace PyObjects.IsA

variable {objects : PyObjects O} {o : O}

theorem bool (h : objects.IsA [.bool_, .int_] o) : objects.node o = .bool := by
  simp [node, h.notNone, h.isinstance]

theorem int (h : objects.IsA [.int_] o) : objects.node o = .int := by
  simp [node, h.notNone, h.isinstance]

theorem float (h : objects.IsA [.float_] o) : objects.node o = .float := by
  simp [node, h.notNone, h.isinstance]

theorem str (h : objects.IsA [.str] o) : objects.node o = .str := by
  simp [node, h.notNone, h.isinstance]

theorem list (h : objects.IsA [.list] o) : objects.node o = .sequence := by
  simp [node, h.notNone, h.isinstance]

theorem dict (h : objects.IsA [.dict] o) : objects.node o = .dict := by
  simp [node, h.notNone, h.isinstance]

end PyObjects.IsA

namespace PyLaws

variable {api : VmApi O} {objects : PyObjects O} (laws : PyLaws api objects)

include laws

/-- What is built from a list is read back. -/
theorem back_list {items : List Json} {vs : List O}
    (h : List.Forall₂ (Back objects.reads numberFloat) items vs) :
    Back objects.reads numberFloat (array items) (api.list vs) := by
  obtain ⟨hlist, hlists⟩ := laws.list vs
  refine back_array_of_le vs.length (fun least outs henough hreads rounds depth hrounds hdepth => ?_) h
  obtain ⟨d, rfl⟩ : ∃ d, depth = d + 1 := ⟨depth - 1, by omega⟩
  refine (PyObjects.to_json_sequence_iff hlist.list hlists).mpr ⟨by omega, outs, rfl, ?_⟩
  exact hreads.imp fun v out hread => hread rounds d (by omega) (by omega)

/-- What is built from the members of an object is read back, whatever their order is in the
dictionary. -/
theorem back_dict {members : List (Bytes × Json)} {es : List (Bytes × O)}
    (ascending : StdMap.Ascending members) (utf8 : ∀ p ∈ members, Utf8 p.1)
    (h : List.Forall₂ (fun p e => e.1 = p.1 ∧ Back objects.reads numberFloat p.2 e.2) members es) :
    Back objects.reads numberFloat (object members) (api.table es) := by
  obtain ⟨hdict, keys, listed, hlists, hperm, hkeys⟩ :=
    laws.dict es (distinct_of_forall₂ ascending.distinct h) (key_of_forall₂ utf8 h)
  refine back_object_of_le keys.length ascending h hperm
    fun least outs henough hreads rounds depth hrounds hdepth => ?_
  obtain ⟨d, rfl⟩ : ∃ d, depth = d + 1 := ⟨depth - 1, by omega⟩
  refine (PyObjects.to_json_dict_iff hdict.dict hlists).mpr ⟨by omega, outs, rfl, ?_⟩
  refine forall₂_trans ?_ hkeys.flip hreads
  rintro key e out ⟨hvalue, hkey⟩ ⟨hname, hread⟩
  refine ⟨e.2, hvalue, hread rounds d (by omega) (by omega), ?_⟩
  rw [hkey, hname]

theorem back_int {n : Int} (hlow : -2 ^ 63 ≤ n) (hhigh : n < 2 ^ 64) :
    ReadAs objects.reads (api.int n) (integer n) := by
  obtain ⟨hint, hcast, hequal⟩ := laws.int n
  have hsame : objects.equal n (api.int n) = pure true := by rw [hequal, decide_eq_true rfl]
  refine PyObjects.readAs_of_step fun rounds depth => ?_
  rw [to_json, hint.int]
  dsimp only
  rw [PyObjects.intToJson_of_range hcast hsame hlow hhigh]
  rfl

theorem back_scalar {j : Json} (hkept : Kept j) (hscalar : j.Scalar) :
    ∃ o, (from_json api).scalar j = .ok o ∧ Back objects.reads numberFloat j o := by
  cases j with
  | null =>
      refine ⟨_, rfl, null, PyObjects.readAs_of_step fun rounds depth => ?_, rfl⟩
      rw [to_json, PyObjects.node, laws.none]
      rfl
  | boolean b =>
      obtain ⟨hbool, hcast⟩ := laws.bool b
      refine ⟨_, rfl, boolean b, PyObjects.readAs_of_step fun rounds depth => ?_, rfl⟩
      rw [to_json, hbool.bool]
      dsimp only
      rw [hcast]
  | numberInteger n =>
      have hlow : -2 ^ 63 ≤ n.toInt := n.le_toInt
      have hhigh : n.toInt < 2 ^ 63 := n.toInt_lt
      have hread := laws.back_int hlow (by omega)
      rw [integer_of_int64] at hread
      exact ⟨_, rfl, numberInteger n, hread, rfl⟩
  | numberUnsigned n =>
      have hn : n.toNat < 2 ^ 64 := n.toNat_lt
      exact ⟨_, rfl, integer n.toNat, laws.back_int (by omega) (by omega),
        normal_integer_unsigned _ n⟩
  | numberFloat x =>
      obtain ⟨hfloat, hcast⟩ := laws.float x hkept.floats
      refine ⟨_, rfl, numberFloat x, PyObjects.readAs_of_step fun rounds depth => ?_, rfl⟩
      rw [to_json, hfloat.float]
      dsimp only
      rw [hcast]
  | string s =>
      obtain ⟨o, ho, hstr, hcast⟩ := laws.str s hkept.texts
      refine ⟨o, ho, string s, PyObjects.readAs_of_step fun rounds depth => ?_, rfl⟩
      rw [to_json, hstr.str]
      dsimp only
      rw [hcast]
      rfl
  | binary b st => exact absurd hscalar id
  | array items => exact absurd hscalar id
  | object members => exact absurd hscalar id

/-- What is built from a value is read back as it. -/
theorem back_build {j : Json} (h : j.Every Kept) :
    ∃ o, (from_json api).build j = .ok o ∧ Back objects.reads numberFloat j o := by
  have hkey : ∀ s, Utf8 s → (from_json api).key s = .ok s := by
    intro s hs
    obtain ⟨o, ho, -⟩ := laws.str s hs
    show (api.string s).map _ = _
    rw [ho]
    rfl
  refine Converter.exists_build (fun b st h => absurd h.notBinary id)
    (fun j hj => laws.back_scalar hj) (fun items vs _ => laws.back_list)
    (fun members hj p hp => ⟨p.1, hkey p.1 (hj.texts p hp)⟩)
    (fun members es hj hes => ?_) h
  exact laws.back_dict hj.keys hj.texts
    (Converter.forall₂_keys (fun p hp => hkey p.1 (hj.texts p hp)) hes)

end PyLaws

/-- **Round trip through Python.** Whatever views and heap there are, a value without binaries is
converted, and read back as an equal value with integers compared by value, if the stack and the
time suffice for it. -/
theorem to_json_from_json (api : VmApi O) (objects : PyObjects O) (laws : PyLaws api objects)
    (j : JsonValue) (notBinary : j.tree.Every NotBinary) (texts : j.tree.Every (Texts Utf8))
    (noNaN : j.tree.Every (Floats fun x => x.isNaN = false)) (m : Margo) (env : ViewId → Env)
    (created : List ViewId) (s : Heap) :
    ∃ o, (convert m env (from_json api) j.tree created s).1 = .ok o ∧
      ∃ out least, (∀ rounds depth, least ≤ rounds → least ≤ depth →
        to_json objects rounds depth o = pure out) ∧ out.EqInt j.tree := by
  have hkept : j.tree.Every PyLaws.Kept := fun n hn =>
    ⟨notBinary n hn, texts n hn, noNaN n hn, j.wellFormed.keysAscending n hn⟩
  obtain ⟨o, ho, out, ⟨least, hread⟩, heq⟩ := laws.back_build hkept
  refine ⟨o, ?_, out, least, hread least (Nat.le_refl _), heq⟩
  rw [convert_eq_build notBinary created s, ho]
  rfl

/-! ## Objects that meet the laws -/

/-- Objects as trees. -/
inductive PyTree where
  | none
  | bool (b : Bool)
  | int (n : Int)
  | float (x : Float64)
  | bytes (b : Bytes)
  | str (s : Bytes)
  | list (items : List PyTree)
  | dict (entries : List (PyTree × PyTree))
  | memoryview (view : ViewId)

namespace PyTree

/-- pybind11, as far as the converters use it. -/
def api : VmApi PyTree where
  nil := none
  boolean := bool
  int := int
  double := float
  string s := if Utf8 s then .ok (str s) else .error (.errorAlreadySet (text "UnicodeDecodeError"))
  bytes := bytes
  list := list
  table entries := dict (entries.map fun e => (str e.1, e.2))
  buffer := memoryview

/-- `a == b`, as far as it is asked of keys. -/
def sameKey : PyTree → PyTree → Bool
  | str s, str s' => s = s'
  | int n, int n' => n = n'
  | _, _ => false

/-- The value of a number that is used as one. -/
def asInt : PyTree → Int
  | bool b => if b then 1 else 0
  | int n => n
  | _ => 0

/-- The texts of the objects that are used as keys. -/
def objects : PyObjects PyTree where
  isNone o := o matches none
  isinstance
    | .bool_, bool _ => true
    | .int_, bool _ => true
    | .int_, int _ => true
    | .float_, float _ => true
    | .bytes, bytes _ => true
    | .str, str _ => true
    | .list, list _ => true
    | .dict, dict _ => true
    | _, _ => false
  castBool o := o matches bool true
  castInt := asInt
  castDouble
    | float x => x
    | _ => ⟨0⟩
  castString
    | str s => .ok s
    | _ => .error (.errorAlreadySet [])
  equal n o := pure (decide (n = o.asInt))
  next
    | list items, i => pure items[i]?
    | dict entries, i => pure (entries[i]?.map Prod.fst)
    | _, _ => throw (.errorAlreadySet (text "object is not iterable"))
  getItem
    | dict entries, key =>
        match entries.find? fun entry => entry.1.sameKey key with
        | some entry => pure entry.2
        | Option.none => throw (.errorAlreadySet (text "KeyError"))
    | _, _ => throw (.errorAlreadySet (text "object is not subscriptable"))
  repr _ := throw (.errorAlreadySet [])
  str
    | str s => pure s
    | int n => pure (text (toString n))
    | _ => throw (.errorAlreadySet [])
  b64encode _ := throw (.errorAlreadySet [])

theorem find_entry {es : List (Bytes × PyTree)} (distinct : StdMap.Distinct es)
    {e : Bytes × PyTree} (he : e ∈ es) :
    (es.map fun e => (str e.1, e.2)).find? (fun entry => entry.1.sameKey (str e.1)) =
      some (str e.1, e.2) := by
  induction es with
  | nil => cases he
  | cons e' es ih =>
      obtain ⟨hfirst, hrest⟩ := List.pairwise_cons.mp distinct
      rw [List.map_cons]
      rcases List.mem_cons.mp he with rfl | he
      · exact List.find?_cons_of_pos (by simp [sameKey])
      · rw [List.find?_cons_of_neg (by simpa [sameKey] using hfirst e he)]
        exact ih hrest he

theorem laws : PyLaws api objects where
  none := rfl
  bool b := ⟨⟨rfl, fun type => by cases type <;> rfl⟩, by cases b <;> rfl⟩
  int _ := ⟨⟨rfl, fun type => by cases type <;> rfl⟩, rfl, fun _ => rfl⟩
  float _ _ := ⟨⟨rfl, fun type => by cases type <;> rfl⟩, rfl⟩
  str s hs := ⟨str s, if_pos hs, ⟨rfl, fun type => by cases type <;> rfl⟩, rfl⟩
  list vs := by
    refine ⟨⟨rfl, fun type => by cases type <;> rfl⟩, Limited.lists_of_getElem? fun k => ?_⟩
    rw [Nat.zero_add]
    rfl
  dict es distinct _ := by
    have hlists : Limited.Lists (objects.next (api.table es)) 0 (es.map fun e => str e.1) := by
      refine Limited.lists_of_getElem? fun k => ?_
      rw [Nat.zero_add]
      simp [objects, api, Function.comp_def]
    refine ⟨⟨rfl, fun type => by cases type <;> rfl⟩, _, es, hlists, List.Perm.refl _, ?_⟩
    rw [List.forall₂_map_right_iff, List.forall₂_same]
    intro e he
    refine ⟨?_, rfl⟩
    simp only [objects, api, find_entry distinct he]

end PyTree

/-- A list with the largest unsigned number and an empty dictionary. -/
def pythonSample : JsonValue where
  tree := array [numberUnsigned 18446744073709551615, object []]
  wellFormed := .array (by decide) (by
    simp only [List.mem_cons, List.not_mem_nil, or_false, forall_eq_or_imp, forall_eq]
    exact ⟨.numberUnsigned _, .object (by decide) .nil (by simp) (by simp)⟩)

theorem to_json_from_json_sample :
    ∃ o, (convert (Margo.loopback noName) (fun _ => Env.quiet) (from_json PyTree.api)
        pythonSample.tree [] (.empty fun _ => 0)).1 = .ok o ∧
      ∃ out least, (∀ rounds depth, least ≤ rounds → least ≤ depth →
        to_json PyTree.objects rounds depth o = pure out) ∧ out.EqInt pythonSample.tree :=
  to_json_from_json PyTree.api PyTree.objects PyTree.laws pythonSample
    (by simp [pythonSample, NotBinary]) (by simp [pythonSample, Texts])
    (by simp [pythonSample, Floats]) _ _ _ _

end Poesie
