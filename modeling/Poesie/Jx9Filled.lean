import Poesie.Jx9Map
import Poesie.Jx9Runs

set_option autoImplicit false

/-! # The maps that the converters fill

`JSONtoJx9Value` fills arrays and objects by calls that insert into a new hash map, and
`Jx9ValueToJSON` walks through them. The values of the converters, lists of entries under keys that
are told apart, are what the buckets and chains of the VM hold.
-/

namespace Poesie

open Wire Outcomes

namespace Jx9Map

theorem nextIdx_append_int (entries : Entries) (n : Int64) (v : Jx9Value) :
    nextIdx (entries ++ [(.int n, v)]) =
      if n ≥ nextIdx entries then n + 1 else nextIdx entries := by
  unfold nextIdx
  rw [List.foldl_append]
  rfl

theorem nextIdx_append_blob (entries : Entries) (b : Bytes) (v : Jx9Value) :
    nextIdx (entries ++ [(.blob b, v)]) = nextIdx entries := by
  unfold nextIdx
  rw [List.foldl_append]
  rfl

/-- Another value under a key that is there. -/
theorem store_of_mem {key : Jx9Key} {entries : Entries} (hmem : key ∈ entries.map Prod.fst)
    (hdistinct : (entries.map Prod.fst).Nodup) (v : Jx9Value) :
    store key v entries = entries.map fun e => if e.1 = key then (e.1, v) else e := by
  induction entries with
  | nil => cases hmem
  | cons e rest ih =>
      rw [List.map_cons, List.nodup_cons] at hdistinct
      rw [List.map_cons, List.mem_cons] at hmem
      rw [store, List.map_cons]
      by_cases hkey : e.1 = key
      · rw [if_pos hkey, if_pos hkey, hkey]
        have hsame : rest.map (fun e => if e.1 = key then (e.1, v) else e) = rest := by
          refine List.map_congr_left (g := id) (fun e' he' => if_neg fun heq => ?_) |>.trans
            (List.map_id rest)
          exact hdistinct.1 (hkey ▸ heq ▸ List.mem_map_of_mem he')
        rw [hsame]
      · rw [if_neg hkey, if_neg hkey, ih (hmem.resolve_left (Ne.symm hkey)) hdistinct.2]

/-- The automatic index is up to the keys. -/
theorem nextIdx_map {f : Jx9Key × Jx9Value → Jx9Key × Jx9Value} (hf : ∀ e, (f e).1 = e.1)
    (entries : Entries) : nextIdx (entries.map f) = nextIdx entries := by
  unfold nextIdx
  rw [List.foldl_map]
  simp only [hf]

end Jx9Map

/-- The keys of a map. -/
def Jx9Value.keys : Jx9Value → List Jx9Key
  | .hashmap _ entries => entries.map Prod.fst
  | _ => []

namespace Jx9Hash

/-! ## Filling a map -/

/-- A call of the C interface that fills a map. -/
inductive Fill where
  /-- `jx9_array_add_elem`, with an automatic index -/
  | elem (v : Jx9Value)
  /-- `jx9_array_add_strkey_elem` -/
  | strkey (k : Bytes) (v : Jx9Value)

/-- The insertion that it makes, with memory for a larger table. -/
def Fill.call : Fill → Call Jx9Value
  | .elem v => .insert .auto (some v) true
  | .strkey k v => .insert (if k = [] then .auto else .string k) (some v) true

/-- What it does to the value of the converters. -/
def Fill.apply (value : Jx9Value) : Fill → Jx9Value
  | .elem v => value.addElem v
  | .strkey k v => value.addStrkeyElem (k, v)

/-- The value of the converters that a dictionary is. -/
def Dict.value (d : Dict Jx9Value) : Jx9Value := .hashmap d.isObject d.entries

instance : Inhabited Jx9Value := ⟨.null⟩

/-- The automatic index is past the integer keys and not further. -/
structure Counted (d : Dict Jx9Value) : Prop where
  sound : d.Sound
  next : d.next = Jx9Map.nextIdx d.entries

theorem counted_empty : Counted Dict.empty := ⟨Dict.sound_empty, rfl⟩

variable {d : Dict Jx9Value}

/-- An insertion has stored the value under the key. -/
def Stores (d : Dict Jx9Value) (key : Jx9Key) (v : Jx9Value)
    (r : Except Fault (Bool × Dict Jx9Value)) : Prop :=
  ∃ d', r = .ok (true, d') ∧ Counted d' ∧ d'.entries = Jx9Map.store key v d.entries ∧
    d'.isObject = d.isObject

theorem Counted.replace (hd : Counted d) {key : Jx9Key} (hkey : key ∈ d.keys) (v : Jx9Value) :
    Stores d key v (.ok (true, d.replace key v)) := by
  refine ⟨_, rfl, ⟨hd.sound.replace key v, ?_⟩,
    (Jx9Map.store_of_mem hkey hd.sound.distinct v).symm, rfl⟩
  have hsame := Jx9Map.nextIdx_map (f := fun e => if e.1 = key then (e.1, v) else e)
    (fun e => by split <;> rfl) d.entries
  exact hd.next.trans hsame.symm

/-- With memory for a table, there always is a new entry. -/
theorem Dict.add_of_alloc (d : Dict Jx9Value) (key : Jx9Key) (v : Jx9Value) :
    d.add key v true = some (d.append key v) := if_neg (by simp)

theorem setNext_of_ne {n : Int64} (hmax : n ≠ Int64.maxValue) (d : Dict Jx9Value) :
    d.setNext n = .ok { d with next := n + 1 } := by
  refine if_neg fun htop => hmax (Int64.toInt_inj.mp ?_)
  rw [htop]
  rfl

theorem Counted.insertInt (hd : Counted d) {n : Int64} (hmax : n ≠ Int64.maxValue) (v : Jx9Value) :
    Stores d (.int n) v (d.insertInt n v true) := by
  unfold Dict.insertInt
  by_cases hin : .int n ∈ d.keys
  · rw [if_pos hin]
    exact hd.replace hin v
  · have hstore := (Jx9Map.store_of_notMem hin v).symm
    have hnext := Jx9Map.nextIdx_append_int d.entries n v
    rw [if_neg hin, Dict.add_of_alloc]
    dsimp only
    by_cases hle : d.next ≤ n
    · rw [if_pos hle, setNext_of_ne hmax]
      refine ⟨_, rfl, ⟨hd.sound.setNext hin v hle (fun k hk => ?_) (setNext_of_ne hmax _), ?_⟩,
        hstore, rfl⟩
      · rw [Jx9Key.int.inj hk]
        exact Int64.le_refl _
      · rw [hd.next] at hle
        exact ((hnext.trans (if_pos hle))).symm
    · rw [if_neg hle]
      have hsound := hd.sound.append hin v (Int64.le_refl _) fun k hk => by
        rw [← Jx9Key.int.inj hk]
        exact Int64.not_le.mp hle
      refine ⟨_, rfl, ⟨hsound, ?_⟩, hstore, rfl⟩
      rw [hd.next] at hle
      exact hd.next.trans (hnext.trans (if_neg hle)).symm

/-- Insertion under the automatic index. -/
theorem Counted.insertAuto (hd : Counted d) (hmax : d.next ≠ Int64.maxValue) (v : Jx9Value) :
    Stores d (.int (Jx9Map.nextIdx d.entries)) v (d.insertAuto v true) := by
  have hin := hd.sound.next_fresh
  unfold Dict.insertAuto
  rw [Dict.add_of_alloc, ← hd.next]
  dsimp only
  rw [setNext_of_ne hmax]
  refine ⟨_, rfl, ⟨hd.sound.setNext hin v (Int64.le_refl _) (fun k hk => ?_) (setNext_of_ne hmax _),
    ?_⟩, (Jx9Map.store_of_notMem hin v).symm, rfl⟩
  · rw [Jx9Key.int.inj hk]
    exact Int64.le_refl _
  · have hnext := Jx9Map.nextIdx_concat d.entries v
    rw [← hd.next] at hnext
    exact hnext.symm

theorem Counted.insertBlob (hd : Counted d) (b : Bytes) (v : Jx9Value) :
    Stores d (.blob b) v (.ok (d.insertBlob b v true)) := by
  unfold Dict.insertBlob
  by_cases hin : .blob b ∈ d.keys
  · rw [if_pos hin]
    exact hd.replace hin v
  · rw [if_neg hin, Dict.add_of_alloc]
    have hsound := hd.sound.append hin v (Int64.le_refl _) fun k hk => by cases hk
    exact ⟨_, rfl, ⟨hsound, hd.next.trans (Jx9Map.nextIdx_append_blob d.entries b v).symm⟩,
      (Jx9Map.store_of_notMem hin v).symm, rfl⟩

def Fill.value : Fill → Jx9Value
  | .elem v => v
  | .strkey _ v => v

/-- The key under which a call stores its value. -/
def Fill.key (entries : Jx9Map.Entries) : Fill → Jx9Key
  | .elem _ => .int (Jx9Map.nextIdx entries)
  | .strkey k _ => if k = [] then .int (Jx9Map.nextIdx entries) else jx9Key k

/-- What an insertion that stores a value returns and leaves. -/
theorem Stores.inserted {key : Jx9Key} {v : Jx9Value} {r : Except Fault (Bool × Dict Jx9Value)}
    (h : Stores d key v r) :
    ∃ d', r.map (fun r => ((.inserted r.1 : Result Jx9Value), r.2)) = .ok (.inserted true, d') ∧
      Counted d' ∧ d'.value = .hashmap d.isObject (Jx9Map.store key v d.entries) := by
  obtain ⟨d', rfl, hd', hentries, hobject⟩ := h
  refine ⟨d', rfl, hd', ?_⟩
  rw [Dict.value, hentries, hobject]

theorem Counted.flagged (hd : Counted d) (isObject : Bool) :
    Counted { d with isObject := isObject } :=
  ⟨⟨hd.sound.distinct, hd.sound.below, hd.sound.cursor⟩, hd.next⟩

/-- A call that fills a map does to the dictionary what it does to the value of the converters. -/
theorem Counted.fill (hd : Counted d) {f : Fill}
    (hmax : f.key d.entries ≠ .int Int64.maxValue) :
    ∃ d', d.step f.call = .ok (.inserted true, d') ∧ Counted d' ∧ d'.value = f.apply d.value := by
  have hauto (hne : Jx9Key.int (Jx9Map.nextIdx d.entries) ≠ .int Int64.maxValue) (v : Jx9Value) :=
    (hd.insertAuto (fun h => hne (by rw [← hd.next, h])) v).inserted
  cases f with
  | elem v => exact hauto hmax v
  | strkey k v =>
      have hmax : (if k = [] then .int (Jx9Map.nextIdx d.entries) else jx9Key k) ≠
        Jx9Key.int Int64.maxValue := hmax
      show ∃ d', d.step (.insert (if k = [] then .auto else .string k) (some v) true) = _ ∧ _
      -- an empty key counts as none
      by_cases hk : k = []
      · rw [if_pos hk] at hmax
        obtain ⟨d', hstep, hd', hvalue⟩ := hauto hmax v
        refine ⟨d', ?_, hd', hvalue.trans ?_⟩
        · rw [if_pos hk]
          exact hstep
        · rw [hk]
          show _ = Jx9Value.hashmap (d.isObject || (d.entries.isEmpty && false)) _
          rw [Bool.and_false, Bool.or_false]
          rfl
      · rw [if_neg hk, jx9Key] at hmax
        have hflag := hd.flagged (d.isObject || d.entries = [])
        have happly : Fill.apply d.value (.strkey k v) = .hashmap (d.isObject || d.entries = [])
            (Jx9Map.store (jx9Key k) v d.entries) := by
          show Jx9Value.hashmap _ _ = _
          rw [Jx9Map.insertString_of_ne_nil hk]
          congr 2
          cases k with
          | nil => exact absurd rfl hk
          | cons b rest => cases d.entries <;> rfl
        rw [if_neg hk, happly, jx9Key]
        show ∃ d', (({ d with isObject := d.isObject || d.entries = [] } : Dict _).insertString k v
          true).map _ = _ ∧ _
        unfold Dict.insertString
        rw [if_neg hk]
        by_cases hint : hashmapIsIntKey k = true
        · rw [if_pos hint] at hmax ⊢
          rw [if_pos hint]
          exact (hflag.insertInt (fun h => hmax (by rw [h])) v).inserted
        · rw [if_neg hint, if_neg hint]
          exact (hflag.insertBlob k v).inserted

/-! ## Keys -/

theorem mem_keys_store {key k : Jx9Key} {v : Jx9Value} {entries : Jx9Map.Entries} :
    k ∈ (Jx9Map.store key v entries).map Prod.fst ↔ k = key ∨ k ∈ entries.map Prod.fst := by
  induction entries with
  | nil => simp [Jx9Map.store]
  | cons e rest ih =>
      rw [Jx9Map.store]
      by_cases hkey : e.1 = key
      · rw [if_pos hkey]
        simp [hkey]
      · rw [if_neg hkey, List.map_cons, List.map_cons, List.mem_cons, List.mem_cons, ih]
        exact or_left_comm

theorem keys_apply (f : Fill) (isObject : Bool) (entries : Jx9Map.Entries) :
    (f.apply (.hashmap isObject entries)).keys =
      (Jx9Map.store (f.key entries) f.value entries).map Prod.fst := by
  cases f with
  | elem v => rfl
  | strkey k v =>
      show (Jx9Map.insertString k v entries).map Prod.fst =
        (Jx9Map.store (if k = [] then .int (Jx9Map.nextIdx entries) else jx9Key k) v
          entries).map Prod.fst
      by_cases hk : k = []
      · rw [if_pos hk, Jx9Map.insertString, if_pos hk]
      · rw [if_neg hk, Jx9Map.insertString_of_ne_nil hk]

/-- The key of a call is there when it has been made, and so are the keys before it. -/
theorem mem_keys_apply {f : Fill} {value : Jx9Value} {key : Jx9Key} (h : key ∈ value.keys) :
    key ∈ (f.apply value).keys := by
  cases value with
  | hashmap isObject entries =>
      rw [keys_apply, mem_keys_store]
      exact Or.inr h
  | _ => cases h

theorem mem_keys_foldl {fills : List Fill} {value : Jx9Value} {key : Jx9Key}
    (h : key ∈ value.keys) : key ∈ (fills.foldl Fill.apply value).keys := by
  induction fills generalizing value with
  | nil => exact h
  | cons f fills ih => exact ih (mem_keys_apply h)

/-! ## Runs -/

/-- A map is filled and walked through. -/
def fillAndWalk (m : Nat) (fills : List Fill) : List (Nat × Call Jx9Value) :=
  fills.map (fun f => (m, f.call)) ++ [(m, .walk)]

theorem length_fillAndWalk (m : Nat) (fills : List Fill) :
    (fillAndWalk m fills).length = fills.length + 1 := by
  simp [fillAndWalk]

/-- Calls that fill a map, unless one of them would need an automatic index past the largest
integer. -/
theorem Counted.fills {ds : Nat → Dict Jx9Value} {m : Nat} {fills : List Fill}
    (hd : Counted (ds m))
    (hmax : .int Int64.maxValue ∉ (fills.foldl Fill.apply (ds m).value).keys) :
    ∃ d', runDicts (fillAndWalk m fills) ds =
        .ok (List.replicate fills.length (.inserted true) ++ [.entries d'.entries],
          Function.update ds m d') ∧
      d'.value = fills.foldl Fill.apply (ds m).value := by
  induction fills generalizing ds with
  | nil => exact ⟨ds m, rfl, rfl⟩
  | cons f fills ih =>
      have hkey : f.key (ds m).entries ∈ (f.apply (ds m).value).keys := by
        rw [Dict.value, keys_apply, mem_keys_store]
        exact Or.inl rfl
      have hmax : .int Int64.maxValue ∉ (fills.foldl Fill.apply (f.apply (ds m).value)).keys := hmax
      obtain ⟨d₁, hstep, hd₁, hvalue⟩ := hd.fill fun h => hmax (mem_keys_foldl (h ▸ hkey))
      have hself : Function.update ds m d₁ m = d₁ := Function.update_self m d₁ ds
      have hrest := @ih (Function.update ds m d₁)
      simp only [hself, hvalue, Function.update_idem] at hrest
      obtain ⟨d', hrun, hall⟩ := hrest hd₁ hmax
      refine ⟨d', ?_, hall⟩
      show (stepAt ds (m, f.call) >>= fun x => runDicts (fillAndWalk m fills) x.2 >>= fun xs =>
        pure (x.1 :: xs.1, xs.2)) = _
      rw [stepAt, hstep]
      show (runDicts (fillAndWalk m fills) (Function.update ds m d₁) >>= fun xs =>
        pure (Result.inserted true :: xs.1, xs.2)) = _
      rw [hrun]
      rfl

theorem fills_shown {w : Vm Jx9Value} {ds : Nat → Dict Jx9Value} {m : Nat} {fills : List Fill}
    (hw : Shown w ds) (hempty : ds m = Dict.empty) (hroom : Room (fills.length + 1) ds)
    (hmax : .int Int64.maxValue ∉ (fills.foldl Fill.apply .newArray).keys) :
    ∃ w' d', runCalls (fillAndWalk m fills) w =
        (.returned (List.replicate fills.length (.inserted true) ++ [.entries d'.entries]), w') ∧
      d'.value = fills.foldl Fill.apply .newArray ∧ Shown w' (Function.update ds m d') ∧
      LeavesForeign w w' := by
  have hvalue : (ds m).value = .newArray := by
    rw [hempty]
    rfl
  have hd : Counted (ds m) := by
    rw [hempty]
    exact counted_empty
  rw [← hvalue] at hmax ⊢
  obtain ⟨d', hrun, hall⟩ := hd.fills hmax
  have hruns := runCalls_refines (fillAndWalk m fills)
    ((length_fillAndWalk m fills).symm ▸ hroom) w hw
  rw [hrun] at hruns
  obtain ⟨w', hreturned, hshown, hleaves⟩ := hruns
  exact ⟨w', d', hreturned, hall, hshown, hleaves⟩

end Jx9Hash

end Poesie
