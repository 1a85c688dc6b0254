import Mathlib.Data.List.TakeWhile
import Poesie.Install
import Poesie.Jx9Values
import Poesie.Jx9Vm

set_option autoImplicit false

/-! # Installed functions in Jx9

The Jx9 backend keeps the functions that are installed in a map. Each execution fills a fresh VM
from it, under names that the VM trims. A script is started only if the VM takes all of them.
-/

namespace Poesie

open Wire Json Registries Runs

/-! ## Values of a VM -/

mutual

/-- A resource comes back as a binary that is not taken for a view. -/
theorem notView_Jx9ValueToJSON : ∀ v : Jx9Value, (Jx9ValueToJSON v).Every NotView
  | .null => by simp [Jx9ValueToJSON, NotView]
  | .bool b => by simp [Jx9ValueToJSON, NotView]
  | .int n => by simp [Jx9ValueToJSON, NotView]
  | .real x => by simp [Jx9ValueToJSON, NotView]
  | .string s => by simp [Jx9ValueToJSON, NotView]
  | .resource view => by simp [Jx9ValueToJSON, NotView, isMemoryView]
  | .hashmap true entries => by
      rw [Jx9ValueToJSON, every_object]
      exact ⟨trivial, notView_objectWalk entries [] fun p hp => absurd hp List.not_mem_nil⟩
  | .hashmap false entries => by
      rw [Jx9ValueToJSON, every_array]
      exact ⟨trivial, notView_arrayWalk entries⟩

theorem notView_objectWalk : ∀ (entries : List (Jx9Key × Jx9Value)) (members : List (Bytes × Json)),
    (∀ p ∈ members, p.2.Every NotView) → ∀ p ∈ objectWalk entries members, p.2.Every NotView
  | [], _, hmembers => hmembers
  | (_, value) :: rest, members, hmembers => by
      have hvalue := notView_Jx9ValueToJSON value
      refine notView_objectWalk rest _ fun p hp => ?_
      rcases StdMap.mem_assign hp with rfl | hold
      · exact hvalue
      · exact hmembers p hold

theorem notView_arrayWalk : ∀ entries : List (Jx9Key × Jx9Value),
    ∀ j ∈ arrayWalk entries, j.Every NotView
  | [] => fun j hj => absurd hj List.not_mem_nil
  | (_, value) :: rest => by
      have hvalue := notView_Jx9ValueToJSON value
      have hrest := notView_arrayWalk rest
      intro j hj
      rcases List.mem_cons.mp hj with rfl | hj
      · exact hvalue
      · exact hrest j hj

end

/-! ## The registry -/

namespace Jx9Vm

/-- The functions of the VM that the next execution makes. -/
def nextFunctions (s : Jx9State) : Except Bytes Jx9Functions :=
  createFunctions (fun _ => true) s.ffuncs []

/-- The text compiles, the engine has the memory that it is asked for, and no argument is a view. -/
structure Accepted (x : Execution) (s : Jx9State) : Prop where
  compiles : ∃ script, x.answers.compile (s.fullCode x.code) = .ok script
  globalInstalled : x.answers.globalCreated = true ∧ x.answers.globalInstalled = true
  argvInstalled : x.answers.argvCreated = true ∧ x.answers.argvInstalled = true
  functionsCreated : x.answers.functionCreated = fun _ => true
  args : ∀ j ∈ x.args, j.Every NotView

/-- Each script that is accepted is started, with the functions that the VM is filled with. -/
def functions (m : Margo) (env : ViewId → Env) : Functions Jx9State Execution where
  install name holder s := some (install name holder.func holder.expectedArgs s)
  execute x s := some (execute m env x.answers x.code x.args s).2
  starts s := ∀ x, Accepted x s →
    ∃ vm heap, StartsWith m env x s vm heap ∧ nextFunctions s = .ok vm.functions
  sees s name := (nextFunctions s).toOption.bind fun functions => functions.lookup name

/-- A name that is created as it is. -/
def Plain (name : Bytes) : Prop := name ≠ [] ∧ syStringFullTrim (cString name) = name

/-- All names are created as they are, each of them once, and `m_global` has no views. -/
structure Tidy (s : Jx9State) : Prop where
  plain : ∀ f ∈ s.ffuncs, Plain f.1
  nodup : (s.ffuncs.map (·.1)).Nodup
  global : s.global.Every NotView

/-- The name can be created as it is, and is not taken by another function. -/
def Installable (s : Jx9State) (name : Bytes) (holder : FunctionHolder) : Prop :=
  Plain name ∧ ∀ f ∈ s.ffuncs, f.1 = name → f.2 = holder

theorem lookup_cons_eq (k name : Bytes) (v : FunctionHolder) (rest : Jx9Functions) :
    ((k, v) :: rest).lookup name = if name = k then some v else rest.lookup name := by
  rw [List.lookup_cons]
  by_cases h : name = k
  · rw [if_pos h, beq_iff_eq.mpr h]
  · rw [if_neg h, beq_eq_false_iff_ne.mpr h]

/-- A function that is created overwrites one of the same name. -/
theorem lookup_installForeignFunction (name other : Bytes) (holder : FunctionHolder)
    (functions : Jx9Functions) :
    (installForeignFunction name holder functions).lookup other
      = if other = name then some holder else functions.lookup other := by
  induction functions with
  | nil => exact lookup_cons_eq name other holder []
  | cons f rest ih =>
      obtain ⟨name', holder'⟩ := f
      rw [installForeignFunction]
      by_cases hname : name' = name
      · subst hname
        rw [if_pos rfl, lookup_cons_eq, lookup_cons_eq]
        by_cases hother : other = name'
        · rw [if_pos hother, if_pos hother]
        · rw [if_neg hother, if_neg hother, if_neg hother]
      · rw [if_neg hname, lookup_cons_eq, lookup_cons_eq, ih]
        by_cases hother : other = name'
        · subst hother
          rw [if_pos rfl, if_neg hname, if_pos rfl]
        · rw [if_neg hother, if_neg hother]

theorem lookup_of_new {ffuncs : List (Bytes × FunctionHolder)} {name : Bytes}
    (hnew : ∀ f ∈ ffuncs, f.1 ≠ name) : ffuncs.lookup name = none := by
  rw [List.lookup_eq_none_iff]
  intro f hf
  rw [bne_iff_ne]
  exact (hnew f hf).symm

/-- With names that are created as they are, the VM has the entries of the map, before
what it had. -/
theorem createFunctions_of_plain {ffuncs : List (Bytes × FunctionHolder)}
    (hplain : ∀ f ∈ ffuncs, Plain f.1) (hnodup : (ffuncs.map (·.1)).Nodup)
    (before : Jx9Functions) :
    ∃ functions, createFunctions (fun _ => true) ffuncs before = .ok functions ∧
      ∀ name, functions.lookup name = (ffuncs.lookup name).or (before.lookup name) := by
  induction ffuncs generalizing before with
  | nil => exact ⟨before, rfl, fun name => rfl⟩
  | cons f rest ih =>
      obtain ⟨name, holder⟩ := f
      rw [List.map_cons, List.nodup_cons] at hnodup
      obtain ⟨hnonempty, htrim⟩ : Plain name := hplain (name, holder) (by simp)
      obtain ⟨functions, hcreated, hlookup⟩ := ih (fun f hf => hplain f (by simp [hf])) hnodup.2
        (installForeignFunction name holder before)
      refine ⟨functions, ?_, fun other => ?_⟩
      · rw [createFunctions, htrim]
        simp only [hnonempty, decide_false, Bool.not_true, Bool.or_self, Bool.false_eq_true,
          if_false]
        exact hcreated
      · rw [hlookup, lookup_installForeignFunction, lookup_cons_eq]
        by_cases hother : other = name
        · subst hother
          have hrest : rest.lookup other = none :=
            lookup_of_new fun f hf hname => hnodup.1 (List.mem_map.mpr ⟨f, hf, hname⟩)
          simp [hrest]
        · simp [hother]

variable {m : Margo} {env : ViewId → Env}

/-- What has no views is converted. -/
theorem exists_convert (m : Margo) (env : ViewId → Env) {j : Json} (hj : j.Every NotView)
    (created : List ViewId) (heap : Heap) :
    ∃ v created' heap', convert m env (JSONtoJx9Value jx9Api) j created heap =
      (.ok v, created', heap') := by
  have hpure := (convert_eq_build_of_notView hj : (convert m env (JSONtoJx9Value jx9Api) j).Pure _)
    created heap
  rw [build_eq_inside] at hpure
  rcases hconvert : convert m env (JSONtoJx9Value jx9Api) j created heap with ⟨r, created', heap'⟩
  rw [hconvert] at hpure
  obtain rfl : r = .ok (JSONtoJx9ValueInside j) := hpure
  exact ⟨_, created', heap', rfl⟩

/-- A tidy backend starts each script that is accepted. -/
theorem Tidy.starts {s : Jx9State} (hs : Tidy s) : (functions m env).starts s := by
  intro x hx
  obtain ⟨created, hcreated, -⟩ := createFunctions_of_plain hs.plain hs.nodup []
  obtain ⟨global, views, heap, hglobal⟩ := exists_convert m env hs.global [] s.heap
  have hargs : (array (string (text "poesie") :: x.args)).Every NotView := by
    rw [every_array]
    refine ⟨trivial, fun j hj => ?_⟩
    rcases List.mem_cons.mp hj with rfl | hj
    · rw [every_string]
      trivial
    · exact hx.args j hj
  obtain ⟨argv, views', heap', hargv⟩ := exists_convert m env hargs views heap
  have hrunnable : Runnable m env x s :=
    { compiles := hx.compiles
      globalInstalled := hx.globalInstalled
      argvInstalled := hx.argvInstalled
      functionsCreated := ⟨created, by rw [hx.functionsCreated]; exact hcreated⟩
      converts := ⟨global, views, heap, argv, views', heap', hglobal, hargv⟩ }
  obtain ⟨vm, heap'', hstarts⟩ := runnable_iff.mp hrunnable
  refine ⟨vm, heap'', hstarts, ?_⟩
  obtain ⟨_, _, _, -, -, -, -, -, hfunctions⟩ := startsWith_iff.mp hstarts
  rw [hx.functionsCreated] at hfunctions
  exact hfunctions

/-- In a tidy backend a script sees what the map holds. -/
theorem Tidy.sees {s : Jx9State} (hs : Tidy s) (name : Bytes) :
    (functions m env).sees s name = s.ffuncs.lookup name := by
  obtain ⟨created, hcreated, hlookup⟩ := createFunctions_of_plain hs.plain hs.nodup []
  have hnext : nextFunctions s = .ok created := hcreated
  show (nextFunctions s).toOption.bind (fun functions => functions.lookup name) = _
  rw [hnext]
  show created.lookup name = _
  rw [hlookup, List.lookup_nil, Option.or_none]

/-- An execution leaves the map alone, and keeps in `m_global` what comes from a VM. -/
theorem execute_keeps (m : Margo) (env : ViewId → Env) (answers : Jx9Answers) (code : Bytes)
    (args : List Json) (s : Jx9State) :
    (execute m env answers code args s).2.ffuncs = s.ffuncs ∧
      (s.global.Every NotView →
        (execute m env answers code args s).2.global.Every NotView) := by
  unfold execute
  rcases (prepare m env answers code args s).run [] s.heap with ⟨prepared, created, heap⟩
  cases prepared with
  | error fault => exact ⟨rfl, id⟩
  | ok prepared =>
      cases prepared with
      | error message => exact ⟨rfl, id⟩
      | ok vm =>
          show (finish s vm heap).2.ffuncs = s.ffuncs ∧
            (_ → (finish s vm heap).2.global.Every NotView)
          unfold finish
          split
          · exact ⟨rfl, id⟩
          · exact ⟨rfl, id⟩
          · exact ⟨rfl, id⟩
          · exact ⟨rfl, fun _ => notView_Jx9ValueToJSON _⟩
          · exact ⟨rfl, fun _ => by simp [NotView]⟩

/-- A name that is taken keeps its entry. -/
theorem insert_of_mem {ffuncs : List (Bytes × FunctionHolder)} {f : Bytes × FunctionHolder}
    (hf : f ∈ ffuncs) (holder : FunctionHolder) : insert f.1 holder ffuncs = ffuncs := by
  have hany : (ffuncs.any fun f' => f'.1 == f.1) = true :=
    List.any_eq_true.mpr ⟨f, hf, beq_self_eq_true f.1⟩
  rw [insert, if_pos hany]

theorem insert_of_new {ffuncs : List (Bytes × FunctionHolder)} {name : Bytes}
    (hnew : ∀ f ∈ ffuncs, f.1 ≠ name) (holder : FunctionHolder) :
    insert name holder ffuncs = ffuncs ++ [(name, holder)] := by
  have hany : ¬ (ffuncs.any fun f => f.1 == name) = true := by
    intro h
    obtain ⟨f, hf, hname⟩ := List.any_eq_true.mp h
    exact hnew f hf (beq_iff_eq.mp hname)
  rw [insert, if_neg hany]

/-- An entry that is there for a name is the one that is found. -/
theorem lookup_of_taken {s : Jx9State} {name : Bytes} {holder : FunctionHolder}
    (h : Installable s name holder) {f : Bytes × FunctionHolder} (hf : f ∈ s.ffuncs)
    (hname : f.1 = name) : s.ffuncs.lookup name = some holder := by
  cases hlookup : s.ffuncs.lookup name with
  | none =>
      have hne := List.lookup_eq_none_iff.mp hlookup f hf
      rw [hname, bne_self_eq_false] at hne
      cases hne
  | some found =>
      obtain ⟨before, after, hsplit, -⟩ := List.lookup_eq_some_iff.mp hlookup
      have hmem : (name, found) ∈ s.ffuncs := by
        rw [hsplit]
        simp
      exact congrArg some (h.2 (name, found) hmem rfl)

/-- Under its condition a name gets its function, and no other name is touched. -/
theorem lookup_insert {s : Jx9State} {name : Bytes} {holder : FunctionHolder}
    (h : Installable s name holder) (other : Bytes) :
    (insert name holder s.ffuncs).lookup other
      = if other = name then some holder else s.ffuncs.lookup other := by
  by_cases htaken : ∃ f ∈ s.ffuncs, f.1 = name
  · obtain ⟨f, hf, rfl⟩ := htaken
    rw [insert_of_mem hf]
    by_cases hother : other = f.1
    · rw [if_pos hother, hother, lookup_of_taken h hf rfl]
    · rw [if_neg hother]
  · have hnew : ∀ f ∈ s.ffuncs, f.1 ≠ name := fun f hf hname => htaken ⟨f, hf, hname⟩
    rw [insert_of_new hnew, List.lookup_append, lookup_cons_eq, List.lookup_nil]
    by_cases hother : other = name
    · rw [hother, lookup_of_new hnew, if_pos rfl, Option.none_or]
    · rw [if_neg hother, if_neg hother, Option.or_none]

theorem Tidy.install {s : Jx9State} (hs : Tidy s) {name : Bytes} {holder : FunctionHolder}
    (h : Installable s name holder) :
    Tidy (install name holder.func holder.expectedArgs s) := by
  have hffuncs : (Jx9Vm.install name holder.func holder.expectedArgs s).ffuncs
      = insert name holder s.ffuncs := rfl
  by_cases htaken : ∃ f ∈ s.ffuncs, f.1 = name
  · obtain ⟨f, hf, rfl⟩ := htaken
    rw [insert_of_mem hf] at hffuncs
    refine ⟨?_, ?_, hs.global⟩
    · rw [hffuncs]
      exact hs.plain
    · rw [hffuncs]
      exact hs.nodup
  · have hnew : ∀ f ∈ s.ffuncs, f.1 ≠ name := fun f hf hname => htaken ⟨f, hf, hname⟩
    rw [insert_of_new hnew] at hffuncs
    refine ⟨?_, ?_, hs.global⟩
    · rw [hffuncs]
      intro f hf
      rcases List.mem_append.mp hf with hf | hf
      · exact hs.plain f hf
      · rw [List.mem_singleton.mp hf]
        exact h.1
    · rw [hffuncs, List.map_append]
      apply hs.nodup.append (List.nodup_singleton name)
      intro other hother hlast
      obtain ⟨f, hf, rfl⟩ := List.mem_map.mp hother
      exact hnew f hf (List.mem_singleton.mp hlast)

theorem rules (m : Margo) (env : ViewId → Env) : Rules (functions m env) Tidy (fun _ => True)
    (fun s name holder => s.ffuncs.lookup name = some holder) Installable fun _ _ => True where
  starts hs := hs.starts
  sees {s name holder} hs hname := (hs.sees name).trans hname
  named _ := trivial
  install {s name holder} hs hname := by
    refine ⟨_, rfl, hs.install hname, (lookup_insert hname name).trans (if_pos rfl), ?_⟩
    intro other w _ hother hw
    exact (lookup_insert hname other).trans ((if_neg hother).trans hw)
  execute {s} x hs _ := by
    obtain ⟨hffuncs, hglobal⟩ := execute_keeps m env x.answers x.code x.args s
    refine ⟨_, rfl, ?_, ?_, hglobal hs.global⟩
    · rw [hffuncs]
      exact hs.plain
    · rw [hffuncs]
      exact hs.nodup

/-- Scripts cannot change which functions a VM is filled with. -/
theorem leaves (m : Margo) (env : ViewId → Env) (latest : Bytes → Option FunctionHolder)
    (s : Jx9State) (x : Execution) : Leaves (functions m env)
      (fun s name holder => s.ffuncs.lookup name = some holder) latest s x := by
  rintro name holder - hname s' hs'
  cases hs'
  rw [(execute_keeps m env x.answers x.code x.args s).1]
  exact hname

end Jx9Vm

end Poesie
