import Poesie.JsonSerialize
import Poesie.Traced

set_option autoImplicit false

/-! # How much work decoding is

The counts `loadJSON` loops over come from the message, and its recursion goes back through
the archive. `traceJSON` is `loadJSON` with its loop turns and its calls of itself recorded. It
reads a type byte for every call it makes, so that each kind of step is bounded by the length of
the input, whatever counts are written there.
-/

namespace Poesie

open Wire Json

/-- `loadJSON`, recording the turns of its loops and its calls of itself. -/
def traceJSON (ar : Archive) : Nat → Json → Traced CppException Json
  | 0, _ => Traced.plain Reader.tooDeep
  | fuel + 1, val => do
      let t ← Traced.plain (Reader.prim ar.char)
      match t with
      | 0 => pure val
      | 5 => Traced.plain do
          let v ← Reader.prim ar.int64
          pure (numberInteger v)
      | 6 => Traced.plain do
          let v ← Reader.prim ar.uint64
          pure (numberUnsigned v)
      | 7 => Traced.plain do
          let v ← Reader.prim ar.float64
          pure (numberFloat v)
      | 3 => Traced.plain do
          let v ← readString ar.uint64
          pure (string v)
      | 4 => Traced.plain do
          let v ← Reader.prim ar.boolean
          pure (boolean v)
      | 2 => do
          let s ← Traced.plain (readSize ar.uint64)
          let items ← Traced.loop (fun items => do
            let w ← Traced.step .call (traceJSON ar fuel null)
            pure (items ++ [w])) s []
          pure (array items)
      | 1 => do
          let s ← Traced.plain (readSize ar.uint64)
          let members ← Traced.loop (fun members => do
            let key ← Traced.plain (readString ar.uint64)
            let w ← Traced.step .call (traceJSON ar fuel null)
            pure (StdMap.emplace key w members)) s []
          pure (object members)
      | 8 => Traced.plain do
          let s ← readSize ar.uint64
          let st ← Reader.prim ar.uint64
          let v ← Reader.take s
          pure (binary v (some st))
      | _ => Traced.plain do
          Reader.throw (.poesie (text "Invalid json type found when deserializing"))

/-- Without its steps, it is `loadJSON`. -/
theorem erase_traceJSON (ar : Archive) (fuel : Nat) (val : Json) :
    Traced.erase (traceJSON ar fuel val) = loadJSON ar fuel val := by
  induction fuel generalizing val with
  | zero => rfl
  | succ fuel ih =>
      rw [traceJSON, Traced.erase_bind, Traced.erase_plain, loadJSON]
      congr 1
      funext t
      split
      case h_7 | h_8 =>
        simp only [Traced.erase_bind, Traced.erase_plain, Traced.erase_loop, Traced.erase_step,
          Traced.erase_pure, ih]
      case h_10 =>
        -- no other type byte is left for the second `match` either
        simp_all
      all_goals rfl

/-! ## Paying for the steps -/

section

variable {ar : Archive} {k : Step} {α : Type}

/-- A last step that only builds the result. -/
theorem pays_build {r : Traced CppException α} {β : Type} {g d : Nat} (h : Pays k r g d)
    (f : α → β) : Pays k (r >>= fun a => pure (f a)) g d :=
  Pays.bind h (fun a => Pays.pure (f a)) (Nat.le_refl g) (Nat.le_refl d) (Nat.zero_le _)

/-- The count and the loop of a container. -/
theorem pays_container {body : α → Traced CppException α}
    (h : ∀ s, Pays k (Traced.step .iteration (body s)) 0 1) (f : α → Json) (init : α) :
    Pays k (Traced.plain (readSize ar.uint64) >>= fun n =>
      Traced.loop body n init >>= fun s => pure (f s)) 0 0 :=
  Pays.bind (Pays.plain (Consumes.size ar.uint64) (Nat.le_refl 1))
    (fun n => pays_build (Pays.loop h n init) f) (Nat.zero_le _) (Nat.le_refl 0) (Nat.le_refl 1)

/-- The call in a turn: it gains a byte before it is counted, and the turn is of another kind. -/
theorem pays_turn {r : Traced CppException α} (hloop : k = .iteration → Pays k r 1 0)
    (hcall : k = .call → Pays k r 0 1) : Pays k (Traced.step .iteration r) 0 1 := by
  cases k with
  | iteration => exact Pays.step .iteration (hloop rfl)
  | call => exact Pays.other (by decide) (hcall rfl)

end

/-- A call that returns has read at least one byte more than it took steps of a kind. -/
theorem pays_traceJSON (ar : Archive) (k : Step) (fuel : Nat) (val : Json) :
    Pays k (traceJSON ar fuel val) 1 0 := by
  induction fuel generalizing val with
  | zero =>
      have hdeep : Consumes (Reader.tooDeep : Load Json) 1 := fun bs a rest h => by cases h
      exact Pays.plain hdeep (Nat.le_refl 1)
  | succ fuel ih =>
      -- the spare byte of an element pays for its call, or is left for its turn of the loop
      have hcall : ∀ {α : Type} (f : Json → α), k = .call →
          Pays k (Traced.step .call (traceJSON ar fuel null) >>= fun w => pure (f w)) 0 1 :=
        fun f _ => pays_build (Pays.step .call (ih null)) f
      have hloop : ∀ {α : Type} (f : Json → α), k = .iteration →
          Pays k (Traced.step .call (traceJSON ar fuel null) >>= fun w => pure (f w)) 1 0 := by
        intro α f hk
        subst hk
        exact pays_build (Pays.other (by decide) (ih null)) f
      have hkey : Pays k (Traced.plain (readString ar.uint64 : Load Bytes)) 0 0 :=
        Pays.plain (Consumes.string ar.uint64) (Nat.zero_le 1)
      have hscalar : ∀ {g : Nat} (r : Load Json), Consumes r g → Pays k (Traced.plain r) 0 0 :=
        fun r h => Pays.plain h (Nat.zero_le _)
      have htype : Pays k (Traced.plain (Reader.prim ar.char : Load UInt8)) 1 0 :=
        Pays.plain (Consumes.prim ar.char) (Nat.le_refl 1)
      -- the tag is the spare byte, so that the branches need none of their own
      refine Pays.bind htype (fun t => ?_) (Nat.le_add_right 1 0) (Nat.le_refl 0) (Nat.zero_le 1)
      split
      · exact Pays.pure val
      · exact hscalar _ ((Consumes.prim ar.int64).map _)
      · exact hscalar _ ((Consumes.prim ar.uint64).map _)
      · exact hscalar _ ((Consumes.prim ar.float64).map _)
      · exact hscalar _ ((Consumes.string ar.uint64).map _)
      · exact hscalar _ ((Consumes.prim ar.boolean).map _)
      · refine pays_container (fun items => ?_) array []
        exact pays_turn (hloop fun w => items ++ [w]) (hcall fun w => items ++ [w])
      · refine pays_container (fun members => ?_) object []
        apply pays_turn
        · intro hk
          exact Pays.bind hkey (fun key => hloop (fun w => StdMap.emplace key w members) hk)
            (Nat.le_refl 1) (Nat.le_refl 0) (Nat.le_refl 0)
        · intro hk
          exact Pays.bind hkey (fun key => hcall (fun w => StdMap.emplace key w members) hk)
            (Nat.le_refl 0) (Nat.zero_le 1) (Nat.le_refl 1)
      · refine hscalar (g := 0) _ (Consumes.bind (Consumes.size ar.uint64) (fun s => ?_)
          (Nat.zero_le (1 + 0)))
        exact Consumes.bind (Consumes.prim ar.uint64)
          (fun st => ((Consumes.take s).map _).mono (Nat.zero_le s)) (Nat.zero_le _)
      · have hthrow : ∀ e, Consumes (Reader.throw e : Load Json) 0 :=
          fun e bs a rest h => by cases h
        exact hscalar _ (hthrow _)

/-! ## The bound -/

/-- Of either kind, there are no more steps than bytes, whether decoding succeeds or not. -/
theorem count_traceJSON_le (ar : Archive) (k : Step) (fuel : Nat) (val : Json) (bs : Bytes) :
    (traceJSON ar fuel val bs).2.count k ≤ bs.length := by
  have h := pays_traceJSON ar k fuel val bs
  generalize traceJSON ar fuel val bs = out at h ⊢
  rcases out with ⟨e | ⟨j, rest⟩, steps⟩
  · exact h
  · simp only [paid_ok] at h
    show steps.count k ≤ bs.length
    omega

theorem length_eq_counts (steps : List Step) :
    steps.length = steps.count .iteration + steps.count .call := by
  induction steps with
  | nil => rfl
  | cons s steps ih => cases s <;> simp [ih] <;> omega

/-- **Decoding terminates.** With room for as many nested calls as there are bytes it never
stops for depth: it ends with a value or an exception, after at most as many turns of its loops
as there are bytes, and at most as many recursive calls. -/
theorem loadJSON_terminates (ar : Archive) (val : Json) (bs : Bytes) (more : Nat) :
    (traceJSON ar (bs.length + 1 + more) val bs).1 = loadJSON ar (bs.length + 1 + more) val bs ∧
      loadJSON ar (bs.length + 1 + more) val bs ≠ .error .depth ∧
      (traceJSON ar (bs.length + 1 + more) val bs).2.count .iteration ≤ bs.length ∧
      (traceJSON ar (bs.length + 1 + more) val bs).2.count .call ≤ bs.length ∧
      (traceJSON ar (bs.length + 1 + more) val bs).2.length ≤ 2 * bs.length := by
  have hturns := count_traceJSON_le ar .iteration (bs.length + 1 + more) val bs
  have hcalls := count_traceJSON_le ar .call (bs.length + 1 + more) val bs
  refine ⟨?_, ?_, hturns, hcalls, ?_⟩
  · exact congrFun (erase_traceJSON ar (bs.length + 1 + more) val) bs
  · exact (bounded_loadJSON ar (bs.length + 1 + more) val bs (by omega)).1
  · rw [length_eq_counts]
    omega

/-- An array of ten nulls: nineteen bytes, ten turns and ten calls. -/
theorem traceJSON_ten_nulls :
    ¬ ∀ (val : Json) (bs : Bytes),
      (traceJSON Archive.native (bs.length + 1) val bs).2.length ≤ bs.length := by
  intro h
  have hbad := h null (saveJSON Archive.native (array (List.replicate 10 null)))
  revert hbad
  decide

end Poesie
