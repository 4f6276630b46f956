import Babble.Interleaving
import Mathlib.Data.Int.Order.Basic
import Mathlib.Data.Nat.Basic

/-!
# The limit on goroutines

`Manager.GoFunc` reads a counter and launches a goroutine if the counter is below `WGLIMIT`.
The caller increments the counter before it launches; the goroutine decrements it as its
first step, before it runs its function. So the counter has the goroutines that are launched
and did not take their first step yet (`Counted`), and says nothing on the functions that
run : one caller can launch any number of functions that never return
(`exists_launched_eq`).

If at most `k` functions run whenever `GoFunc` reads the counter, then at most `WGLIMIT + k`
are launched at any time (`launched_le_of_calm`), so that the limit is kept if none runs.
The wait group is decremented when a function returns, and `WaitRoutines` waits for all of
them (`returned_of_wg_eq_zero`).
-/

namespace Babble.Node

open Interleaving

/-! ## The manager -/

/-- The maximum number of goroutines. -/
def wgLimit : ℤ := 20

/-- The next step of the caller of `GoFunc`. -/
inductive GoFuncPc
  | idle
  | load
  | wgAdd
  | increment
  | launch
deriving DecidableEq, Repr

/-- The next step of a goroutine : the decrement of the counter, the start of its function,
the end of it, and `wg.Done`. -/
inductive RoutinePc
  | decrement
  | start
  | finish
  | done
  | returned
deriving DecidableEq, Repr

/-- The counters, the caller of `GoFunc`, and the goroutines that it launched. -/
structure Manager where
  wg : ℤ := 0
  wgCount : ℤ := 0
  caller : GoFuncPc := .idle
  routines : List RoutinePc := []
deriving DecidableEq, Repr

/-- A call of `GoFunc`, a step of its caller, or a step of a goroutine. -/
inductive ManagerAction
  | goFunc
  | caller
  | routine (i : ℕ)
deriving DecidableEq, Repr

/-- A step of `GoFunc`. -/
def Manager.callerStep (m : Manager) : Manager :=
  match m.caller with
  | .idle => m
  | .load => { m with caller := if m.wgCount < wgLimit then .wgAdd else .idle }
  | .wgAdd => { m with wg := m.wg + 1, caller := .increment }
  | .increment => { m with wgCount := m.wgCount + 1, caller := .launch }
  | .launch => { m with routines := m.routines ++ [.decrement], caller := .idle }

/-- A step of a goroutine. -/
def Manager.routineStep (m : Manager) (i : ℕ) : Manager :=
  match m.routines[i]? with
  | none => m
  | some .decrement => { m with wgCount := m.wgCount - 1, routines := m.routines.set i .start }
  | some .start => { m with routines := m.routines.set i .finish }
  | some .finish => { m with routines := m.routines.set i .done }
  | some .done => { m with wg := m.wg - 1, routines := m.routines.set i .returned }
  | some .returned => m

/-- One step. A call waits until the one before it has returned. -/
def Manager.step (m : Manager) : ManagerAction → Manager
  | .goFunc => if m.caller = .idle then { m with caller := .load } else m
  | .caller => m.callerStep
  | .routine i => m.routineStep i

/-- A run of a new manager. -/
def Manager.run (actions : List ManagerAction) : Manager :=
  actions.foldl step {}

/-! ## Functions -/

/-- The function has started or is due to start, and has not returned. -/
def RoutinePc.launched : RoutinePc → Bool
  | .decrement | .start | .finish => true
  | .done | .returned => false

/-- The function is started next or runs : the goroutine is off the counter. -/
def RoutinePc.running : RoutinePc → Bool
  | .start | .finish => true
  | .decrement | .done | .returned => false

namespace Manager

/-- The number of functions that have started or are due to start, and have not returned. -/
def launched (m : Manager) : ℕ :=
  m.routines.countP RoutinePc.launched

/-- The number of functions that are off the counter and have not returned. -/
def running (m : Manager) : ℕ :=
  m.routines.countP RoutinePc.running

/-- The number of goroutines before their first step. -/
def waiting (m : Manager) : ℕ :=
  m.routines.countP (· = .decrement)

theorem launched_eq (m : Manager) : m.launched = m.waiting + m.running := by
  unfold launched waiting running
  induction m.routines with
  | nil => rfl
  | cons t l ih =>
    simp only [List.countP_cons, ih]
    cases t <;> simp [RoutinePc.launched, RoutinePc.running] <;> omega

/-! ## What a step does -/

/-- The goroutines that the caller has entered in the counter and not launched yet. -/
def counting (m : Manager) : ℕ :=
  if m.caller = .launch then 1 else 0

/-- The goroutines that the caller is about to launch. -/
def launching (m : Manager) : ℕ :=
  if m.caller = .wgAdd ∨ m.caller = .increment ∨ m.caller = .launch then 1 else 0

/-- The effect of a step on the counter, the caller and the functions. -/
inductive Effect (a : ManagerAction) (m m' : Manager) : Prop
  | quiet (hcount : m'.wgCount = m.wgCount) (hwait : m'.waiting = m.waiting)
      (hrun : m'.running ≤ m.running) (hcounting : m'.counting = m.counting)
      (hlaunching : m'.launching ≤ m.launching)
  | load (ha : a = .caller) (hcaller : m.caller = .load) (hlt : m.wgCount < wgLimit)
      (hcount : m'.wgCount = m.wgCount) (hwait : m'.waiting = m.waiting)
      (hrun : m'.running = m.running) (hcounting : m.counting = 0 ∧ m'.counting = 0)
      (hlaunching : m.launching = 0 ∧ m'.launching = 1)
  | increment (hcount : m'.wgCount = m.wgCount + 1) (hwait : m'.waiting = m.waiting)
      (hrun : m'.running = m.running) (hcounting : m.counting = 0 ∧ m'.counting = 1)
      (hlaunching : m.launching = 1 ∧ m'.launching = 1)
  | launch (hcount : m'.wgCount = m.wgCount) (hwait : m'.waiting = m.waiting + 1)
      (hrun : m'.running = m.running) (hcounting : m.counting = 1 ∧ m'.counting = 0)
      (hlaunching : m.launching = 1 ∧ m'.launching = 0)
  | decrement (hcount : m'.wgCount = m.wgCount - 1) (hwait : m'.waiting + 1 = m.waiting)
      (hrun : m'.running = m.running + 1) (hcounting : m'.counting = m.counting)
      (hlaunching : m'.launching = m.launching)

theorem Effect.refl (a : ManagerAction) (m : Manager) : Effect a m m :=
  .quiet rfl rfl le_rfl rfl le_rfl

theorem effect_callerStep (m : Manager) : Effect .caller m m.callerStep := by
  unfold callerStep
  cases hpc : m.caller with
  | idle => exact .refl _ m
  | load =>
    by_cases hlt : m.wgCount < wgLimit
    · refine .load rfl hpc hlt rfl rfl rfl ?_ ?_ <;> simp [counting, launching, hpc, hlt]
    · refine .quiet rfl rfl le_rfl ?_ ?_ <;> simp [counting, launching, hpc, hlt]
  | wgAdd => refine .quiet rfl rfl le_rfl ?_ ?_ <;> simp [counting, launching, hpc]
  | increment => refine .increment rfl rfl rfl ?_ ?_ <;> simp [counting, launching, hpc]
  | launch =>
    refine .launch rfl ?_ ?_ ?_ ?_
    · simp [waiting]
    · simp [running, RoutinePc.running]
    · simp [counting, hpc]
    · simp [launching, hpc]

theorem effect_routineStep (m : Manager) (i : ℕ) : Effect (.routine i) m (m.routineStep i) := by
  unfold routineStep
  cases ht : m.routines[i]? with
  | none => exact .refl _ m
  | some t =>
    -- one goroutine moves, the others stay where they are
    have hwait := fun t' : RoutinePc => countP_set (fun t => decide (t = .decrement)) t' ht
    have hrun := fun t' : RoutinePc => countP_set RoutinePc.running t' ht
    cases t with
    | decrement =>
      refine .decrement rfl ?_ ?_ rfl rfl
      · simpa [waiting] using hwait .start
      · simpa [running, RoutinePc.running] using hrun .start
    | start =>
      refine .quiet rfl ?_ (le_of_eq ?_) rfl le_rfl
      · simpa [waiting] using hwait .finish
      · simpa [running, RoutinePc.running] using hrun .finish
    | finish =>
      refine .quiet rfl ?_ (Nat.le_of_succ_le (le_of_eq ?_)) rfl le_rfl
      · simpa [waiting] using hwait .done
      · simpa [running, RoutinePc.running] using hrun .done
    | done =>
      refine .quiet rfl ?_ (le_of_eq ?_) rfl le_rfl
      · simpa [waiting] using hwait .returned
      · simpa [running, RoutinePc.running] using hrun .returned
    | returned => exact .refl _ m

/-- Every step has one of the effects. -/
theorem effect_step (m : Manager) (a : ManagerAction) : Effect a m (m.step a) := by
  cases a with
  | goFunc =>
    by_cases hidle : m.caller = .idle
    · refine .quiet ?_ ?_ (le_of_eq ?_) ?_ (le_of_eq ?_) <;>
        simp [step, waiting, running, counting, launching, hidle]
    · rw [step, if_neg hidle]
      exact .refl _ m
  | caller => exact effect_callerStep m
  | routine i => exact effect_routineStep m i

/-! ## The counter -/

/-- The counter has the goroutines before their first step, and there is room for the one
that the caller is about to enter. -/
structure Counted (m : Manager) : Prop where
  wgCount : m.wgCount = m.waiting + m.counting
  le : m.wgCount + m.launching ≤ wgLimit + m.counting

theorem Effect.counted {a : ManagerAction} {m m' : Manager} (he : Effect a m m') (h : Counted m) : Counted m' := by
  obtain ⟨hcount, hle⟩ := h
  cases he <;> exact ⟨by omega, by omega⟩

/-- The counter stays within its 32 bits. -/
theorem Counted.mem_Icc {m : Manager} (h : Counted m) : 0 ≤ m.wgCount ∧ m.wgCount ≤ wgLimit := by
  have hle : m.counting ≤ m.launching := by
    unfold counting launching
    split_ifs <;> simp_all
  obtain ⟨hcount, hroom⟩ := h
  omega

theorem counted_run (actions : List ManagerAction) : Counted (run actions) :=
  List.foldlRecOn actions step (motive := Counted) ⟨rfl, by decide⟩
    fun m h a _ => (effect_step m a).counted h

/-! ## The limit -/

/-- At most `k` functions run when `GoFunc` reads the counter. -/
def Calm (k : ℕ) (m : Manager) (a : ManagerAction) : Prop :=
  a = .caller → m.caller = .load → m.running ≤ k

instance (k : ℕ) (m : Manager) (a : ManagerAction) : Decidable (Calm k m a) :=
  inferInstanceAs (Decidable (_ → _ → _))

/-- The functions with the one that is about to be launched. -/
def Bounded (k : ℕ) (m : Manager) : Prop :=
  (m.launched + m.launching : ℤ) ≤ wgLimit + k

theorem Effect.bounded {k : ℕ} {a : ManagerAction} {m m' : Manager} (he : Effect a m m')
    (hc : Counted m) (hcalm : Calm k m a) (h : Bounded k m) : Bounded k m' := by
  have hcount := hc.wgCount
  unfold Bounded at h ⊢
  rw [launched_eq] at h ⊢
  cases he with
  | load ha hcaller =>
    -- the counter is the number of waiting goroutines, below the limit
    have := hcalm ha hcaller
    omega
  | quiet | increment | launch | decrement => omega

/-- If at most `k` functions run whenever `GoFunc` reads the counter, then at most
`WGLIMIT + k` functions have started or are due to start, and have not returned. With no
function running this is the limit. -/
theorem launched_le_of_calm (k : ℕ) (actions : List ManagerAction)
    (h : Guarded step (Calm k) {} actions) : ((run actions).launched : ℤ) ≤ wgLimit + k := by
  have hinv : Counted (run actions) ∧ Bounded k (run actions) := by
    refine h.invariant (I := fun m => Counted m ∧ Bounded k m) ?_ ⟨⟨rfl, by decide⟩, ?_⟩
    · intro m a hm hcalm
      have he := effect_step m a
      exact ⟨he.counted hm.1, he.bounded hm.1 hcalm hm.2⟩
    · show (0 : ℤ) ≤ wgLimit + k
      simp only [wgLimit]
      omega
  have hb := hinv.2
  unfold Bounded at hb
  omega

theorem launched_le_launchNext :
    Guarded step (Calm 0) {} [.goFunc, .caller, .caller, .caller, .caller, .goFunc, .caller] ∧
      ((run [.goFunc, .caller, .caller, .caller, .caller, .goFunc, .caller]).launched : ℤ) ≤
        wgLimit + (0 : ℕ) :=
  ⟨by decide, launched_le_of_calm 0 _ (by decide)⟩

/-- A call of `GoFunc` whose goroutine, the `i`-th, runs its function before the next call. -/
def launchNext (i : ℕ) : List ManagerAction :=
  [.goFunc, .caller, .caller, .caller, .caller, .routine i, .routine i]

theorem foldl_launchNext (n : ℕ) :
    (launchNext n).foldl step ⟨n, 0, .idle, List.replicate n .finish⟩ =
      ⟨(n + 1 : ℕ), 0, .idle, List.replicate (n + 1) .finish⟩ := by
  have hlt : (0 : ℤ) < wgLimit := by decide
  simp [launchNext, step, callerStep, routineStep, hlt, List.replicate_succ']

/-- Without the condition there is no limit. -/
theorem exists_launched_eq (n : ℕ) : ∃ actions, (run actions).launched = n := by
  have hrun : ∀ n : ℕ, ∃ actions, run actions = ⟨n, 0, .idle, List.replicate n .finish⟩ := by
    intro n
    induction n with
    | zero => exact ⟨[], rfl⟩
    | succ n ih =>
      obtain ⟨actions, h⟩ := ih
      refine ⟨actions ++ launchNext n, ?_⟩
      rw [run, List.foldl_append, ← run, h, foldl_launchNext]
  obtain ⟨actions, h⟩ := hrun n
  exact ⟨actions, by simp [h, launched, List.countP_replicate, RoutinePc.launched]⟩

/-- Twenty-one calls in a row, for functions that do not return. -/
theorem launched_over_limit :
    ¬ ((run ((List.range 21).flatMap launchNext)).launched : ℤ) ≤ wgLimit := by
  decide +kernel

/-! ## Waiting for the goroutines -/

/-- The goroutines that have not returned. -/
def unreturned (m : Manager) : ℕ :=
  m.routines.countP (· ≠ .returned)

/-- The goroutines that the caller has entered in the wait group and not launched yet. -/
def adding (m : Manager) : ℕ :=
  if m.caller = .increment ∨ m.caller = .launch then 1 else 0

/-- The wait group has the goroutines that have not returned. -/
def Waited (m : Manager) : Prop :=
  m.wg = m.unreturned + m.adding

theorem Waited.callerStep {m : Manager} (h : Waited m) : Waited m.callerStep := by
  unfold Waited at h ⊢
  unfold Manager.callerStep
  cases hpc : m.caller with
  | idle => exact h
  | load => by_cases hlt : m.wgCount < wgLimit <;> simpa [unreturned, adding, hpc, hlt] using h
  | wgAdd | increment | launch => simpa [unreturned, adding, hpc] using h

theorem Waited.routineStep {m : Manager} (h : Waited m) (i : ℕ) : Waited (m.routineStep i) := by
  unfold Manager.routineStep
  cases ht : m.routines[i]? with
  | none => exact h
  | some t =>
    have hset := fun t' : RoutinePc => countP_set (fun t => decide (t ≠ .returned)) t' ht
    unfold Waited unreturned adding at h ⊢
    cases t with
    | decrement => simpa [h, Int.natCast_inj] using (hset .start).symm
    | start => simpa [h, Int.natCast_inj] using (hset .finish).symm
    | finish => simpa [h, Int.natCast_inj] using (hset .done).symm
    | done =>
      have hone := hset .returned
      simp only [ne_eq, reduceCtorEq, not_false_eq_true, decide_true, if_true, not_true_eq_false,
        decide_false, Bool.false_eq_true, if_false, Nat.add_zero] at hone
      simp only [ne_eq] at h ⊢
      omega
    | returned => exact h

theorem waited_run (actions : List ManagerAction) : Waited (run actions) := by
  refine List.foldlRecOn actions step (motive := Waited) rfl fun m h a _ => ?_
  cases a with
  | goFunc =>
    by_cases hidle : m.caller = .idle
    · simpa [step, Waited, unreturned, adding, hidle] using h
    · rw [step, if_neg hidle]
      exact h
  | caller => exact h.callerStep
  | routine i => exact h.routineStep i

/-- When `WaitRoutines` stops waiting, every goroutine has returned. -/
theorem returned_of_wg_eq_zero (actions : List ManagerAction) (h : (run actions).wg = 0) :
    ∀ t ∈ (run actions).routines, t = .returned := by
  have hw := waited_run actions
  unfold Waited at hw
  have hzero : (run actions).unreturned = 0 := by omega
  simpa [unreturned] using hzero

end Manager

end Babble.Node
