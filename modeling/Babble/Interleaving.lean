import Mathlib.Data.List.Count

/-!
# Runs of a step function, and threads that share a state

A run is a fold of a step function over a list of actions. `Guarded` is a condition on
every action, in the state in which it is taken; an invariant that every guarded action
keeps holds after every guarded run (`Guarded.invariant`), and a preorder that every guarded
action respects relates the state before to the state after (`Guarded.rel`).

A `Config` is a shared state with threads, each at some point of its program. An action is
a call, which starts a thread, or one atomic step of one thread. Since a step changes one thread
only, the number of the threads at a point changes by what that thread does
(`countP_set`).
-/

namespace Babble.Interleaving

/-! ## Runs -/

section Runs

variable {σ α : Type} {exec : σ → α → σ} {G : σ → α → Prop}

/-- Every action meets the condition in the state in which it is taken. -/
def Guarded (exec : σ → α → σ) (G : σ → α → Prop) : σ → List α → Prop
  | _, [] => True
  | s, a :: as => G s a ∧ Guarded exec G (exec s a) as

instance Guarded.decidable [∀ s a, Decidable (G s a)] : ∀ s as, Decidable (Guarded exec G s as)
  | _, [] => .isTrue trivial
  | s, a :: as =>
    have : Decidable (Guarded exec G (exec s a) as) := Guarded.decidable _ as
    inferInstanceAs (Decidable (_ ∧ _))

theorem guarded_append {s : σ} {as bs : List α} :
    Guarded exec G s (as ++ bs) ↔ Guarded exec G s as ∧ Guarded exec G (as.foldl exec s) bs := by
  induction as generalizing s with
  | nil => simp [Guarded]
  | cons a as ih => simp only [List.cons_append, Guarded, ih, List.foldl_cons, and_assoc]

theorem Guarded.invariant {I : σ → Prop} (hstep : ∀ s a, I s → G s a → I (exec s a)) {s : σ}
    {as : List α} (h : Guarded exec G s as) (h0 : I s) : I (as.foldl exec s) := by
  induction as generalizing s with
  | nil => exact h0
  | cons a as ih => exact ih h.2 (hstep s a h0 h.1)

theorem Guarded.rel {I : σ → Prop} {R : σ → σ → Prop} (hrefl : ∀ s, R s s)
    (htrans : ∀ s t u, R s t → R t u → R s u)
    (hstep : ∀ s a, I s → G s a → I (exec s a) ∧ R s (exec s a)) {s : σ} {as : List α}
    (h : Guarded exec G s as) (h0 : I s) : R s (as.foldl exec s) := by
  induction as generalizing s with
  | nil => exact hrefl s
  | cons a as ih =>
    obtain ⟨hI, hR⟩ := hstep s a h0 h.1
    exact htrans _ _ _ hR (ih h.2 hI)

end Runs

/-! ## Threads -/

section Threads

variable {κ τ σ α : Type} {start : κ → τ} {step : α → τ → σ → Option (τ × σ)}

/-- A shared state with the threads that work on it. -/
structure Config (τ σ : Type) where
  shared : σ
  threads : List τ
deriving DecidableEq

/-- Call a procedure, or let a thread take a step. -/
inductive Action (κ α : Type)
  | call (k : κ)
  | act (i : ℕ) (a : α)
deriving DecidableEq

/-- One action. A step that the thread cannot take changes nothing. -/
def exec (start : κ → τ) (step : α → τ → σ → Option (τ × σ)) (c : Config τ σ) :
    Action κ α → Config τ σ
  | .call k => { c with threads := c.threads ++ [start k] }
  | .act i a =>
    match c.threads[i]? with
    | none => c
    | some t =>
      match step a t c.shared with
      | none => c
      | some (t', s') => ⟨s', c.threads.set i t'⟩

/-- What an action can do. -/
theorem exec_cases (c : Config τ σ) (a : Action κ α) :
    exec start step c a = c ∨
    (∃ k, a = .call k ∧ exec start step c a = { c with threads := c.threads ++ [start k] }) ∨
    ∃ i o t t' s', a = .act i o ∧ c.threads[i]? = some t ∧ step o t c.shared = some (t', s') ∧
      exec start step c a = ⟨s', c.threads.set i t'⟩ := by
  cases a with
  | call k => exact .inr (.inl ⟨k, rfl, rfl⟩)
  | act i o =>
    cases ht : c.threads[i]? with
    | none => exact .inl (by simp [exec, ht])
    | some t =>
      cases hs : step o t c.shared with
      | none => exact .inl (by simp [exec, ht, hs])
      | some r => exact .inr (.inr ⟨i, o, t, r.1, r.2, rfl, ht, hs, by simp [exec, ht, hs]⟩)

/-- The threads at a point, when one thread moves. -/
theorem countP_set (p : τ → Bool) {l : List τ} {i : ℕ} {t : τ} (t' : τ) (h : l[i]? = some t) :
    (l.set i t').countP p + (if p t then 1 else 0) = l.countP p + if p t' then 1 else 0 := by
  induction l generalizing i with
  | nil => simp at h
  | cons x l ih =>
    cases i with
    | zero =>
      obtain rfl := Option.some.inj h
      simp only [List.set_cons_zero, List.countP_cons]
      omega
    | succ i =>
      have := ih (i := i) (by simpa using h)
      simp only [List.set_cons_succ, List.countP_cons]
      omega

end Threads

end Babble.Interleaving
