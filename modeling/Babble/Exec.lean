import Mathlib.Data.List.Basic

/-!
# Computations with a state and errors

`Exec ε σ α` is a computation over a state `σ` that returns an `α` or fails with an `ε`.
A failure keeps the state it was reached in, as an early return does in an imperative
program.

`Returns m s Q` says that `m`, started in `s`, returns a value without failing, and that
the value and the final state satisfy `Q`. The rules below follow the way a computation
is built : sequencing, a loop over a list with an invariant on the part done (`forM`),
and a filter whose test is itself a computation (`filter`).

`Relates r m` says that whatever `m` returns, `r` holds between the states before and
after, and `Fixes g m` that the part `g` of the state stays the same. `Simulates g m m'`
says that `m'` does to the part `g` of the state what `m` does to the whole.

`Along step P s as` says that every step of the run of `as` from `s` meets the condition `P`.
-/

/-- A computation over `σ` that may fail and then keeps the state. -/
abbrev Exec (ε σ α : Type) := ExceptT ε (StateM σ) α

namespace Exec

variable {ε σ α β : Type}

/-- The result and the final state. -/
def exec (m : Exec ε σ α) (s : σ) : Except ε α × σ :=
  m.run.run s

/-- A result that was computed without the state. -/
def ofExcept (r : Except ε α) : Exec ε σ α :=
  match r with
  | .ok a => pure a
  | .error e => throw e

/-- The value or the error of a computation, as a value. -/
def attempt (m : Exec ε σ α) : Exec ε σ (Except ε α) :=
  ExceptT.mk do return .ok (← m.run)

/-- The elements of a list that pass a test, which is itself a computation. -/
def filter (p : α → Exec ε σ Bool) : List α → Exec ε σ (List α)
  | [] => return []
  | a :: l => do
    let b ← p a
    let rest ← filter p l
    return if b then a :: rest else rest

/-- A sequence of two results has a value only if both have one. -/
theorem except_bind_ok {x : Except ε α} {f : α → Except ε β} {b : β} (h : x >>= f = .ok b) :
    ∃ a, x = .ok a ∧ f a = .ok b := by
  cases x with
  | error err => cases h
  | ok a => exact ⟨a, rfl, h⟩

@[simp] theorem exec_pure (a : α) (s : σ) : exec (pure a : Exec ε σ α) s = (.ok a, s) := rfl

theorem exec_bind (m : Exec ε σ α) (f : α → Exec ε σ β) (s : σ) :
    exec (m >>= f) s =
      match exec m s with
      | (.ok a, s') => exec (f a) s'
      | (.error e, s') => (.error e, s') := by
  simp only [exec, ExceptT.run_bind, StateT.run_bind]
  change (match (ExceptT.run m).run s with | (a, s') => _) = _
  rcases (ExceptT.run m).run s with ⟨_ | a, s'⟩ <;> rfl

@[simp] theorem exec_throw (e : ε) (s : σ) : exec (throw e : Exec ε σ α) s = (.error e, s) := rfl

@[simp] theorem exec_get (s : σ) : exec (get : Exec ε σ σ) s = (.ok s, s) := rfl

@[simp] theorem exec_set (s s' : σ) : exec (set s' : Exec ε σ PUnit) s = (.ok ⟨⟩, s') := rfl

@[simp] theorem exec_modify (f : σ → σ) (s : σ) :
    exec (modify f : Exec ε σ PUnit) s = (.ok ⟨⟩, f s) := rfl

@[simp] theorem exec_attempt (m : Exec ε σ α) (s : σ) :
    exec (attempt m) s = (.ok (exec m s).1, (exec m s).2) := rfl

theorem exec_ofExcept (r : Except ε α) (s : σ) : exec (ofExcept r : Exec ε σ α) s = (r, s) := by
  cases r <;> rfl

/-- A sequence that returns a value has returned one in between. -/
theorem exec_bind_ok {m : Exec ε σ α} {f : α → Exec ε σ β} {s : σ} {b : β}
    (h : (exec (m >>= f) s).1 = .ok b) :
    ∃ a s', exec m s = (.ok a, s') ∧ (exec (f a) s').1 = .ok b := by
  rw [exec_bind] at h
  generalize exec m s = res at h
  obtain ⟨r, s'⟩ := res
  cases r with
  | ok a => exact ⟨a, s', rfl, h⟩
  | error e => cases h

/-! ## Total correctness -/

/-- Started in `s`, the computation returns a value, and `Q` holds at the end. -/
def Returns (m : Exec ε σ α) (s : σ) (Q : α → σ → Prop) : Prop :=
  ∃ a s', exec m s = (.ok a, s') ∧ Q a s'

variable {m : Exec ε σ α} {f : α → Exec ε σ β} {s : σ} {Q Q' : α → σ → Prop}

theorem Returns.mono (h : Returns m s Q) (hQ : ∀ a s', Q a s' → Q' a s') : Returns m s Q' := by
  obtain ⟨a, s', he, hq⟩ := h
  exact ⟨a, s', he, hQ a s' hq⟩

theorem returns_pure {a : α} (h : Q a s) : Returns (pure a : Exec ε σ α) s Q :=
  ⟨a, s, rfl, h⟩

theorem Returns.bind {Q : β → σ → Prop} (h : Returns m s fun a s' => Returns (f a) s' Q) :
    Returns (m >>= f) s Q := by
  obtain ⟨a, s', he, b, s'', he', hq⟩ := h
  exact ⟨b, s'', by rw [exec_bind, he]; exact he', hq⟩

theorem returns_get {Q : σ → σ → Prop} (h : Q s s) : Returns (get : Exec ε σ σ) s Q :=
  ⟨s, s, rfl, h⟩

theorem returns_set {t : σ} {Q : PUnit → σ → Prop} (h : Q ⟨⟩ t) :
    Returns (set t : Exec ε σ PUnit) s Q :=
  ⟨⟨⟩, t, rfl, h⟩

theorem returns_modify {g : σ → σ} {Q : PUnit → σ → Prop} (h : Q ⟨⟩ (g s)) :
    Returns (modify g : Exec ε σ PUnit) s Q :=
  ⟨⟨⟩, g s, rfl, h⟩

theorem returns_ofExcept {r : Except ε α} {a : α} (hr : r = .ok a) (h : Q a s) :
    Returns (ofExcept r : Exec ε σ α) s Q := by
  subst hr
  exact ⟨a, s, rfl, h⟩

theorem returns_attempt {Q : Except ε α → σ → Prop} (h : Returns m s fun a s' => Q (.ok a) s') :
    Returns (attempt m) s Q := by
  obtain ⟨a, s', he, hq⟩ := h
  exact ⟨.ok a, s', by rw [exec_attempt, he], hq⟩

theorem returns_forM_append {l l' : List β} {g : β → Exec ε σ PUnit} {Q : PUnit → σ → Prop}
    (h : Returns (l.forM g) s fun _ s' => Returns (l'.forM g) s' Q) :
    Returns ((l ++ l').forM g) s Q := by
  induction l generalizing s with
  | nil =>
    obtain ⟨_, s', he, hl⟩ := h
    cases he
    exact hl
  | cons b l ih =>
    obtain ⟨a, s', he, hl⟩ := h
    rw [List.forM, exec_bind] at he
    rcases hb : exec (g b) s with ⟨_ | b', s₁⟩
    · rw [hb] at he
      cases he
    · rw [hb] at he
      exact Returns.bind ⟨b', s₁, hb, ih ⟨a, s', he, hl⟩⟩

/-- A loop keeps an invariant that depends on the part of the list already done. -/
theorem returns_forM {l : List β} {g : β → Exec ε σ PUnit} (I : List β → σ → Prop)
    (h0 : I [] s)
    (hstep : ∀ pre b post, l = pre ++ b :: post → ∀ s, I pre s →
      Returns (g b) s fun _ s' => I (pre ++ [b]) s') :
    Returns (l.forM g) s fun _ s' => I l s' := by
  suffices H : ∀ post pre s, l = pre ++ post → I pre s →
      Returns (post.forM g) s fun _ s' => I l s' from H l [] s rfl h0
  intro post
  induction post with
  | nil =>
    intro pre s hl hI
    rw [List.append_nil] at hl
    subst hl
    exact returns_pure hI
  | cons b post ih =>
    intro pre s hl hI
    refine Returns.bind ((hstep pre b post hl s hI).mono fun _ s' hI' => ?_)
    exact ih (pre ++ [b]) s' (by simp [hl]) hI'

/-- A filter whose test keeps an invariant selects the elements by the answers of the
test. -/
theorem returns_filter {l : List β} {p : β → Exec ε σ Bool} (I : σ → Prop)
    (A : β → Bool → Prop) (hl : l.Nodup) (h0 : I s)
    (hp : ∀ b ∈ l, ∀ s, I s → Returns (p b) s fun r s' => I s' ∧ A b r) :
    Returns (filter p l) s fun l' s' =>
      I s' ∧ l'.Sublist l ∧ ∀ b ∈ l, ∃ r, A b r ∧ (b ∈ l' ↔ r = true) := by
  induction l generalizing s with
  | nil => exact returns_pure ⟨h0, List.Sublist.refl _, by simp⟩
  | cons b l ih =>
    obtain ⟨hb, hl⟩ := List.nodup_cons.1 hl
    refine Returns.bind ((hp b List.mem_cons_self s h0).mono fun r s' hr => Returns.bind ?_)
    refine (ih hl hr.1 fun c hc => hp c (List.mem_cons_of_mem b hc)).mono fun rest s'' hrest => ?_
    obtain ⟨hI, hsub, hall⟩ := hrest
    have hbr : b ∉ rest := fun h => hb (hsub.subset h)
    refine returns_pure ⟨hI, ?_, ?_⟩
    · cases r
      exacts [hsub.cons b, hsub.cons_cons b]
    · intro c hc
      rcases List.mem_cons.1 hc with rfl | hc
      · refine ⟨r, hr.2, ?_⟩
        cases r <;> simp [hbr]
      · obtain ⟨r', hA, hr'⟩ := hall c hc
        refine ⟨r', hA, ?_⟩
        have hcb : c ≠ b := fun h => hb (h ▸ hc)
        cases r <;> simp [hcb, hr']

/-! ## What a computation may change -/

/-- The final state is related to the initial one, after a failure too. -/
def Relates (r : σ → σ → Prop) (m : Exec ε σ α) : Prop :=
  ∀ s, r s (exec m s).2

section Relates

variable {r : σ → σ → Prop}

/-- The second computation may use what the first one returns. -/
theorem Relates.bind_of_ok (htrans : ∀ {a b c}, r a b → r b c → r a c) (hm : Relates r m)
    (hf : ∀ a s, (exec m s).1 = .ok a → Relates r (f a)) : Relates r (m >>= f) := by
  intro s
  rw [exec_bind]
  have h := hm s
  have ha := fun a => hf a s
  revert h ha
  rcases exec m s with ⟨_ | a, s'⟩
  · exact fun h _ => h
  · exact fun h ha => htrans h (ha a rfl s')

theorem Relates.bind (htrans : ∀ {a b c}, r a b → r b c → r a c) (hm : Relates r m)
    (hf : ∀ a, Relates r (f a)) : Relates r (m >>= f) :=
  Relates.bind_of_ok htrans hm fun a _ _ => hf a

/-- The first computation may be known in the given state only. -/
theorem Relates.bind_at (htrans : ∀ {a b c}, r a b → r b c → r a c) (hm : r s (exec m s).2)
    (hf : ∀ a, Relates r (f a)) : r s (exec (m >>= f) s).2 := by
  rw [exec_bind]
  revert hm
  rcases exec m s with ⟨_ | a, s'⟩
  · exact id
  · exact fun h => htrans h (hf a s')

theorem relates_of_exec {res : Except ε α} (hrefl : ∀ s, r s s)
    (h : ∀ s, exec m s = (res, s)) : Relates r m := by
  intro s
  rw [h]
  exact hrefl s

theorem relates_modify {g : σ → σ} (h : ∀ s, r s (g s)) :
    Relates r (modify g : Exec ε σ PUnit) :=
  h

theorem relates_forM {l : List β} {k : β → Exec ε σ PUnit} (hrefl : ∀ s, r s s)
    (htrans : ∀ {a b c}, r a b → r b c → r a c) (h : ∀ b, Relates r (k b)) :
    Relates r (l.forM k) := by
  induction l with
  | nil => exact hrefl
  | cons b l ih => exact Relates.bind htrans (h b) fun _ => ih

theorem Relates.attempt (hm : Relates r m) : Relates r (attempt m) :=
  hm

end Relates

/-- The computation leaves the part `g` of the state as it is. -/
def Fixes {τ : Type} (g : σ → τ) (m : Exec ε σ α) : Prop :=
  ∀ s, g (exec m s).2 = g s

section Fixes

variable {τ : Type} {g : σ → τ}

theorem Fixes.bind (hm : Fixes g m) (hf : ∀ a, Fixes g (f a)) : Fixes g (m >>= f) := by
  intro s
  rw [exec_bind]
  have h := hm s
  revert h
  rcases exec m s with ⟨_ | a, s'⟩
  · exact id
  · exact fun h => (hf a s').trans h

theorem fixes_pure (a : α) : Fixes g (pure a : Exec ε σ α) :=
  fun _ => rfl

theorem fixes_throw (e : ε) : Fixes g (throw e : Exec ε σ α) :=
  fun _ => rfl

theorem fixes_get : Fixes g (get : Exec ε σ σ) :=
  fun _ => rfl

theorem fixes_modify {k : σ → σ} (h : ∀ s, g (k s) = g s) :
    Fixes g (modify k : Exec ε σ PUnit) :=
  h

theorem fixes_ofExcept (r : Except ε α) : Fixes g (ofExcept r : Exec ε σ α) := by
  intro s
  cases r <;> rfl

theorem Fixes.attempt (hm : Fixes g m) : Fixes g (attempt m) :=
  hm

theorem fixes_forM {l : List β} {k : β → Exec ε σ PUnit} (h : ∀ b, Fixes g (k b)) :
    Fixes g (l.forM k) := by
  induction l with
  | nil => exact fixes_pure _
  | cons b l ih => exact (h b).bind fun _ => ih

end Fixes

/-! ## Computations over a part of the state -/

/-- Seen through `g`, the first computation does what the second does. -/
def Simulates {τ : Type} (g : σ → τ) (m : Exec ε σ α) (m' : Exec ε τ α) : Prop :=
  ∀ s, exec m' (g s) = ((exec m s).1, g (exec m s).2)

section Simulates

variable {τ : Type} {g : σ → τ} {m' : Exec ε τ α} {f' : α → Exec ε τ β}

theorem Simulates.bind (hm : Simulates g m m') (hf : ∀ a, Simulates g (f a) (f' a)) :
    Simulates g (m >>= f) (m' >>= f') := by
  intro s
  rw [exec_bind, exec_bind, hm s]
  rcases exec m s with ⟨_ | a, s'⟩
  · rfl
  · exact hf a s'

theorem simulates_get_bind {k : σ → Exec ε σ β} {k' : τ → Exec ε τ β}
    (h : ∀ t, Simulates g (k t) (k' (g t))) : Simulates g (get >>= k) (get >>= k') :=
  fun s => h s s

theorem simulates_pure (a : α) : Simulates g (pure a : Exec ε σ α) (pure a) :=
  fun _ => rfl

theorem simulates_modify {k : σ → σ} {k' : τ → τ} (h : ∀ s, k' (g s) = g (k s)) :
    Simulates g (modify k : Exec ε σ PUnit) (modify k') := by
  intro s
  rw [exec_modify, exec_modify, h]

theorem Simulates.attempt (hm : Simulates g m m') : Simulates g (attempt m) (attempt m') := by
  intro s
  rw [exec_attempt, exec_attempt, hm s]

theorem simulates_ofExcept (r : Except ε α) :
    Simulates g (ofExcept r : Exec ε σ α) (ofExcept r) := by
  intro s
  cases r <;> rfl

end Simulates

end Exec

/-! ## Runs -/

section Along

variable {σ α : Type} {step : σ → α → σ} {P : σ → α → Prop}

/-- Every step of a run meets the condition `P`, in the state before it. -/
def Along (step : σ → α → σ) (P : σ → α → Prop) : σ → List α → Prop
  | _, [] => True
  | s, a :: as => P s a ∧ Along step P (step s a) as

instance Along.instDecidable [∀ s a, Decidable (P s a)] :
    ∀ (s : σ) (as : List α), Decidable (Along step P s as)
  | _, [] => isTrue trivial
  | s, a :: as =>
    have : Decidable (Along step P (step s a) as) := Along.instDecidable (step s a) as
    inferInstanceAs (Decidable (P s a ∧ Along step P (step s a) as))

/-- What holds at the start, and is kept by the steps that meet the condition, holds at the
end. -/
theorem Along.foldl {I : σ → Prop} {s : σ} {as : List α} (h : Along step P s as) (h0 : I s)
    (hstep : ∀ s, ∀ a ∈ as, I s → P s a → I (step s a)) : I (as.foldl step s) := by
  induction as generalizing s with
  | nil => exact h0
  | cons a as ih =>
    exact ih h.2 (hstep s a List.mem_cons_self h0 h.1)
      fun s b hb => hstep s b (List.mem_cons_of_mem a hb)

end Along
