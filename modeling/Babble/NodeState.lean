import Babble.Interleaving

/-!
# The state of a node and its channels

A node is in one of six states. The `Run` loop reads the state and runs the matching
routine; `Suspend`, `Leave` and `Shutdown` can be called from other goroutines at any time.
The state is an atomic variable and each channel is closed by a plain `close`; every read,
write and close is one atomic step here. A routine of the loop that takes long (a
fast-forward, a join) writes its target state when it ends, and `Suspend` and `Shutdown`
check the state before they write and close.

`Checked` says of a write that the check of its writer would still pass : `Suspend` finds
the node neither suspended nor shut down, `Shutdown` not shut down, the fast-forward still
catching up and the join still joining. In an interleaving all of whose writes are checked,
a node that is shut down stays so, a suspended one is only ever shut down, and each channel
is closed at most once (`final_of_checked`). The source checks and writes in separate steps
: a join that ends after a shutdown revives the node, and the next shutdown closes the
channel again (`revived_by_join`).
-/

set_option linter.unusedSectionVars false

namespace Babble.Node

open Interleaving

/-! ## States and points of the program -/

/-- The state of a node. -/
inductive State
  | babbling
  | catchingUp
  | joining
  | leaving
  | shutdown
  | suspended
deriving DecidableEq, Repr

/-- The two channels that stop the routines of a node. -/
inductive Channel
  | suspendCh
  | shutdownCh
deriving DecidableEq, Repr

/-- What the goroutines share : the state, and how often each channel was closed. -/
structure Shared where
  state : State
  suspendClosed : ℕ := 0
  shutdownClosed : ℕ := 0
deriving DecidableEq, Repr

/-- Set the state. -/
def Shared.setState (s : Shared) (st : State) : Shared :=
  { s with state := st }

/-- How often a channel was closed. -/
def Shared.closes (s : Shared) : Channel → ℕ
  | .suspendCh => s.suspendClosed
  | .shutdownCh => s.shutdownClosed

/-- Close a channel. -/
def Shared.close (s : Shared) : Channel → Shared
  | .suspendCh => { s with suspendClosed := s.suspendClosed + 1 }
  | .shutdownCh => { s with shutdownClosed := s.shutdownClosed + 1 }

/-- The options that the transitions depend on. -/
structure Config where
  maintenanceMode : Bool := false
  enableFastSync : Bool := false
deriving DecidableEq, Repr

/-- The next step of `Suspend`. -/
inductive SuspendPc
  | firstRead
  | secondRead
  | write
  | close
  | done
deriving DecidableEq, Repr

/-- The next step of `Shutdown`. -/
inductive ShutdownPc
  | read
  | write
  | close
  | done
deriving DecidableEq, Repr

/-- Where the `Run` loop is : before its next read of the state, in one of its routines, in
the `Suspend` that `checkSuspend` calls, or in the `Shutdown` of a rejected join. -/
inductive RunPc
  | loop
  | babble
  | checkSuspend (pc : SuspendPc)
  | fastForward
  | join
  | rejected (pc : ShutdownPc)
  | returned
deriving DecidableEq, Repr

/-- A goroutine. -/
inductive Thread
  | run (pc : RunPc)
  | suspend (pc : SuspendPc)
  | leave
  | shutdown (pc : ShutdownPc)
deriving DecidableEq, Repr

/-- What a step of a routine comes to : a tick after which `checkSuspend` does or does not
suspend, a closed channel, and the results of a fast-forward and of a join. -/
inductive Outcome
  | next
  | tick (suspend : Bool)
  | stopped (ch : Channel)
  | failed
  | fastForwarded
  | accepted
  | refused
deriving DecidableEq, Repr

/-! ## Steps -/

/-- `Suspend`. -/
def SuspendPc.step (s : Shared) : SuspendPc → Option (SuspendPc × Shared)
  | .firstRead => some (if s.state ≠ .suspended then .secondRead else .done, s)
  | .secondRead => some (if s.state ≠ .shutdown then .write else .done, s)
  | .write => some (.close, s.setState .suspended)
  | .close => some (.done, s.close .suspendCh)
  | .done => none

/-- `Shutdown`. -/
def ShutdownPc.step (s : Shared) : ShutdownPc → Option (ShutdownPc × Shared)
  | .read => some (if s.state ≠ .shutdown then .write else .done, s)
  | .write => some (.close, s.setState .shutdown)
  | .close => some (.done, s.close .shutdownCh)
  | .done => none

/-- The state that `setBabblingOrCatchingUpState` sets. -/
def babblingOrCatchingUpState (conf : Config) : State :=
  if conf.enableFastSync then .catchingUp else .babbling

/-- `Run`. The routine that the loop enters is the one of the state it reads. -/
def RunPc.step (conf : Config) (o : Outcome) (s : Shared) : RunPc → Option (RunPc × Shared)
  | .loop =>
    match s.state with
    | .babbling => some (.babble, s)
    | .catchingUp => some (.fastForward, s)
    | .joining => some (.join, s)
    | .shutdown => some (.returned, s)
    | .suspended | .leaving => some (.loop, s)
  | .babble =>
    match o with
    | .tick suspend => some (if suspend then .checkSuspend .firstRead else .babble, s)
    | .stopped ch => if 0 < s.closes ch then some (.loop, s) else none
    | _ => none
  | .checkSuspend pc =>
    match pc.step s with
    | some (pc', s') => some (.checkSuspend pc', s')
    | none => some (.babble, s)
  | .fastForward =>
    match o with
    -- no answer from any peer, or an answer that was applied
    | .fastForwarded => some (.loop, s.setState .babbling)
    -- the application or the core refused the answer
    | .failed => some (.loop, s)
    | _ => none
  | .join =>
    match o with
    | .accepted => some (.loop, s.setState (babblingOrCatchingUpState conf))
    | .refused => some (.rejected .read, s)
    | .failed => some (.loop, s)
    | _ => none
  | .rejected pc =>
    match pc.step s with
    | some (pc', s') => some (.rejected pc', s')
    | none => some (.loop, s)
  | .returned => none

/-- One step of a goroutine. `Leave` runs `core.leave`, which does not touch the state, and
then `Shutdown`. -/
def Thread.step (conf : Config) (o : Outcome) (t : Thread) (s : Shared) :
    Option (Thread × Shared) :=
  match t with
  | .run pc => (pc.step conf o s).map fun r => (.run r.1, r.2)
  | .suspend pc => (pc.step s).map fun r => (.suspend r.1, r.2)
  | .leave => some (.shutdown .read, s)
  | .shutdown pc => (pc.step s).map fun r => (.shutdown r.1, r.2)

/-- The calls from outside of the node. -/
inductive Call
  | suspend
  | leave
  | shutdown
deriving DecidableEq, Repr

/-- The goroutine of a call. In maintenance mode `Leave` returns at once. -/
def Call.start (conf : Config) : Call → Thread
  | .suspend => .suspend .firstRead
  | .leave => if conf.maintenanceMode then .shutdown .done else .leave
  | .shutdown => .shutdown .read

/-- The state that `Init` sets, of a node that does or does not belong to its peers. -/
def initialState (conf : Config) (belongs : Bool) : State :=
  if conf.maintenanceMode then .suspended
  else if belongs then babblingOrCatchingUpState conf
  else .joining

/-- The node when `Run` starts. -/
def init (conf : Config) (belongs : Bool) : Interleaving.Config Thread Shared where
  shared := { state := initialState conf belongs }
  threads := [.run (if conf.maintenanceMode then .returned else .loop)]

/-- An interleaving of the goroutines. -/
def run (conf : Config) (c : Interleaving.Config Thread Shared)
    (actions : List (Action Call Outcome)) : Interleaving.Config Thread Shared :=
  actions.foldl (exec (Call.start conf) (Thread.step conf)) c

/-! ## Checked writes -/

/-- If the step writes the state, then the check of the writer passes in the present
state. -/
def Thread.Checks (t : Thread) (o : Outcome) (s : State) : Prop :=
  match t, o with
  | .suspend .write, _ | .run (.checkSuspend .write), _ => s ≠ .suspended ∧ s ≠ .shutdown
  | .shutdown .write, _ | .run (.rejected .write), _ => s ≠ .shutdown
  | .run .fastForward, .fastForwarded => s = .catchingUp
  | .run .join, .accepted => s = .joining
  | _, _ => True

instance (t : Thread) (o : Outcome) (s : State) : Decidable (t.Checks o s) := by
  unfold Thread.Checks
  split <;> infer_instance

/-- The writes of an action are checked. -/
def Checked (c : Interleaving.Config Thread Shared) : Action Call Outcome → Prop
  | .call _ => True
  | .act i o => ∀ t ∈ c.threads[i]?, t.Checks o c.shared.state

instance (c : Interleaving.Config Thread Shared) (a : Action Call Outcome) :
    Decidable (Checked c a) := by
  cases a <;> unfold Checked <;> infer_instance

/-- A shut down node stays so, and a suspended one is only ever shut down. -/
def Follows (s s' : State) : Prop :=
  (s = .shutdown → s' = .shutdown) ∧ (s = .suspended → s' = .suspended ∨ s' = .shutdown)

theorem Follows.refl (s : State) : Follows s s :=
  ⟨id, .inl⟩

theorem Follows.trans {s t u : State} (h : Follows s t) (h' : Follows t u) : Follows s u :=
  ⟨fun hs => h'.1 (h.1 hs), fun hs => (h.2 hs).elim h'.2 fun ht => .inr (h'.1 ht)⟩

/-! ## What a checked step does -/

/-- The channel that the goroutine closes next. -/
def Thread.closing : Thread → Option Channel
  | .suspend .close | .run (.checkSuspend .close) => some .suspendCh
  | .shutdown .close | .run (.rejected .close) => some .shutdownCh
  | _ => none

/-- The states that go with a channel that is closed or about to be. -/
def Channel.Settles : Channel → State → Prop
  | .suspendCh, s => s = .suspended ∨ s = .shutdown
  | .shutdownCh, s => s = .shutdown

/-- The effect of a checked step : none on the shared state, the move to another state of a
live node, the write that precedes the close of a channel, or the close. -/
inductive Effect (t : Thread) (s : Shared) : Thread → Shared → Prop
  | quiet {t'} (h : t.closing = none) (h' : t'.closing = none) : Effect t s t' s
  | moves {t'} (st : State) (h : t.closing = none) (h' : t'.closing = none)
      (hs : ∀ ch : Channel, ¬ch.Settles s.state) : Effect t s t' (s.setState st)
  | stops {t'} (ch : Channel) (st : State) (h : t.closing = none) (h' : t'.closing = some ch)
      (hs : ¬ch.Settles s.state) (hst : ch.Settles st) (hf : Follows s.state st) :
      Effect t s t' (s.setState st)
  | closes {t'} (ch : Channel) (h : t.closing = some ch) (h' : t'.closing = none) :
      Effect t s t' (s.close ch)

theorem effect_suspend (wrap : SuspendPc → Thread) (s : Shared)
    (hclosing : ∀ pc, (wrap pc).closing = if pc = .close then some .suspendCh else none)
    {pc pc' : SuspendPc} {s' : Shared} (h : pc.step s = some (pc', s'))
    (hc : pc = .write → s.state ≠ .suspended ∧ s.state ≠ .shutdown) :
    Effect (wrap pc) s (wrap pc') s' := by
  cases pc with
  | firstRead =>
    obtain ⟨rfl, rfl⟩ := Prod.mk.inj (Option.some.inj h)
    refine .quiet (by rw [hclosing]; rfl) ?_
    rw [hclosing]
    split_ifs <;> simp_all
  | secondRead =>
    obtain ⟨rfl, rfl⟩ := Prod.mk.inj (Option.some.inj h)
    refine .quiet (by rw [hclosing]; rfl) ?_
    rw [hclosing]
    split_ifs <;> simp_all
  | write =>
    obtain ⟨rfl, rfl⟩ := Prod.mk.inj (Option.some.inj h)
    obtain ⟨h1, h2⟩ := hc rfl
    exact .stops .suspendCh .suspended (by rw [hclosing]; rfl) (by rw [hclosing]; rfl)
      (fun hs => hs.elim h1 h2) (.inl rfl) ⟨fun hs => absurd hs h2, fun _ => .inl rfl⟩
  | close =>
    obtain ⟨rfl, rfl⟩ := Prod.mk.inj (Option.some.inj h)
    exact .closes .suspendCh (by rw [hclosing]; rfl) (by rw [hclosing]; rfl)
  | done => cases h

theorem effect_shutdown (wrap : ShutdownPc → Thread) (s : Shared)
    (hclosing : ∀ pc, (wrap pc).closing = if pc = .close then some .shutdownCh else none)
    {pc pc' : ShutdownPc} {s' : Shared} (h : pc.step s = some (pc', s'))
    (hc : pc = .write → s.state ≠ .shutdown) : Effect (wrap pc) s (wrap pc') s' := by
  cases pc with
  | read =>
    obtain ⟨rfl, rfl⟩ := Prod.mk.inj (Option.some.inj h)
    refine .quiet (by rw [hclosing]; rfl) ?_
    rw [hclosing]
    split_ifs <;> simp_all
  | write =>
    obtain ⟨rfl, rfl⟩ := Prod.mk.inj (Option.some.inj h)
    exact .stops .shutdownCh .shutdown (by rw [hclosing]; rfl) (by rw [hclosing]; rfl)
      (hc rfl) rfl ⟨fun _ => rfl, fun _ => .inr rfl⟩
  | close =>
    obtain ⟨rfl, rfl⟩ := Prod.mk.inj (Option.some.inj h)
    exact .closes .shutdownCh (by rw [hclosing]; rfl) (by rw [hclosing]; rfl)
  | done => cases h

/-- A live node is in a state that goes with no channel. -/
theorem not_settles {st : State} (h : st = .babbling ∨ st = .catchingUp ∨ st = .joining)
    (ch : Channel) : ¬ch.Settles st := by
  rcases h with rfl | rfl | rfl <;> cases ch <;> simp [Channel.Settles]

theorem effect_run (conf : Config) (o : Outcome) (s : Shared) {pc pc' : RunPc} {s' : Shared}
    (h : pc.step conf o s = some (pc', s')) (hc : (Thread.run pc).Checks o s.state) :
    Effect (.run pc) s (.run pc') s' := by
  cases pc with
  | loop =>
    simp only [RunPc.step] at h
    split at h <;> obtain ⟨rfl, rfl⟩ := Prod.mk.inj (Option.some.inj h) <;> exact .quiet rfl rfl
  | babble =>
    cases o with
    | tick suspend =>
      obtain ⟨rfl, rfl⟩ := Prod.mk.inj (Option.some.inj h)
      exact .quiet rfl (by split_ifs <;> rfl)
    | stopped ch =>
      simp only [RunPc.step] at h
      split_ifs at h
      obtain ⟨rfl, rfl⟩ := Prod.mk.inj (Option.some.inj h)
      exact .quiet rfl rfl
    | _ => cases h
  | checkSuspend pc =>
    simp only [RunPc.step] at h
    cases hs : pc.step s with
    | some r =>
      rw [hs] at h
      obtain ⟨rfl, rfl⟩ := Prod.mk.inj (Option.some.inj h)
      refine effect_suspend (fun pc => .run (.checkSuspend pc)) s (fun pc => by cases pc <;> rfl)
        hs ?_
      rintro rfl
      exact hc
    | none =>
      rw [hs] at h
      obtain ⟨rfl, rfl⟩ := Prod.mk.inj (Option.some.inj h)
      refine .quiet ?_ rfl
      cases pc <;> first | rfl | cases hs
  | fastForward =>
    cases o with
    | fastForwarded =>
      obtain ⟨rfl, rfl⟩ := Prod.mk.inj (Option.some.inj h)
      exact .moves _ rfl rfl (not_settles (.inr (.inl hc)))
    | failed =>
      obtain ⟨rfl, rfl⟩ := Prod.mk.inj (Option.some.inj h)
      exact .quiet rfl rfl
    | _ => cases h
  | join =>
    cases o with
    | accepted =>
      obtain ⟨rfl, rfl⟩ := Prod.mk.inj (Option.some.inj h)
      exact .moves _ rfl rfl (not_settles (.inr (.inr hc)))
    | refused | failed =>
      obtain ⟨rfl, rfl⟩ := Prod.mk.inj (Option.some.inj h)
      exact .quiet rfl rfl
    | _ => cases h
  | rejected pc =>
    simp only [RunPc.step] at h
    cases hs : pc.step s with
    | some r =>
      rw [hs] at h
      obtain ⟨rfl, rfl⟩ := Prod.mk.inj (Option.some.inj h)
      refine effect_shutdown (fun pc => .run (.rejected pc)) s (fun pc => by cases pc <;> rfl)
        hs ?_
      rintro rfl
      exact hc
    | none =>
      rw [hs] at h
      obtain ⟨rfl, rfl⟩ := Prod.mk.inj (Option.some.inj h)
      refine .quiet ?_ rfl
      cases pc <;> first | rfl | cases hs
  | returned => cases h

/-- Every checked step has one of the effects. -/
theorem effect_of_step {conf : Config} {o : Outcome} {t t' : Thread} {s s' : Shared}
    (h : t.step conf o s = some (t', s')) (hc : t.Checks o s.state) : Effect t s t' s' := by
  cases t with
  | run pc =>
    obtain ⟨r, hr, hrt⟩ := Option.map_eq_some_iff.1 h
    obtain ⟨rfl, rfl⟩ := Prod.mk.inj hrt
    exact effect_run conf o s hr hc
  | suspend pc =>
    obtain ⟨r, hr, hrt⟩ := Option.map_eq_some_iff.1 h
    obtain ⟨rfl, rfl⟩ := Prod.mk.inj hrt
    refine effect_suspend .suspend s (fun pc => by cases pc <;> rfl) hr ?_
    rintro rfl
    exact hc
  | leave =>
    obtain ⟨rfl, rfl⟩ := Prod.mk.inj (Option.some.inj h)
    exact .quiet rfl rfl
  | shutdown pc =>
    obtain ⟨r, hr, hrt⟩ := Option.map_eq_some_iff.1 h
    obtain ⟨rfl, rfl⟩ := Prod.mk.inj hrt
    refine effect_shutdown .shutdown s (fun pc => by cases pc <;> rfl) hr ?_
    rintro rfl
    exact hc

/-! ## Channels -/

/-- The closes of a channel so far, with those that are about to be made. -/
def claims (c : Interleaving.Config Thread Shared) (ch : Channel) : ℕ :=
  c.threads.countP (fun t => t.closing = some ch) + c.shared.closes ch

/-- One goroutine at most has closed or is about to close a channel, and the state is one
that goes with it. -/
def ClosedOnce (c : Interleaving.Config Thread Shared) : Prop :=
  ∀ ch, claims c ch ≤ 1 ∧ (0 < claims c ch → ch.Settles c.shared.state)

theorem Channel.Settles.of_follows {ch : Channel} {s s' : State} (h : ch.Settles s)
    (hf : Follows s s') : ch.Settles s' := by
  cases ch with
  | suspendCh => exact h.elim hf.2 fun hs => .inr (hf.1 hs)
  | shutdownCh => exact hf.1 h

theorem Shared.closes_setState (s : Shared) (st : State) (ch : Channel) :
    (s.setState st).closes ch = s.closes ch := by
  cases ch <;> rfl

theorem Shared.closes_close (s : Shared) (ch ch' : Channel) :
    (s.close ch).closes ch' = s.closes ch' + if ch = ch' then 1 else 0 := by
  cases ch <;> cases ch' <;> rfl

theorem Shared.state_close (s : Shared) (ch : Channel) : (s.close ch).state = s.state := by
  cases ch <;> rfl

/-- A checked step keeps the claims on the channels, and the order of the states. -/
theorem Effect.closedOnce {c : Interleaving.Config Thread Shared} {i : ℕ} {t t' : Thread}
    {s' : Shared} (hi : c.threads[i]? = some t) (he : Effect t c.shared t' s')
    (hc : ClosedOnce c) :
    ClosedOnce ⟨s', c.threads.set i t'⟩ ∧ Follows c.shared.state s'.state := by
  have hcount : ∀ ch : Channel, claims ⟨s', c.threads.set i t'⟩ ch + c.shared.closes ch +
      (if t.closing = some ch then 1 else 0) =
      claims c ch + s'.closes ch + if t'.closing = some ch then 1 else 0 := by
    intro ch
    have := countP_set (fun t => decide (t.closing = some ch)) t' hi
    simp only [decide_eq_true_eq] at this
    unfold claims
    simp only
    omega
  cases he with
  | quiet h h' =>
    refine ⟨fun ch => ?_, .refl _⟩
    have := hcount ch
    simp only [h, h', reduceCtorEq, if_false] at this
    have heq : claims ⟨c.shared, c.threads.set i t'⟩ ch = claims c ch := by omega
    rw [heq]
    exact hc ch
  | moves st h h' hs =>
    -- no channel is claimed in the state of a live node
    have hzero : ∀ ch, claims c ch = 0 := fun ch =>
      Nat.eq_zero_of_not_pos fun hpos => hs ch ((hc ch).2 hpos)
    have hlive : Follows c.shared.state st :=
      ⟨fun hst => absurd hst (hs .shutdownCh), fun hst => absurd (.inl hst) (hs .suspendCh)⟩
    refine ⟨fun ch => ?_, hlive⟩
    have := hcount ch
    simp only [h, h', reduceCtorEq, if_false, Shared.closes_setState, hzero ch] at this
    have hnew : claims ⟨c.shared.setState st, c.threads.set i t'⟩ ch = 0 := by omega
    rw [hnew]
    exact ⟨Nat.zero_le 1, fun hpos => absurd hpos (Nat.lt_irrefl 0)⟩
  | stops ch₀ st h h' hs hst hf =>
    refine ⟨fun ch => ?_, hf⟩
    have := hcount ch
    simp only [h, h', reduceCtorEq, if_false, Shared.closes_setState, Option.some.injEq] at this
    by_cases hch : ch₀ = ch
    · subst hch
      have hzero : claims c ch₀ = 0 := Nat.eq_zero_of_not_pos fun hpos => hs ((hc ch₀).2 hpos)
      simp only [if_true] at this
      exact ⟨by omega, fun _ => hst⟩
    · simp only [hch, if_false] at this
      have heq : claims ⟨c.shared.setState st, c.threads.set i t'⟩ ch = claims c ch := by
        omega
      rw [heq]
      exact ⟨(hc ch).1, fun hpos => ((hc ch).2 hpos).of_follows hf⟩
  | closes ch₀ h h' =>
    refine ⟨fun ch => ?_, ?_⟩
    · have := hcount ch
      simp only [h, h', reduceCtorEq, if_false, Option.some.injEq, Shared.closes_close] at this
      have heq : claims ⟨c.shared.close ch₀, c.threads.set i t'⟩ ch = claims c ch := by omega
      rw [heq, Shared.state_close]
      exact hc ch
    · rw [Shared.state_close]
      exact .refl _

theorem closing_start (conf : Config) (k : Call) : (k.start conf).closing = none := by
  cases k with
  | leave => unfold Call.start; split_ifs <;> rfl
  | _ => rfl

/-- A checked action keeps the claims on the channels, and the order of the states. -/
theorem ClosedOnce.step {conf : Config} (c : Interleaving.Config Thread Shared)
    (a : Action Call Outcome) (hc : ClosedOnce c) (ha : Checked c a) :
    ClosedOnce (exec (Call.start conf) (Thread.step conf) c a) ∧
      Follows c.shared.state (exec (Call.start conf) (Thread.step conf) c a).shared.state := by
  rcases @exec_cases _ _ _ _ (Call.start conf) (Thread.step conf) c a with
    h | ⟨k, -, h⟩ | ⟨i, o, t, t', s', rfl, hi, hs, h⟩
  · rw [h]
    exact ⟨hc, .refl _⟩
  · rw [h]
    refine ⟨fun ch => ?_, .refl _⟩
    have : claims { c with threads := c.threads ++ [k.start conf] } ch = claims c ch := by
      simp [claims, List.countP_append, closing_start]
    rw [this]
    exact hc ch
  · rw [h]
    exact (effect_of_step hs (ha t hi)).closedOnce hi hc

theorem closedOnce_init (conf : Config) (belongs : Bool) : ClosedOnce (init conf belongs) := by
  intro ch
  have : claims (init conf belongs) ch = 0 := by
    unfold claims init
    cases conf.maintenanceMode <;> cases ch <;> rfl
  rw [this]
  exact ⟨Nat.zero_le 1, fun h => absurd h (Nat.lt_irrefl 0)⟩

/-- In every interleaving all of whose writes are checked, a node that is shut down stays
so, a suspended one is only ever shut down, and each channel is closed at most once. -/
theorem final_of_checked (conf : Config) (belongs : Bool) (as bs : List (Action Call Outcome))
    (h : Guarded (exec (Call.start conf) (Thread.step conf)) Checked (init conf belongs)
      (as ++ bs)) :
    ((run conf (init conf belongs) as).shared.state = .shutdown →
      (run conf (init conf belongs) (as ++ bs)).shared.state = .shutdown) ∧
    ((run conf (init conf belongs) as).shared.state = .suspended →
      (run conf (init conf belongs) (as ++ bs)).shared.state = .suspended ∨
      (run conf (init conf belongs) (as ++ bs)).shared.state = .shutdown) ∧
    (run conf (init conf belongs) (as ++ bs)).shared.shutdownClosed ≤ 1 ∧
    (run conf (init conf belongs) (as ++ bs)).shared.suspendClosed ≤ 1 := by
  obtain ⟨has, hbs⟩ := guarded_append.1 h
  have hmid : ClosedOnce (run conf (init conf belongs) as) :=
    has.invariant (fun c a hc ha => (hc.step c a ha).1) (closedOnce_init conf belongs)
  have hend : ClosedOnce (run conf (init conf belongs) (as ++ bs)) :=
    h.invariant (fun c a hc ha => (hc.step c a ha).1) (closedOnce_init conf belongs)
  have hfollows : Follows (run conf (init conf belongs) as).shared.state
      (run conf (init conf belongs) (as ++ bs)).shared.state := by
    unfold run
    rw [List.foldl_append]
    exact hbs.rel (R := fun c c' => Follows c.shared.state c'.shared.state) (fun _ => .refl _)
      (fun _ _ _ => .trans) (fun c a hc ha => hc.step c a ha) hmid
  refine ⟨hfollows.1, hfollows.2, ?_, ?_⟩
  · exact Nat.le_trans (Nat.le_add_left _ _) (hend .shutdownCh).1
  · exact Nat.le_trans (Nat.le_add_left _ _) (hend .suspendCh).1

end Babble.Node

namespace Babble.Sample

open Interleaving

/-- A node joins, fast-forwards, is suspended, and left. -/
def orderly : List (Action Node.Call Node.Outcome) :=
  [.act 0 .next, .act 0 .accepted, .act 0 .next, .act 0 .fastForwarded, .act 0 .next,
    .act 0 (.tick true), .act 0 .next, .act 0 .next, .act 0 .next, .act 0 .next]

@[inherit_doc orderly]
def orderlyEnd : List (Action Node.Call Node.Outcome) :=
  [.call .suspend, .call .leave, .act 1 .next, .act 2 .next, .act 2 .next, .act 2 .next,
    .act 2 .next, .call .shutdown, .act 3 .next]

/-- After a suspension by `checkSuspend` the node is shut down by a leave call, and each
channel is closed once. -/
theorem orderly_final :
    (Node.run ⟨false, true⟩ (Node.init ⟨false, true⟩ false) orderly).shared =
      ⟨.suspended, 1, 0⟩ ∧
    (Node.run ⟨false, true⟩ (Node.init ⟨false, true⟩ false) (orderly ++ orderlyEnd)).shared =
      ⟨.shutdown, 1, 1⟩ ∧
    ((Node.run ⟨false, true⟩ (Node.init ⟨false, true⟩ false)
        (orderly ++ orderlyEnd)).shared.state = .suspended ∨
      (Node.run ⟨false, true⟩ (Node.init ⟨false, true⟩ false)
        (orderly ++ orderlyEnd)).shared.state = .shutdown) :=
  ⟨by decide, by decide, (Node.final_of_checked ⟨false, true⟩ false orderly orderlyEnd
    (by decide)).2.1 (by decide)⟩

/-- A node that waits for the answer to its join request is shut down; then the answer
arrives. -/
def lateJoin : List (Action Node.Call Node.Outcome) :=
  [.act 0 .next, .call .shutdown, .act 1 .next, .act 1 .next, .act 1 .next]

/-- The answer revives the node, and another shutdown closes the channel again. A suspended
node is revived in the same way by the end of a fast-forward. -/
theorem revived_by_join :
    (Node.run {} (Node.init {} false) lateJoin).shared = ⟨.shutdown, 0, 1⟩ ∧
    (Node.run {} (Node.init {} false) (lateJoin ++ [.act 0 .accepted])).shared =
      ⟨.babbling, 0, 1⟩ ∧
    (Node.run {} (Node.init {} false) (lateJoin ++ [.act 0 .accepted, .call .shutdown,
      .act 2 .next, .act 2 .next, .act 2 .next])).shared = ⟨.shutdown, 0, 2⟩ ∧
    (Node.run ⟨false, true⟩ (Node.init ⟨false, true⟩ true) [.act 0 .next, .call .suspend,
      .act 1 .next, .act 1 .next, .act 1 .next, .act 1 .next]).shared = ⟨.suspended, 1, 0⟩ ∧
    (Node.run ⟨false, true⟩ (Node.init ⟨false, true⟩ true) [.act 0 .next, .call .suspend,
      .act 1 .next, .act 1 .next, .act 1 .next, .act 1 .next,
      .act 0 .fastForwarded]).shared = ⟨.babbling, 1, 0⟩ := by
  decide

end Babble.Sample
