import Babble.OrderStatistics
import Babble.Ledger
import Babble.Runs
import Babble.Consistency
import Mathlib.Data.List.GetD
import Mathlib.Algebra.Group.Nat.Even

/-!
# The timestamps of blocks

The timestamp of a block is the median of the timestamps of the famous witnesses of its
round. It lies in the range of the honest ones, whatever the others claim, exactly if the
others have fewer than half of the famous witnesses (`within_median_iff`).

An event is received in a round only if the famous witnesses of the round are a
super-majority of its peers, and fame is never taken back. So the block of a round is made
when there are that many (`Session.punctual_run`), and fewer than half of them are by
Byzantine creators if no creator has two. `Session.timestamp_bounded` collects this. A
creator that lies about indexes can have several witnesses in a round.
-/

set_option linter.unusedSectionVars false

namespace Babble

open OrderStatistics

/-! ## The median with outliers -/

/-- The timestamps in ascending order. -/
def ascending (l : List Int64) : List Int64 :=
  l.insertionSort fun a b => a.toInt ≤ b.toInt

theorem perm_ascending (l : List Int64) : (ascending l).Perm l :=
  List.perm_insertionSort _ l

theorem length_ascending (l : List Int64) : (ascending l).length = l.length :=
  (perm_ascending l).length_eq

theorem pairwise_ascending (l : List Int64) :
    (ascending l).Pairwise fun a b => a.toInt ≤ b.toInt := by
  have : Std.Total fun a b : Int64 => a.toInt ≤ b.toInt :=
    ⟨fun a b => Int.le_total a.toInt b.toInt⟩
  have : IsTrans Int64 fun a b => a.toInt ≤ b.toInt := ⟨fun _ _ _ => Int.le_trans⟩
  exact List.pairwise_insertionSort _ l

/-- The median of an odd number of timestamps is the one in the middle. -/
theorem median_of_odd {l : List Int64} {k : ℕ} (hk : l.length = 2 * k + 1) :
    ∃ h : k < (ascending l).length, median l = (ascending l)[k] := by
  have hlen := length_ascending l
  have hk' : k < (ascending l).length := by omega
  refine ⟨hk', ?_⟩
  change (if (ascending l).length = 0 then 0 else if (ascending l).length % 2 = 0 then _
    else (ascending l).getD ((ascending l).length / 2) 0) = _
  rw [if_neg (by omega), if_neg (by omega), show (ascending l).length / 2 = k by omega]
  exact List.getD_eq_getElem _ _ hk'

/-- The median of an even number of timestamps is half the sum of the two in the middle. -/
theorem median_of_even {l : List Int64} {k : ℕ} (hk : l.length = 2 * (k + 1)) :
    ∃ h : k + 1 < (ascending l).length,
      median l = ((ascending l)[k] + (ascending l)[k + 1]) / 2 := by
  have hlen := length_ascending l
  have hk' : k + 1 < (ascending l).length := by omega
  refine ⟨hk', ?_⟩
  change (if (ascending l).length = 0 then 0 else if (ascending l).length % 2 = 0 then
    ((ascending l).getD ((ascending l).length / 2 - 1) 0 +
      (ascending l).getD ((ascending l).length / 2 - 1 + 1) 0) / 2 else _) = _
  rw [if_neg (by omega), if_pos (by omega), show (ascending l).length / 2 - 1 = k by omega,
    List.getD_eq_getElem _ _ hk', List.getD_eq_getElem _ _ (show k < _ by omega)]

theorem tdiv_two_of_nonpos {a : ℤ} (h : a ≤ 0) : a.tdiv 2 = -(-a / 2) := by
  rw [← Int.tdiv_eq_ediv_of_nonneg (show 0 ≤ -a by omega), Int.neg_tdiv, neg_neg]

/-- The mean of two timestamps whose sum does not overflow. -/
theorem toInt_mean {a b : Int64} (h : -2 ^ 63 ≤ a.toInt + b.toInt) (h' : a.toInt + b.toInt < 2 ^ 63) :
    ((a + b) / 2).toInt = (a.toInt + b.toInt).tdiv 2 := by
  have hsum : (a + b).toInt = a.toInt + b.toInt := by
    rw [Int64.toInt_add]
    exact Int.bmod_eq_of_le (by omega) (by omega)
  rw [Int64.toInt_div, hsum, show (2 : Int64).toInt = 2 from rfl]
  rcases Int.le_total 0 (a.toInt + b.toInt) with h0 | h0
  · have := Int.tdiv_eq_ediv_of_nonneg (b := 2) h0
    exact Int.bmod_eq_of_le (by omega) (by omega)
  · have := tdiv_two_of_nonpos h0
    exact Int.bmod_eq_of_le (by omega) (by omega)

/-- The timestamp lies between `lo` and `hi`. -/
def Within (lo hi : ℤ) (t : Int64) : Prop :=
  lo ≤ t.toInt ∧ t.toInt ≤ hi

instance (lo hi : ℤ) (t : Int64) : Decidable (Within lo hi t) :=
  inferInstanceAs (Decidable (_ ∧ _))

/-- With fewer than half of the timestamps outside, the median is inside. -/
theorem within_median {l : List Int64} {lo hi : ℤ} (hlo : 0 ≤ lo) (hhi : hi < 2 ^ 62)
    (h : 2 * l.countP (outlying Int64.toInt lo hi) < l.length) : Within lo hi (median l) := by
  have hs := pairwise_ascending l
  have hlen := length_ascending l
  have hcount : (ascending l).countP (outlying Int64.toInt lo hi) =
      l.countP (outlying Int64.toInt lo hi) := (perm_ascending l).countP_eq _
  obtain ⟨k, hk | hk⟩ := Nat.even_or_odd' l.length
  · obtain ⟨k, rfl⟩ : ∃ k', k = k' + 1 := ⟨k - 1, by omega⟩
    obtain ⟨hlt, he⟩ := median_of_even hk
    have h1 : Within lo hi (ascending l)[k] :=
      between_of_countP hs (by omega) (by omega) (by omega)
    have h2 : Within lo hi (ascending l)[k + 1] :=
      between_of_countP hs hlt (by omega) (by omega)
    unfold Within at h1 h2
    rw [Within, he, toInt_mean (by omega) (by omega), Int.tdiv_eq_ediv_of_nonneg (by omega)]
    omega
  · obtain ⟨hlt, he⟩ := median_of_odd hk
    rw [he]
    exact between_of_countP hs hlt (by omega) (by omega)

section Liars

variable {α : Type} {l : List α} {byz : α → Bool} {t : α → Int64} {lo hi : ℤ}

/-- The timestamps, with `X` in place of those of the liars. -/
def disguised (byz : α → Bool) (t : α → Int64) (X : Int64) (a : α) : Int64 :=
  if byz a then X else t a

/-- A negative timestamp of all liars comes first, and then come those of the others. -/
theorem getElem_ascending_disguised {X : Int64} (hX : X.toInt < 0) (hlo : 0 ≤ lo)
    (ht : ∀ a ∈ l, byz a = false → Within lo hi (t a)) {i : ℕ}
    (hi' : i < (ascending (l.map (disguised byz t X))).length) :
    (i < l.countP byz → (ascending (l.map (disguised byz t X)))[i] = X) ∧
      (l.countP byz ≤ i → Within lo hi (ascending (l.map (disguised byz t X)))[i]) := by
  have hs := pairwise_ascending (l.map (disguised byz t X))
  have hmem := (perm_ascending (l.map (disguised byz t X))).mem_iff.1 (List.getElem_mem hi')
  obtain ⟨a, ha, hta⟩ := List.mem_map.1 hmem
  have hneg : l.countP byz = (ascending (l.map (disguised byz t X))).countP
      fun u => decide (u.toInt < 0) := by
    rw [(perm_ascending _).countP_eq, List.countP_map]
    refine List.countP_congr fun b hb => ?_
    cases hbyz : byz b with
    | true => simp [disguised, hbyz, hX]
    | false =>
      have := (ht b hb hbyz).1
      simp only [disguised, hbyz, Function.comp, Bool.false_eq_true, if_false, decide_eq_true_eq,
        false_iff]
      omega
  have hlen := length_ascending (l.map (disguised byz t X))
  cases hbyz : byz a with
  | true =>
    have hX' : (ascending (l.map (disguised byz t X)))[i] = X := by
      rw [← hta, disguised, hbyz, if_pos rfl]
    refine ⟨fun _ => hX', fun hle => ?_⟩
    have := lt_countP_of_getElem (p := fun u => decide (Int64.toInt u < 0)) hs
      (fun u v huv hv => decide_eq_true (huv.trans_lt (of_decide_eq_true hv))) hi'
      (decide_eq_true (by rw [hX']; exact hX))
    omega
  | false =>
    have hin : Within lo hi (ascending (l.map (disguised byz t X)))[i] := by
      rw [← hta, disguised, hbyz]
      exact ht a ha hbyz
    refine ⟨fun hlt => ?_, fun _ => hin⟩
    have h1 := length_le_add_countP_of_getElem
      (p := fun u => decide ¬decide (Int64.toInt u < 0) = true) hs
      (fun u v huv hu => by simp only [decide_eq_true_eq] at hu ⊢; omega)
      hi' (by have := hin.1; simp only [decide_eq_true_eq]; omega)
    have h2 := List.length_eq_countP_add_countP (fun u : Int64 => decide (u.toInt < 0))
      (l := ascending (l.map (disguised byz t X)))
    omega

/-- The liars cannot move the median out of the range of the others exactly if they have
fewer than half of the timestamps. -/
theorem within_median_iff (hlo : 0 ≤ lo) (hhi : hi < 2 ^ 62) (hne : l ≠ [])
    (ht : ∀ a ∈ l, byz a = false → Within lo hi (t a)) :
    (∀ t' : α → Int64, (∀ a ∈ l, byz a = false → t' a = t a) →
      Within lo hi (median (l.map t'))) ↔ 2 * l.countP byz < l.length := by
  constructor
  · intro h
    by_contra hlt
    have hpos := List.length_pos_iff.2 hne
    have hout : ∀ X : Int64, Within lo hi (median (l.map (disguised byz t X))) :=
      fun X => h _ fun a _ ha => by rw [disguised, ha]; rfl
    have hlen : ∀ X, (l.map (disguised byz t X)).length = l.length := fun X => List.length_map _
    obtain ⟨k, hk | hk⟩ := Nat.even_or_odd' l.length
    · obtain ⟨k, rfl⟩ : ∃ k', k = k' + 1 := ⟨k - 1, by omega⟩
      by_cases hall : k + 1 < l.countP byz
      · -- both timestamps in the middle are those of liars
        have hX : (-1 : Int64).toInt < 0 := by decide
        obtain ⟨hkl, he⟩ := median_of_even ((hlen (-1)).trans hk)
        have h1 := (getElem_ascending_disguised hX hlo ht (by omega)).1 (show k < _ by omega)
        have h2 := (getElem_ascending_disguised hX hlo ht hkl).1 hall
        have := (hout (-1)).1
        rw [he, h1, h2, show (((-1 : Int64) + -1) / 2).toInt = -1 by decide] at this
        omega
      · -- the one before the middle is that of a liar
        have hX := Int64.toInt_minValue
        have hX' : Int64.minValue.toInt < 0 := by omega
        obtain ⟨hkl, he⟩ := median_of_even ((hlen Int64.minValue).trans hk)
        have h1 := (getElem_ascending_disguised hX' hlo ht (by omega)).1 (show k < _ by omega)
        have h2 := (getElem_ascending_disguised hX' hlo ht hkl).2 (by omega)
        have := (hout Int64.minValue).1
        unfold Within at h2
        rw [he, h1, toInt_mean (by omega) (by omega), tdiv_two_of_nonpos (by omega)] at this
        omega
    · have hX : (-1 : Int64).toInt < 0 := by decide
      obtain ⟨hkl, he⟩ := median_of_odd ((hlen (-1)).trans hk)
      have h1 := (getElem_ascending_disguised hX hlo ht hkl).1 (by omega)
      have := (hout (-1)).1
      rw [he, h1] at this
      omega
  · intro h t' ht'
    refine within_median hlo hhi ?_
    rw [List.length_map, List.countP_map]
    have hle : l.countP (outlying Int64.toInt lo hi ∘ t') ≤ l.countP byz := by
      refine List.countP_mono_left fun a ha hout => ?_
      by_contra hbyz
      rw [Bool.not_eq_true] at hbyz
      have hin := outlying_eq_false.2 (ht a ha hbyz)
      rw [← ht' a ha hbyz] at hin
      exact absurd hout (by rw [Function.comp_apply, hin]; exact Bool.false_ne_true)
    omega

end Liars

/-! ## The famous witnesses of a block -/

variable {C H K : Type} [DecidableEq H] [DecidableEq K] [Hex H] [Hex K]

/-- The timestamp of a stored event. -/
def InmemStore.timestampOf (st : InmemStore H K) (w : H) : Int64 :=
  (st.core w).body.timestamp

/-- The creator of a stored event. -/
def InmemStore.creatorOf (st : InmemStore H K) (w : H) : K :=
  (st.core w).creator

/-- A round in which events were received has at least as many famous witnesses as some
number that `N` allows for it. -/
def Quorate (N : ℤ → ℕ → Prop) (rc : Map ℤ (RoundInfo H)) : Prop :=
  ∀ r info, rc.lookup r = some info → info.receivedEvents ≠ [] →
    ∃ k, N r k ∧ k ≤ info.famousWitnesses.length

/-- The timestamp of the block is the median over the famous witnesses that are recorded
for its round, and they are as many as `N` allows. -/
structure Dated (N : ℤ → ℕ → Prop) (b : Block K) (st : InmemStore H K) (info : RoundInfo H) :
    Prop where
  round : st.roundCache.lookup b.body.roundReceived = some info
  stored : ∀ w ∈ info.famousWitnesses, w ∈ st.eventCache
  timestamp : b.body.timestamp = median (info.famousWitnesses.map st.timestampOf)
  enough : ∃ k, N b.body.roundReceived k ∧ k ≤ info.famousWitnesses.length

theorem Quorate.mono {N N' : ℤ → ℕ → Prop} {rc : Map ℤ (RoundInfo H)} (h : Quorate N rc)
    (hN : ∀ r k, N r k → N' r k) : Quorate N' rc := by
  intro r info hinfo hne
  obtain ⟨k, hk, hle⟩ := h r info hinfo hne
  exact ⟨k, hN r k hk, hle⟩

theorem Dated.mono {N N' : ℤ → ℕ → Prop} {b : Block K} {st : InmemStore H K}
    {info : RoundInfo H} (h : Dated N b st info) (hN : ∀ r k, N r k → N' r k) :
    Dated N' b st info := by
  obtain ⟨k, hk, hle⟩ := h.enough
  exact ⟨h.round, h.stored, h.timestamp, k, hN _ k hk, hle⟩

namespace Session

variable {S : Scheme H K} {rt : Runtime} {R : Reading H K} {ps : ℤ → PeerSet K}
  {A : Assignment H} {q n r : ℤ} {cb : CommitCallback C H K} {i : Input H K}

/-- A round with received events has some from this call, and then its famous witnesses are
enough, or had some before, with no more famous witnesses. -/
theorem Call.famousWitnesses_of_received {s s' : Session C H K}
    (c : Call S rt cb R ps A q s i s') {info : RoundInfo H}
    (hinfo : c.h₄.store.roundCache.lookup r = some info) (hne : info.receivedEvents ≠ []) :
    (ps r).superMajority ≤ info.famousWitnesses.length ∨
      ∃ info₀, s.hg.store.roundCache.lookup r = some info₀ ∧ info₀.receivedEvents ≠ [] ∧
        info₀.famousWitnesses.length ≤ info.famousWitnesses.length := by
  obtain ⟨ec, rc, m, l, rest, he₄, hrec, hfrom⟩ := c.consensus.received
  rw [he₄] at hinfo
  obtain ⟨info₃, h₃, hrr⟩ := hrec.rounds.lookup_some hinfo
  rw [hrr.famousWitnesses]
  cases hl : l r with
  | cons x xs =>
    obtain ⟨new, hnew, -, hfound⟩ := hfrom.found r
    have hx : x ∈ new := by
      rw [hl, List.nil_append] at hnew
      exact hnew ▸ List.mem_cons_self
    obtain ⟨info', hi', -, -, hle⟩ := (hfound x hx).hits
    obtain rfl := Option.some.inj (h₃.symm.trans hi')
    exact Or.inl hle
  | nil =>
    refine Or.inr ?_
    have hne₃ : info₃.receivedEvents ≠ [] := by
      rwa [hrr.received, hl, List.append_nil] at hne
    -- fame is only added
    obtain ⟨info₂, h₂, hr₂, hsub⟩ : ∃ info₂, c.h₂.store.roundCache.lookup r = some info₂ ∧
        info₂.receivedEvents = info₃.receivedEvents ∧
        info₂.famousWitnesses ⊆ info₃.famousWitnesses := by
      obtain ⟨rc₃, m₃, dl, he₃, -, hp⟩ := c.consensus.judged
      rw [he₃] at h₃
      by_cases hr : r ∈ c.h₂.pendingRounds.map PendingRound.index
      · obtain ⟨i₂, i₃, hold, hj, hnew, -⟩ := hp.judged r hr
        obtain rfl := Option.some.inj (hnew.symm.trans h₃)
        exact ⟨i₂, hold, hj.received.symm, fun w hw => hj.mem_famousWitnesses hw⟩
      · exact ⟨info₃, (hp.other r hr).symm.trans h₃, rfl, fun _ => id⟩
    -- the division adds an event that is not famous
    obtain ⟨info₁, h₁, hr₁, hfw⟩ : ∃ info₁, c.h₁.store.roundCache.lookup r = some info₁ ∧
        info₁.receivedEvents = info₂.receivedEvents ∧
        info₁.famousWitnesses = info₂.famousWitnesses := by
      rcases c.consensus.divided with ⟨-, -, ec, rc, he, -, -, hrc⟩ | ⟨-, r', w, t, -, hn⟩
      · rw [he] at h₂
        exact ⟨info₂, (hrc r).symm.trans h₂, rfl, rfl⟩
      · rw [hn.rounds] at h₂
        split_ifs at h₂ with hrr'
        · subst hrr'
          obtain rfl := Option.some.inj h₂
          rw [RoundInfo.addCreatedEvent_receivedEvents] at hr₂ ⊢
          cases hlook : c.h₁.store.roundCache.lookup r with
          | none =>
            rw [hlook] at hr₂
            exact absurd hr₂.symm hne₃
          | some info₁ => exact ⟨info₁, rfl, rfl, (RoundInfo.famousWitnesses_addCreatedEvent ..).symm⟩
        · exact ⟨info₂, h₂, rfl, rfl⟩
    refine ⟨info₁, ?_, by rwa [hr₁, hr₂], ?_⟩
    · obtain ⟨pec, hst, -⟩ := Hashgraph.setEvent_eq c.ins.setEvent
      obtain ⟨ti, sigs, he⟩ := c.result
      rw [he, hst] at h₁
      exact h₁
    · rw [hfw]
      exact (info₂.nodup_famousWitnesses.subperm hsub).length_le

/-- The passes of a call keep the rounds quorate. -/
theorem Call.quorate {N : ℤ → ℕ → Prop} {s s' : Session C H K}
    (c : Call S rt cb R ps A q s i s') (hq : Quorate N s.hg.store.roundCache)
    (hN : ∀ r, N r (ps r).superMajority) : Quorate N c.h₄.store.roundCache := by
  intro r info hinfo hne
  rcases c.famousWitnesses_of_received hinfo hne with hle | ⟨info₀, hinfo₀, hne₀, hle⟩
  · exact ⟨_, hN r, hle⟩
  · obtain ⟨k, hk, hle'⟩ := hq r info₀ hinfo₀ hne₀
    exact ⟨k, hk, hle'.trans hle⟩

/-- The blocks that are committed while rounds are processed are dated. -/
theorem Processed.dated {N : ℤ → ℕ → Prop} {s t : Recorded C H K} (hcb : Undisturbing cb)
    (hw : s.hg.WellFormed S A (· ∈ s.hg.store.eventCache) q q)
    (hq : Quorate N s.hg.store.roundCache)
    (hs : ∀ p ∈ s.host.2, ∃ info, Dated N p.1 p.2.hg.store info)
    (hp : Processed S rt (traced cb) A q s n t) :
    ∀ p ∈ t.host.2, ∃ info, Dated N p.1 p.2.hg.store info := by
  induction hp with
  | start => exact hs
  | @round n t info P fr h₁ hp hinfo hdec hP hfr ho ih =>
    intro p hmem
    have hgraph := hp.sameGraph hcb.traced
    have hclose : (close S (traced cb) (n + 1) fr { t with hg := h₁ }).host.2 =
        (commitFrame S (traced cb) fr { t with hg := h₁ }).host.2 := rfl
    rw [hclose, commitFrame_eq] at hmem
    split_ifs at hmem with hvoid
    · exact ih p hmem
    · rcases List.mem_append.1 hmem with hold | hnew
      · exact ih p hold
      · -- the new block is made from a frame with events
        obtain rfl := List.mem_singleton.1 hnew
        have hopen := ho.sameGraph
        have hne : info.receivedEvents ≠ [] := by
          intro hnil
          have hev : fr.events = [] := by
            rw [hfr.events, hnil]
            exact List.eq_nil_of_length_eq_zero ((rt.sort_perm _ _).length_eq)
          exact hvoid (by simp [Frame.Void, Frame.transactions, Frame.internalTransactions, hev])
        have hec := hopen.eventCache
        refine ⟨info, ?_, fun w hw' => ?_, ?_, ?_⟩
        · change h₁.store.roundCache.lookup fr.round = some info
          rw [hfr.round, hopen.roundCache]
          exact hinfo
        · obtain ⟨e, he, -⟩ := RoundInfo.mem_famousWitnesses.1 hw'
          have hwt := hp.wellFormed hcb.traced hw
          have := hwt.divided.stored w (hwt.divided.created (n + 1) info w e hinfo he).1
          rw [← hec] at this
          exact this
        · have hcore : ∀ w, InmemStore.core h₁.store w = InmemStore.core t.hg.store w := by
            intro w
            unfold InmemStore.core
            rw [hec]
          refine hfr.timestamp.trans (congrArg median (List.map_congr_left fun w _ => ?_))
          exact congrArg (fun e => e.body.timestamp) (hcore w).symm
        · rw [hgraph.roundCache] at hinfo
          change ∃ k, N fr.round k ∧ _
          rw [hfr.round]
          exact hq (n + 1) info hinfo hne

/-- `k` is the super-majority of a peer-set that round `r` had in the course of a run. -/
def Enough (S : Scheme H K) (rt : Runtime) (cb : CommitCallback C H K) (s : Session C H K)
    (is : List (Input H K)) (r : ℤ) (k : ℕ) : Prop :=
  ∃ pre Q, pre <+: is ∧ (run S rt cb s pre).hg.store.getPeerSet r = .ok Q ∧ k = Q.superMajority

theorem Enough.mono {s : Session C H K} {is is' : List (Input H K)} {k : ℕ}
    (h : Enough S rt cb s is r k) (hpre : is <+: is') : Enough S rt cb s is' r k := by
  obtain ⟨pre, Q, hp, hQ, hk⟩ := h
  exact ⟨pre, Q, hp.trans hpre, hQ, hk⟩

/-- The session is sound, its rounds are quorate and its blocks are dated. -/
structure Punctual (S : Scheme H K) (N : ℤ → ℕ → Prop) (s : Recorded C H K) : Prop where
  sound : ∃ q, Sound S q s
  quorate : Quorate N s.hg.store.roundCache
  dated : ∀ p ∈ s.host.2, ∃ info, Dated N p.1 p.2.hg.store info

/-- In a run from `Init`, all rounds with received events are quorate and all blocks are
dated. -/
theorem punctual_run (rt : Runtime) (hcb : Undisturbing cb) {m : ℕ} {P : PeerSet K}
    {h : Hashgraph H K} (hinit : (Hashgraph.new (InmemStore.new m)).init P = .ok h) (c : C)
    (is : List (Input H K)) :
    Punctual S (Enough S rt (traced cb) ⟨(c, []), h⟩ is)
      (run S rt (traced cb) ⟨(c, []), h⟩ is) := by
  generalize hs₀ : (⟨(c, []), h⟩ : Recorded C H K) = s
  refine run_induct (P := fun is s' => Punctual S (Enough S rt (traced cb) s is) s') is ?_ ?_
  · subst hs₀
    refine ⟨⟨-1, sound_init hinit _⟩, fun r info hinfo => ?_, fun p hp => ?_⟩
    · rw [(init_eq hinit).2.1] at hinfo
      cases hinfo
    · exact absurd hp List.not_mem_nil
  · rintro pre i hpre ⟨⟨q, hs⟩, hq, hd⟩
    have hmono : ∀ r k, Enough S rt (traced cb) s pre r k →
        Enough S rt (traced cb) s (pre ++ [i]) r k :=
      fun r k h => h.mono (List.prefix_append pre [i])
    have hd' : ∀ p ∈ (run S rt (traced cb) s pre).host.2,
        ∃ info, Dated (Enough S rt (traced cb) s (pre ++ [i])) p.1 p.2.hg.store info := by
      intro p hp
      obtain ⟨info, hi⟩ := hd p hp
      exact ⟨info, hi.mono hmono⟩
    obtain ⟨A, hw⟩ := hs.wellFormed
    choose ps hps using fun j => hw.peerSets.exists_get j
    rcases Session.feed_cases rt hcb.traced i hw (coherent_anyAnswer S _) (fun j _ => hps j)
      (fun _ => trivial) (fun _ _ _ => holds_anyAnswer S _) with
      ⟨err, ti, -, -, he⟩ | ⟨s'', he, ⟨call⟩⟩
    · rw [feed, he]
      have hw' := hw.of_sameQueues (Hashgraph.undisturbed_topologicalIndex _ ti).toSameQueues
      exact ⟨⟨q, ⟨A, hw'⟩, hs.lastConsensusRound⟩, hq.mono hmono, hd'⟩
    · have hq₄ := call.quorate (hq.mono hmono)
        fun r => ⟨pre, ps r, List.prefix_append pre [i], hps r, rfl⟩
      rw [feed, he]
      refine ⟨⟨call.n, ⟨call.A', call.wellFormed⟩,
        call.lastConsensusRound hcb.traced hs.lastConsensusRound⟩, ?_, ?_⟩
      · rw [(call.sameGraph hcb.traced).2.1]
        exact hq₄
      · have hD : (· ∈ call.h₄.store.eventCache) = (· ∈ call.h₁.store.eventCache) :=
          funext fun y => propext call.consensus.events.mem_iff
        have hw₄ : call.h₄.WellFormed S call.A' (· ∈ call.h₄.store.eventCache) q q :=
          hD ▸ (call.wellFormed_passes hw).2.2.2.2
        have hdated := call.processed.dated
          (s := { run S rt (traced cb) s pre with hg := call.h₄ }) hcb hw₄ hq₄ hd'
        rw [call.eq]
        exact hdated

/-- Of a super-majority of famous witnesses by different creators, fewer than half are by
those that can be missing from a super-majority. -/
theorem two_mul_countP_lt {Q : PeerSet K} {byz : Finset K} {creator : H → K} {ws : List H}
    (hQ : Q.superMajority ≤ ws.length) (hbyz : byz.card ≤ Q.len - Q.superMajority)
    (hnd : (ws.map creator).Nodup) :
    2 * ws.countP (fun w => decide (creator w ∈ byz)) < ws.length := by
  have hle : ws.countP (fun w => decide (creator w ∈ byz)) ≤ byz.card := by
    have hsub : ((ws.map creator).filter fun k => decide (k ∈ byz)).toFinset ⊆ byz := by
      intro k hk
      exact of_decide_eq_true (List.mem_filter.1 (List.mem_toFinset.1 hk)).2
    calc ws.countP (fun w => decide (creator w ∈ byz))
        = (ws.map creator).countP fun k => decide (k ∈ byz) := by rw [List.countP_map]; rfl
      _ = ((ws.map creator).filter fun k => decide (k ∈ byz)).toFinset.card := by
        rw [List.countP_eq_length_filter, List.toFinset_card_of_nodup (hnd.filter _)]
      _ ≤ byz.card := Finset.card_le_card hsub
  unfold PeerSet.superMajority at hQ hbyz
  omega

/-- In every run from `Init`, the timestamp of a block lies in the range of the honest famous
witnesses of its round if fewer than half of the famous witnesses are by Byzantine creators,
which is also necessary if these may choose their timestamps. It is so if no creator has two
of the famous witnesses and the Byzantine creators are at most as many as a super-majority
of the peers of the round leaves out. -/
theorem timestamp_bounded (S : Scheme H K) (rt : Runtime) (cb : CommitCallback C H K)
    (hcb : Undisturbing cb) (m : ℕ) (P : PeerSet K) (h : Hashgraph H K)
    (hinit : (Hashgraph.new (InmemStore.new m)).init P = .ok h) (c : C) (is : List (Input H K))
    (b : Block K) (s : Session C H K) (hb : (b, s) ∈ commits S rt cb ⟨c, h⟩ is) :
    ∃ info, s.hg.store.roundCache.lookup b.body.roundReceived = some info ∧
      (∀ w ∈ info.famousWitnesses, w ∈ s.hg.store.eventCache) ∧
      ∀ (byz : Finset K) (lo hi : ℤ), 0 ≤ lo → lo ≤ hi → hi < 2 ^ 62 →
        (∀ w ∈ info.famousWitnesses, s.hg.store.creatorOf w ∉ byz →
          Within lo hi (s.hg.store.timestampOf w)) →
        ((∀ t : H → Int64, (∀ w ∈ info.famousWitnesses, s.hg.store.creatorOf w ∉ byz →
            t w = s.hg.store.timestampOf w) → Within lo hi (median (info.famousWitnesses.map t))) ↔
          2 * info.famousWitnesses.countP (fun w => decide (s.hg.store.creatorOf w ∈ byz)) <
            info.famousWitnesses.length) ∧
        (2 * info.famousWitnesses.countP (fun w => decide (s.hg.store.creatorOf w ∈ byz)) <
            info.famousWitnesses.length → Within lo hi b.body.timestamp) ∧
        ∃ pre Q, pre <+: is ∧
          (run S rt cb ⟨c, h⟩ pre).hg.store.getPeerSet b.body.roundReceived = .ok Q ∧
          (byz.card ≤ Q.len - Q.superMajority →
            (info.famousWitnesses.map s.hg.store.creatorOf).Nodup →
            2 * info.famousWitnesses.countP (fun w => decide (s.hg.store.creatorOf w ∈ byz)) <
              info.famousWitnesses.length) := by
  obtain ⟨info, hd⟩ := (punctual_run (S := S) rt hcb hinit c is).dated (b, s) hb
  obtain ⟨k, ⟨pre, Q, hpre, hQ, rfl⟩, hle⟩ := hd.enough
  have hrun : (run S rt (traced cb) ⟨(c, []), h⟩ pre).hg = (run S rt cb ⟨c, h⟩ pre).hg :=
    congrArg Session.hg (untraced_run S rt cb ⟨(c, []), h⟩ pre)
  refine ⟨info, hd.round, hd.stored, fun byz lo hi hlo _ hhi hhonest => ?_⟩
  have hne : info.famousWitnesses ≠ [] := by
    intro hnil
    rw [hnil] at hle
    exact absurd hle (by simp [PeerSet.superMajority])
  have htimes : ∀ w ∈ info.famousWitnesses, decide (s.hg.store.creatorOf w ∈ byz) = false →
      Within lo hi (s.hg.store.timestampOf w) :=
    fun w hw hbyz => hhonest w hw (of_decide_eq_false hbyz)
  have hiff := within_median_iff hlo hhi hne htimes
  simp only [decide_eq_false_iff_not] at hiff
  refine ⟨hiff, fun hlt => ?_, pre, Q, hpre, hrun ▸ hQ,
    fun hcard hnd => two_mul_countP_lt hle hcard hnd⟩
  have hin := hiff.2 hlt s.hg.store.timestampOf fun _ _ _ => rfl
  rw [← hd.timestamp] at hin
  exact hin

end Session

namespace Sample

/-- The third of four validators has three events on one self-parent, two of them with the
index of its first event. -/
def stamping : List (SignedEvent Bytes Bytes) :=
  [event 0 1 0 none none [], event 1 2 0 none none [], event 2 3 0 none none [],
    event 3 3 1 (some 2) none [], event 4 1 1 (some 0) (some 3) [],
    event 5 2 1 (some 1) (some 4) [], event 6 3 2 (some 3) (some 5) [],
    event 7 1 2 (some 4) (some 6) [], event 8 2 2 (some 5) (some 7) [],
    event 100 3 0 (some 6) (some 8) [], event 101 3 0 (some 6) (some 8) [],
    event 102 3 3 (some 6) (some 8) [], event 9 1 3 (some 7) (some 102) [],
    event 10 2 3 (some 8) (some 9) [], event 103 3 4 (some 102) (some 10) [],
    event 11 1 4 (some 9) (some 103) [], event 12 2 4 (some 10) (some 11) [],
    event 104 3 5 (some 103) (some 12) [], event 13 1 5 (some 11) (some 104) [],
    event 14 2 5 (some 12) (some 13) []]

/-- The commits of a node with these events. -/
def stamped : List (Block Bytes × Session Unit Bytes Bytes) :=
  Session.commits scheme .plain dummyCommitCallback ⟨(), Hashgraph.initial 100 four⟩
    (calls stamping)

/-- One of four validators is enough to date a block : its three famous witnesses outnumber
the two honest ones. -/
theorem timestamp_forged : ({[3]} : Finset Bytes).card ≤ four.len - four.superMajority ∧
    ∃ p ∈ stamped, ∃ info,
      p.2.hg.store.roundCache.lookup p.1.body.roundReceived = some info ∧
      (∀ w ∈ info.famousWitnesses, p.2.hg.store.creatorOf w ∉ ({[3]} : Finset Bytes) →
        Within 7 8 (p.2.hg.store.timestampOf w)) ∧
      p.1.body.timestamp = 100 ∧ ¬Within 7 8 p.1.body.timestamp := by
  have h : ∃ p ∈ stamped, ∃ info ∈ p.2.hg.store.roundCache.lookup p.1.body.roundReceived,
      (∀ w ∈ info.famousWitnesses, p.2.hg.store.creatorOf w ∉ ({[3]} : Finset Bytes) →
        Within 7 8 (p.2.hg.store.timestampOf w)) ∧
      p.1.body.timestamp = 100 ∧ ¬Within 7 8 p.1.body.timestamp := by decide +kernel
  exact ⟨by decide, h⟩

/-- The commits of a node with seventeen turns of three of four validators. -/
def turnCommits : List (Block Bytes × Session Unit Bytes Bytes) :=
  Session.commits scheme .plain dummyCommitCallback ⟨(), Hashgraph.initial 100 four⟩
    (calls (turns 17))

/-- Whatever the third validator claims, the first block is dated by the other two. -/
theorem turns_dated : ∃ p ∈ turnCommits, Within 6 7 p.1.body.timestamp := by
  have h : ∃ p ∈ turnCommits,
      ∀ info ∈ p.2.hg.store.roundCache.lookup p.1.body.roundReceived,
        (∀ w ∈ info.famousWitnesses, p.2.hg.store.creatorOf w ∉ ({[3]} : Finset Bytes) →
          Within 6 7 (p.2.hg.store.timestampOf w)) ∧
        2 * info.famousWitnesses.countP
          (fun w => decide (p.2.hg.store.creatorOf w ∈ ({[3]} : Finset Bytes))) <
            info.famousWitnesses.length := by decide +kernel
  obtain ⟨p, hp, hall⟩ := h
  obtain ⟨info, hinfo, -, hbound⟩ := Session.timestamp_bounded scheme .plain dummyCommitCallback
    Session.hosting_dummyCommitCallback.undisturbing 100 four _ (Hashgraph.init_initial 100 four) ()
    (calls (turns 17)) p.1 p.2 hp
  obtain ⟨hhonest, hlt⟩ := hall info hinfo
  exact ⟨p, hp, (hbound {[3]} 6 7 (by decide) (by decide) (by decide) hhonest).2.1 hlt⟩

end Sample

end Babble
