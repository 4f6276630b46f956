import Babble.Calls

/-!
# Where every event is

Every stored event waits among the undetermined events or was received in one round, and
is there once (`Accounted`). A call keeps it so, if its event is new and the answers on
sight do not contradict each other : then a search finds one round or none.
-/

set_option linter.unusedSectionVars false

namespace Babble

variable {C H K : Type} [DecidableEq H] [DecidableEq K] [Hex H] [Hex K]

/-! ## Searches -/

namespace Hashgraph

variable {S : Scheme H K} {R : Reading H K} {ps : ℤ → PeerSet K} {h h' : Hashgraph H K} {x : H}
  {i j k : ℤ}

/-- No two answers on whether `x` is seen contradict each other. -/
def SightDefinite (R : Reading H K) (x : H) : Prop :=
  ∀ w, R.Sees w x true → ¬R.Sees w x false

theorem Hits.not_misses (hx : SightDefinite R x) (hh : Hits R ps h x k) : ¬Misses R ps h x k := by
  obtain ⟨info, hi, hdec, hall, hle⟩ := hh
  rintro ⟨info', hi', ⟨-, ⟨w, hw, hsw⟩ | hlt⟩ | ⟨hnd, -⟩⟩
  all_goals obtain rfl := Option.some.inj (hi.symm.trans hi')
  · exact hx w (hall w hw) hsw
  · omega
  · rw [hdec] at hnd
    cases hnd

theorem Hits.not_stops (hh : Hits R ps h x k) : ¬Stops ps h k := by
  obtain ⟨info, hi, hdec, -⟩ := hh
  intro hs
  rw [(hs info hi).1] at hdec
  cases hdec

theorem Misses.not_stops (hm : Misses R ps h x k) : ¬Stops ps h k := by
  obtain ⟨info, hi, ⟨hdec, -⟩ | ⟨-, hb⟩⟩ := hm
  · intro hs
    rw [(hs info hi).1] at hdec
    cases hdec
  · intro hs
    rw [(hs info hi).2] at hb
    cases hb

/-- A search finds one round. -/
theorem FoundAt.unique (hx : SightDefinite R x) (hj : FoundAt R ps h x i j)
    (hk : FoundAt R ps h x i k) : j = k := by
  rcases lt_trichotomy j k with hlt | heq | hlt
  · exact absurd (hk.misses j hj.le hlt) (hj.hits.not_misses hx)
  · exact heq
  · exact absurd (hj.misses k hk.le hlt) (hk.hits.not_misses hx)

theorem FoundAt.not_notFound (hx : SightDefinite R x) (hk : FoundAt R ps h x i k) :
    ¬NotFound R ps h x i := by
  rintro ⟨j, hij, hstop, hmiss⟩
  rcases lt_trichotomy j k with hlt | rfl | hlt
  · rcases hstop with hlast | hstop
    · have := hk.le_last
      omega
    · exact (hk.misses j hij hlt).not_stops hstop
  · rcases hstop with hlast | hstop
    · exact absurd hk.le_last (by omega)
    · exact hk.hits.not_stops hstop
  · exact hk.hits.not_misses hx (hmiss k hk.le hlt)

end Hashgraph

/-! ## Received events -/

/-- The events received in a round. -/
def InmemStore.receivedIn (st : InmemStore H K) (r : ℤ) : List H :=
  ((st.roundCache.lookup r).map RoundInfo.receivedEvents).getD []

theorem InmemStore.receivedIn_eq {st : InmemStore H K} {r : ℤ} {info : RoundInfo H}
    (h : st.roundCache.lookup r = some info) : st.receivedIn r = info.receivedEvents := by
  rw [receivedIn, h]
  rfl

/-- Every stored event with `I` is in one place, and there once. -/
structure Hashgraph.Accounted (I : H → Prop) (h : Hashgraph H K) : Prop where
  undetermined : h.undeterminedEvents.Nodup
  received : ∀ r, (h.store.receivedIn r).Nodup
  waiting : ∀ r x, x ∈ h.store.receivedIn r → x ∉ h.undeterminedEvents
  once : ∀ r r' x, x ∈ h.store.receivedIn r → x ∈ h.store.receivedIn r' → r = r'
  all : ∀ x, x ∈ h.store.eventCache ∧ I x ↔
    x ∈ h.undeterminedEvents ∨ ∃ r, x ∈ h.store.receivedIn r

namespace Session

open Hashgraph

variable {S : Scheme H K} {rt : Runtime} {R : Reading H K} {ps : ℤ → PeerSet K}
  {A : Assignment H} {q : ℤ} {cb : CommitCallback C H K} {s s' : Session C H K} {i : Input H K}

/-- What a call adds to the received events and leaves undetermined. -/
theorem Call.received (hcb : Undisturbing cb) (c : Call S rt cb R ps A q s i s') :
    ∃ l, ReceivedFrom R ps c.h₃ c.A'.round (s.hg.undeterminedEvents ++ [i.event.hex S])
        (fun _ => []) l s'.hg.undeterminedEvents ∧
      ∀ r, s'.hg.store.receivedIn r = s.hg.store.receivedIn r ++ l r := by
  obtain ⟨-, hrc, -, hund, -⟩ := c.sameGraph hcb
  obtain ⟨ec, rc, m, l, rest, he₄, hrec, hfrom⟩ := c.consensus.received
  obtain ⟨rc₃, m₃, dl, he₃, -, hpass⟩ := c.consensus.judged
  obtain ⟨ti, sigs, he₁⟩ := c.result
  obtain ⟨pec, hst, -⟩ := setEvent_eq c.ins.setEvent
  -- up to the fame pass, nothing is received
  have h₁ : c.h₁.store.receivedIn = s.hg.store.receivedIn := by
    funext r
    rw [he₁, InmemStore.receivedIn, InmemStore.receivedIn, hst]
  have h₂ : c.h₂.store.receivedIn = c.h₁.store.receivedIn := by
    funext r
    rcases c.consensus.divided with ⟨-, -, hre⟩ | ⟨-, r', w, t, -, hn⟩
    · obtain ⟨ec, rc, he, -, -, hrc⟩ := hre
      rw [he, InmemStore.receivedIn, InmemStore.receivedIn]
      simp only [hrc]
    · rw [InmemStore.receivedIn, InmemStore.receivedIn, hn.rounds]
      split_ifs with hr
      · rw [Option.map_some, RoundInfo.addCreatedEvent_receivedEvents, hr]
        cases c.h₁.store.roundCache.lookup r' <;> rfl
      · rfl
  have h₃ : c.h₃.store.receivedIn = c.h₂.store.receivedIn := by
    funext r
    rw [he₃, InmemStore.receivedIn, InmemStore.receivedIn]
    change ((rc₃.lookup r).map _).getD _ = _
    by_cases hr : r ∈ c.h₂.pendingRounds.map PendingRound.index
    · obtain ⟨i, i', hold, hj, hnew, -⟩ := hpass.judged r hr
      rw [hold, hnew, Option.map_some, Option.map_some]
      exact hj.received
    · rw [hpass.other r hr]
  have hund₃ : c.h₃.undeterminedEvents = s.hg.undeterminedEvents ++ [i.event.hex S] := by
    obtain ⟨ec, rc, last, m, pr, he₂⟩ := c.consensus.divided.eq
    rw [he₃]
    change c.h₂.undeterminedEvents = _
    rw [he₂, he₁]
  refine ⟨l, ?_, fun r => ?_⟩
  · rw [hund, he₄, ← hund₃]
    exact hfrom
  · rw [← h₁, ← h₂, ← h₃, InmemStore.receivedIn, hrc, he₄]
    change ((rc.lookup r).map _).getD _ = _
    have hrel := hrec.rounds r
    generalize rc.lookup r = o' at hrel
    rw [InmemStore.receivedIn]
    cases ho : c.h₃.store.roundCache.lookup r with
    | none =>
      rw [ho] at hrel
      obtain ⟨new, hl, -, hnew⟩ := hfrom.found r
      have hl' : l r = [] := by
        rw [hl, List.nil_append]
        refine List.eq_nil_iff_forall_not_mem.2 fun x hx => ?_
        obtain ⟨info, hi, -⟩ := (hnew x hx).hits
        rw [ho] at hi
        cases hi
      cases hrel
      rw [hl']
      rfl
    | some info =>
      rw [ho] at hrel
      cases hrel with
      | some hrr => exact hrr.received

/-- A call with a new event keeps the account. -/
theorem Call.accounted (hcb : Undisturbing cb) (c : Call S rt cb R ps A q s i s') {I : H → Prop}
    (ha : s.hg.Accounted I) (hnew : i.event.hex S ∉ s.hg.store.eventCache)
    (hI : I (i.event.hex S))
    (hdef : ∀ x, x = i.event.hex S ∨ x ∈ s.hg.undeterminedEvents → SightDefinite R x) :
    s'.hg.Accounted I := by
  obtain ⟨l, hfrom, hrecv⟩ := c.received hcb
  have hdef' : ∀ x ∈ s.hg.undeterminedEvents ++ [i.event.hex S], SightDefinite R x := by
    intro x hx
    rcases List.mem_append.1 hx with hx | hx
    exacts [hdef x (Or.inr hx), hdef x (Or.inl (List.mem_singleton.1 hx))]
  have hrecvNew : ∀ r, i.event.hex S ∉ s.hg.store.receivedIn r :=
    fun r hr => hnew ((ha.all _).2 (Or.inr ⟨r, hr⟩)).1
  have hnd : (s.hg.undeterminedEvents ++ [i.event.hex S]).Nodup := by
    refine List.Nodup.append ha.undetermined (List.nodup_singleton _) ?_
    intro x hx hx'
    obtain rfl := List.mem_singleton.1 hx'
    exact hnew ((ha.all _).2 (Or.inl hx)).1
  -- what was searched was not received before
  have hold : ∀ r x, x ∈ s.hg.store.receivedIn r →
      x ∉ s.hg.undeterminedEvents ++ [i.event.hex S] := by
    intro r x hx hmem
    rcases List.mem_append.1 hmem with hmem | hmem
    · exact ha.waiting r x hx hmem
    · exact hrecvNew r (List.mem_singleton.1 hmem ▸ hx)
  have hfound : ∀ {r x}, x ∈ l r → x ∈ s.hg.undeterminedEvents ++ [i.event.hex S] ∧
      FoundAt R ps c.h₃ x (c.A'.round x + 1) r := by
    intro r x hx
    obtain ⟨new, hl, hsub, hf⟩ := hfrom.found r
    rw [hl, List.nil_append] at hx
    exact ⟨hsub.subset hx, hf x hx⟩
  refine ⟨hfrom.rest_sub.nodup hnd, fun r => ?_, fun r x hx hmem => ?_, fun r r' x hx hx' => ?_,
    fun x => ?_⟩
  · rw [hrecv]
    refine List.Nodup.append (ha.received r) ?_ fun x hx hx' => hold r x hx (hfound hx').1
    obtain ⟨new, hl, hsub, -⟩ := hfrom.found r
    rw [hl, List.nil_append]
    exact hsub.nodup hnd
  · rw [hrecv] at hx
    rcases List.mem_append.1 hx with hx | hx
    · exact hold r x hx (hfrom.rest_sub.subset hmem)
    · obtain ⟨hxs, hf⟩ := hfound hx
      exact hf.not_notFound (hdef' x hxs) (hfrom.rest_notFound x hmem)
  · rw [hrecv] at hx hx'
    rcases List.mem_append.1 hx with hx | hx <;> rcases List.mem_append.1 hx' with hx' | hx'
    · exact ha.once r r' x hx hx'
    · exact absurd (hfound hx').1 (hold r x hx)
    · exact absurd (hfound hx).1 (hold r' x hx')
    · exact (hfound hx).2.unique (hdef' x (hfound hx).1) (hfound hx').2
  · have hxs : ∀ {x}, x ∈ s.hg.undeterminedEvents ++ [i.event.hex S] →
        (x = i.event.hex S ∨ x ∈ s.hg.store.eventCache) ∧ I x := by
      intro x hx
      rcases List.mem_append.1 hx with hx | hx
      · exact ((ha.all x).2 (Or.inl hx)).imp_left Or.inr
      · obtain rfl := List.mem_singleton.1 hx
        exact ⟨Or.inl rfl, hI⟩
    rw [c.mem_iff hcb]
    constructor
    · rintro ⟨hx, hIx⟩
      by_cases hr : ∃ r, x ∈ s.hg.store.receivedIn r
      · obtain ⟨r, hr⟩ := hr
        exact Or.inr ⟨r, by rw [hrecv]; exact List.mem_append_left _ hr⟩
      · have hmem : x ∈ s.hg.undeterminedEvents ++ [i.event.hex S] := by
          rcases hx with rfl | hx
          · exact List.mem_append_right _ (List.mem_singleton.2 rfl)
          · exact List.mem_append_left _ (((ha.all x).1 ⟨hx, hIx⟩).resolve_right hr)
        rcases hfrom.all x hmem with hrest | ⟨k, hk⟩
        · exact Or.inl hrest
        · exact Or.inr ⟨k, by rw [hrecv]; exact List.mem_append_right _ hk⟩
    · rintro (hx | ⟨r, hx⟩)
      · exact hxs (hfrom.rest_sub.subset hx)
      · rw [hrecv] at hx
        rcases List.mem_append.1 hx with hx | hx
        · exact ((ha.all x).2 (Or.inr ⟨r, hx⟩)).imp_left Or.inr
        · exact hxs (hfound hx).1

theorem accounted_init {m : ℕ} {P : PeerSet K} {h : Hashgraph H K}
    (hi : (Hashgraph.new (InmemStore.new m)).init P = .ok h) (I : H → Prop) : h.Accounted I := by
  obtain ⟨st, hs, rfl⟩ := Hashgraph.init_cases hi
  obtain ⟨psc, pec, roots, fc, hset, rfl, -, -⟩ := InmemStore.setPeerSet_eq hs
  refine ⟨?_, ?_, ?_, ?_, ?_⟩
  all_goals simp [Hashgraph.new, InmemStore.new, InmemStore.receivedIn]

end Session

end Babble
