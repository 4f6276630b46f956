import Babble.Sync
import Babble.Ledger

/-!
# The head of a core

A core keeps the hash and the index of its last event in `head` and `seq`, and the store
keeps the events of every participant in rolling indexes. The next event of the core is
accepted only if its self-parent, the head, is the last event in the store.
-/

set_option linter.unusedSectionVars false

namespace Babble

variable {C H K : Type} [DecidableEq H] [DecidableEq K] [Hex H] [Hex K]

/-! ## Tips -/

theorem RollingIndex.append_eq (ri : RollingIndex H) (x : H) (i : ℤ) :
    (ri.append x i).items.getLast? = some x ∧ (ri.append x i).lastIndex = i := by
  simp [append]

/-- The last event of `k` is `head` with the index `seq`, none with -1 if there is none, and
no event of `k` has a later index. -/
structure Tip (k : K) (head : Option H) (seq : ℤ) (f : H → Option (SignedEvent H K))
    (pec : ParticipantEventsCache H K) : Prop where
  registered : pec.Registered
  window : ∀ ri, pec.window k = some ri → ri.items.getLast? = head ∧ ri.lastIndex = seq
  outside : pec.window k = none → head = none
  seq_none : head = none → seq = -1
  head_some : ∀ x, head = some x → ∃ e, f x = some e ∧ e.creator = k ∧ e.body.index = seq
  le_seq : ∀ x e, f x = some e → e.creator = k → e.body.index ≤ seq

namespace Tip

variable {k : K} {head : Option H} {seq : ℤ} {f : H → Option (SignedEvent H K)}
  {pec pec' : ParticipantEventsCache H K} {x : H} {e : SignedEvent H K}

theorem enrolls (h : Tip k head seq f pec) (he : pec.Enrolls pec') : Tip k head seq f pec' := by
  obtain ⟨hr', -, hw⟩ := he h.registered
  refine ⟨hr', fun ri hri => ?_, fun hnone => ?_, h.seq_none, h.head_some, h.le_seq⟩
  · rcases hw k with heq | ⟨hnone, name, heq⟩
    · exact h.window ri (heq.symm.trans hri)
    · obtain rfl := Option.some.inj (hri.symm.trans heq)
      have hhead := h.outside hnone
      exact ⟨hhead.symm, (h.seq_none hhead).symm⟩
  · rcases hw k with heq | ⟨-, name, heq⟩
    · exact h.outside (heq.symm.trans hnone)
    · rw [hnone] at heq
      cases heq

theorem new (k : K) (size : ℕ) :
    Tip k none (-1) (fun _ => none) (ParticipantEventsCache.new size : ParticipantEventsCache H K) := by
  have hwindow : (ParticipantEventsCache.new size : ParticipantEventsCache H K).window k = none := rfl
  refine ⟨⟨List.nodup_nil, fun id => ?_⟩, fun ri hri => ?_, fun _ => rfl, fun _ => rfl, nofun, nofun⟩
  · simp [ParticipantEventsCache.new, RollingIndexMap.new]
  · rw [hwindow] at hri
    cases hri

/-- An event of another creator is stored. -/
theorem update (h : Tip k head seq f pec) (hk : e.creator ≠ k)
    (hsame : ∀ e', f x = some e' → e'.creator = e.creator) :
    Tip k head seq (Function.update f x (some e)) pec := by
  refine { h with head_some := fun y hy => ?_, le_seq := fun y ey hy hey => ?_ }
  · obtain ⟨ey, hf, hc, hi⟩ := h.head_some y hy
    refine ⟨ey, ?_, hc, hi⟩
    rw [Function.update_of_ne, hf]
    rintro rfl
    exact hk ((hsame ey hf).symm.trans hc)
  · rw [Function.update_apply] at hy
    split_ifs at hy with hyx
    · obtain rfl := Option.some.inj hy
      exact absurd hey hk
    · exact h.le_seq y ey hy hey

/-- The window of another creator takes an event. -/
theorem set_other (h : Tip k head seq f pec) (hk : Hex.toUpper k = k) (hne : e.creator ≠ k)
    (hset : pec.set e.creator x e.body.index = .ok pec') : Tip k head seq f pec' := by
  obtain ⟨hr', -, hother⟩ := h.registered.set hset
  have hw : pec'.window k = pec.window k :=
    hother k (by rw [hk, e.toUpper_creator]; exact hne.symm)
  exact { h with
    registered := hr'
    window := fun ri hri => h.window ri (hw.symm.trans hri)
    outside := fun hnone => h.outside (hw.symm.trans hnone) }

/-- The next event of the creator. The first one may come with any index. -/
theorem set_own (h : Tip k head seq f pec) (hk : e.creator = k) (hlt : seq < e.body.index)
    (hi : seq < 0 ∨ e.body.index = seq + 1) (hset : pec.set e.creator x e.body.index = .ok pec') :
    Tip k (some x) e.body.index (Function.update f x (some e)) pec' := by
  obtain ⟨hr', ⟨ri, ri', hri, hri', hw'⟩, -⟩ := h.registered.set hset
  rw [hk] at hri hw'
  obtain ⟨-, hlast⟩ := h.window ri hri
  have happ : ri' = ri.append x e.body.index := by
    rw [RollingIndex.set, if_neg (by omega), if_pos (by omega)] at hri'
    exact (Except.ok.inj hri').symm
  refine ⟨hr', fun rj hrj => ?_, fun hnone => ?_, fun hnone => ?_, fun y hy => ?_,
    fun y ey hy hey => ?_⟩
  · obtain rfl := Option.some.inj (hw'.symm.trans hrj)
    rw [happ]
    exact RollingIndex.append_eq ri x _
  · rw [hw'] at hnone
    cases hnone
  · cases hnone
  · obtain rfl := Option.some.inj hy
    exact ⟨e, Function.update_self .., hk, rfl⟩
  · rw [Function.update_apply] at hy
    split_ifs at hy
    · obtain rfl := Option.some.inj hy
      exact le_refl _
    · have := h.le_seq y ey hy hey
      omega

/-- Without an event of `k` the last event is unknown, otherwise it is the head. -/
theorem getLast_eq (h : Tip k head seq f pec) :
    (∃ err, pec.getLast k = .error err ∧ head = none ∧
      (err.isStore .empty ∨ pec.window k = none)) ∨ ∃ x, pec.getLast k = .ok x ∧ head = some x := by
  rw [h.registered.getLast_eq]
  cases hw : pec.window k with
  | none => exact Or.inl ⟨_, rfl, h.outside hw, Or.inr rfl⟩
  | some ri =>
    have hlast := (h.window ri hw).1
    cases hg : ri.items.getLast? with
    | none => exact Or.inl ⟨.store pec.rim.name .empty, by simp only [hg], hlast.symm.trans hg, Or.inl rfl⟩
    | some x => exact Or.inr ⟨x, by simp only [hg], hlast.symm.trans hg⟩

end Tip

/-- After an insertion the tip is where it was, or at the new event. -/
theorem Hashgraph.Insertion.tip {S : Scheme H K} {h : Hashgraph H K} {event : SignedEvent H K}
    (i : Insertion S h event) {k : K} {head : Option H} {seq : ℤ} (hk : Hex.toUpper k = k)
    (ht : Tip k head seq (signedEvents h.store.eventCache) h.store.participantEventsCache)
    (hsame : ∀ e, signedEvents h.store.eventCache (event.hex S) = some e → e.body = event.body)
    (hown : event.creator = k → event.body.index = seq + 1) :
    Tip k (if event.creator = k then some (event.hex S) else head)
      (if event.creator = k then event.body.index else seq)
      (Function.update (signedEvents h.store.eventCache) (event.hex S) (some event))
      i.store.participantEventsCache := by
  have hkey : i.ev.hex S = event.hex S := congrArg (SignedEvent.hex S) i.signed
  have hcreator : i.ev.creator = event.creator := congrArg SignedEvent.creator i.signed
  have hindex : i.ev.body.index = event.body.index := congrArg (fun e => e.body.index) i.signed
  have hsame' : ∀ e, signedEvents h.store.eventCache (event.hex S) = some e →
      e.creator = event.creator := fun e he => by
    rw [SignedEvent.creator, hsame e he]
    rfl
  obtain ⟨pec, hst, hpec⟩ := setEvent_eq i.setEvent
  rw [hkey, hcreator, hindex] at hpec
  rw [hst]
  change Tip k _ _ _ pec
  rcases hpec with ⟨hmem, rfl⟩ | ⟨hnew, hset⟩
  · -- the event is stored already, so that it is none of the creator
    obtain ⟨e, he⟩ := signedEvents_isSome.2 hmem
    have hne : event.creator ≠ k := fun hc => by
      have hle := ht.le_seq _ e he ((hsame' e he).trans hc)
      have heq := hown hc
      rw [hsame e he] at hle
      omega
    rw [if_neg hne, if_neg hne]
    exact ht.update hne hsame'
  · by_cases hc : event.creator = k
    · rw [if_pos hc, if_pos hc]
      have hnext := hown hc
      exact ht.set_own hc (by omega) (Or.inr hnext) hset
    · rw [if_neg hc, if_neg hc]
      exact (ht.update hc hsame').set_other hk hc hset

namespace Session

variable {S : Scheme H K} {rt : Runtime} {A : Assignment H} {q n : ℤ} {cb : CommitCallback C H K}
  {s t : Session C H K}

/-- The host adds participants at most. -/
def Enrolling (cb : CommitCallback C H K) : Prop :=
  ∀ b (s : Session C H K),
    s.hg.store.participantEventsCache.Enrolls (cb b s).hg.store.participantEventsCache

/-- While rounds are processed, participants are added at most. -/
theorem Processed.enrolls (hcb : Enrolling cb) (hp : Processed S rt cb A q s n t) :
    s.hg.store.participantEventsCache.Enrolls t.hg.store.participantEventsCache := by
  induction hp with
  | start => exact .refl _
  | @round n t info P fr h₁ ht hinfo hdec hP hfr ho ih =>
    have h₁pec : h₁.store.participantEventsCache = t.hg.store.participantEventsCache := by
      obtain ⟨m, cc, tot, rfl⟩ := ho
      rfl
    have hcommit : h₁.store.participantEventsCache.Enrolls
        (commitFrame S cb fr { t with hg := h₁ }).hg.store.participantEventsCache := by
      rw [commitFrame_eq]
      split_ifs
      · exact .refl _
      · exact hcb _ (storing _ { t with hg := h₁ })
    obtain ⟨k, first, he⟩ := Hashgraph.closeRound_eq (n + 1) fr
      (commitFrame S cb fr { t with hg := h₁ }).hg
    rw [close, he]
    exact ih.trans (h₁pec ▸ hcommit)

/-- An insertion on a sound session fails without a trace, or brings the event and moves the
tip of its creator. -/
theorem Sound.insert_cases (rt : Runtime) (hcb : Undisturbing cb)
    (henrolls : Enrolling cb) (hs : Sound S q s) {k : K} {head : Option H} {seq : ℤ} (hk : Hex.toUpper k = k)
    (ht : Tip k head seq (signedEvents s.hg.store.eventCache) s.hg.store.participantEventsCache)
    (i : Input H K)
    (hown : i.event.creator = k → i.event.body.selfParent = head → i.event.body.index = seq + 1) :
    (∃ err ti, Exec.exec (insertEventAndRunConsensus S rt cb i.event i.wire i.fill) s =
      (.error err, { s with hg := { s.hg with topologicalIndex := ti } })) ∨
    ∃ q' s', Exec.exec (insertEventAndRunConsensus S rt cb i.event i.wire i.fill) s = (.ok (), s') ∧
      Sound S q' s' ∧ (i.event.creator = k → i.event.body.selfParent = head) ∧
      signedEvents s'.hg.store.eventCache =
        Function.update (signedEvents s.hg.store.eventCache) (i.event.hex S) (some i.event) ∧
      ((∀ e, signedEvents s.hg.store.eventCache (i.event.hex S) = some e → e.body = i.event.body) →
        Tip k (if i.event.creator = k then some (i.event.hex S) else head)
          (if i.event.creator = k then i.event.body.index else seq)
          (signedEvents s'.hg.store.eventCache) s'.hg.store.participantEventsCache) := by
  rcases hs.feed_cases rt hcb i with ⟨err, ti, -, -, he⟩ | ⟨s', ps, A, he, hw, ⟨c⟩⟩
  · exact Or.inl ⟨err, ti, he⟩
  · have hparent : i.event.creator = k → i.event.body.selfParent = head := by
      rintro rfl
      rcases Hashgraph.checkSelfParent_cases (Hashgraph.checkSelfParent_of_checkEvent c.ins.check)
        with ⟨p, hp, hsp⟩ | ⟨hno, hsp⟩
      · rcases ht.getLast_eq with ⟨err, herr, -⟩ | ⟨x, hx, hhead⟩
        · cases herr.symm.trans hp
        · rw [hsp, hhead, Except.ok.inj (hp.symm.trans hx)]
      · rcases ht.getLast_eq with ⟨err, -, hhead, -⟩ | ⟨x, hx, -⟩
        · rw [hsp, hhead]
        · exact absurd hx (hno x)
    have hsigned := c.signedEvents_eq hcb
    refine Or.inr ⟨c.n, s', he, ⟨⟨c.A', c.wellFormed⟩, c.lastConsensusRound hcb hs.lastConsensusRound⟩,
      hparent, hsigned, fun hsame => ?_⟩
    have htip := c.ins.tip hk ht hsame fun hc => hown hc (hparent hc)
    rw [hsigned]
    refine htip.enrolls ?_
    have hpec : s'.hg.store.participantEventsCache = c.t.hg.store.participantEventsCache :=
      congrArg (fun s => s.hg.store.participantEventsCache) c.eq
    rw [hpec, ← c.participantEvents₄]
    exact c.processed.enrolls henrolls

end Session

/-! ## The core -/

namespace Core

variable {S : Scheme H K} {v : Validator} {proxy : ProxyCommitCallback K}

theorem enrolling_commitCallback :
    Session.Enrolling (commitCallback S v proxy : CommitCallback (CoreState H K) H K) := by
  intro b
  have h : Across b fun s s' : Core H K =>
      s.hg.store.participantEventsCache.Enrolls s'.hg.store.participantEventsCache :=
    { refl s := .refl _
      trans := .trans
      host s _ _ _ := .refl _
      block s _ _ := .refl _
      anchor s _ := .refl _
      peerSet _ _ _ hs := ParticipantEventsCache.enrolls_setPeerSet hs }
  exact h.commitCallback

/-- A commit leaves the head where it is. -/
theorem head_commitCallback (b : Block K) (s : Core H K) :
    (commitCallback S v proxy b s).host.head = s.host.head ∧
      (commitCallback S v proxy b s).host.seq = s.host.seq := by
  have h : Across b fun s s' : Core H K =>
      s'.host.head = s.host.head ∧ s'.host.seq = s.host.seq :=
    { refl s := ⟨rfl, rfl⟩
      trans h h' := ⟨h'.1.trans h.1, h'.2.trans h.2⟩
      host s _ hhead hseq := ⟨hhead, hseq⟩
      block s _ _ := ⟨rfl, rfl⟩
      anchor s _ := ⟨rfl, rfl⟩
      peerSet _ _ _ _ := ⟨rfl, rfl⟩ }
  exact h.commitCallback s

end Core

namespace PoolCore

variable {S : Scheme H K} {rt : Runtime} {v : Validator} {app : Application K} {q : ℤ}
  {s : PoolCore H K}

theorem hosting_commitCallback :
    Session.Hosting (commitCallback S v app : CommitCallback (PoolState H K) H K) :=
  fun b s => Core.hosting_commitCallback b (core (submit _ _ s))

theorem enrolling_commitCallback :
    Session.Enrolling (commitCallback S v app : CommitCallback (PoolState H K) H K) :=
  fun b s => Core.enrolling_commitCallback b (core (submit _ _ s))

variable (S rt v app) in
/-- The hashgraph leaves the head and the journal of events to the core. -/
theorem head_feed (s : PoolCore H K) (i : Session.Input H K) :
    (Session.feed S rt (commitCallback S v app) s i).host.head = s.host.head ∧
      (Session.feed S rt (commitCallback S v app) s i).host.seq = s.host.seq ∧
      (Session.feed S rt (commitCallback S v app) s i).host.journal.entries =
        s.host.journal.entries := by
  have hun : Session.Unshelved fun s s' : PoolCore H K => s'.host.head = s.host.head ∧
      s'.host.seq = s.host.seq ∧ s'.host.journal.entries = s.host.journal.entries :=
    fun s hg _ => ⟨rfl, rfl, rfl⟩
  refine hun.feed (fun h h' => ⟨h'.1.trans h.1, h'.2.1.trans h.2.1, h'.2.2.trans h.2.2⟩)
    (fun fr s => ?_) s i
  rw [Session.commitFrame_eq]
  split_ifs
  · exact ⟨rfl, rfl, rfl⟩
  · obtain ⟨hhead, hseq⟩ := Core.head_commitCallback (S := S) (v := v)
      (Block.fromFrame S (s.hg.store.lastBlock + 1) fr) (core (submit _ _ (Session.storing _ s)))
    exact ⟨hhead, hseq, rfl⟩

/-- The core with another head. -/
def withHead (s : PoolCore H K) (head : Option H) (seq : ℤ) : PoolCore H K :=
  { s with host := { s.host with head := head, seq := seq } }

/-- The head of the core is its last event in the store. -/
structure Tracked (S : Scheme H K) (v : Validator) (q : ℤ) (s : PoolCore H K) : Prop where
  sound : Session.Sound S q s
  tip : Tip (v.publicKeyHex : K) s.host.head s.host.seq (signedEvents s.hg.store.eventCache)
    s.hg.store.participantEventsCache

theorem toUpper_publicKeyHex (v : Validator) :
    Hex.toUpper (v.publicKeyHex : K) = v.publicKeyHex :=
  Hex.toUpper_encode _

variable (rt app) in
/-- An insertion fails without a trace, or brings the event and moves the head if it is an
own one. -/
theorem Tracked.insert (h : Tracked S v q s) (i : Session.Input H K)
    (hown : i.event.creator = (v.publicKeyHex : K) → i.event.body.selfParent = s.host.head →
      i.event.body.index = s.host.seq + 1) :
    (∃ err ti, Exec.exec (insertEventAndRunConsensus S rt v app i.event i.wire i.fill) s =
      (.error err, { s with hg := { s.hg with topologicalIndex := ti } })) ∨
    ∃ q' s' t, Exec.exec (insertEventAndRunConsensus S rt v app i.event i.wire i.fill) s =
        (.ok (), s') ∧
      ((∀ e, signedEvents s.hg.store.eventCache (i.event.hex S) = some e → e.body = i.event.body) →
        Tracked S v q' s') ∧
      (i.event.creator = (v.publicKeyHex : K) → i.event.body.selfParent = s.host.head) ∧
      signedEvents s'.hg.store.eventCache =
        Function.update (signedEvents s.hg.store.eventCache) (i.event.hex S) (some i.event) ∧
      t = Session.feed S rt (commitCallback S v app) s i ∧
      s' = if i.event.creator = (v.publicKeyHex : K) then
        withHead t (some (i.event.hex S)) i.event.body.index else t := by
  rw [insertEventAndRunConsensus, Exec.exec_bind]
  rcases h.sound.insert_cases rt hosting_commitCallback.undisturbing enrolling_commitCallback
    (toUpper_publicKeyHex v) h.tip i hown with
    ⟨err, ti, he⟩ | ⟨q', t, he, hsound, hparent, hsigned, htip⟩
  · exact Or.inl ⟨err, ti, by rw [he]⟩
  · have hfeed : t = Session.feed S rt (commitCallback S v app) s i := by
      rw [Session.feed, he]
    obtain ⟨hhead, hseq, -⟩ := head_feed S rt v app s i
    rw [← hfeed] at hhead hseq
    rw [he]
    refine Or.inr ⟨q', _, t, ?_, fun hsame => ?_, hparent, ?_, hfeed, rfl⟩
    · simp only
      split_ifs <;> rfl
    · have htip := htip hsame
      split_ifs at htip ⊢ with hc
      · exact ⟨⟨hsound.wellFormed, hsound.lastConsensusRound⟩, htip⟩
      · exact ⟨hsound, hhead ▸ hseq ▸ htip⟩
    · split_ifs <;> exact hsigned

end PoolCore

/-! ## Journals -/

namespace Journal

variable {S : Scheme H K} {k : K} {j j' : Journal H K}

/-- No two events of the journal have one hash. -/
def Distinct (S : Scheme H K) (j : Journal H K) : Prop :=
  ∀ a ∈ j.entries, ∀ b ∈ j.entries, a.event.hex S = b.event.hex S → a.event.body = b.event.body

/-- Every event of `k` that was read claims the index after its self-parent's. -/
def Follows (S : Scheme H K) (k : K) (j : Journal H K) : Prop :=
  ∀ pre e post, j.entries = pre ++ .read e :: post → e.creator = k →
    (e.body.selfParent = none → e.body.index = 0) ∧
    ∀ a ∈ pre, e.body.selfParent = some (a.event.hex S) → e.body.index = a.event.body.index + 1

theorem Distinct.mono (h : Distinct S j') (hp : j.entries <+: j'.entries) : Distinct S j :=
  fun a ha b hb => h a (hp.subset ha) b (hp.subset hb)

theorem Follows.mono (h : Follows S k j') (hp : j.entries <+: j'.entries) :
    Follows S k j := by
  intro pre e post he
  obtain ⟨rest, hrest⟩ := hp
  exact h pre e (post ++ rest) (by rw [← hrest, he]; simp)

end Journal

namespace PoolCore

variable {S : Scheme H K} {rt : Runtime} {v : Validator} {app : Application K}
  {clock : ℕ → Int64} {q : ℤ} {s s' : PoolCore H K}

/-- The journal grows, and `I` is kept if `P` holds of the journal. -/
def Maintains (P : Journal H K → Prop) (I : PoolCore H K → Prop) (s s' : PoolCore H K) : Prop :=
  s.host.journal.entries <+: s'.host.journal.entries ∧ (P s'.host.journal → I s → I s')

theorem Maintains.refl {P : Journal H K → Prop} {I : PoolCore H K → Prop} (s : PoolCore H K) :
    Maintains P I s s :=
  ⟨List.prefix_refl _, fun _ => id⟩

theorem Maintains.trans {P : Journal H K → Prop} {I : PoolCore H K → Prop}
    (hP : ∀ {j j' : Journal H K}, j.entries <+: j'.entries → P j' → P j) {s s' s'' : PoolCore H K}
    (h : Maintains P I s s') (h' : Maintains P I s' s'') : Maintains P I s s'' :=
  ⟨h.1.trans h'.1, fun hj hs => h'.2 hj (h.2 (hP h'.1 hj) hs)⟩

/-- The head is the last own event in the store, and all stored events are in the journal. -/
structure Kept (S : Scheme H K) (v : Validator) (s : PoolCore H K) : Prop where
  tracked : ∃ q, Tracked S v q s
  origin : ∀ x e, signedEvents s.hg.store.eventCache x = some e →
    e.hex S = x ∧ ∃ a ∈ s.host.journal.entries, a.event = e

theorem Tracked.of_eq (h : Tracked S v q s) (hg : s'.hg = s.hg)
    (hhead : s'.host.head = s.host.head) (hseq : s'.host.seq = s.host.seq) : Tracked S v q s' := by
  refine ⟨⟨hg ▸ h.sound.wellFormed, hg ▸ h.sound.lastConsensusRound⟩, ?_⟩
  rw [hhead, hseq, hg]
  exact h.tip

theorem Kept.of_eq (h : Kept S v s) (hg : s'.hg = s.hg) (hhead : s'.host.head = s.host.head)
    (hseq : s'.host.seq = s.host.seq)
    (hentries : s.host.journal.entries <+: s'.host.journal.entries) : Kept S v s' := by
  obtain ⟨q, ht⟩ := h.tracked
  refine ⟨⟨q, ht.of_eq hg hhead hseq⟩, fun x e he => ?_⟩
  rw [hg] at he
  obtain ⟨hx, a, ha, hae⟩ := h.origin x e he
  exact ⟨hx, a, hentries.subset ha, hae⟩

/-- What the hashgraph does besides events. -/
theorem Kept.of_undisturbed (h : Kept S v s) {hg : Hashgraph H K}
    (hu : Hashgraph.Undisturbed s.hg hg)
    (hpec : hg.store.participantEventsCache = s.hg.store.participantEventsCache) :
    Kept S v { s with hg := hg } := by
  obtain ⟨q, ht⟩ := h.tracked
  refine ⟨⟨q, ht.sound.of_undisturbed hu, ?_⟩, ?_⟩
  · rw [hpec, hu.eventCache]
    exact ht.tip
  · rw [hu.eventCache]
    exact h.origin

theorem Kept.tick (h : Kept S v s) (n : ℕ) :
    Kept S v { s with hg := { s.hg with memo := { s.hg.memo with tick := n } } } := by
  obtain ⟨q, ht⟩ := h.tracked
  exact ⟨⟨q, ht.sound.tick n, ht.tip⟩, h.origin⟩

/-- An event is inserted that is in the journal afterwards. -/
theorem Kept.insert (h : Kept S v s) {i : Session.Input H K} {t : PoolCore H K}
    (hsame : ∀ a ∈ s.host.journal.entries, a.event.hex S = i.event.hex S →
      a.event.body = i.event.body)
    (hsigned : signedEvents s'.hg.store.eventCache =
      Function.update (signedEvents s.hg.store.eventCache) (i.event.hex S) (some i.event))
    (htracked : (∀ e, signedEvents s.hg.store.eventCache (i.event.hex S) = some e →
      e.body = i.event.body) → Tracked S v q s')
    (hg : t.hg = s'.hg) (hhead : t.host.head = s'.host.head) (hseq : t.host.seq = s'.host.seq)
    (hentries : s.host.journal.entries <+: t.host.journal.entries)
    (hmem : ∃ a ∈ t.host.journal.entries, a.event = i.event) : Kept S v t := by
  refine ⟨⟨q, (htracked fun e he => ?_).of_eq hg hhead hseq⟩, fun x e he => ?_⟩
  · obtain ⟨hx, a, ha, rfl⟩ := h.origin _ e he
    exact hsame a ha hx
  · rw [hg, hsigned, Function.update_apply] at he
    split_ifs at he with hx
    · obtain rfl := Option.some.inj he
      exact ⟨hx.symm, hmem⟩
    · obtain ⟨hex, a, ha, hae⟩ := h.origin x e he
      exact ⟨hex, a, hentries.subset ha, hae⟩

theorem kept_new (S : Scheme H K) (v : Validator) (n : ℕ) (peers genesis : PeerSet K) :
    Kept S v (new peers genesis (InmemStore.new n)) := by
  have hsound := Core.sound_new S n peers genesis
  obtain ⟨h, hi⟩ := Core.exists_init (H := H) n genesis
  have hsigned := Listed.signedEvents_init hi
  have hpec : (ParticipantEventsCache.new n).Enrolls h.store.participantEventsCache := by
    unfold Hashgraph.init at hi
    split at hi
    · next st hs =>
      obtain rfl := Except.ok.inj hi
      exact ParticipantEventsCache.enrolls_setPeerSet hs
    · cases hi
  have hg : (Core.new peers genesis (InmemStore.new n) : Core H K).hg = h := Core.new_hg hi
  rw [← hg] at hsigned hpec
  refine ⟨⟨-1, ⟨hsound.wellFormed, hsound.lastConsensusRound⟩, ?_⟩, fun x e he => ?_⟩
  · change Tip _ none (-1) (signedEvents (Core.new peers genesis (InmemStore.new n)).hg.store.eventCache)
      (Core.new peers genesis (InmemStore.new n)).hg.store.participantEventsCache
    rw [hsigned]
    exact (Tip.new _ n).enrolls hpec
  · change signedEvents (Core.new peers genesis (InmemStore.new n)).hg.store.eventCache x = some e at he
    rw [hsigned] at he
    cases he

variable (S rt v app) in
theorem entries_insert (event : SignedEvent H K) (wire : WireInfo) (fill : Bool)
    (s : PoolCore H K) :
    (Exec.exec (insertEventAndRunConsensus S rt v app event wire fill) s).2.host.journal.entries =
      s.host.journal.entries := by
  have hfeed := (head_feed S rt v app s ⟨event, wire, fill⟩).2.2
  rw [Session.feed] at hfeed
  rw [insertEventAndRunConsensus, Exec.exec_bind]
  generalize Exec.exec (Session.insertEventAndRunConsensus S rt (commitCallback S v app) event
    wire fill) s = res at hfeed ⊢
  obtain ⟨_ | _, t⟩ := res
  · exact hfeed
  · simp only at hfeed ⊢
    split_ifs <;> exact hfeed

/-- The core makes an event. -/
def makeEvent (S : Scheme H K) (rt : Runtime) (v : Validator) (app : Application K)
    (event : SignedEvent H K) (s : PoolCore H K) : PoolCore H K :=
  (Exec.exec (do insertEventAndRunConsensus S rt v app event {} true; modify (trim event)) s).2

/-- The core inserts an event that it has read. -/
def takeEvent (S : Scheme H K) (rt : Runtime) (v : Validator) (app : Application K)
    (event : SignedEvent H K) (wire : WireInfo) (s : PoolCore H K) : PoolCore H K :=
  (Exec.exec (insertEventAndRunConsensus S rt v app event wire false) (noteRead event s)).2

theorem entries_makeEvent (event : SignedEvent H K) (s : PoolCore H K) :
    s.host.journal.entries <+: (makeEvent S rt v app event s).host.journal.entries := by
  have hent := entries_insert S rt v app event {} true s
  rw [makeEvent, Exec.exec_bind]
  generalize Exec.exec (insertEventAndRunConsensus S rt v app event {} true) s = res at hent ⊢
  obtain ⟨_ | _, t⟩ := res
  · exact hent ▸ List.prefix_refl _
  · change s.host.journal.entries <+: t.host.journal.entries ++ [.made event]
    exact hent ▸ List.prefix_append _ _

variable (S rt v app) in
theorem entries_takeEvent (event : SignedEvent H K) (wire : WireInfo) (s : PoolCore H K) :
    (takeEvent S rt v app event wire s).host.journal.entries =
      s.host.journal.entries ++ [.read event] :=
  entries_insert S rt v app event wire false (noteRead event s)

variable (rt app) in
/-- An own event on top of the head is refused without a trace, or is the new head. -/
theorem Kept.makeEvent (h : Kept S v s) {event : SignedEvent H K}
    (hcreator : event.creator = (v.publicKeyHex : K)) (hindex : event.body.index = s.host.seq + 1) :
    (∃ ti, makeEvent S rt v app event s =
      { s with hg := { s.hg with topologicalIndex := ti } }) ∨
    ∃ s', makeEvent S rt v app event s = s' ∧
      s'.host.journal.entries = s.host.journal.entries ++ [.made event] ∧
      s'.host.head = some (event.hex S) ∧ s'.host.seq = event.body.index ∧
      signedEvents s'.hg.store.eventCache =
        Function.update (signedEvents s.hg.store.eventCache) (event.hex S) (some event) ∧
      (s'.host.journal.Distinct S → Kept S v s') := by
  obtain ⟨q, ht⟩ := h.tracked
  have hent := entries_insert S rt v app event {} true s
  rw [PoolCore.makeEvent, Exec.exec_bind]
  rcases ht.insert rt app ⟨event, {}, true⟩ fun _ _ => hindex with
    ⟨err, ti, he⟩ | ⟨q', s', t, he, htracked, hparent, hsigned, -, hs'⟩
  · rw [he]
    exact Or.inl ⟨ti, rfl⟩
  · rw [he] at hent ⊢
    simp only [if_pos hcreator] at hs'
    have hent' : (trim event s').host.journal.entries = s.host.journal.entries ++ [.made event] :=
      congrArg (· ++ [Entry.made event]) hent
    refine Or.inr ⟨trim event s', rfl, hent', by rw [hs']; rfl, by rw [hs']; rfl, hsigned,
      fun hd => ?_⟩
    refine h.insert (fun a ha hx => ?_) hsigned htracked rfl rfl rfl
      (hent' ▸ List.prefix_append _ _) ⟨.made event, by rw [hent']; simp, rfl⟩
    exact hd a (by rw [hent']; exact List.mem_append_left _ ha) (.made event)
      (by rw [hent']; simp) hx

variable (rt app) in
/-- An event that was read is refused without a trace, or is stored, and is the new head if
it is an own one. -/
theorem Kept.takeEvent (h : Kept S v s) (event : SignedEvent H K) (wire : WireInfo)
    (hown : event.creator = (v.publicKeyHex : K) → event.body.selfParent = s.host.head →
      event.body.index = s.host.seq + 1) :
    (∃ ti, takeEvent S rt v app event wire s =
      { noteRead event s with hg := { s.hg with topologicalIndex := ti } }) ∨
    ∃ s', takeEvent S rt v app event wire s = s' ∧
      (event.creator = (v.publicKeyHex : K) → event.body.selfParent = s.host.head) ∧
      (event.creator ≠ (v.publicKeyHex : K) →
        s'.host.head = s.host.head ∧ s'.host.seq = s.host.seq) ∧
      signedEvents s'.hg.store.eventCache =
        Function.update (signedEvents s.hg.store.eventCache) (event.hex S) (some event) ∧
      (s'.host.journal.Distinct S → Kept S v s') := by
  obtain ⟨q, ht⟩ := h.tracked
  have hent := entries_takeEvent S rt v app event wire s
  have ht₁ : Tracked S v q (noteRead event s) := ht.of_eq rfl rfl rfl
  rw [PoolCore.takeEvent] at hent ⊢
  rcases ht₁.insert rt app ⟨event, wire, false⟩ hown with
    ⟨err, ti, he⟩ | ⟨q', s', t, he, htracked, hparent, hsigned, hfeed, hs'⟩
  · rw [he]
    exact Or.inl ⟨ti, rfl⟩
  · rw [he] at hent ⊢
    refine Or.inr ⟨s', rfl, hparent, fun hne => ?_, hsigned, fun hd => ?_⟩
    · obtain ⟨hhead, hseq, -⟩ := head_feed S rt v app (noteRead event s) ⟨event, wire, false⟩
      simp only [if_neg hne] at hs'
      rw [hs', hfeed]
      exact ⟨hhead, hseq⟩
    · refine h.insert (fun a ha hx => ?_) hsigned htracked rfl rfl rfl
        (hent ▸ List.prefix_append _ _) ⟨.read event, by rw [hent]; simp, rfl⟩
      exact hd a (by rw [hent]; exact List.mem_append_left _ ha) (.read event)
        (by rw [hent]; simp) hx

/-- What a journal says about its last event : if it is an own one that was read on top of
the head, then it claims the next index. -/
theorem Kept.index_of_follows (h : Kept S v s) {event : SignedEvent H K} {j : Journal H K}
    (hj : j.entries = s.host.journal.entries ++ [.read event])
    (hf : j.Follows S (v.publicKeyHex : K)) (hcreator : event.creator = (v.publicKeyHex : K))
    (hparent : event.body.selfParent = s.host.head) : event.body.index = s.host.seq + 1 := by
  obtain ⟨q, ht⟩ := h.tracked
  obtain ⟨hfirst, hnext⟩ := hf _ event [] hj hcreator
  cases hhead : s.host.head with
  | none =>
    rw [hfirst (hparent.trans hhead), ht.tip.seq_none hhead]
    rfl
  | some x =>
    obtain ⟨e, he, -, hindex⟩ := ht.tip.head_some x hhead
    obtain ⟨hx, a, ha, rfl⟩ := h.origin x e he
    rw [hnext a ha (by rw [hparent, hhead, hx]), hindex]

/-- The calls keep the head at the last own event, if own events that are read claim the
index after their self-parent's. -/
theorem steady_kept : Steady S rt v app (Maintains
    (fun j => j.Distinct S ∧ j.Follows S (v.publicKeyHex : K)) (Kept S v)) where
  refl := .refl
  trans := .trans fun hp hj => ⟨hj.1.mono hp, hj.2.mono hp⟩
  tick s n := ⟨List.prefix_refl _, fun _ h => h.tick n⟩
  submit s _ _ := ⟨List.prefix_refl _, fun _ h => h.of_eq rfl rfl rfl (List.prefix_refl _)⟩
  heads s _ := ⟨List.prefix_refl _, fun _ h => h.of_eq rfl rfl rfl (List.prefix_refl _)⟩
  own s sigs otherHead t _ event he := by
    refine ⟨entries_makeEvent event s, fun hj h => ?_⟩
    have hcreator : event.creator = (v.publicKeyHex : K) := by rw [he]; rfl
    have hindex : event.body.index = s.host.seq + 1 := by rw [he]; rfl
    rcases h.makeEvent rt app hcreator hindex with
      ⟨ti, hs'⟩ | ⟨s', hs', -, -, -, -, hkept⟩
    · rw [makeEvent] at hs'
      rw [hs']
      exact h.of_undisturbed (Hashgraph.undisturbed_topologicalIndex s.hg ti) rfl
    · rw [makeEvent] at hs'
      rw [hs'] at hj ⊢
      exact hkept hj.1
  read s event wire := by
    have hent := entries_takeEvent S rt v app event wire s
    refine ⟨hent ▸ List.prefix_append _ _, fun hj h => ?_⟩
    rcases h.takeEvent rt app event wire (h.index_of_follows hent hj.2) with
      ⟨ti, hs'⟩ | ⟨s', hs', -, -, -, hkept⟩
    · rw [takeEvent] at hs'
      rw [hs']
      have hnoted : Kept S v (noteRead event s) := h.of_eq rfl rfl rfl (List.prefix_append _ _)
      exact hnoted.of_undisturbed (Hashgraph.undisturbed_topologicalIndex s.hg ti) rfl
    · rw [takeEvent] at hs'
      rw [hs'] at hj ⊢
      exact hkept hj.1

end PoolCore

end Babble
