import Babble.Exchange

/-!
# Delivery of a difference

What a peer answers is the beginning of a list in which the parents of an event are known to
the node that has asked, or come first (`ClosedFrom`). When it is delivered, the node may have
got some of the events from others. A sync skips these and stores the rest, and the node makes
its own events on top of the heads; nothing of this fails (`sync_delivers`).
-/

set_option linter.unusedSectionVars false

namespace Babble

variable {ι H K : Type} [DecidableEq ι] [DecidableEq H] [DecidableEq K] [Hex H] [Hex K]

/-- The application submits internal transactions that are signed. -/
def Application.Submits (S : Scheme H K) (app : Application K) : Prop :=
  ∀ b, ∀ tx ∈ app.internalTransactions b, tx.verify S = .ok true

theorem verifyAll_ok {S : Scheme H K} {l : List (InternalTransaction K)}
    (h : ∀ tx ∈ l, tx.verify S = .ok true) : verifyAll S l = .ok () := by
  induction l with
  | nil => rfl
  | cons tx l ih =>
    rw [verifyAll, h tx List.mem_cons_self]
    exact ih fun tx' htx' => h tx' (List.mem_cons_of_mem tx htx')

namespace PoolCore

variable {S : Scheme H K} {rt : Runtime} {v : Validator} {app : Application K}
  {clock : ℕ → Int64} {Q : Set K} {O : Set (SignedEvent H K)} {W : Set (WireEvent K)}
  {U : Universe S} {P : PeerSet K} {size : ℕ} {M : List (SignedEvent H K)}
  {B : Set (SignedEvent H K)} {s s' : PoolCore H K}

/-- The internal transactions that wait are signed. -/
def PoolVerified (S : Scheme H K) (s : PoolCore H K) : Prop :=
  ∀ tx ∈ s.host.internalTransactionPool, tx.verify S = .ok true

variable (rt v) in
theorem PoolVerified.feed (happ : app.Submits S) (h : PoolVerified S s) (i : Session.Input H K) :
    PoolVerified S (Session.feed S rt (commitCallback S v app) s i) := by
  have hun : Session.Unshelved fun s s' : PoolCore H K => PoolVerified S s → PoolVerified S s' :=
    fun s hg _ => id
  refine hun.feed (fun h h' => h' ∘ h) (fun fr s hs => ?_) s i h
  rw [Session.commitFrame_eq]
  split_ifs
  · exact hs
  · intro tx htx
    rcases List.mem_append.1 htx with htx | htx
    · exact hs tx htx
    · exact happ _ tx htx

variable (rt v) in
theorem PoolVerified.makeEvent (happ : app.Submits S) (h : PoolVerified S s)
    (event : SignedEvent H K) : PoolVerified S (PoolCore.makeEvent S rt v app event s) := by
  have hf := h.feed rt v happ ⟨event, {}, true⟩
  obtain ⟨head, seq, heq | heq⟩ := makeEvent_eq S rt v app event s
  · rw [heq]
    exact hf
  · rw [heq]
    exact fun tx htx => hf tx (List.mem_of_mem_drop htx)

variable (rt v) in
theorem PoolVerified.takeEvent (happ : app.Submits S) (h : PoolVerified S s)
    (event : SignedEvent H K) (wire : WireInfo) :
    PoolVerified S (PoolCore.takeEvent S rt v app event wire s) := by
  obtain ⟨head, seq, heq⟩ := insert_eq S rt v app event wire false (noteRead event s)
  rw [PoolCore.takeEvent, heq]
  exact PoolVerified.feed rt v (s := noteRead event s) happ h _

/-! ## Events that were sent -/

/-- Every event of the list has its parents in `F` or before it in the list. -/
def ClosedFrom (S : Scheme H K) : Set H → List (SignedEvent H K) → Prop
  | _, [] => True
  | F, e :: rest => (∀ x, e.body.selfParent = some x ∨ e.body.otherParent = some x → x ∈ F) ∧
      ClosedFrom S (insert (e.hex S) F) rest

theorem ClosedFrom.mono {F F' : Set H} (hF : F ⊆ F') {l : List (SignedEvent H K)}
    (h : ClosedFrom S F l) : ClosedFrom S F' l := by
  induction l generalizing F F' with
  | nil => trivial
  | cons e rest ih =>
    exact ⟨fun x hx => hF (h.1 x hx), ih (Set.insert_subset_insert hF) h.2⟩

theorem closedFrom_of_take {F : Set H} {l : List (SignedEvent H K)}
    (h : ∀ (m : ℕ) e, l[m]? = some e → ∀ x, e.body.selfParent = some x ∨
      e.body.otherParent = some x → x ∈ F ∨ ∃ p ∈ l.take m, p.hex S = x) : ClosedFrom S F l := by
  induction l generalizing F with
  | nil => trivial
  | cons a rest ih =>
    refine ⟨fun x hx => (h 0 a rfl x hx).resolve_right ?_, ih fun m e he x hx => ?_⟩
    · rintro ⟨p, hp, -⟩
      cases hp
    · rcases h (m + 1) e he x hx with hF | ⟨p, hp, rfl⟩
      · exact .inl (.inr hF)
      · rw [List.take_succ_cons, List.mem_cons] at hp
        rcases hp with rfl | hp
        · exact .inl (.inl rfl)
        · exact .inr ⟨p, hp, rfl⟩

/-- The hashes of the stored events. -/
def stored (s : PoolCore H K) : Set H :=
  {x | x ∈ s.hg.store.eventCache}

variable (v app) in
/-- An insertion of an event that is accepted returns. -/
theorem insert_ok {q : ℤ} (hs : Session.Sound S q s) {event : SignedEvent H K} {wire : WireInfo}
    {fill : Bool} (hacc : Hashgraph.Accepts S rt s.hg ⟨event, wire, fill⟩) :
    (Exec.exec (insertEventAndRunConsensus S rt v app event wire fill) s).1 = .ok () := by
  have hcb : Session.Hosting (commitCallback S v app : CommitCallback (PoolState H K) H K) :=
    hosting_commitCallback
  rcases hs.feed_cases rt hcb.undisturbing ⟨event, wire, fill⟩ with ⟨err, ti, hno, -⟩ | ⟨s', -, -, he, -⟩
  · exact absurd hacc hno
  · rw [insertEventAndRunConsensus, Exec.exec_bind, he]
    simp only
    split_ifs <;> rfl

/-- An insertion of an event that fails the checks fails like them. -/
theorem insert_of_checkEvent {event : SignedEvent H K} {wire : WireInfo} {fill : Bool} {err : Err}
    (hcheck : Hashgraph.checkEvent S s.hg.store event = .error err) :
    (Exec.exec (insertEventAndRunConsensus S rt v app event wire fill) s).1 = .error err := by
  have hins : Exec.exec (Hashgraph.insertEvent S rt event wire fill) s.hg = (.error err, s.hg) := by
    rw [Hashgraph.insertEvent, Exec.exec_bind, Hashgraph.exec_read, hcheck]
  rw [insertEventAndRunConsensus, Exec.exec_bind, Session.insertEventAndRunConsensus,
    Exec.exec_bind, Session.exec_onHashgraph, hins]

/-- Events that come after their parents are read and stored, or are stored already. -/
theorem syncEvents_delivers (hset : Setting v app Q O U P M size) (fromID : UInt32)
    {E : Set (SignedEvent H K)} (hverified : ∀ e ∈ E, e.verify S = .ok true ∧ e.creator ∈ Q)
    (hsubmits : app.Submits S) {ws : List (WireEvent K)} {es : List (SignedEvent H K)}
    (hsent : List.Forall₂ (Sent S Q E) ws es) (hW : ∀ w ∈ ws, w ∈ W) :
    ∀ {B : Set (SignedEvent H K)} {s : PoolCore H K} (otherHead), Citizen S v Q O W s →
      Resident B Q U P rt size app.commit s → Known S O M s.host.journal →
      s.host.journal.among O = E → PoolVerified S s → ClosedFrom S s.stored es →
      ∃ head t, Exec.exec (syncEvents S rt v app fromID otherHead ws) s = (.ok head, t) ∧
        PoolVerified S t ∧ ∀ e, e ∈ B ∨ e ∈ es → t.hg.Stores S e := by
  induction hsent with
  | nil =>
    intro B s otherHead _ hr _ _ hpool _
    refine ⟨otherHead, s, rfl, hpool, fun e he => hr.stored e (he.resolve_right ?_)⟩
    rintro ⟨⟩
  | @cons we e ws es hwe _ ih =>
    intro B s otherHead hc hr hp hE hpool hclosed
    have ih := @ih fun w hw => hW w (List.mem_cons_of_mem we hw)
    subst hE
    have hf := Resident.found hset hp hc hr
    obtain ⟨hver, hkey⟩ := hverified e hwe.mem
    obtain ⟨wire, hread⟩ := hwe.exists_read hf hset.distinct (hr.mem_repertoire hset) hclosed.1
    have hr₀ : Resident (B ∪ {e | s.hg.Stores S e}) Q U P rt size app.commit s :=
      hr.with_stored fun e he => he.elim (hr.stored e) id
    obtain ⟨hc', hr', hnew⟩ := Resident.takeEvent hset hc hr₀
      ⟨we, hW we List.mem_cons_self, hread⟩ hp
    have hmade := made_noteRead (entries_takeEvent S rt v app e wire s)
    have hp' := hp.of_made hmade
    have hpool' := hpool.takeEvent rt v hsubmits e wire
    have hamong : (takeEvent S rt v app e wire s).host.journal.among O = s.host.journal.among O := by
      rw [Journal.among, hmade, Journal.among]
    -- the event is stored already, and is refused, or it is new, and is accepted
    have hres : (s.hg.Stores S e ∧ (Exec.exec (insertEventAndRunConsensus S rt v app e wire false)
          (noteRead e s)).1 = .error (.selfParent "Self-parent not last known event by creator" true)) ∨
        (Exec.exec (insertEventAndRunConsensus S rt v app e wire false) (noteRead e s)).1 =
          .ok () := by
      by_cases hstored : s.hg.Stores S e
      · exact .inl ⟨hstored, insert_of_checkEvent (s := noteRead e s)
          (hf.checkEvent_of_stores hstored hver)⟩
      · obtain ⟨q, ht⟩ := hc.tracked
        have ht₁ : Tracked S v q (noteRead e s) := ht.of_eq rfl rfl rfl
        exact .inr (insert_ok v app ht₁.sound (hf.accepts hwe.mem hstored hclosed.1
          (hr.opens.window _ hkey) hver wire false (by rintro ⟨⟩)))
    rw [takeEvent] at hc' hr' hnew hp' hpool' hamong
    have hmem : ∀ e', e' ∈ B ∨ e' ∈ e :: es → e' ∈ B ∪ {e} ∨ e' ∈ es := by
      rintro e' (he' | he')
      · exact .inl (.inl he')
      · exact (List.mem_cons.1 he').imp .inr id
    simp only [syncEvents, Exec.exec_bind, Exec.exec_get, Exec.exec_ofExcept, hread,
      Exec.exec_modify, Exec.exec_attempt]
    generalize Exec.exec (insertEventAndRunConsensus S rt v app e wire false) (noteRead e s) =
      res at hc' hr' hnew hp' hpool' hamong hres ⊢
    obtain ⟨r, t⟩ := res
    -- either way the event is stored then, and the rest is closed
    have hstored : t.hg.Stores S e := hres.elim (fun h => hr'.stored e (.inr h.1)) hnew
    have hrB : Resident (B ∪ {e}) Q U P rt size app.commit t := by
      refine hr'.with_stored ?_
      rintro e' (he' | rfl)
      · exact hr'.stored e' (.inl he')
      · exact hstored
    have hclosed' : ClosedFrom S t.stored es := by
      refine hclosed.2.mono (Set.insert_subset (signedEvents_isSome.1 ⟨e, hstored⟩) ?_)
      intro x hx
      obtain ⟨ex, hex⟩ := signedEvents_isSome.2 hx
      obtain ⟨-, rfl⟩ := hf.origin x ex hex
      exact signedEvents_isSome.1 ⟨ex, hr'.stored ex (.inr hex)⟩
    rcases hres with ⟨-, rfl⟩ | rfl
    · obtain ⟨head, t', he, hpool'', hall⟩ := ih otherHead hc' hrB hp' hamong hpool' hclosed'
      exact ⟨head, t', he, hpool'', fun e' he' => hall e' (hmem e' he')⟩
    · have hr'' := hrB.passHead we.body.creatorID we.body.index
      obtain ⟨heads, heq⟩ := passHead_eq we.body.creatorID we.body.index t
      rw [heq] at hr''
      obtain ⟨head, t', he, hpool'', hall⟩ := ih
        (if we.body.creatorID = fromID then some e else otherHead) (hc'.of_heads heads) hr''
        hp' hamong hpool' hclosed'
      refine ⟨head, t', ?_, hpool'', fun e' he' => hall e' (hmem e' he')⟩
      simp only [Exec.exec_bind, Exec.exec_modify, heq]
      exact he

/-! ## Own events -/

/-- A validator that signs : it is a peer, its signatures are valid, and its application
submits what is signed. -/
structure Signing (S : Scheme H K) (v : Validator) (app : Application K) (Q : Set K) : Prop where
  signs : v.Signs S
  member : (v.publicKeyHex : K) ∈ Q
  submits : app.Submits S

/-- The next event of the node is accepted. -/
theorem accepts_selfEvent (hset : Setting v app Q O U P M size) (hv : Signing S v app Q)
    (hE : ∀ e ∈ s.host.journal.among O, e.creator ∈ Q) (hc : Citizen S v Q O W s)
    (hr : Resident B Q U P rt size app.commit s) (hpool : PoolVerified S s)
    {otherHead : Option H} (hother : ∀ x ∈ otherHead, x ∈ s.stored) (sigs : List BlockSignature)
    (t : Int64) : Hashgraph.Accepts S rt s.hg ⟨selfEvent S v s sigs otherHead t, {}, true⟩ := by
  obtain ⟨q, ht⟩ := hc.tracked
  obtain ⟨ri, hri⟩ := Option.ne_none_iff_exists'.1 (hr.opens.window _ hv.member)
  have hcreator : (selfEvent S v s sigs otherHead t).creator = (v.publicKeyHex : K) := rfl
  have hchecked : Hashgraph.Checked S s.hg.store (selfEvent S v s sigs otherHead t) := by
    refine ⟨?_, ?_, fun x hx => hother x hx⟩
    · have hall : verifyAll S (selfEvent S v s sigs otherHead t).body.internalTransactions =
          .ok () := verifyAll_ok hpool
      rw [SignedEvent.verify, hall]
      exact hv.signs _
    · rw [hcreator]
      rcases ht.tip.getLast_eq with ⟨err, hlast, hhead, hempty | hnone⟩ | ⟨x, hlast, hhead⟩
      · exact .inr ⟨err, hlast, hempty, hhead⟩
      · cases hri.symm.trans hnone
      · exact .inl ⟨x, hlast, hhead⟩
  have hplaceable : Hashgraph.Placeable S s.hg.store (selfEvent S v s sigs otherHead t) true := by
    refine ⟨fun _ => ⟨(hr.mem_repertoire hset _).2 hv.member, fun x hx => ?_, fun x hx => ?_⟩,
      .inr ⟨ri, hri, .inr ⟨?_, ?_⟩⟩⟩
    · obtain ⟨e, he, -⟩ := ht.tip.head_some x hx
      exact signedEvents_isSome.1 ⟨e, he⟩
    · obtain ⟨ev, hev⟩ := Map.mem_iff_lookup.1 (hother x hx)
      refine ⟨ev, hev, (hr.mem_repertoire hset _).2 (hE _ (hc.serving.origin x _ ?_).1)⟩
      exact signedEvents_eq_some.2 ⟨ev, hev, rfl⟩
    · rw [RollingIndex.oldestCachedIndex, (ht.tip.window ri hri).2]
      change _ ≤ s.host.seq + 1
      omega
    · rw [(ht.tip.window ri hri).2]
      rfl
  obtain ⟨-, -, h', -, -, -, -, hexec⟩ :=
    Hashgraph.exec_insertEvent_of_placeable rt {} hchecked hplaceable
  exact congrArg Prod.fst hexec

variable (S rt v app clock) in
/-- What making an event amounts to : nothing, or an insertion of the next event. -/
theorem addSelfEvent_cases (otherHead : Option H) (s : PoolCore H K) :
    Exec.exec (addSelfEvent S rt v app clock otherHead) s = (.ok (), s) ∨
    ∃ n sigs t, sigs.Perm (s.host.selfBlockSignatures.toPairs.map Prod.snd) ∧
      Exec.exec (addSelfEvent S rt v app clock otherHead) s =
        Exec.exec (do
          insertEventAndRunConsensus S rt v app (selfEvent S v s sigs otherHead t) {} true
          modify (trim (selfEvent S v s sigs otherHead t)))
        { s with hg := { s.hg with memo := { s.hg.memo with tick := n } } } := by
  rw [addSelfEvent, Exec.exec_bind, Exec.exec_get]
  by_cases hround : s.hg.store.lastRound < s.host.acceptedRound
  · simp only [if_pos hround]
    exact .inl rfl
  · simp only [if_neg hround]
    rw [Exec.exec_bind, exec_visit]
    exact .inr ⟨_, _, _, rt.order_perm _ _, rfl⟩

variable (clock) in
/-- A node makes its next event. -/
theorem addSelfEvent_ok (hset : Setting v app Q O U P M size) (hv : Signing S v app Q)
    (hE : ∀ e ∈ s.host.journal.among O, e.creator ∈ Q) (hc : Citizen S v Q O W s)
    (hr : Resident B Q U P rt size app.commit s) (hpool : PoolVerified S s)
    (hp : Known S O M s.host.journal) {otherHead : Option H}
    (hother : ∀ x ∈ otherHead, x ∈ s.stored) :
    (Exec.exec (addSelfEvent S rt v app clock otherHead) s).1 = .ok () ∧
      PoolVerified S (Exec.exec (addSelfEvent S rt v app clock otherHead) s).2 := by
  rcases addSelfEvent_cases S rt v app clock otherHead s with he | ⟨n, sigs, t, hsigs, he⟩
  · rw [he]
    exact ⟨rfl, hpool⟩
  · have htick := (steadyOwn_resident rt W B hset).tick s n
    rw [he]
    set s₁ : PoolCore H K := { s with hg := { s.hg with memo := { s.hg.memo with tick := n } } }
    set event := selfEvent S v s sigs otherHead t
    have hevent : event = selfEvent S v s₁ sigs otherHead t := rfl
    obtain ⟨hc₁, hr₁⟩ := htick.2 hp ⟨hc, hr⟩
    obtain ⟨q, ht⟩ := hc₁.tracked
    have hacc := accepts_selfEvent (s := s₁) hset hv hE hc₁ hr₁ hpool hother sigs t
    refine ⟨?_, PoolVerified.makeEvent rt v (s := s₁) hv.submits hpool event⟩
    have hok := insert_ok v app ht.sound hacc
    rw [← hevent] at hok
    rw [Exec.exec_bind]
    generalize Exec.exec (insertEventAndRunConsensus S rt v app event {} true) s₁ = res at hok ⊢
    obtain ⟨r, t'⟩ := res
    obtain rfl : r = .ok () := hok
    rfl

section Heads

variable (S rt v app clock) in
/-- The body of the loop in `recordHeads`. -/
def recordHead (h : UInt32 × Option (SignedEvent H K)) : Exec Err (PoolCore H K) Unit := do
  addSelfEvent S rt v app clock (h.2.map fun ev => ev.hex S)
  modify (deleteHead h.1)

variable (clock) in
theorem SteadyOwn.recordHead {r : PoolCore H K → PoolCore H K → Prop}
    (h : SteadyOwn S rt v app r) (head : UInt32 × Option (SignedEvent H K)) :
    Exec.Relates r (recordHead S rt v app clock head) :=
  Exec.Relates.bind h.trans (h.addSelfEvent _) fun _ => Exec.relates_modify fun s =>
    h.deleteHead s _

variable (clock) in
theorem SteadyOwn.forM_recordHead {r : PoolCore H K → PoolCore H K → Prop}
    (h : SteadyOwn S rt v app r) (heads : List (UInt32 × Option (SignedEvent H K))) :
    Exec.Relates r (heads.forM (PoolCore.recordHead S rt v app clock)) :=
  Exec.relates_forM h.refl h.trans (h.recordHead clock)

/-- Events are made on top of the heads of a list. -/
theorem forM_recordHead_ok (hset : Setting v app Q O U P M size) (hv : Signing S v app Q)
    (heads : List (UInt32 × Option (SignedEvent H K))) (hheads : ∀ h ∈ heads, ∀ ev ∈ h.2, ev ∈ B) :
    ∀ {s : PoolCore H K}, Citizen S v Q O W s → Resident B Q U P rt size app.commit s →
      PoolVerified S s →
      Known S O M (Exec.exec (heads.forM (recordHead S rt v app clock)) s).2.host.journal →
      (∀ e ∈ (Exec.exec (heads.forM (recordHead S rt v app clock)) s).2.host.journal.among O,
        e.creator ∈ Q) →
      (Exec.exec (heads.forM (recordHead S rt v app clock)) s).1 = .ok () := by
  have hentries := (steadyOn_entries : SteadyOn S rt v app W _).toSteadyOwn
  induction heads with
  | nil => exact fun {_} _ _ _ _ _ => rfl
  | cons h rest ih =>
    intro s hc hr hpool hp hE
    have hother : ∀ x ∈ h.2.map fun ev => ev.hex S, x ∈ s.stored := by
      intro x hx
      obtain ⟨ev, hev, rfl⟩ := Option.map_eq_some_iff.1 hx
      exact signedEvents_isSome.1 ⟨ev, hr.stored ev (hheads h List.mem_cons_self ev hev)⟩
    have hsub := hentries.forM_recordHead clock (h :: rest) s
    have hone := addSelfEvent_ok clock hset hv
      (fun e he => hE e (Journal.among_mono O hsub he)) hc hr hpool (hp.mono hsub) hother
    have hstep := (steadyOwn_resident rt W B hset).recordHead clock h s
    have hcons : Exec.exec ((h :: rest).forM (recordHead S rt v app clock)) s =
        Exec.exec (rest.forM (recordHead S rt v app clock))
          (Exec.exec (recordHead S rt v app clock h) s).2 := by
      change Exec.exec (recordHead S rt v app clock h >>= fun _ =>
        rest.forM (recordHead S rt v app clock)) s = _
      rw [Exec.exec_bind, recordHead, Exec.exec_bind]
      generalize Exec.exec (addSelfEvent S rt v app clock (h.2.map fun ev => ev.hex S)) s = res
        at hone
      obtain ⟨r, t⟩ := res
      obtain rfl : r = .ok () := hone.1
      rfl
    have hpool' : PoolVerified S (Exec.exec (recordHead S rt v app clock h) s).2 := by
      rw [recordHead, Exec.exec_bind]
      generalize Exec.exec (addSelfEvent S rt v app clock (h.2.map fun ev => ev.hex S)) s = res
        at hone
      obtain ⟨r, t⟩ := res
      obtain rfl : r = .ok () := hone.1
      exact hone.2
    rw [hcons] at hp hE ⊢
    obtain ⟨hc', hr'⟩ := hstep.2 (hp.mono (hentries.forM_recordHead clock rest _)) ⟨hc, hr⟩
    exact ih (fun h' hh' => hheads h' (List.mem_cons_of_mem h hh')) hc' hr' hpool' hp hE

/-- The heads that are noted are recorded. -/
theorem recordHeads_ok (hset : Setting v app Q O U P M size) (hv : Signing S v app Q)
    (hc : Citizen S v Q O W s) (hr : Resident B Q U P rt size app.commit s)
    (hpool : PoolVerified S s)
    (hp : Known S O M (Exec.exec (recordHeads S rt v app clock) s).2.host.journal)
    (hE : ∀ e ∈ (Exec.exec (recordHeads S rt v app clock) s).2.host.journal.among O,
      e.creator ∈ Q) :
    (Exec.exec (recordHeads S rt v app clock) s).1 = .ok () := by
  set s₁ : PoolCore H K :=
    { s with hg := { s.hg with memo := { s.hg.memo with tick := s.hg.memo.tick + 1 } } } with hs₁
  have heq : Exec.exec (recordHeads S rt v app clock) s =
      Exec.exec ((rt.order s.hg.memo.tick s.host.heads.toPairs).forM
        (recordHead S rt v app clock)) s₁ := rfl
  have hentries := (steadyOn_entries : SteadyOn S rt v app W _).toSteadyOwn
  have hforM := hentries.forM_recordHead clock
    (rt.order s.hg.memo.tick s.host.heads.toPairs) s₁
  rw [heq] at hp hE ⊢
  obtain ⟨hc₁, hr₁⟩ := ((steadyOwn_resident rt W B hset).tick s _).2
    (hp.mono hforM) ⟨hc, hr⟩
  have hr₁' : Resident {e | s.hg.Stores S e} Q U P rt size app.commit s₁ :=
    hr₁.with_stored fun _ => id
  refine forM_recordHead_ok hset hv _ (fun h hh ev hev => hr₁.heads h.1 ev ?_) hc₁ hr₁' hpool hp hE
  have hmem := (rt.order_perm _ _).subset hh
  rw [← show h.2 = some ev from hev]
  exact Map.mem_toPairs.1 hmem

end Heads

variable (clock) in
/-- A sync with events that come after their parents returns, and the events are stored. -/
theorem sync_delivers (hset : Setting v app Q O U P M size) (hv : Signing S v app Q)
    (hO : ∀ e ∈ O, e.verify S = .ok true ∧ e.creator ∈ Q) (fromID : UInt32)
    {ws : List (WireEvent K)} {es : List (SignedEvent H K)}
    (hsent : List.Forall₂ (Sent S Q (s.host.journal.among O)) ws es) (hW : ∀ w ∈ ws, w ∈ W)
    (hc : Citizen S v Q O W s) (hr : Resident B Q U P rt size app.commit s)
    (hpool : PoolVerified S s) (hclosed : ClosedFrom S s.stored es)
    (hp : Known S O M (Exec.exec (sync S rt v app clock fromID ws) s).2.host.journal) :
    (Exec.exec (sync S rt v app clock fromID ws) s).1 = .ok () ∧ ∀ e, e ∈ B ∨ e ∈ es →
      (Exec.exec (sync S rt v app clock fromID ws) s).2.hg.Stores S e := by
  have hentries : SteadyOn S rt v app W _ := steadyOn_entries
  have hperform : Exec.Relates _ (perform S rt v app clock (.sync fromID ws)) :=
    hentries.toSteadyOwn.perform hentries.learnsOn (.sync fromID ws)
      fun _ _ he => by cases he; exact hW
  have hps : Known S O M s.host.journal := hp.mono (hperform s)
  have hverified : ∀ e ∈ s.host.journal.among O, e.verify S = .ok true ∧ e.creator ∈ Q := by
    rintro e (he | he)
    · exact hO e he
    · exact hc.verified e he
  obtain ⟨head, t, he, hpool', hall⟩ := syncEvents_delivers hset fromID hverified
    hv.submits hsent hW none hc hr hps rfl hpool hclosed
  have hnone : ∀ ev ∈ (none : Option (SignedEvent H K)), s.hg.Stores S ev := by rintro ev ⟨⟩
  obtain ⟨hc', hr', hhead⟩ := resident_syncEvents hset fromID hW hc hr hps hnone
  rw [he] at hc' hr' hhead
  -- the head is noted, and own events are made if there is work
  have hsync : Exec.exec (sync S rt v app clock fromID ws) s =
      if (setHead fromID head t).busy ∨ (setHead fromID head t).host.seq < 0 then
        Exec.exec (recordHeads S rt v app clock) (setHead fromID head t)
      else (.ok (), setHead fromID head t) := by
    simp only [sync, Exec.exec_bind, he, Exec.exec_modify, Exec.exec_get]
    split_ifs <;> rfl
  have hr₀ : Resident {e | e ∈ B ∨ e ∈ es} Q U P rt size app.commit t := hr'.with_stored hall
  have hr₁ := hr₀.setHead fromID (hhead head rfl)
  obtain ⟨heads, heq⟩ := setHead_eq fromID head t
  rw [heq] at hr₁ hsync
  have hc₁ := hc'.of_heads heads
  rw [hsync] at hp ⊢
  split_ifs at hp ⊢ with hbusy
  · have hsteady : Exec.Relates _ (recordHeads S rt v app clock) :=
      (steadyOwn_resident rt W {e | e ∈ B ∨ e ∈ es} hset).recordHeads
    obtain ⟨hc₂, hr₂⟩ := (hsteady { t with host := { t.host with heads := heads } }).2 hp ⟨hc₁, hr₁⟩
    refine ⟨recordHeads_ok hset hv hc₁ hr₁ hpool' hp fun e he => ?_, hr₂.stored⟩
    exact he.elim (fun he => (hO e he).2) fun he => (hc₂.verified e he).2
  · exact ⟨rfl, hr₁.stored⟩

end PoolCore

/-! ## In a network -/

theorem mapM_ok {α β : Type} {f : α → Except Err β} {l : List α}
    (h : ∀ a ∈ l, ∃ b, f a = .ok b) : ∃ l', l.mapM f = .ok l' := by
  induction l with
  | nil => exact ⟨[], rfl⟩
  | cons a l ih =>
    obtain ⟨b, hb⟩ := h a List.mem_cons_self
    obtain ⟨l', hl'⟩ := ih fun a' ha' => h a' (List.mem_cons_of_mem a ha')
    exact ⟨b :: l', by rw [List.mapM_cons, hb, hl']; rfl⟩

/-- The rolling index with an identifier is the window of a key with this identifier. -/
theorem ParticipantEventsCache.Registered.window_of_lookup {pec : ParticipantEventsCache H K}
    (hr : pec.Registered) {id : UInt32} {ri : RollingIndex H}
    (h : pec.rim.mapping.lookup id = some ri) :
    ∃ k, pec.window k = some ri ∧ Hex.toUpper k = k ∧ fnv32a (Hex.decodeFromString k) = id := by
  obtain ⟨p, hp, rfl⟩ := (hr.mapping id).1 (Map.mem_iff_lookup.2 ⟨ri, h⟩)
  obtain ⟨q, hq⟩ := Map.mem_iff_lookup.1 (PeerSet.mem_byPubKey.2 ⟨p, hp, rfl⟩)
  refine ⟨p.pubKeyString, window_eq_some.2 ⟨p.id, ?_, h⟩, p.toUpper_pubKeyString, p.id_eq.symm⟩
  rw [participantID, Peer.toUpper_pubKeyString, hq]
  exact congrArg _ (Peer.id_eq_of_pubKeyString (PeerSet.lookup_byPubKey hq).2)

/-- The window of a participant starts with its first event, if it has one. -/
theorem Hashgraph.Found.oldestCachedIndex_nonpos {S : Scheme H K} {E : Set (SignedEvent H K)}
    {h : Hashgraph H K} (hf : h.Found S E) {k : K} (hk : Hex.toUpper k = k) {ri : RollingIndex H}
    (hw : h.store.participantEventsCache.window k = some ri) : ri.oldestCachedIndex ≤ 0 := by
  have hitem : ∀ i, h.store.participantEvent k i = ri.getItem i := fun i => by
    obtain ⟨id, hid, hri⟩ := ParticipantEventsCache.window_eq_some.1 hw
    simp only [InmemStore.participantEvent, ParticipantEventsCache.getItem, hid,
      RollingIndexMap.getItem, bind, Except.bind, hri]
  cases hlast : ri.items.getLast? with
  | none =>
    have hnil := List.getLast?_eq_none_iff.1 hlast
    rw [RollingIndex.oldestCachedIndex, (hf.shown.window k ri hw).empty hnil, hnil]
    simp
  | some x =>
    -- the chain reaches from the last event down to index 0
    obtain ⟨-, chain, hchain⟩ := hf.chains k hk
    have hx := (hitem _).trans (RollingIndex.getItem_lastIndex hlast)
    obtain ⟨hn, hx⟩ := (hchain.participantEvent _ _).1 hx
    obtain ⟨hlt, -⟩ := List.getElem?_eq_some_iff.1 hx
    have hfirst := (hchain.participantEvent 0 _).2
      ⟨le_rfl, List.getElem?_eq_getElem (show (0 : ℤ).toNat < chain.length by omega)⟩
    rw [hitem] at hfirst
    exact (RollingIndex.bounds_of_getItem hfirst).1

section Answers

variable {S : Scheme H K} {E : Set (SignedEvent H K)} {Q : Set K} {h : Hashgraph H K}
  {known : List (UInt32 × ℤ)} {id : UInt32}

/-- The events of a participant above an index are there. -/
theorem Hashgraph.Found.eventsAbove_ok (hf : h.Found S E) (ho : h.Opens Q)
    (hkeys : ∀ k ∈ h.store.peerSetCache.repertoireByPubKey, k ∈ Q)
    (hct : -1 ≤ knownIndex known id) : ∃ l, h.store.eventsAbove known id = .ok l := by
  unfold InmemStore.eventsAbove
  cases hpeer : h.store.peerSetCache.repertoireByID.lookup id with
  | none => exact ⟨[], rfl⟩
  | some peer =>
    obtain ⟨ri, hri⟩ := Option.ne_none_iff_exists'.1
      (ho.window _ (hkeys _ (hf.consistent.id id peer hpeer).2))
    have hold := hf.oldestCachedIndex_nonpos peer.toUpper_pubKeyString hri
    obtain ⟨hashes, hget⟩ : ∃ hashes, ri.get (knownIndex known id) = .ok hashes := by
      unfold RollingIndex.get
      split_ifs with hlast hlate
      · exact ⟨_, rfl⟩
      · omega
      · exact ⟨_, rfl⟩
    have hevents : h.store.participantEvents peer.pubKeyString (knownIndex known id) =
        .ok hashes := by
      obtain ⟨pid, hid, hlookup⟩ := ParticipantEventsCache.window_eq_some.1 hri
      simp only [InmemStore.participantEvents, ParticipantEventsCache.get, hid,
        RollingIndexMap.get, bind, Except.bind, hlookup, hget]
    simp only [hevents, bind, Except.bind]
    refine mapM_ok fun x hx => ?_
    obtain ⟨e, he, -⟩ := (hf.mem_hashes hri peer.toUpper_pubKeyString hget).1 hx
    obtain ⟨ev, hev, -⟩ := signedEvents_eq_some.1 he
    exact ⟨ev, InmemStore.getEvent_eq_ok.2 hev⟩

theorem Hashgraph.Found.unknownEvents_ok (hf : h.Found S E) (ho : h.Opens Q)
    (hkeys : ∀ k ∈ h.store.peerSetCache.repertoireByPubKey, k ∈ Q)
    (hct : ∀ id, -1 ≤ knownIndex known id) (ids : List UInt32) :
    ∃ l, h.store.unknownEvents known ids = .ok l := by
  induction ids with
  | nil => exact ⟨[], rfl⟩
  | cons id ids ih =>
    obtain ⟨l, hl⟩ := hf.eventsAbove_ok ho hkeys (hct id)
    obtain ⟨l', hl'⟩ := ih
    exact ⟨l ++ l', by simp only [InmemStore.unknownEvents, hl, hl', bind, Except.bind]; rfl⟩

/-- No index that a node knows is below -1. -/
theorem Hashgraph.Found.neg_one_le_known (hf : h.Found S E) {ct : ℤ}
    (hmem : (id, ct) ∈ h.store.knownEvents) : -1 ≤ ct := by
  obtain ⟨⟨id', ri⟩, hri, heq⟩ := List.mem_map.1 hmem
  obtain ⟨rfl, rfl⟩ := Prod.mk.inj heq
  obtain ⟨k, hw, hk, -⟩ := hf.shown.toRegistered.window_of_lookup (Map.mem_toPairs.1 hri)
  rcases hf.lastEventFrom_cases hk hw with ⟨-, -, -, hempty⟩ | ⟨z, hz, -, -, hzi⟩
  · exact hempty.ge
  · have hnonneg := hf.lines.nonneg z (hf.origin _ z hz).1
    change -1 ≤ ri.lastIndex
    omega

end Answers

/-- An index that a node knows of a participant is that of a stored event, or a later one is. -/
theorem Hashgraph.Found.exists_of_known {S : Scheme H K} {E : Set (SignedEvent H K)}
    {h : Hashgraph H K} (hf : h.Found S E) {id : UInt32} {n : ℤ} (hn : 0 ≤ n)
    (hle : n ≤ knownIndex h.store.knownEvents id) :
    ∃ z, h.Stores S z ∧ fnv32a z.body.creator = id ∧ n ≤ z.body.index := by
  unfold knownIndex at hle
  cases hlook : h.store.knownEvents.lookup id with
  | none =>
    rw [hlook, Option.getD_none] at hle
    omega
  | some m =>
    rw [hlook, Option.getD_some] at hle
    obtain ⟨l₁, l₂, hl, -⟩ := List.lookup_eq_some_iff.1 hlook
    have hknown : (id, m) ∈ h.store.knownEvents := by
      rw [hl]
      simp
    obtain ⟨⟨id', ri⟩, hmem, heq⟩ := List.mem_map.1 hknown
    obtain ⟨rfl, rfl⟩ := Prod.mk.inj heq
    obtain ⟨k, hw, hk, hid⟩ := hf.shown.toRegistered.window_of_lookup (Map.mem_toPairs.1 hmem)
    rcases hf.lastEventFrom_cases hk hw with ⟨-, -, -, hempty⟩ | ⟨z, hz, -, hzc, hzi⟩
    · simp only at hle
      omega
    · refine ⟨z, hz, ?_, hzi ▸ hle⟩
      rw [← hid, ← hzc, z.decode_creator]

namespace Network

variable {S : Scheme H K} {parties : ι → Party K} {P : PeerSet K} {Q : Set K} {U : Universe S}
  {M : List (SignedEvent H K)} {N : Network ι H K}

/-- Nodes with fixed peers keep what they have, if the events come from a list that fits the
caches. -/
theorem upholds_resident (hl : Lawful parties P Q)
    (hkeys : ∀ k, k ∈ Q ↔ ∃ p ∈ P.peers, p.pubKeyString = k)
    (happ : ∀ i, (parties i).app.Static) (hU : ∀ e ∈ M, e.body ∈ U.bodies)
    (hsize : ∀ i, M.length ≤ (parties i).cacheSize) (B : ι → Set (SignedEvent H K)) :
    Upholds S parties Q (fun E => CollisionFree S E ∧ ∀ e ∈ E, e ∈ M)
      fun (i : ι) (s : PoolCore H K) => PoolCore.Resident (B i) Q U P (parties i).rt
        (parties i).cacheSize (parties i).app.commit s where
  mono hE h := ⟨h.1.mono hE, fun e he => h.2 e (hE he)⟩
  collisionFree h := h.1
  steady i O W hO hforeign :=
    have hset : PoolCore.Setting (parties i).validator (parties i).app Q O U P M
        (parties i).cacheSize :=
      ⟨hO, hforeign, hl.distinct, hkeys, happ i, hU, hsize i⟩
    ⟨PoolCore.steadyOwn_resident _ _ _ hset, PoolCore.learnsOn_resident hset⟩
  processSigPool i s hs := by
    rw [PoolCore.processSigPool, Session.exec_onHashgraph]
    have hec : ∀ h : Hashgraph H K, (Exec.exec (Hashgraph.processSigPool S (parties i).rt)
        h).2.store.eventCache = h.store.eventCache :=
      Hashgraph.relates_processSigPool (r := fun h h' => h'.store.eventCache = h.store.eventCache)
        (fun _ => rfl) (fun h h' => h'.trans h) (fun _ _ => rfl) (fun _ _ _ _ => rfl)
        (fun _ _ => rfl) fun _ _ => rfl
    have hstores : ∀ e, s.hg.Stores S e → Hashgraph.Stores S (Exec.exec
        (Hashgraph.processSigPool S (parties i).rt) s.hg).2 e := by
      intro e he
      rw [Hashgraph.Stores, hec]
      exact he
    exact ⟨hs.annals.processSigPool, Hashgraph.Opens.stable.processSigPool s.hg hs.opens,
      fun e he => hstores e (hs.stored e he), fun id ev hev => hstores ev (hs.heads id ev hev)⟩

/-- New nodes. -/
theorem resident_start (hl : Lawful parties P Q)
    (hkeys : ∀ k, k ∈ Q ↔ ∃ p ∈ P.peers, p.pubKeyString = k) (i : ι) :
    PoolCore.Resident ∅ Q U P (parties i).rt (parties i).cacheSize (parties i).app.commit
      ((start parties P : Network ι H K).nodes i) := by
  have hnew := hg_start (H := H) parties P i
  refine ⟨hnew ▸ .initial U P _ _ _, hnew ▸ .initial _ hl.distinct hkeys, ?_, ?_⟩
  · rintro e ⟨⟩
  · rintro id ev ⟨⟩

theorem stores_iff_holds (h : N.Civil S parties Q) {i : ι} {e : SignedEvent H K} :
    (N.nodes i).hg.Stores S e ↔ N.holds i e := by
  refine ⟨fun he => ⟨_, he⟩, ?_⟩
  rintro ⟨x, hx⟩
  rw [Hashgraph.Stores, ((h i).serving.origin x e hx).2]
  exact hx

/-- The events that were made are verified and have creators of `Q`. -/
theorem Civil.verified (h : N.Civil S parties Q) {e : SignedEvent H K} (he : e ∈ N.made) :
    e.verify S = .ok true ∧ e.creator ∈ Q := by
  obtain ⟨j, -, he⟩ := he
  exact (h j).verified e he

/-- A difference has what another node does not know, in order. -/
theorem Civil.difference (h : N.Civil S parties Q) {j : ι} {rt : Runtime} {tick : ℕ}
    {known : List (UInt32 × ℤ)} {l : List (Event H K)}
    (hl : (N.nodes j).core.eventDiff rt tick known = .ok l) :
    (N.nodes j).core.Difference known l :=
  Core.difference_of_eventDiff (s := (N.nodes j).core) (F := ∅) (h j).serving.toStacked
    (h j).serving.ordered (by rintro x ⟨⟩) hl

theorem Civil.mem_difference (h : N.Civil S parties Q) {j : ι} {rt : Runtime} {tick : ℕ}
    {known : List (UInt32 × ℤ)} {l : List (Event H K)}
    (hl : (N.nodes j).core.eventDiff rt tick known = .ok l) {e : SignedEvent H K} :
    e ∈ l.map Event.toSignedEvent ↔ N.holds j e ∧
      knownIndex known (fnv32a e.body.creator) < e.body.index := by
  constructor
  · intro he
    obtain ⟨ev, hev, rfl⟩ := List.mem_map.1 he
    obtain ⟨⟨x, hx⟩, hlt⟩ := ((h.difference hl).mem_iff ev).1 hev
    exact ⟨⟨x, signedEvents_eq_some.2 ⟨ev, InmemStore.getEvent_eq_ok.1 hx, rfl⟩⟩, hlt⟩
  · rintro ⟨⟨x, hx⟩, hlt⟩
    obtain ⟨ev, hev, rfl⟩ := signedEvents_eq_some.1 hx
    exact List.mem_map_of_mem
      (((h.difference hl).mem_iff ev).2 ⟨⟨x, InmemStore.getEvent_eq_ok.2 hev⟩, hlt⟩)

/-- A part of a difference is closed, for a node that has what it is said to know. -/
theorem Civil.closedFrom (h : N.Civil S parties Q) {j : ι} {rt : Runtime} {tick : ℕ}
    {known : List (UInt32 × ℤ)} {l : List (Event H K)}
    (hl : (N.nodes j).core.eventDiff rt tick known = .ok l) {F : Set H}
    (hF : ∀ p, N.holds j p → p.body.index ≤ knownIndex known (fnv32a p.body.creator) →
      p.hex S ∈ F) (n : ℕ) :
    PoolCore.ClosedFrom S F ((l.take n).map Event.toSignedEvent) := by
  have hserving := (h j).serving
  have hdiff := h.difference hl
  refine PoolCore.closedFrom_of_take fun m e he x hx => ?_
  rw [List.getElem?_map, Option.map_eq_some_iff] at he
  obtain ⟨ev, hev, rfl⟩ := he
  rw [List.getElem?_take] at hev
  split_ifs at hev with hmn
  obtain ⟨p, hp, hcases⟩ := hdiff.closed (m + 1) ev (by rw [List.take_add_one, hev]; simp) x hx
  have hp' : signedEvents (N.nodes j).hg.store.eventCache x = some p.toSignedEvent :=
    signedEvents_eq_some.2 ⟨p, InmemStore.getEvent_eq_ok.1 hp, rfl⟩
  obtain ⟨-, rfl⟩ := hserving.origin x _ hp'
  rcases hcases with hknown | hmem
  · exact .inl (hF _ ⟨_, hp'⟩ hknown)
  · -- the parent has a lower place than the event
    obtain ⟨⟨y, hy⟩, -⟩ := (hdiff.mem_iff ev).1 (List.mem_of_getElem? hev)
    obtain ⟨e', i, hplaced, hlt⟩ := hserving.ordered.parent y _ _ _ (Set.notMem_empty y)
      (Core.placed_of_getEvent (s := (N.nodes j).core) hy) hx
    obtain ⟨-, rfl⟩ := Prod.mk.inj (Option.some.inj
      (hplaced.symm.trans (Core.placed_of_getEvent (s := (N.nodes j).core) hp)))
    rw [List.take_add_one, hev, Option.toList_some, List.mem_append, List.mem_singleton] at hmem
    refine .inr ⟨p.toSignedEvent, ?_, rfl⟩
    rw [← List.map_take, List.take_take, min_eq_left hmn.le]
    refine List.mem_map_of_mem (hmem.resolve_right ?_)
    rintro rfl
    exact hlt.elim id (lt_irrefl _)

section Sync

variable {i j : ι} {N₁ N₂ : Network ι H K} {rt : Runtime} {tick : ℕ} {known : List (UInt32 × ℤ)}
  {l : List (Event H K)} {n : ℕ} {fromID : UInt32} {m : Exec Err (PoolCore H K) Unit}

/-- What holds across the steps of a node holds across a sync. -/
theorem relates_sync {ws : List (WireEvent K)} (hm : m = PoolCore.sync S (parties i).rt
      (parties i).validator (parties i).app (parties i).clock fromID ws)
    {W : Set (WireEvent K)} (hW : ∀ w ∈ ws, w ∈ W) {r : PoolCore H K → PoolCore H K → Prop}
    (hown : PoolCore.SteadyOwn S (parties i).rt (parties i).validator (parties i).app r)
    (hlearns : PoolCore.LearnsOn S (parties i).rt (parties i).validator (parties i).app W r) :
    Exec.Relates r m := by
  rw [hm]
  exact hown.perform hlearns (.sync fromID ws) fun _ _ he => by cases he; exact hW

theorem made_sync {ws : List (WireEvent K)} (hm : m = PoolCore.sync S (parties i).rt
    (parties i).validator (parties i).app (parties i).clock fromID ws) :
    N₂.made ⊆ (N₂.run i m).made := by
  have hentries : PoolCore.SteadyOn S (parties i).rt (parties i).validator (parties i).app
      {w | w ∈ ws} _ := PoolCore.steadyOn_entries
  exact madeBy_run (relates_sync hm (fun _ => id) hentries.toSteadyOwn hentries.learnsOn
    (N₂.nodes i)) _

/-- A part of a difference is sent. -/
theorem Civil.post_eventDiff (h₁ : N₁.Civil S parties Q) (h₂ : N₂.Civil S parties Q)
    (hsub : N₁.made ⊆ N₂.made) (hd : (N₁.nodes j).core.eventDiff rt tick known = .ok l)
    (n : ℕ) (fromID : UInt32) :
    (N₂.post ⟨fromID, (l.take n).map Event.toWire⟩).Civil S parties Q := by
  refine h₂.post fun w hw => ?_
  obtain ⟨ev, hev, rfl⟩ := List.mem_map.1 hw
  exact ⟨_, (h₁.sent_of_eventDiff hd (List.mem_of_mem_take hev)).mono hsub⟩

/-- A difference is sent, and a node syncs with a part of it later. -/
theorem Upholds.sync {genesis : PeerSet K} {p : Set (SignedEvent H K) → Prop}
    {I : ι → PoolCore H K → Prop} (hu : Upholds S parties Q p I) (hl : Lawful parties genesis Q)
    (h₁ : N₁.Civil S parties Q) (h₂ : N₂.Civil S parties Q) (hsub : N₁.made ⊆ N₂.made)
    (hI : ∀ k, I k (N₂.nodes k)) (hd : (N₁.nodes j).core.eventDiff rt tick known = .ok l)
    (hm : m = PoolCore.sync S (parties i).rt (parties i).validator (parties i).app
      (parties i).clock fromID ((l.take n).map Event.toWire))
    (hp : p (N₂.run i m).made) :
    ((N₂.post ⟨fromID, (l.take n).map Event.toWire⟩).run i m).Civil S parties Q ∧
      ∀ k, I k ((N₂.run i m).nodes k) := by
  refine hu.run_node hl (h₁.post_eventDiff h₂ hsub hd n fromID) hI
    (fun r hown hlearns _ => relates_sync hm (fun w hw => ?_) hown hlearns) hp
  exact ⟨_, List.mem_append_right _ (List.mem_singleton.2 rfl), hw⟩

end Sync

section Fixed

variable {i j : ι} {N₀ N₁ N₂ : Network ι H K}

/-- What the nodes of a network with fixed peers rely on. -/
structure Fixed (parties : ι → Party K) (P : PeerSet K) (Q : Set K) (U : Universe S)
    (M : List (SignedEvent H K)) : Prop extends Lawful parties P Q where
  peers : ∀ k, k ∈ Q ↔ ∃ p ∈ P.peers, p.pubKeyString = k
  static : ∀ i, (parties i).app.Static
  bodies : ∀ e ∈ M, e.body ∈ U.bodies
  room : ∀ i, M.length ≤ (parties i).cacheSize

namespace Fixed

variable (hx : Fixed parties P Q U M)

include hx

theorem setting (h : N.Civil S parties Q) (i : ι) : PoolCore.Setting (parties i).validator
    (parties i).app Q (N.madeBy {i}ᶜ) U P M (parties i).cacheSize :=
  ⟨h.lines hx.toLawful _, h.foreign hx.toLawful i, hx.distinct, hx.peers, hx.static i, hx.bodies,
    hx.room i⟩

theorem found (h : N.Civil S parties Q) (hcol : CollisionFree S N.made)
    (hM : ∀ e ∈ N.made, e ∈ M) {B : Set (SignedEvent H K)}
    (hr : PoolCore.Resident B Q U P (parties i).rt (parties i).cacheSize (parties i).app.commit
      (N.nodes i)) : (N.nodes i).hg.Found S N.made := by
  have hf := PoolCore.Resident.found (hx.setting h i) (by
    unfold PoolCore.Known
    rw [among_others]
    exact ⟨hcol, hM⟩) (h i) hr
  rwa [among_others] at hf

/-- What a peer has of the events that a node has known, the node has later. -/
theorem stores_known (h₀ : N₀.Civil S parties Q) (h₁ : N₁.Civil S parties Q)
    (hf₀ : (N₀.nodes i).hg.Found S N₀.made) (hf₂ : (N₂.nodes i).hg.Found S N₂.made)
    (hkeeps : ∀ e, (N₀.nodes i).hg.Stores S e → (N₂.nodes i).hg.Stores S e)
    (hsub : N₁.made ⊆ N₂.made) {p : SignedEvent H K} (hp : N₁.holds j p)
    (hle : p.body.index ≤ knownIndex (N₀.nodes i).hg.store.knownEvents (fnv32a p.body.creator)) :
    (N₂.nodes i).hg.Stores S p := by
  obtain ⟨x, hx'⟩ := hp
  have hp : p ∈ N₁.made := by
    have hmem := ((h₁ j).serving.origin x p hx').1
    rwa [among_others] at hmem
  obtain ⟨z, hz, hid, hzi⟩ := hf₀.exists_of_known
    ((h₁.lines hx.toLawful Set.univ).nonneg p hp) hle
  have hcreator : p.creator = z.creator := by
    refine hx.distinct _ (h₁.verified hp).2 _ (h₀.verified (hf₀.origin _ z hz).1).2 ?_
    rw [p.decode_creator, z.decode_creator, hid]
  exact hf₂.stores_earlier (hkeeps z hz) (hsub hp) hcreator hzi

/-- The nodes along a run. -/
theorem resident_run (before after : List (Action ι K))
    (h₀ : N₀ = before.foldl (step S parties) (start parties P))
    (h₂ : N₂ = after.foldl (step S parties) N₀) (hcol : CollisionFree S N₂.made)
    (hM : ∀ e ∈ N₂.made, e ∈ M) (i : ι) :
    (N₀.nodes i).hg.Found S N₀.made ∧
      PoolCore.Resident {e | (N₀.nodes i).hg.Stores S e} Q U P (parties i).rt
        (parties i).cacheSize (parties i).app.commit (N₂.nodes i) := by
  have hsub : N₀.made ⊆ N₂.made := h₂ ▸ madeBy_foldl after N₀ _
  have hup := upholds_resident hx.toLawful hx.peers hx.static hx.bodies hx.room
  obtain ⟨hcivil₀, hres₀⟩ := (hup fun _ => ∅).run hx.toLawful (civil_start S hx.toLawful)
    (resident_start hx.toLawful hx.peers) before
    (h₀ ▸ ⟨hcol.mono hsub, fun e he => hM e (hsub he)⟩)
  rw [← h₀] at hcivil₀ hres₀
  have hres₂ := ((hup fun k => {e | (N₀.nodes k).hg.Stores S e}).run hx.toLawful hcivil₀
    (fun k => (hres₀ k).with_stored fun _ => id) after (h₂ ▸ ⟨hcol, hM⟩)).2 i
  rw [← h₂] at hres₂
  exact ⟨hx.found hcivil₀ (hcol.mono hsub) (fun e he => hM e (hsub he)) (hres₀ i), hres₂⟩

/-- A sync with a part of a difference, by a node that has what it is said to know. -/
theorem sync_ok (h₁ : N₁.Civil S parties Q) (h₂ : N₂.Civil S parties Q)
    (hsub : N₁.made ⊆ N₂.made) {B : Set (SignedEvent H K)}
    (hr : PoolCore.Resident B Q U P (parties i).rt (parties i).cacheSize (parties i).app.commit
      (N₂.nodes i)) (hv : PoolCore.Signing S (parties i).validator (parties i).app Q)
    (hpool : (N₂.nodes i).PoolVerified S) {rt : Runtime} {tick : ℕ} {known : List (UInt32 × ℤ)}
    {l : List (Event H K)} (hd : (N₁.nodes j).core.eventDiff rt tick known = .ok l)
    (hknown : ∀ p, N₁.holds j p → p.body.index ≤ knownIndex known (fnv32a p.body.creator) →
      (N₂.nodes i).hg.Stores S p) {n : ℕ} {fromID : UInt32} {m : Exec Err (PoolCore H K) Unit}
    (hm : m = PoolCore.sync S (parties i).rt (parties i).validator (parties i).app
      (parties i).clock fromID ((l.take n).map Event.toWire))
    (hcol : CollisionFree S (N₂.run i m).made) (hM : ∀ e ∈ (N₂.run i m).made, e ∈ M) :
    (Exec.exec m (N₂.nodes i)).1 = .ok () ∧
      ∀ e, (N₂.nodes i).hg.Stores S e ∨ e ∈ (l.take n).map Event.toSignedEvent →
        (N₂.run i m).holds i e := by
  have hpost := h₁.post_eventDiff h₂ hsub hd n fromID
  have hO : ∀ e ∈ N₂.madeBy {i}ᶜ, e.verify S = .ok true ∧ e.creator ∈ Q := by
    rintro e ⟨k, -, he⟩
    exact h₂.verified ⟨k, trivial, he⟩
  have hW : ∀ w ∈ (l.take n).map Event.toWire,
      w ∈ (N₂.post ⟨fromID, (l.take n).map Event.toWire⟩).wires := fun w hw =>
    ⟨_, List.mem_append_right _ (List.mem_singleton.2 rfl), hw⟩
  have hr' : PoolCore.Resident {e | (N₂.nodes i).hg.Stores S e} Q U P (parties i).rt
      (parties i).cacheSize (parties i).app.commit (N₂.nodes i) := hr.with_stored fun _ => id
  have hsent : List.Forall₂ (Sent S Q ((N₂.nodes i).host.journal.among (N₂.madeBy {i}ᶜ)))
      ((l.take n).map Event.toWire) ((l.take n).map Event.toSignedEvent) := by
    rw [among_others, List.forall₂_map_left_iff, List.forall₂_map_right_iff, List.forall₂_same]
    exact fun ev hev => (h₁.sent_of_eventDiff hd (List.mem_of_mem_take hev)).mono hsub
  have hdelivers := PoolCore.sync_delivers (parties i).clock (hx.setting h₂ i) hv hO fromID hsent hW
    (hpost i) hr' hpool
    (h₁.closedFrom hd (fun p hp hle => signedEvents_isSome.1 ⟨p, hknown p hp hle⟩) n) ?_
  · rw [← hm] at hdelivers
    refine ⟨hdelivers.1, fun e he => ⟨e.hex S, ?_⟩⟩
    rw [nodes_run_self]
    exact hdelivers.2 e he
  · rw [← hm, ← madeBy_run_others N₂ i m, ← nodes_run_self N₂ i m]
    unfold PoolCore.Known
    rw [among_others]
    exact ⟨hcol, hM⟩

/-- The nodes after a sync have their annals. -/
theorem annals_sync (actions : List (Action ι K))
    (hN : N₂ = actions.foldl (step S parties) (start parties P)) (h₁ : N₁.Civil S parties Q)
    (h₂ : N₂.Civil S parties Q) (hsub : N₁.made ⊆ N₂.made) {rt : Runtime} {tick : ℕ}
    {known : List (UInt32 × ℤ)} {l : List (Event H K)}
    (hd : (N₁.nodes j).core.eventDiff rt tick known = .ok l) {n : ℕ} {fromID : UInt32}
    {m : Exec Err (PoolCore H K) Unit}
    (hm : m = PoolCore.sync S (parties i).rt (parties i).validator (parties i).app
      (parties i).clock fromID ((l.take n).map Event.toWire))
    (hcol : CollisionFree S (N₂.run i m).made) (hM : ∀ e ∈ (N₂.run i m).made, e ∈ M) (k : ι) :
    ((N₂.run i m).nodes k).hg.Annals U P (parties k).rt (parties k).cacheSize
      (parties k).app.commit := by
  have hmade : N₂.made ⊆ (N₂.run i m).made := made_sync hm
  exact ((upholds_annals hx.toLawful hx.static hx.bodies hx.room).sync hx.toLawful h₁ h₂ hsub
    (annals_run hx.toLawful hx.static hx.bodies hx.room actions hN (hcol.mono hmade)
      fun e he => hM e (hmade he)) hd hm ⟨hcol, hM⟩).2 k

end Fixed

end Fixed

/-- A network in which all that was made fits into every cache. -/
theorem Fixed.of_civil [Fintype ι] {N : Network ι H K} (hlaw : Lawful parties P Q)
    (hpeers : ∀ k, k ∈ Q ↔ ∃ p ∈ P.peers, p.pubKeyString = k)
    (happ : ∀ i, (parties i).app.Static) (hcivil : N.Civil S parties Q)
    (hcol : CollisionFree S N.made)
    (hsize : ∀ k, ∑ j, (N.nodes j).host.journal.made.length ≤ (parties k).cacheSize) :
    Fixed parties P Q ((hcivil.lines hlaw Set.univ).universe hcol) N.roster :=
  { hlaw with
    peers := hpeers
    static := happ
    bodies := fun e he => ⟨e, N.mem_roster.1 he, rfl⟩
    room := fun k => N.length_roster ▸ hsize k }

end Network

namespace Sample

/-- Two nodes with fixed peers, and signatures that verify. -/
def quietParties (i : Fin 2) : Party Bytes :=
  { fixedParties i with validator := validator (1 + UInt8.ofNat i) }

/-- The nodes when the second one sends a request. -/
def requested : Network (Fin 2) Bytes Bytes :=
  [.addTransaction node₁ [7], .monologue node₁].foldl (Network.step scheme quietParties)
    (Network.start quietParties ⟨[peer 1, peer 2]⟩)

/-- The nodes when the first one answers. -/
def answered : Network (Fin 2) Bytes Bytes :=
  [.addTransaction node₁ [8], .monologue node₁].foldl (Network.step scheme quietParties) requested

/-- The nodes when the answer arrives. -/
def arrived : Network (Fin 2) Bytes Bytes :=
  [.addTransaction node₂ [9], .monologue node₂, .addTransaction node₂ [10]].foldl
    (Network.step scheme quietParties) answered

/-- The answer. -/
def answer : Except Err (List (Event Bytes Bytes)) :=
  (answered.nodes node₁).core.eventDiff .plain 0 (requested.nodes node₂).hg.store.knownEvents

/-- The sync of the second node with the answer. -/
def syncAnswer : Exec Err (PoolCore Bytes Bytes) Unit :=
  PoolCore.sync scheme .plain (validator 2) (quietParties node₂).app (quietParties node₂).clock 1
    (((answer.toOption.getD []).take 10).map Event.toWire)

end Sample

end Babble
