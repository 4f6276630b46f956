import Babble.Gossip

/-!
# A network of nodes

The nodes of a network gossip with each other. What a node sends, as an answer to a pull or
as a push, stays in the mail, and is delivered to any node, any number of times and in any
order, or never. A node locks its core for the time of a step, so that a run of the network
is a sequence of steps of its nodes.

All nodes follow the protocol here; the mail is not forged. Then no creator has two events
with one index anywhere, though each node finds the parents of an event by index only : what
a node has of another one is a beginning of what that one has made
(`gossip_without_forks`).
-/

set_option linter.unusedSectionVars false

namespace Babble

variable {ι H K : Type} [DecidableEq ι] [DecidableEq H] [DecidableEq K] [Hex H] [Hex K]

/-- What a node is started with. -/
structure Party (K : Type) where
  validator : Validator
  app : Application K
  rt : Runtime
  clock : ℕ → Int64
  cacheSize : ℕ
  syncLimit : ℤ
  peers : PeerSet K

/-- The nodes, and what they have sent. -/
structure Network (ι H K : Type) where
  nodes : ι → PoolCore H K
  mail : List (EagerSyncRequest K)

namespace Network

/-- The network of new nodes. -/
def start (parties : ι → Party K) (genesis : PeerSet K) : Network ι H K where
  nodes i := PoolCore.new (parties i).peers genesis (InmemStore.new (parties i).cacheSize)
  mail := []

/-- What can happen : a node gets a transaction, makes an event without a peer, answers a
request, pushes to a peer with some known indexes, or gets something from the mail. The
visits of maps for an answer or a push have the number `tick`. -/
inductive Action (ι K : Type)
  | addTransaction (i : ι) (tx : List UInt8)
  | addInternalTransaction (i : ι) (tx : InternalTransaction K)
  | monologue (i : ι)
  | answer (i : ι) (tick : ℕ) (cmd : SyncRequest)
  | push (i : ι) (tick : ℕ) (known : List (UInt32 × ℤ))
  | deliver (i : ι) (n : ℕ)

/-- A method of one node. Errors are left to the caller. -/
def run (N : Network ι H K) (i : ι) (m : Exec Err (PoolCore H K) Unit) : Network ι H K :=
  { N with nodes := Function.update N.nodes i (Exec.exec m (N.nodes i)).2 }

/-- Something is sent. -/
def post (N : Network ι H K) (p : EagerSyncRequest K) : Network ι H K :=
  { N with mail := N.mail ++ [p] }

/-- One step. The events of an answer are synced as those of a push are; an answer with an
error is not. -/
def step (S : Scheme H K) (parties : ι → Party K) (N : Network ι H K) :
    Action ι K → Network ι H K
  | .addTransaction i tx => N.run i (PoolCore.addTransactions [tx])
  | .addInternalTransaction i tx => N.run i (PoolCore.addInternalTransaction tx)
  | .monologue i =>
    let p := parties i
    N.run i (PoolCore.monologue S p.rt p.validator p.app p.clock)
  | .answer i tick cmd =>
    let p := parties i
    match processSyncRequest p.rt tick p.validator p.syncLimit (N.nodes i).core cmd with
    | .ok (resp, none) => N.post ⟨resp.fromID, resp.events⟩
    | _ => N
  | .push i tick known =>
    let p := parties i
    match PoolCore.push p.rt tick p.validator p.syncLimit known (N.nodes i) with
    | .ok (some req) => N.post req
    | _ => N
  | .deliver i n =>
    let p := parties i
    match N.mail[n]? with
    | some req => N.run i (PoolCore.processEagerSyncRequest S p.rt p.validator p.app p.clock req)
    | none => N

/-- The events that the nodes of `J` have made. -/
def madeBy (N : Network ι H K) (J : Set ι) : Set (SignedEvent H K) :=
  {e | ∃ j ∈ J, e ∈ (N.nodes j).host.journal.made}

/-- The events that were made. -/
def made (N : Network ι H K) : Set (SignedEvent H K) :=
  N.madeBy Set.univ

/-- The wire events that were sent. -/
def wires (N : Network ι H K) : Set (WireEvent K) :=
  {w | ∃ p ∈ N.mail, w ∈ p.events}

section Invariant

variable {S : Scheme H K} {parties : ι → Party K} {Q : Set K} {N : Network ι H K} {i : ι}
  {m : Exec Err (PoolCore H K) Unit}

theorem among_others (N : Network ι H K) (i : ι) :
    (N.nodes i).host.journal.among (N.madeBy {i}ᶜ) = N.made := by
  ext e
  constructor
  · rintro (⟨j, -, he⟩ | he)
    · exact ⟨j, trivial, he⟩
    · exact ⟨i, trivial, he⟩
  · rintro ⟨j, -, he⟩
    by_cases hj : j = i
    · exact .inr (hj ▸ he)
    · exact .inl ⟨j, hj, he⟩

theorem nodes_run_self (N : Network ι H K) (i : ι) (m : Exec Err (PoolCore H K) Unit) :
    (N.run i m).nodes i = (Exec.exec m (N.nodes i)).2 :=
  Function.update_self i _ _

theorem nodes_run_of_ne {j : ι} (h : j ≠ i) : (N.run i m).nodes j = N.nodes j :=
  Function.update_of_ne h _ _

/-- The other nodes do not notice. -/
theorem madeBy_run_others (N : Network ι H K) (i : ι) (m : Exec Err (PoolCore H K) Unit) :
    (N.run i m).madeBy {i}ᶜ = N.madeBy {i}ᶜ := by
  ext e
  refine exists_congr fun j => and_congr_right fun hj => ?_
  rw [nodes_run_of_ne hj]

/-- What a node adds to its journal adds to the events that were made. -/
theorem madeBy_run (hentries : (N.nodes i).host.journal.entries <+:
    (Exec.exec m (N.nodes i)).2.host.journal.entries) (J : Set ι) :
    N.madeBy J ⊆ (N.run i m).madeBy J := by
  rintro e ⟨k, hk, he⟩
  refine ⟨k, hk, ?_⟩
  by_cases hki : k = i
  · subst hki
    rw [nodes_run_self]
    exact Journal.mem_made.2 (hentries.subset (Journal.mem_made.1 he))
  · rwa [nodes_run_of_ne hki]

/-- Every node has its own events and those that the others have made, and the mail has wire
events of both. -/
def Civil (S : Scheme H K) (parties : ι → Party K) (Q : Set K) (N : Network ι H K) : Prop :=
  ∀ i, PoolCore.Citizen S (parties i).validator Q (N.madeBy {i}ᶜ) N.wires (N.nodes i)

/-- The nodes have different keys, and so have the peers that the applications accept. -/
structure Lawful (parties : ι → Party K) (genesis : PeerSet K) (Q : Set K) : Prop where
  keys : Function.Injective fun i => ((parties i).validator.publicKeyHex : K)
  distinct : DistinctKeys Q
  genesis : ∀ p ∈ genesis.peers, p.pubKeyString ∈ Q
  admits : ∀ i, (parties i).app.Admits Q

variable {genesis : PeerSet K}

/-- The events that were made are lines. -/
theorem Civil.lines (hl : Lawful parties genesis Q) (h : N.Civil S parties Q) (J : Set ι) :
    Lines S (N.madeBy J) where
  nonneg e he := by
    obtain ⟨j, -, he⟩ := he
    exact (h j).toOwned.lines.nonneg e he
  first e he := by
    obtain ⟨j, -, he⟩ := he
    exact (h j).toOwned.lines.first e he
  next e he x hx := by
    obtain ⟨j, hj, he⟩ := he
    obtain ⟨p, hp, hrest⟩ := (h j).toOwned.lines.next e he x hx
    exact ⟨p, ⟨j, hj, hp⟩, hrest⟩
  unique e he e' he' hc hi := by
    obtain ⟨j, -, he⟩ := he
    obtain ⟨j', -, he'⟩ := he'
    obtain ⟨n, hn⟩ := List.mem_iff_getElem?.1 he
    obtain ⟨n', hn'⟩ := List.mem_iff_getElem?.1 he'
    have hkey := ((h j).made n e hn).1.symm.trans (hc.trans ((h j').made n' e' hn').1)
    obtain rfl := hl.keys hkey
    exact (h j).toOwned.lines.unique e he e' he' hc hi

/-- The others have other keys. -/
theorem Civil.foreign (hl : Lawful parties genesis Q) (h : N.Civil S parties Q) (i : ι) :
    ∀ e ∈ N.madeBy {i}ᶜ, e.creator ≠ ((parties i).validator.publicKeyHex : K) := by
  rintro e ⟨j, hj, he⟩ hc
  obtain ⟨n, hn⟩ := List.mem_iff_getElem?.1 he
  exact hj (hl.keys (((h j).made n e hn).1.symm.trans hc))

/-- A node does something that keeps its part. -/
theorem Civil.run (h : N.Civil S parties Q)
    (hentries : (N.nodes i).host.journal.entries <+:
      (Exec.exec m (N.nodes i)).2.host.journal.entries)
    (hm : PoolCore.Citizen S (parties i).validator Q (N.madeBy {i}ᶜ) N.wires
      (Exec.exec m (N.nodes i)).2) : (N.run i m).Civil S parties Q := by
  have hself := nodes_run_self N i m
  have hi : PoolCore.Citizen S (parties i).validator Q ((N.run i m).madeBy {i}ᶜ) N.wires
      ((N.run i m).nodes i) := by
    rwa [madeBy_run_others N i m, hself]
  intro j
  by_cases hj : j = i
  · rw [hj]
    exact hi
  · have hnode := nodes_run_of_ne (N := N) (m := m) hj
    refine PoolCore.Citizen.mono (hnode.symm ▸ h j) (madeBy_run hentries _) fun w hw => ?_
    rw [among_others]
    have hsent := hi.sent w hw
    rwa [among_others] at hsent

/-- Something is sent that stands for events that were made. -/
theorem Civil.post (h : N.Civil S parties Q) {p : EagerSyncRequest K}
    (hp : ∀ w ∈ p.events, ∃ e, Sent S Q N.made w e) : (N.post p).Civil S parties Q := by
  intro i
  refine (h i).mono subset_rfl ?_
  rintro w ⟨p', hp', hw⟩
  rcases List.mem_append.1 hp' with hp' | hp'
  · exact (h i).sent w ⟨p', hp', hw⟩
  · rw [among_others]
    rw [List.mem_singleton.1 hp'] at hw
    exact hp w hw

/-- The events of a difference are sent as they were made. -/
theorem Civil.sent_of_eventDiff (h : N.Civil S parties Q) {rt : Runtime} {tick : ℕ}
    {known : List (UInt32 × ℤ)} {l : List (Event H K)}
    (hl : (N.nodes i).core.eventDiff rt tick known = .ok l) {ev : Event H K} (hev : ev ∈ l) :
    Sent S Q N.made ev.toWire ev.toSignedEvent := by
  have hserving := (h i).serving
  rw [among_others] at hserving
  have hstacked : Hashgraph.Stacked S N.made (N.nodes i).core.hg := hserving.toStacked
  obtain ⟨⟨x, hx⟩, -⟩ := ((Core.mem_eventDiff hstacked hl).2 ev).1 hev
  exact hserving.sent (h i).within.repertoire hx

/-! ## Steps -/

variable (S parties) in
/-- What a step does : nothing, it sends a part of a difference, or one node runs a method
with events from the mail. -/
theorem step_cases (N : Network ι H K) (a : Action ι K) :
    N.step S parties a = N ∨
    (∃ i p rt tick known l n, N.step S parties a = N.post p ∧
      (N.nodes i).core.eventDiff rt tick known = .ok l ∧
      p.events = (l.take n).map Event.toWire) ∨
    ∃ i m, N.step S parties a = N.run i m ∧
      ∀ r, PoolCore.SteadyOwn S (parties i).rt (parties i).validator (parties i).app r →
        PoolCore.LearnsOn S (parties i).rt (parties i).validator (parties i).app N.wires r →
        (∀ s, r s (Exec.exec (PoolCore.processSigPool S (parties i).rt) s).2) →
        Exec.Relates r m := by
  cases a with
  | addTransaction i tx =>
    refine .inr (.inr ⟨i, _, rfl, fun r hr _ _ => ?_⟩)
    exact Exec.relates_modify fun s => hr.submit s _ _
  | addInternalTransaction i tx =>
    refine .inr (.inr ⟨i, _, rfl, fun r hr _ _ => ?_⟩)
    exact Exec.relates_modify fun s => hr.submit s _ _
  | monologue i => exact .inr (.inr ⟨i, _, rfl, fun r hr _ hpool => hr.monologue hpool⟩)
  | answer i tick cmd =>
    rw [step]
    cases hd : (N.nodes i).core.eventDiff (parties i).rt tick cmd.known with
    | error err =>
      simp only [processSyncRequest, hd]
      exact .inl rfl
    | ok l =>
      simp only [processSyncRequest, hd]
      cases hsel : Core.selectEvents (min cmd.syncLimit (parties i).syncLimit) l with
      | error err => exact .inl rfl
      | ok l' =>
        refine .inr (.inl ⟨i, _, _, tick, cmd.known, l,
          (min cmd.syncLimit (parties i).syncLimit).toNat, rfl, hd, ?_⟩)
        rw [← Core.selectEvents_eq hsel]
  | push i tick known =>
    rw [step]
    cases hd : (N.nodes i).core.eventDiff (parties i).rt tick known with
    | error err =>
      simp only [PoolCore.push, hd]
      exact .inl rfl
    | ok l =>
      simp only [PoolCore.push, hd, bind, Except.bind]
      split_ifs with hlen hlimit
      · unfold Core.sliceTo
        split_ifs
        · exact .inr (.inl ⟨i, _, _, tick, known, l, _, rfl, hd, rfl⟩)
        · exact .inl rfl
      · refine .inr (.inl ⟨i, _, _, tick, known, l, l.length, rfl, hd, ?_⟩)
        rw [List.take_length]
      · exact .inl rfl
  | deliver i n =>
    rw [step]
    cases hn : N.mail[n]? with
    | none => exact .inl rfl
    | some req =>
      refine .inr (.inr ⟨i, _, rfl, fun r hr hlearns hpool => ?_⟩)
      exact hr.nodeSync hlearns hpool req.fromID fun w hw => ⟨req, List.mem_of_getElem? hn, hw⟩

/-- What holds across the calls of a node holds across a step. -/
theorem relates_step (N : Network ι H K) (a : Action ι K) {i : ι}
    {r : PoolCore H K → PoolCore H K → Prop}
    (hr : PoolCore.SteadyOn S (parties i).rt (parties i).validator (parties i).app N.wires r)
    (hpool : ∀ s, r s (Exec.exec (PoolCore.processSigPool S (parties i).rt) s).2) :
    r (N.nodes i) ((N.step S parties a).nodes i) := by
  rcases step_cases S parties N a with he | ⟨-, p, -, -, -, -, -, he, -⟩ | ⟨j, m, he, hm⟩
  · rw [he]
    exact hr.refl _
  · rw [he]
    exact hr.refl _
  · rw [he]
    by_cases hi : i = j
    · subst hi
      rw [nodes_run_self]
      exact hm r hr.toSteadyOwn hr.learnsOn hpool (N.nodes i)
    · rw [nodes_run_of_ne hi]
      exact hr.refl _

/-- What a step adds to the journals stays. -/
theorem entries_step (N : Network ι H K) (a : Action ι K) (i : ι) :
    (N.nodes i).host.journal.entries <+: ((N.step S parties a).nodes i).host.journal.entries := by
  refine relates_step (r := fun s s' => s.host.journal.entries <+: s'.host.journal.entries) N a
    PoolCore.steadyOn_entries fun s => ?_
  rw [PoolCore.processSigPool, Session.exec_onHashgraph]

theorem madeBy_step (N : Network ι H K) (a : Action ι K) (J : Set ι) :
    N.madeBy J ⊆ (N.step S parties a).madeBy J := by
  rintro e ⟨j, hj, he⟩
  exact ⟨j, hj, Journal.mem_made.2 ((entries_step N a j).subset (Journal.mem_made.1 he))⟩

theorem madeBy_foldl (actions : List (Action ι K)) (N : Network ι H K) (J : Set ι) :
    N.madeBy J ⊆ (actions.foldl (step S parties) N).madeBy J := by
  induction actions generalizing N with
  | nil => exact subset_rfl
  | cons a actions ih => exact (madeBy_step N a J).trans (ih _)

/-- The calls of the nodes keep `I`, as long as `p` holds of the events that were made. -/
structure Upholds (S : Scheme H K) (parties : ι → Party K) (Q : Set K)
    (p : Set (SignedEvent H K) → Prop) (I : ι → PoolCore H K → Prop) : Prop where
  mono : ∀ {E E'}, E ⊆ E' → p E' → p E
  collisionFree : ∀ {E}, p E → CollisionFree S E
  steady : ∀ i O W, Lines S O →
    (∀ e ∈ O, e.creator ≠ ((parties i).validator.publicKeyHex : K)) →
    PoolCore.SteadyOwn S (parties i).rt (parties i).validator (parties i).app
        (PoolCore.Maintains (fun j => p (j.among O)) fun s =>
          PoolCore.Citizen S (parties i).validator Q O W s ∧ I i s) ∧
      PoolCore.LearnsOn S (parties i).rt (parties i).validator (parties i).app W
        (PoolCore.Maintains (fun j => p (j.among O)) fun s =>
          PoolCore.Citizen S (parties i).validator Q O W s ∧ I i s)
  processSigPool : ∀ i s, I i s →
    I i (Exec.exec (PoolCore.processSigPool S (parties i).rt) s).2

namespace Upholds

variable {p : Set (SignedEvent H K) → Prop} {I : ι → PoolCore H K → Prop}

/-- One node runs a method with events from the mail. -/
theorem run_node (hu : Upholds S parties Q p I) (hl : Lawful parties genesis Q)
    (h : N.Civil S parties Q) (hI : ∀ i, I i (N.nodes i))
    (hm : ∀ r, PoolCore.SteadyOwn S (parties i).rt (parties i).validator (parties i).app r →
      PoolCore.LearnsOn S (parties i).rt (parties i).validator (parties i).app N.wires r →
      (∀ s, r s (Exec.exec (PoolCore.processSigPool S (parties i).rt) s).2) → Exec.Relates r m)
    (hp : p (N.run i m).made) :
    (N.run i m).Civil S parties Q ∧ ∀ j, I j ((N.run i m).nodes j) := by
  obtain ⟨hown, hlearns⟩ := hu.steady i _ N.wires (h.lines hl _) (h.foreign hl i)
  have hpool : ∀ s : PoolCore H K, PoolCore.Maintains (fun j => p (j.among (N.madeBy {i}ᶜ)))
      (fun s => PoolCore.Citizen S (parties i).validator Q (N.madeBy {i}ᶜ) N.wires s ∧ I i s) s
      (Exec.exec (PoolCore.processSigPool S (parties i).rt) s).2 := by
    refine fun s => ⟨?_, fun _ hs => ⟨hs.1.processSigPool, hu.processSigPool i s hs.2⟩⟩
    rw [PoolCore.processSigPool, Session.exec_onHashgraph]
  have hmaintains := hm _ hown hlearns hpool (N.nodes i)
  obtain ⟨hcitizen, hIi⟩ := hmaintains.2 (by
    rw [← madeBy_run_others N i m, ← nodes_run_self N i m]
    change p (Journal.among _ _)
    rwa [among_others]) ⟨h i, hI i⟩
  refine ⟨h.run hmaintains.1 hcitizen, fun j => ?_⟩
  by_cases hj : j = i
  · subst hj
    rwa [nodes_run_self]
  · rw [nodes_run_of_ne hj]
    exact hI j

/-- A step keeps the nodes in order. -/
theorem step (hu : Upholds S parties Q p I) (hl : Lawful parties genesis Q)
    (h : N.Civil S parties Q) (hI : ∀ i, I i (N.nodes i)) {a : Action ι K}
    (hp : p (N.step S parties a).made) :
    (N.step S parties a).Civil S parties Q ∧ ∀ i, I i ((N.step S parties a).nodes i) := by
  rcases step_cases S parties N a with he | ⟨i, req, rt, tick, known, l, n, he, hd, hreq⟩ |
    ⟨i, m, he, hm⟩
  · rw [he]
    exact ⟨h, hI⟩
  · rw [he]
    refine ⟨h.post fun w hw => ?_, hI⟩
    rw [hreq] at hw
    obtain ⟨ev, hev, rfl⟩ := List.mem_map.1 hw
    exact ⟨_, h.sent_of_eventDiff hd (List.mem_of_mem_take hev)⟩
  · rw [he] at hp ⊢
    exact hu.run_node hl h hI hm hp

/-- And so does a run. -/
theorem run (hu : Upholds S parties Q p I) (hl : Lawful parties genesis Q)
    (h : N.Civil S parties Q) (hI : ∀ i, I i (N.nodes i)) (actions : List (Action ι K))
    (hp : p (actions.foldl (Network.step S parties) N).made) :
    (actions.foldl (Network.step S parties) N).Civil S parties Q ∧
      ∀ i, I i ((actions.foldl (Network.step S parties) N).nodes i) := by
  induction actions using List.reverseRecOn with
  | nil => exact ⟨h, hI⟩
  | append_singleton actions a ih =>
    rw [List.foldl_append] at hp ⊢
    obtain ⟨hcivil, hI⟩ := ih (hu.mono (madeBy_step _ a _) hp)
    exact hu.step hl hcivil hI hp

end Upholds

/-- The nodes keep themselves in order, as long as no two events have one hash. -/
theorem upholds_civil (hl : Lawful parties genesis Q) :
    Upholds S parties Q (CollisionFree S) fun (_ : ι) (_ : PoolCore H K) => True where
  mono hE h := h.mono hE
  collisionFree := id
  steady i O W hO hforeign := by
    have h := PoolCore.steadyOn_citizen (parties i).rt W hO hforeign hl.distinct
      (hl.admits i)
    simp only [and_true]
    exact ⟨h.toSteadyOwn, h.learnsOn⟩
  processSigPool _ _ := id

/-- New nodes. -/
theorem civil_start (S : Scheme H K) (hl : Lawful parties genesis Q) :
    (start parties genesis : Network ι H K).Civil S parties Q := by
  intro i
  refine (PoolCore.citizen_new S (parties i).validator (parties i).cacheSize (parties i).peers
    hl.genesis).mono (Set.empty_subset _) ?_
  rintro w ⟨p, hp, -⟩
  cases hp

/-- Runs of the network. -/
theorem civil_run (hl : Lawful parties genesis Q) (actions : List (Action ι K))
    (hcol : CollisionFree S
      (actions.foldl (step S parties) (start parties genesis : Network ι H K)).made) :
    (actions.foldl (step S parties) (start parties genesis : Network ι H K)).Civil S parties Q :=
  ((upholds_civil hl).run hl (civil_start S hl) (fun _ => trivial) actions hcol).1

/-! ## Beginnings of lines -/

/-- The events of a creator at a node. -/
def holds (N : Network ι H K) (i : ι) (e : SignedEvent H K) : Prop :=
  ∃ x, signedEvents (N.nodes i).hg.store.eventCache x = some e

/-- A node that has an event of another has the one before it. -/
theorem Civil.holds_previous (hl : Lawful parties genesis Q) (h : N.Civil S parties Q)
    (hcol : CollisionFree S N.made) {j : ι} {n : ℕ} {e p : SignedEvent H K}
    (he : (N.nodes j).host.journal.made[n + 1]? = some e)
    (hp : (N.nodes j).host.journal.made[n]? = some p) (hi : N.holds i e) : N.holds i p := by
  obtain ⟨x, hx⟩ := hi
  have hserving := (h i).serving
  rw [among_others] at hserving
  -- the self-parent is the previous event, and it is stored
  have hparent : e.body.selfParent = some (p.hex S) := by
    rw [(h j).parent (n + 1) e he, List.getLast?_take, if_neg (by omega), Nat.add_sub_cancel, hp]
    rfl
  obtain ⟨ev, hev, rfl⟩ := signedEvents_eq_some.1 hx
  obtain ⟨p', k, hp', -⟩ := hserving.ordered.parent x ev.toSignedEvent ev.topologicalIndex
    (p.hex S) (Set.notMem_empty x)
    (Hashgraph.placedEvents_eq_some.2 ⟨ev, hev, rfl, rfl⟩) (.inl hparent)
  obtain ⟨ev', hev', rfl, -⟩ := Hashgraph.placedEvents_eq_some.1 hp'
  have hstored : signedEvents (N.nodes i).hg.store.eventCache (p.hex S) = some ev'.toSignedEvent :=
    signedEvents_eq_some.2 ⟨ev', hev', rfl⟩
  obtain ⟨hmade, hhex⟩ := hserving.origin _ _ hstored
  have hpmade : p ∈ N.made := ⟨j, trivial, List.mem_of_getElem? hp⟩
  have hbody := hcol _ hmade p hpmade hhex
  have heq : ev'.toSignedEvent = p := (h.lines hl Set.univ).unique _ hmade p hpmade
    (congrArg (fun b : EventBody H K => (Hex.encodeToString b.creator : K)) hbody)
    (congrArg EventBody.index hbody)
  exact ⟨p.hex S, heq ▸ hstored⟩

/-- What a node has of another one is a beginning of what that one has made. -/
theorem Civil.holds_iff (hl : Lawful parties genesis Q) (h : N.Civil S parties Q)
    (hcol : CollisionFree S N.made) (i j : ι) :
    ∃ n, ∀ (k : ℕ) e, (N.nodes j).host.journal.made[k]? = some e → (N.holds i e ↔ k < n) := by
  classical
  have hbound : ∃ n, ∀ e, (N.nodes j).host.journal.made[n]? = some e → ¬N.holds i e :=
    ⟨(N.nodes j).host.journal.made.length, fun e he => by simp at he⟩
  refine ⟨Nat.find hbound, fun k e hk => ⟨fun hi => ?_, fun hlt => ?_⟩⟩
  · -- an event after one that is missing is missing
    by_contra hge
    obtain ⟨d, rfl⟩ := Nat.exists_eq_add_of_le (not_lt.1 hge)
    clear hge
    induction d generalizing e with
    | zero => exact Nat.find_spec hbound e hk hi
    | succ d ih =>
      have hlen := (List.getElem?_eq_some_iff.1 hk).1
      have hd : Nat.find hbound + d < (N.nodes j).host.journal.made.length := by omega
      exact ih _ (h.holds_previous hl hcol hk (List.getElem?_eq_getElem hd) hi)
        (List.getElem?_eq_getElem hd)
  · have hmin := Nat.find_min hbound hlt
    push Not at hmin
    obtain ⟨e', he', hi⟩ := hmin
    rwa [Option.some.inj (hk.symm.trans he')]

end Invariant

end Network

namespace Sample

/-- An application that accepts three peers. -/
def acceptThree : ProxyCommitCallback Bytes :=
  fun b => .ok
    { stateHash := []
      internalTransactionReceipts := b.body.internalTransactions.map fun tx =>
        ⟨tx, decide (tx.body.peer.pubKeyString ∈ [[1], [2], [3]])⟩ }

/-- Two nodes with clocks that tell their events apart. -/
def parties (i : Fin 2) : Party Bytes where
  validator := validator (1 + UInt8.ofNat i)
  app := { commit := acceptThree }
  rt := .plain
  clock n := Int64.ofNat (100 * i + n)
  cacheSize := 100
  syncLimit := 10
  peers := ⟨[peer 1, peer 2]⟩

/-- The first node. -/
def node₁ : Fin 2 := 0

/-- The second node. -/
def node₂ : Fin 2 := 1

/-- Both nodes make events, and the first answer is delivered to the second node again after
it has pushed. -/
def exchange : List (Network.Action (Fin 2) Bytes) :=
  [ .addTransaction node₁ [7], .monologue node₁, .answer node₁ 0 ⟨0, [], 10⟩, .deliver node₂ 0,
    .push node₂ 0 [], .addTransaction node₁ [8], .deliver node₁ 1, .deliver node₂ 0,
    .push node₁ 0 [], .addInternalTransaction node₂ (join 3), .deliver node₂ 2 ]

/-- The nodes after that. -/
def gossiped : Network (Fin 2) Bytes Bytes :=
  exchange.foldl (Network.step scheme parties) (Network.start parties ⟨[peer 1, peer 2]⟩)

theorem parties_lawful :
    Network.Lawful parties ⟨[peer 1, peer 2]⟩ {k | k ∈ ([[1], [2], [3]] : List Bytes)} where
  keys := by
    have hall : ∀ i j : Fin 2, ((parties i).validator.publicKeyHex : Bytes) =
        (parties j).validator.publicKeyHex → i = j := by
      decide +kernel
    exact fun i j => hall i j
  distinct := by
    have hall : ∀ k ∈ ([[1], [2], [3]] : List Bytes), ∀ k' ∈ ([[1], [2], [3]] : List Bytes),
        fnv32a (Hex.decodeFromString k) = fnv32a (Hex.decodeFromString k') → k = k' := by
      decide +kernel
    exact hall
  genesis := by
    have hall : ∀ p ∈ [peer 1, peer 2], p.pubKeyString ∈ ([[1], [2], [3]] : List Bytes) := by
      decide +kernel
    exact hall
  admits i b response hb r hr hacc _ := by
    obtain rfl := Except.ok.inj hb
    obtain ⟨tx, -, rfl⟩ := List.mem_map.1 hr
    exact of_decide_eq_true hacc

theorem gossiped_collisionFree : CollisionFree scheme gossiped.made := by
  have hall : ∀ i j, ∀ e ∈ (gossiped.nodes i).host.journal.made, ∀ e' ∈ (gossiped.nodes j).host.journal.made,
      e.hex scheme = e'.hex scheme → e.body = e'.body := by
    decide +kernel
  rintro e ⟨i, -, he⟩ e' ⟨j, -, he'⟩
  exact hall i j e he e' he'

end Sample

end Babble
