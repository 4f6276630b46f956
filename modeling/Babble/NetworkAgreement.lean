import Mathlib.Algebra.BigOperators.Fin
import Babble.Network

/-!
# Agreement in a network

The peers of a network are fixed if no application accepts a change. Then the events that
the nodes make, taken together, are a universe without forks, and every node keeps a part of
it (`Chronicled`), also while it attaches signatures to blocks and makes events of its own.
A stored block is a block of the frames, with the answer of the application and some
signatures (`Publishes`).

Hence two nodes of a network commit the same blocks, as far as both have got, and if their
applications answer alike, the blocks with one index have one body (`network_agreement`).
-/

set_option linter.unusedSectionVars false

namespace Babble

variable {C ι H K : Type} [DecidableEq ι] [DecidableEq H] [DecidableEq K] [Hex H] [Hex K]

/-! ## Stored blocks -/

/-- The block as the application leaves it. -/
def Block.answeredBy (proxy : ProxyCommitCallback K) (b : Block K) : Block K :=
  match proxy b with
  | .ok response => b.answered response
  | .error _ => b

/-- The stored blocks are blocks of the list as the application leaves them, but for the
signatures, and the last of the list is the last block. -/
structure Hashgraph.Publishes (proxy : ProxyCommitCallback K) (bs : List (Block K))
    (h : Hashgraph H K) : Prop where
  lastBlock : h.store.lastBlock = bs.length - 1
  index : ∀ (n : ℕ) b₀, bs[n]? = some b₀ → b₀.body.index = n
  block : ∀ k b, h.store.blockCache.lookup k = some b → ∃ (n : ℕ) (b₀ : Block K), k = n ∧
    bs[n]? = some b₀ ∧ b.body = (b₀.answeredBy proxy).body

namespace Core

variable {S : Scheme H K} {v : Validator} {proxy : ProxyCommitCallback K}

/-- What follows the signature leaves the blocks alone. -/
theorem blockCache_process (block : Block K) (r : ℤ)
    (receipts : List (InternalTransactionReceipt K)) (s : Core H K) :
    (Exec.exec (Session.onHashgraph (Hashgraph.setAnchorBlock block) >>= fun _ =>
      processAcceptedInternalTransactions v r receipts) s).2.hg.store.blockCache =
        s.hg.store.blockCache := by
  have hanchor := Hashgraph.relates_setAnchorBlock
    (r := fun h h' => h'.store.blockCache = h.store.blockCache) (fun _ => rfl) (fun _ _ => rfl)
    block s.hg
  rw [Exec.exec_bind, Session.exec_onHashgraph]
  generalize Exec.exec (Hashgraph.setAnchorBlock block) s.hg = res at hanchor ⊢
  obtain ⟨err | _, h₁⟩ := res
  · exact hanchor
  · obtain ⟨res, s', hexec, hcase⟩ := exec_process_cases (v := v) { s with hg := h₁ } r receipts
    simp only [hexec]
    rcases hcase with ⟨-, -, -, hhg⟩ | ⟨-, err, -, -, -, hhg⟩ | ⟨-, st, hst, -, -, hhg⟩
    · rw [hhg]
      exact hanchor
    · rw [hhg]
      exact hanchor
    · obtain ⟨psc, pec, roots, fc, -, rfl, -⟩ := InmemStore.setPeerSet_eq hst
      rw [hhg]
      exact hanchor

/-- A commit stores its block again, as the application leaves it, and no other. -/
theorem lookup_commitCallback {b : Block K} {s : Core H K}
    (hb : s.hg.store.blockCache.lookup b.body.index = some b) {k : ℤ} {b' : Block K}
    (hk : (commitCallback S v proxy b s).hg.store.blockCache.lookup k = some b') :
    (k ≠ b.body.index ∧ s.hg.store.blockCache.lookup k = some b') ∨
      k = b.body.index ∧ b'.body = (b.answeredBy proxy).body := by
  unfold commitCallback at hk
  rw [Block.answeredBy]
  cases hproxy : proxy b with
  | error err =>
    simp only [commit, hproxy, Exec.exec_throw] at hk
    by_cases hkb : k = b.body.index
    · subst hkb
      obtain rfl := Option.some.inj (hb.symm.trans hk)
      exact .inr ⟨rfl, rfl⟩
    · exact .inl ⟨hkb, hk⟩
  | ok response =>
    have hanswered : (setBlock (b.answered response) s).hg.store.blockCache.lookup k = some b' →
        (k ≠ b.body.index ∧ s.hg.store.blockCache.lookup k = some b') ∨
          k = b.body.index ∧ b'.body = (b.answered response).body := by
      intro hk
      simp only [setBlock, InmemStore.setBlock, Map.lookup_insert_ite] at hk
      split_ifs at hk with hkey
      · obtain rfl := Option.some.inj hk
        exact .inr ⟨hkey, rfl⟩
      · exact .inl ⟨hkey, hk⟩
    cases hP : s.hg.store.getPeerSet b.body.roundReceived with
    | error err =>
      have hP' : (setBlock (b.answered response) s).hg.store.getPeerSet
          (b.answered response).body.roundReceived = .error err := hP
      simp only [commit, hproxy, Exec.exec_bind, Exec.exec_modify, signBlock,
        Session.exec_onHashgraph, Hashgraph.exec_read] at hk
      simp only [Block.answered] at hP'
      rw [hP'] at hk
      exact hanswered hk
    | ok P =>
      rw [exec_commit hproxy hP, blockCache_process, withSigned] at hk
      cases hlook : P.byID.lookup v.id with
      | none =>
        rw [hlook] at hk
        exact hanswered hk
      | some p =>
        -- the signed block has the same body
        rw [hlook] at hk
        simp only at hk
        rw [setBlock, InmemStore.setBlock] at hk
        simp only [Map.lookup_insert_ite] at hk
        split_ifs at hk with hkey
        · obtain rfl := Option.some.inj hk
          exact .inr ⟨hkey, rfl⟩
        · exact hanswered hk

end Core

namespace Session

variable {S : Scheme H K} {rt : Runtime} {v : Validator} {app : Application K}

variable (S rt v app) in
/-- The stored blocks stay those of the record. -/
theorem publishes_feed {t : Recorded (PoolState H K) H K} (i : Input H K)
    (h : t.hg.Publishes app.commit (blocks t)) :
    (feed S rt (traced (PoolCore.commitCallback S v app)) t i).hg.Publishes app.commit
      (blocks (feed S rt (traced (PoolCore.commitCallback S v app)) t i)) := by
  have hun : Unshelved fun t t' : Recorded (PoolState H K) H K =>
      t.hg.Publishes app.commit (blocks t) → t'.hg.Publishes app.commit (blocks t') := by
    intro t hg hs h
    have hblocks : hg.store.blockCache = t.hg.store.blockCache := congrArg Shelf.blocks hs
    have hlast : hg.store.lastBlock = t.hg.store.lastBlock := congrArg Shelf.lastBlock hs
    exact ⟨hlast.trans h.lastBlock, h.index, hblocks ▸ h.block⟩
  refine hun.feed (fun h1 h2 => h2 ∘ h1) (fun fr t ht => ?_) t i h
  rw [commitFrame_eq]
  split_ifs
  · exact ht
  · set b := Block.fromFrame S (t.hg.store.lastBlock + 1) fr
    have hidx : b.body.index = (blocks t).length := by
      change t.hg.store.lastBlock + 1 = _
      rw [ht.lastBlock]
      omega
    set s : PoolCore H K := ⟨t.host.1, (storing b t).hg⟩
    set c := PoolCore.core (PoolCore.submit (app.transactions b) (app.internalTransactions b) s)
    have hstored : c.hg.store.blockCache.lookup b.body.index = some b := by
      change (t.hg.store.blockCache.insert b.body.index b).lookup _ = _
      rw [AList.lookup_insert]
    have hlast : (storing b t).hg.store.lastBlock = t.hg.store.lastBlock + 1 :=
      if_pos (by change _ < t.hg.store.lastBlock + 1; omega)
    have hlast' : (Core.commitCallback S v app.commit b c).hg.store.lastBlock =
        t.hg.store.lastBlock + 1 :=
      ((Core.hosting_commitCallback b c).lastBlock (by
        change t.hg.store.lastBlock + 1 ≤ (storing b t).hg.store.lastBlock
        rw [hlast])).trans hlast
    have hblocks : blocks (traced (PoolCore.commitCallback S v app) b (storing b t)) =
        blocks t ++ [b] := by
      change ((t.host.2 ++ [_]).map Prod.fst) = _
      rw [List.map_append]
      rfl
    rw [hblocks]
    refine ⟨?_, fun n b₀ hn => ?_, fun k b' hk => ?_⟩
    · change (Core.commitCallback S v app.commit b c).hg.store.lastBlock = _
      rw [hlast', ht.lastBlock]
      simp
    · rw [List.getElem?_append] at hn
      split_ifs at hn with hlt
      · exact ht.index n b₀ hn
      · obtain ⟨hn0, hb₀⟩ := List.getElem?_eq_some_iff.1 hn
        have : n = (blocks t).length := by
          simp only [List.length_singleton] at hn0
          omega
        subst this
        simp only [Nat.sub_self, List.getElem_cons_zero] at hb₀
        rw [← hb₀, hidx]
    · rcases Core.lookup_commitCallback (S := S) (v := v) hstored hk with ⟨hne, hk⟩ | ⟨rfl, hbody⟩
      · change (t.hg.store.blockCache.insert b.body.index b).lookup k = _ at hk
        rw [AList.lookup_insert_ne hne] at hk
        obtain ⟨n, b₀, rfl, hn, hb₀⟩ := ht.block k b' hk
        exact ⟨n, b₀, rfl, List.getElem?_append_left (List.getElem?_eq_some_iff.1 hn).1 ▸ hn, hb₀⟩
      · refine ⟨(blocks t).length, b, hidx, ?_, hbody⟩
        rw [List.getElem?_append_right le_rfl]
        simp

end Session

/-! ## A node with fixed peers -/

/-- The application accepts no change of the peers. -/
def Application.Static (app : Application K) : Prop :=
  ∀ b response, app.commit b = .ok response →
    response.internalTransactionReceipts.any InternalTransactionReceipt.changes = false

theorem Application.Static.admits {app : Application K} (h : app.Static) (Q : Set K) :
    app.Admits Q := by
  intro b response hresp r hr hacc htype
  have hno := List.any_eq_false.1 (h b response hresp) r hr
  simp [InternalTransactionReceipt.changes, hacc, htype] at hno

theorem PoolCore.static_commitCallback {S : Scheme H K} {v : Validator} {app : Application K}
    (happ : app.Static) :
    Session.Static (commitCallback S v app : CommitCallback (PoolState H K) H K) := by
  refine ⟨hosting_commitCallback, fun b s => ?_⟩
  rcases Core.members_commitCallback S v app.commit b
    (core (submit (app.transactions b) (app.internalTransactions b) s)) with
    ⟨-, hpsc⟩ | ⟨response, c, hresp, hany, -⟩
  · exact hpsc
  · rw [happ b response hresp] at hany
    cases hany

namespace Hashgraph

variable {S : Scheme H K} {U : Universe S} {P : PeerSet K} {rt : Runtime} {size : ℕ}
  {proxy : ProxyCommitCallback K} {h h' : Hashgraph H K}

/-- The hashgraph is chronicled, and publishes the blocks of its frames. -/
structure Annals (U : Universe S) (P : PeerSet K) (rt : Runtime) (size : ℕ)
    (proxy : ProxyCommitCallback K) (h : Hashgraph H K) : Prop extends
    Chronicled U P rt size h where
  publishes : h.Publishes proxy (blocksFrom S 0 h.processedFrames)

namespace Annals

theorem initial (U : Universe S) (P : PeerSet K) (rt : Runtime) (size : ℕ)
    (proxy : ProxyCommitCallback K) : Annals U P rt size proxy (Hashgraph.initial size P) := by
  have hc := Chronicled.initial U P rt size
  refine ⟨hc, hc.ledgered.lastBlock, fun n b₀ hn => ?_, fun k b hk => ?_⟩
  · have hlen := hc.length_processedFrames
    rw [Session.lastConsensusRound_started (.init (init_initial (H := H) size P))] at hlen
    rw [List.length_eq_zero_iff.1 hlen] at hn
    cases hn
  · obtain ⟨st, hs, he⟩ := init_cases (init_initial (H := H) size P)
    obtain ⟨psc, pec, roots, fc, -, rfl, -⟩ := InmemStore.setPeerSet_eq hs
    rw [he] at hk
    cases hk

/-- What a host may do to the rest. -/
theorem of_hosted (ha : Annals U P rt size proxy h) {b : Block K} (hh : Hosted b h h')
    (hpeers : h'.store.peerSetCache = h.store.peerSetCache)
    (hlast : h'.store.lastBlock = h.store.lastBlock)
    (hblocks : ∀ k b', h'.store.blockCache.lookup k = some b' →
      ∃ b'', h.store.blockCache.lookup k = some b'' ∧ b'.body = b''.body) :
    Annals U P rt size proxy h' := by
  have hframes : h'.processedFrames = h.processedFrames := by
    rw [processedFrames, processedFrames, hh.lastConsensusRound,
      hh.frameCache ha.ledgered.sharedRoots]
  refine ⟨ha.toChronicled.of_hosted hh hpeers hlast, ?_⟩
  rw [hframes]
  refine ⟨hlast.trans ha.publishes.lastBlock, ha.publishes.index, fun k b' hk => ?_⟩
  obtain ⟨b'', hk, hbody⟩ := hblocks k b' hk
  obtain ⟨n, b₀, hn, hb₀, hbody'⟩ := ha.publishes.block k b'' hk
  exact ⟨n, b₀, hn, hb₀, hbody.trans hbody'⟩

theorem tick (ha : Annals U P rt size proxy h) (n : ℕ) :
    Annals U P rt size proxy { h with memo := { h.memo with tick := n } } :=
  ⟨ha.toChronicled.tick n, ⟨ha.publishes.lastBlock, ha.publishes.index, ha.publishes.block⟩⟩

/-- The collection of signatures. -/
theorem processSigPool (ha : Annals U P rt size proxy h) :
    Annals U P rt size proxy (Exec.exec (Hashgraph.processSigPool S rt) h).2 := by
  refine relates_processSigPool
    (r := fun h h' => Annals U P rt size proxy h → Annals U P rt size proxy h')
    (fun _ => id) (fun h1 h2 => h2 ∘ h1) (fun h n ha => ha.tick n) (fun h bs b hb ha => ?_)
    (fun h a ha => ?_) (fun h p ha => ?_) h ha
  · obtain ⟨n, b₀, hn, hb₀, hbody⟩ := ha.publishes.block bs.index b hb
    have hidx : b.body.index = n := by
      rw [hbody, Block.answeredBy, ← ha.publishes.index n b₀ hb₀]
      cases proxy b₀ <;> rfl
    have hbs : (b.setSignature bs).body.index = b.body.index := rfl
    have hh := hosted_setBlock hbs h
    refine ha.of_hosted hh rfl (hh.lastBlock ?_) fun k b' hk => ?_
    · have hlt := (List.getElem?_eq_some_iff.1 hb₀).1
      rw [hidx, ha.publishes.lastBlock]
      omega
    · simp only [InmemStore.setBlock, Map.lookup_insert_ite] at hk
      split_ifs at hk with hkey
      · obtain rfl := Option.some.inj hk
        refine ⟨b, ?_, rfl⟩
        rw [hkey, ← hb, hn, ← hidx]
        rfl
      · exact ⟨b', hk, rfl⟩
  · exact ha.of_hosted (Core.hosted_anchorBlock (blockBefore 0) h a) rfl rfl
      fun k b' hk => ⟨b', hk, rfl⟩
  · refine ha.of_hosted (b := blockBefore 0) ⟨⟨⟨rfl, rfl, rfl, rfl, fun _ => id, fun _ => id, id, rfl,
      rfl, rfl, rfl⟩, rfl⟩, id, fun _ => id, fun _ _ _ _ => rfl, fun _ => rfl, rfl, fun _ => rfl, rfl⟩
      rfl rfl fun k b' hk => ⟨b', hk, rfl⟩

/-- A call with an event that is not accepted, or with one of the universe. -/
theorem feed {v : Validator} {app : Application K} {s : PoolCore H K} {i : Session.Input H K}
    (ha : Annals U P rt size app.commit s.hg) (happ : app.Static)
    (hb : Accepts S rt s.hg i → i.event.body ∈ U.bodies)
    (hlen : Accepts S rt s.hg i → s.hg.store.eventCache.keys.length < size) :
    Annals U P rt size app.commit
      (Session.feed S rt (PoolCore.commitCallback S v app) s i).hg := by
  have hcb := PoolCore.static_commitCallback (S := S) (v := v) happ
  rcases ha.toChronicled.feed_cases hcb hb hlen with ⟨ti, he⟩ | ⟨hc, hblocks⟩
  · rw [he]
    exact ha.of_hosted (hosted_topologicalIndex (blockBefore 0) s.hg ti) rfl rfl
      fun k b' hk => ⟨b', hk, rfl⟩
  · refine ⟨hc, ?_⟩
    have hrec : Session.blocks (Session.recorded S s.hg.processedFrames s) =
        blocksFrom S 0 s.hg.processedFrames :=
      (Session.ledger_recorded ha.ledgered).committed
    have hp := Session.publishes_feed S rt v app
      (t := Session.recorded S s.hg.processedFrames s) i (hrec ▸ ha.publishes)
    rw [hblocks] at hp
    have hfeed : (Session.feed S rt (Session.traced (PoolCore.commitCallback S v app))
        (Session.recorded S s.hg.processedFrames s) i).hg =
        (Session.feed S rt (PoolCore.commitCallback S v app) s i).hg :=
      congrArg Session.hg (Session.untraced_feed S rt (PoolCore.commitCallback S v app)
        (Session.recorded S s.hg.processedFrames s) i)
    rwa [hfeed] at hp

end Annals

end Hashgraph

/-! ## The events of a network as a universe -/

/-- Lines of events are a universe. -/
def Lines.universe {S : Scheme H K} {E : Set (SignedEvent H K)} (hl : Lines S E)
    (hcol : CollisionFree S E) : Universe S where
  bodies := {b | ∃ e ∈ E, e.body = b}
  indexed :=
    { collisionFree := by
        rintro _ ⟨e, he, rfl⟩ _ ⟨e', he', rfl⟩ hx
        exact hcol e he e' he' hx
      index_first := by
        rintro _ ⟨e, he, rfl⟩
        exact hl.first e he
      index_next := by
        rintro _ ⟨e, he, rfl⟩ _ ⟨p, hp, rfl⟩ hx
        obtain ⟨p', hp', hhex, -, hi⟩ := hl.next e he _ hx
        rw [hi, hcol p' hp' p hp hhex] }
  noFork := by
    rintro _ ⟨e, he, rfl⟩ _ ⟨e', he', rfl⟩ hc hsp
    have hcreator : e.creator = e'.creator := congrArg (fun c => (Hex.encodeToString c : K)) hc
    have hindex : e.body.index = e'.body.index := by
      cases hx : e.body.selfParent with
      | none => rw [hl.first e he hx, hl.first e' he' (hsp ▸ hx)]
      | some x =>
        obtain ⟨p, hp, hhex, -, hi⟩ := hl.next e he x hx
        obtain ⟨p', hp', hhex', -, hi'⟩ := hl.next e' he' x (hsp ▸ hx)
        rw [hi, hi', hcol p hp p' hp' (hhex.trans hhex'.symm)]
    rw [hl.unique e he e' he' hcreator hindex]

namespace Hashgraph

variable {S : Scheme H K} {rt : Runtime} {E : Set (SignedEvent H K)} {h : Hashgraph H K}
  {i : Session.Input H K}

/-- A hashgraph with events from a list has room for another one of the list. -/
theorem Stacked.length_keys_lt (hs : Stacked S E h) (hcol : CollisionFree S E) (hl : Lines S E)
    {M : List (SignedEvent H K)} (hM : ∀ e ∈ E, e ∈ M) (hE : i.event ∈ E)
    (hacc : Accepts S rt h i) : h.store.eventCache.keys.length < M.length := by
  have hnew := hs.not_stored hcol hE hacc.checked.1 (hl.indexFollows hcol hs hE hacc.checked.1)
  have hnodup : (i.event.hex S :: h.store.eventCache.keys).Nodup := by
    refine List.nodup_cons.2 ⟨fun hmem => ?_, AList.keys_nodup _⟩
    obtain ⟨ev, hev⟩ := Map.mem_iff_lookup.1 (AList.mem_keys.2 hmem)
    rw [signedEvents_eq_some.2 ⟨ev, hev, rfl⟩] at hnew
    cases hnew
  have hsub : i.event.hex S :: h.store.eventCache.keys ⊆ M.map (SignedEvent.hex S) := by
    intro x hx
    rcases List.mem_cons.1 hx with rfl | hx
    · exact List.mem_map_of_mem (hM _ hE)
    · obtain ⟨ev, hev⟩ := Map.mem_iff_lookup.1 (AList.mem_keys.2 hx)
      obtain ⟨he, hhex⟩ := hs.origin x ev.toSignedEvent (signedEvents_eq_some.2 ⟨ev, hev, rfl⟩)
      exact List.mem_map.2 ⟨_, hM _ he, hhex⟩
  have hle := (hnodup.subperm hsub).length_le
  rw [List.length_cons, List.length_map] at hle
  omega

variable {U : Universe S} {P : PeerSet K} {h' : Hashgraph H K} {x : H}

theorem Stacked.core_mem (hs : h.Stacked S E) (hx : x ∈ h.store.eventCache) :
    h.store.core x ∈ E ∧ (h.store.core x).hex S = x := by
  obtain ⟨ev, hev⟩ := Map.mem_iff_lookup.1 hx
  rw [InmemStore.core_eq hev]
  exact hs.origin x _ (signedEvents_eq_some.2 ⟨ev, hev, rfl⟩)

theorem Stacked.keys_subset (hs : h.Stacked S E) (hs' : h'.Stacked S E)
    (hsub : ∀ e, (∃ x, signedEvents h.store.eventCache x = some e) →
      ∃ x, signedEvents h'.store.eventCache x = some e) :
    ∀ x, x ∈ h.store.eventCache → x ∈ h'.store.eventCache := by
  intro x hx
  obtain ⟨ev, hev⟩ := Map.mem_iff_lookup.1 hx
  have he : signedEvents h.store.eventCache x = some ev.toSignedEvent :=
    signedEvents_eq_some.2 ⟨ev, hev, rfl⟩
  obtain ⟨y, hy⟩ := hsub _ ⟨x, he⟩
  obtain rfl : y = x := (hs'.origin y _ hy).2.symm.trans (hs.origin x _ he).2
  obtain ⟨ev', hev', -⟩ := signedEvents_eq_some.1 hy
  exact Map.mem_iff_lookup.2 ⟨ev', hev'⟩

/-- The events of one hash are the same in two hashgraphs. -/
theorem Stacked.core_eq (hl : Lines S E) (hcol : CollisionFree S E)
    (hs : h.Stacked S E) (hs' : h'.Stacked S E) (hx : x ∈ h.store.eventCache)
    (hx' : x ∈ h'.store.eventCache) : h.store.core x = h'.store.core x := by
  obtain ⟨he, hhex⟩ := hs.core_mem hx
  obtain ⟨he', hhex'⟩ := hs'.core_mem hx'
  have hbody := hcol _ he _ he' (hhex.trans hhex'.symm)
  exact hl.unique _ he _ he'
    (congrArg (fun b : EventBody H K => (Hex.encodeToString b.creator : K)) hbody)
    (congrArg EventBody.index hbody)

/-- The blocks of a hashgraph are a beginning of those of another one that processed more
rounds. -/
theorem Chronicled.blocksFrom_isPrefix (hl : Lines S E) (hcol : CollisionFree S E)
    (hties : Set.InjOn (fun e : SignedEvent H K => signatureR e.signature) E)
    (hs : h.Stacked S E) (hs' : h'.Stacked S E) {rt rt' : Runtime} {size size' : ℕ}
    (hc : h.Chronicled U P rt size) (hc' : h'.Chronicled U P rt' size')
    (hle : h.processedFrames.length ≤ h'.processedFrames.length) :
    blocksFrom S 0 h.processedFrames <+: blocksFrom S 0 h'.processedFrames := by
  have hkeys : ∀ fr ∈ h.processedFrames, ∀ a ∈ fr.events, ∀ b ∈ fr.events,
      a.key = b.key → a = b := by
    intro fr hfr a ha b hb hab
    obtain ⟨x, hx, -, rfl⟩ := hc.mem_events hfr ha
    obtain ⟨y, hy, -, rfl⟩ := hc.mem_events hfr hb
    have hcore := hties (hs.core_mem hx).1 (hs.core_mem hy).1 (Prod.ext_iff.1 hab).2
    have hxy : x = y := by rw [← (hs.core_mem hx).2, ← (hs.core_mem hy).2, hcore]
    rw [hxy]
  have hcontent := hc.content_take_eq hc' le_rfl hle hkeys fun x hx hx' =>
    hs.core_eq hl hcol hs' hx hx'
  rw [List.take_length] at hcontent
  rw [blocksFrom_congr hcontent]
  nth_rewrite 2 [← List.take_append_drop h.processedFrames.length h'.processedFrames]
  rw [blocksFrom_append]
  exact List.prefix_append ..

end Hashgraph

namespace PoolCore

variable {S : Scheme H K} {rt : Runtime} {v : Validator} {app : Application K}
  {Q : Set K} {O : Set (SignedEvent H K)} {W : Set (WireEvent K)} {U : Universe S}
  {P : PeerSet K} {size : ℕ} {M : List (SignedEvent H K)}

variable (rt W P) in
/-- The calls of a core with fixed peers, if the events come from a short list. -/
theorem steadyOn_annals (hO : Lines S O) (hforeign : ∀ e ∈ O, e.creator ≠ (v.publicKeyHex : K))
    (hQ : DistinctKeys Q) (happ : app.Static) (hU : ∀ e ∈ M, e.body ∈ U.bodies)
    (hsize : M.length ≤ size) :
    SteadyOn S rt v app W
      (Maintains (fun j => CollisionFree S (j.among O) ∧ ∀ e ∈ j.among O, e ∈ M)
        fun s => Citizen S v Q O W s ∧ s.hg.Annals U P rt size app.commit) where
  refl := .refl
  trans := .trans fun hp hj => ⟨hj.1.mono (Journal.among_mono O hp),
    fun e he => hj.2 e (Journal.among_mono O hp he)⟩
  tick s n := ⟨List.prefix_rfl, fun _ h =>
    ⟨h.1.of_hg (h.1.toKept.tick n) rfl rfl rfl rfl, h.2.tick n⟩⟩
  submit s _ _ := ⟨List.prefix_rfl, fun _ h => ⟨h.1.of_host rfl rfl rfl rfl rfl, h.2⟩⟩
  deleteHead s _ := ⟨List.prefix_rfl, fun _ h => ⟨h.1.of_host rfl rfl rfl rfl rfl, h.2⟩⟩
  noteHead s _ _ := ⟨List.prefix_rfl, fun _ h => ⟨h.1.of_host rfl rfl rfl rfl rfl, h.2⟩⟩
  own s sigs otherHead t hsigs event he := by
    refine ⟨entries_makeEvent event s, fun hj h => ?_⟩
    have hc := h.1.makeEvent hO hforeign (happ.admits Q) hsigs he hj.1
    obtain ⟨q, ht⟩ := h.1.tracked
    -- an accepted event is one of those that were made
    have hmem : Hashgraph.Accepts S rt s.hg ⟨event, {}, true⟩ →
        event ∈ (PoolCore.makeEvent S rt v app event s).host.journal.among O := by
      intro hacc
      rcases entries_makeEvent_cases rt v app ht.sound event with
        ⟨hno, -⟩ | ⟨-, hent⟩
      · exact absurd hacc hno
      · exact .inr (Journal.mem_made.2 (by rw [hent]; simp))
    have hsub := among_makeEvent S rt v app O event s
    refine ⟨hc, ?_⟩
    change Hashgraph.Annals U P rt size app.commit (PoolCore.makeEvent S rt v app event s).hg
    rw [hg_makeEvent]
    refine h.2.feed happ (fun hacc => hU _ (hj.2 _ (hmem hacc))) fun hacc => ?_
    exact ((h.1.serving.mono hsub).toStacked.length_keys_lt hj.1
      (hc.toOwned.among_lines hO hforeign) hj.2 (hmem hacc) hacc).trans_le hsize
  read s event wire := by
    rintro ⟨w, hw, hr⟩
    have hent := entries_takeEvent S rt v app event wire s
    refine ⟨hent ▸ List.prefix_append _ _, fun hj h => ?_⟩
    have hsub := Journal.among_mono O
      (show s.host.journal.entries <+: (PoolCore.takeEvent S rt v app event wire s).host.journal.entries
        from hent ▸ List.prefix_append _ _)
    have hcol := hj.1.mono hsub
    have hlines := h.1.toOwned.among_lines hO hforeign
    have hmem : event ∈ s.host.journal.among O := by
      obtain ⟨e, hs⟩ := h.1.sent w hw
      rw [hs.read hlines hQ h.1.serving.toStacked h.1.within.repertoire hr]
      exact hs.mem
    refine ⟨h.1.takeEvent hO hforeign hQ (happ.admits Q) hcol hw hr, ?_⟩
    change Hashgraph.Annals U P rt size app.commit (PoolCore.takeEvent S rt v app event wire s).hg
    rw [hg_takeEvent]
    refine Hashgraph.Annals.feed (s := noteRead event s) h.2 happ
      (fun _ => hU _ (hj.2 _ (hsub hmem))) fun hacc => ?_
    exact (h.1.serving.toStacked.length_keys_lt hcol hlines (fun e he => hj.2 e (hsub he)) hmem
      hacc).trans_le hsize

end PoolCore

/-! ## Two nodes of a network -/

namespace Network

variable {S : Scheme H K} {parties : ι → Party K} {P : PeerSet K} {Q : Set K} {U : Universe S}
  {M : List (SignedEvent H K)}

/-- The nodes with fixed peers keep their annals, if the events come from a list that fits the
caches. -/
theorem upholds_annals (hl : Lawful parties P Q) (happ : ∀ i, (parties i).app.Static)
    (hU : ∀ e ∈ M, e.body ∈ U.bodies) (hsize : ∀ i, M.length ≤ (parties i).cacheSize) :
    Upholds S parties Q (fun E => CollisionFree S E ∧ ∀ e ∈ E, e ∈ M)
      fun (i : ι) (s : PoolCore H K) => s.hg.Annals U P (parties i).rt (parties i).cacheSize
        (parties i).app.commit where
  mono hE h := ⟨h.1.mono hE, fun e he => h.2 e (hE he)⟩
  collisionFree h := h.1
  steady i O W hO hforeign := by
    have h := PoolCore.steadyOn_annals (parties i).rt W P hO hforeign
      hl.distinct (happ i) hU (hsize i)
    exact ⟨h.toSteadyOwn, h.learnsOn⟩
  processSigPool i s hs := by
    rw [PoolCore.processSigPool, Session.exec_onHashgraph]
    exact hs.processSigPool

theorem hg_start (parties : ι → Party K) (P : PeerSet K) (i : ι) :
    ((start parties P : Network ι H K).nodes i).hg = Hashgraph.initial (parties i).cacheSize P := by
  change (Core.new (parties i).peers P (InmemStore.new (parties i).cacheSize) : Core H K).hg = _
  exact Core.new_hg (Hashgraph.init_initial (H := H) (parties i).cacheSize P)

/-- In a run with fixed peers every node has its annals. -/
theorem annals_run (hl : Lawful parties P Q) (happ : ∀ i, (parties i).app.Static)
    (hU : ∀ e ∈ M, e.body ∈ U.bodies) (hsize : ∀ i, M.length ≤ (parties i).cacheSize)
    (actions : List (Action ι K)) {N : Network ι H K}
    (hN : N = actions.foldl (step S parties) (start parties P)) (hcol : CollisionFree S N.made)
    (hM : ∀ e ∈ N.made, e ∈ M) (i : ι) : (N.nodes i).hg.Annals U P
      (parties i).rt (parties i).cacheSize (parties i).app.commit := by
  subst hN
  refine ((upholds_annals hl happ hU hsize).run hl (civil_start S hl) (fun j => ?_) actions
    ⟨hcol, hM⟩).2 i
  rw [hg_start]
  exact .initial U P _ _ _

section Comparison

variable {N : Network ι H K} {E : Set (SignedEvent H K)}

/-- A node stores events that were made. -/
theorem Civil.stacked (h : N.Civil S parties Q) (hE : N.made ⊆ E) (i : ι) :
    (N.nodes i).hg.Stacked S E := by
  have hserving := (h i).serving
  rw [among_others] at hserving
  exact (hserving.mono hE).toStacked

/-- Blocks with one index have one body, if one list of blocks is a beginning of the other. -/
theorem body_eq_of_publishes {proxy : ProxyCommitCallback K} {bs bs' : List (Block K)}
    {h h' : Hashgraph H K} (hp : h.Publishes proxy bs) (hp' : h'.Publishes proxy bs')
    (hbs : bs <+: bs' ∨ bs' <+: bs) {k : ℤ} {b b' : Block K}
    (hb : h.store.getBlock k = .ok b) (hb' : h'.store.getBlock k = .ok b') : b.body = b'.body := by
  have hlook : ∀ {g : Hashgraph H K} {c : Block K}, g.store.getBlock k = .ok c →
      g.store.blockCache.lookup k = some c := by
    intro g c hc
    unfold InmemStore.getBlock at hc
    split at hc
    · next c' hc' => rw [hc', Except.ok.inj hc]
    · cases hc
  obtain ⟨n, b₀, rfl, hn, hbody⟩ := hp.block k b (hlook hb)
  obtain ⟨n', b₀', hnn', hn', hbody'⟩ := hp'.block _ b' (hlook hb')
  obtain rfl := Int.ofNat.inj hnn'
  have heq : b₀ = b₀' := by
    rcases hbs with ⟨t, rfl⟩ | ⟨t, rfl⟩
    · rw [List.getElem?_append_left (List.getElem?_eq_some_iff.1 hn).1] at hn'
      exact Option.some.inj (hn.symm.trans hn')
    · rw [List.getElem?_append_left (List.getElem?_eq_some_iff.1 hn').1] at hn
      exact Option.some.inj (hn.symm.trans hn')
  rw [hbody, hbody', heq]

end Comparison

section Roster

variable [Fintype ι]

/-- The events that were made, node by node. -/
noncomputable def roster (N : Network ι H K) : List (SignedEvent H K) :=
  Finset.univ.toList.flatMap fun i => (N.nodes i).host.journal.made

theorem mem_roster (N : Network ι H K) {e : SignedEvent H K} : e ∈ N.roster ↔ e ∈ N.made := by
  simp only [roster, List.mem_flatMap, Finset.mem_toList, Finset.mem_univ, true_and]
  exact ⟨fun ⟨i, he⟩ => ⟨i, trivial, he⟩, fun ⟨i, _, he⟩ => ⟨i, he⟩⟩

theorem length_roster (N : Network ι H K) :
    N.roster.length = ∑ i, (N.nodes i).host.journal.made.length := by
  rw [roster, List.length_flatMap, Finset.sum_map_toList]

/-- In a run with fixed peers every node has its annals over the events that are made in the
end. -/
theorem annals_within {N N' : Network ι H K} (hl : Lawful parties P Q)
    (happ : ∀ i, (parties i).app.Static) (hlines : Lines S N'.made) (hcol : CollisionFree S N'.made)
    (hsize : ∀ i, ∑ j, (N'.nodes j).host.journal.made.length ≤ (parties i).cacheSize)
    (actions : List (Action ι K)) (hN : N = actions.foldl (step S parties) (start parties P))
    (hsub : N.made ⊆ N'.made) (i : ι) :
    (N.nodes i).hg.Annals (hlines.universe hcol) P (parties i).rt (parties i).cacheSize
      (parties i).app.commit := by
  have hU : ∀ e ∈ N'.roster, e.body ∈ (hlines.universe hcol).bodies :=
    fun e he => ⟨e, N'.mem_roster.1 he, rfl⟩
  exact annals_run hl happ hU (fun i => N'.length_roster ▸ hsize i) actions hN (hcol.mono hsub)
    (fun e he => N'.mem_roster.2 (hsub he)) i

end Roster

end Network

namespace Sample

/-- A validator whose signatures tell short digests apart. -/
def signer (key : UInt8) : Validator where
  publicKeyBytes := [key]
  sign digest := .ofList (digest.flatMap (fun b =>
    [Char.ofNat (97 + b.toNat / 26), Char.ofNat (97 + b.toNat % 26)]) ++ ['|', '1'])

/-- An application that lets nobody in. -/
def refuseAll : ProxyCommitCallback Bytes :=
  fun b => .ok { stateHash := [UInt8.ofNat b.body.index.toNat], internalTransactionReceipts := [] }

/-- Two nodes with fixed peers. -/
def fixedParties (i : Fin 2) : Party Bytes where
  validator := signer (1 + UInt8.ofNat i)
  app := { commit := refuseAll }
  rt := .plain
  clock n := Int64.ofNat (2 * n + i)
  cacheSize := 100
  syncLimit := 100
  peers := ⟨[peer 1, peer 2]⟩

/-- The two push to each other, four times. -/
def rallies : List (Network.Action (Fin 2) Bytes) :=
  .addTransaction node₁ [7] :: .monologue node₁ :: (List.range 4).flatMap fun k =>
    [ .push node₁ 0 [], .deliver node₂ (2 * k), .push node₂ 0 [], .deliver node₁ (2 * k + 1) ]

/-- The nodes after that. -/
def rallied : Network (Fin 2) Bytes Bytes :=
  rallies.foldl (Network.step scheme fixedParties) (Network.start fixedParties ⟨[peer 1, peer 2]⟩)

theorem fixedParties_keys : Function.Injective fun i =>
    ((fixedParties i).validator.publicKeyHex : Bytes) := by
  have hall : ∀ i j : Fin 2, ((fixedParties i).validator.publicKeyHex : Bytes) =
      (fixedParties j).validator.publicKeyHex → i = j := by
    decide +kernel
  exact fun i j => hall i j

theorem peers_distinct :
    DistinctKeys {k : Bytes | ∃ p ∈ [peer 1, peer 2], p.pubKeyString = k} := by
  have hall : ∀ p ∈ [peer 1, peer 2], ∀ p' ∈ [peer 1, peer 2],
      fnv32a (Hex.decodeFromString p.pubKeyString) =
        fnv32a (Hex.decodeFromString p'.pubKeyString) → p.pubKeyString = p'.pubKeyString := by
    decide +kernel
  rintro _ ⟨p, hp, rfl⟩ _ ⟨p', hp', rfl⟩
  exact hall p hp p' hp'

theorem fixedParties_static (i : Fin 2) : (fixedParties i).app.Static := by
  rintro b response hb
  obtain rfl := Except.ok.inj hb
  rfl

theorem rallied_collisionFree : CollisionFree scheme rallied.made := by
  have hall : ∀ i j, ∀ e ∈ (rallied.nodes i).host.journal.made,
      ∀ e' ∈ (rallied.nodes j).host.journal.made,
      e.hex scheme = e'.hex scheme → e.body = e'.body := by
    decide +kernel
  rintro e ⟨i, -, he⟩ e' ⟨j, -, he'⟩
  exact hall i j e he e' he'

theorem rallied_ties :
    Set.InjOn (fun e : SignedEvent Bytes Bytes => signatureR e.signature) rallied.made := by
  have hall : ∀ i j, ∀ e ∈ (rallied.nodes i).host.journal.made,
      ∀ e' ∈ (rallied.nodes j).host.journal.made,
      signatureR e.signature = signatureR e'.signature → e = e' := by
    decide +kernel
  rintro e ⟨i, -, he⟩ e' ⟨j, -, he'⟩
  exact hall i j e he e' he'

/-- The nodes before the last pushes. -/
def halfway : Network (Fin 2) Bytes Bytes :=
  (rallies.take 14).foldl (Network.step scheme fixedParties)
    (Network.start fixedParties ⟨[peer 1, peer 2]⟩)

end Sample

end Babble
