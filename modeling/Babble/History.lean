import Babble.Membership
import Babble.Shelf

/-!
# The history of the validators of a node

A node's validators and its recorded peer-sets are what the committed blocks have made of
the genesis set. `History` is that and nothing else : a set of validators, and the sets
recorded by round. `History.commit` is what a block with its receipts does to it.

All that a node does between two commits leaves its peer-sets alone, and a commit does what
`History.commit` does. So the membership of a node after a run is the history of its
commits, whatever events it was fed with (`Core.follows_run`).
-/

set_option linter.unusedSectionVars false

namespace Babble

variable {C H K : Type} [DecidableEq H] [DecidableEq K] [Hex H] [Hex K]

/-! ## Histories -/

/-- The validators, and the recorded validator-sets by round. -/
structure History (K : Type) where
  validators : PeerSet K
  sets : ℤ → Option (PeerSet K)

/-- The receipt is of an accepted change. -/
def InternalTransactionReceipt.changes (r : InternalTransactionReceipt K) : Bool :=
  r.accepted && match r.internalTransaction.body.type with
    | .peerAdd => true
    | .peerRemove => true
    | .unknown _ => false

/-- A set of validators after one receipt. -/
def InternalTransactionReceipt.apply (r : InternalTransactionReceipt K) (V : PeerSet K) :
    PeerSet K :=
  if r.accepted then
    match r.internalTransaction.body.type with
    | .peerAdd => V.withNewPeer r.internalTransaction.body.peer
    | .peerRemove => V.withRemovedPeer r.internalTransaction.body.peer
    | .unknown _ => V
  else V

/-- A set of validators after the receipts of a block. -/
def afterReceipts (receipts : List (InternalTransactionReceipt K)) (V : PeerSet K) : PeerSet K :=
  receipts.foldl (fun V r => r.apply V) V

theorem afterReceipts_of_unchanged {receipts : List (InternalTransactionReceipt K)}
    (h : receipts.any InternalTransactionReceipt.changes = false) (V : PeerSet K) :
    afterReceipts receipts V = V := by
  induction receipts generalizing V with
  | nil => rfl
  | cons r rs ih =>
    simp only [List.any_cons, Bool.or_eq_false_iff] at h
    have hr : r.apply V = V := by
      have h1 := h.1
      unfold InternalTransactionReceipt.changes at h1
      unfold InternalTransactionReceipt.apply
      cases ha : r.accepted with
      | false => rfl
      | true =>
        rw [ha] at h1
        cases ht : r.internalTransaction.body.type <;> simp [ht] at h1 ⊢
    rw [afterReceipts, List.foldl_cons, hr]
    exact ih h.2 V

/-- The history with a block that was received in a round, and its receipts. -/
def History.commit (h : History K) (roundReceived : ℤ)
    (receipts : List (InternalTransactionReceipt K)) : History K :=
  if receipts.any InternalTransactionReceipt.changes ∧ h.sets (roundReceived + 6) = none then
    { validators := afterReceipts receipts h.validators
      sets := Function.update h.sets (roundReceived + 6) (some (afterReceipts receipts h.validators)) }
  else h

/-- The history with a list of blocks. -/
def History.replay (h : History K) (l : List (ℤ × List (InternalTransactionReceipt K))) :
    History K :=
  l.foldl (fun h a => h.commit a.1 a.2) h

/-- A set is recorded six rounds after a block. -/
theorem History.sets_replay {h : History K} {l : List (ℤ × List (InternalTransactionReceipt K))}
    {r : ℤ} (hr : (h.replay l).sets r ≠ none) : h.sets r ≠ none ∨ ∃ a ∈ l, r = a.1 + 6 := by
  induction l generalizing h with
  | nil => exact Or.inl hr
  | cons a l ih =>
    rcases ih hr with hc | ⟨b, hb, hrb⟩
    · change (h.commit a.1 a.2).sets r ≠ none at hc
      unfold History.commit at hc
      split_ifs at hc with hch
      · by_cases hra : r = a.1 + 6
        · exact Or.inr ⟨a, List.mem_cons_self, hra⟩
        · exact Or.inl (by simpa only [Function.update_of_ne hra] using hc)
      · exact Or.inl hc
    · exact Or.inr ⟨b, List.mem_cons_of_mem a hb, hrb⟩

/-! ## The table of peer-sets -/

namespace PeerSetCache

/-- The table holds the sets of `f`. -/
structure Records (c : PeerSetCache K) (f : ℤ → Option (PeerSet K)) : Prop where
  lookup : ∀ r, c.peerSets.lookup r = f r
  sorted : c.rounds.Pairwise (· < ·)
  mem_rounds : ∀ r, r ∈ c.rounds ↔ f r ≠ none

variable {c c' : PeerSetCache K} {f : ℤ → Option (PeerSet K)}

/-- Two tables of the same sets answer alike. -/
theorem Records.get_eq (h : c.Records f) (h' : c'.Records f) (r : ℤ) : c.get r = c'.get r := by
  have hrounds : c.rounds = c'.rounds := by
    refine List.Perm.eq_of_pairwise (fun a b _ _ h1 h2 => absurd h1 (not_lt.2 h2.le)) h.sorted
      h'.sorted ?_
    rw [List.perm_ext_iff_of_nodup (h.sorted.imp ne_of_lt) (h'.sorted.imp ne_of_lt)]
    exact fun a => (h.mem_rounds a).trans (h'.mem_rounds a).symm
  unfold get
  simp only [hrounds, h.lookup, h'.lookup]

theorem Records.set (h : c.Records f) {r : ℤ} (hr : f r = none) (P : PeerSet K) :
    ∃ c', c.set r P = .ok c' ∧ c'.Records (Function.update f r (some P)) := by
  have hl : c.peerSets.lookup r = none := (h.lookup r).trans hr
  obtain ⟨c', hc⟩ : ∃ c', c.set r P = .ok c' := by
    unfold PeerSetCache.set
    rw [hl]
    exact ⟨_, rfl⟩
  obtain ⟨-, hps, hrounds⟩ := set_eq hc
  have hperm := List.perm_insertionSort (· ≤ ·) (c.rounds ++ [r])
  have hnot : r ∉ c.rounds := fun hmem => (h.mem_rounds r).1 hmem hr
  refine ⟨c', hc, fun j => ?_, ?_, fun j => ?_⟩
  · rw [hps, Map.lookup_insert_ite, Function.update_apply, h.lookup]
  · have hnd : (c.rounds ++ [r]).Nodup := by
      rw [List.nodup_append]
      refine ⟨h.sorted.imp ne_of_lt, by simp, fun a ha b hb hab => ?_⟩
      rw [List.mem_singleton] at hb
      exact hnot (hb ▸ hab ▸ ha)
    rw [hrounds]
    exact (List.pairwise_insertionSort (· ≤ ·) _).imp₂ (fun a b hle hne => lt_of_le_of_ne hle hne)
      (hperm.nodup_iff.2 hnd)
  · rw [hrounds, hperm.mem_iff, List.mem_append, List.mem_singleton, Function.update_apply,
      h.mem_rounds]
    split_ifs with hj
    · simp [hj]
    · simp [hj]

theorem Records.set_error (h : c.Records f) {r : ℤ} (hr : f r ≠ none) (P : PeerSet K) :
    ∃ err, c.set r P = .error err := by
  obtain ⟨Q, hQ⟩ := Option.ne_none_iff_exists'.1 hr
  unfold PeerSetCache.set
  rw [h.lookup, hQ]
  exact ⟨_, rfl⟩

theorem Records.wellFormed (h : c.Records f) {r₀ : ℤ} (h₀ : f r₀ ≠ none) : c.WellFormed := by
  refine ⟨fun hnil => ?_, fun j hj => ?_⟩
  · have := (h.mem_rounds r₀).2 h₀
    rw [hnil] at this
    cases this
  · obtain ⟨P, hP⟩ := Option.ne_none_iff_exists'.1 ((h.mem_rounds j).1 hj)
    exact Map.mem_iff_lookup.2 ⟨P, (h.lookup j).trans hP⟩

theorem Records.exists_get (h : c.Records f) {r₀ : ℤ} (h₀ : f r₀ ≠ none) (r : ℤ) :
    ∃ P, c.get r = .ok P :=
  (h.wellFormed h₀).exists_get r

/-- All recorded sets, as a frame carries them. -/
theorem Records.lookup_getAll (h : c.Records f) (r : ℤ) :
    c.getAll.lookup r = (f r).map PeerSet.peers := by
  have hfold : ∀ (l : List ℤ) (m : Map ℤ (List (Peer K))),
      (l.foldl (fun m r => m.insert r (((c.peerSets.lookup r).map PeerSet.peers).getD [])) m).lookup r =
        if r ∈ l then some (((f r).map PeerSet.peers).getD []) else m.lookup r := by
    intro l
    induction l with
    | nil => simp
    | cons a l ih =>
      intro m
      rw [List.foldl_cons, ih, Map.lookup_insert_ite, h.lookup]
      by_cases hl : r ∈ l
      · simp [hl]
      · by_cases hra : r = a
        · subst hra
          simp
        · simp [hl, hra]
  rw [getAll, hfold]
  simp only [h.mem_rounds]
  cases hf : f r with
  | none => simp
  | some P => simp

end PeerSetCache

theorem InmemStore.peerSetCache_setPeerSet {st st' : InmemStore H K} {r : ℤ} {P : PeerSet K}
    (h : st.setPeerSet r P = .ok st') : st.peerSetCache.set r P = .ok st'.peerSetCache := by
  obtain ⟨psc, pec, roots, fc, hset, rfl, -⟩ := setPeerSet_eq h
  exact hset

/-- The recorded peer-sets. -/
def Hashgraph.peerSets (h : Hashgraph H K) : PeerSetCache K :=
  h.store.peerSetCache

theorem Hashgraph.fixes_peerSets {α : Type} {m : Hg H K α} (hm : Exec.Fixes shelf m) :
    Exec.Fixes peerSets m :=
  fun h => congrArg Shelf.peerSets (hm h)

/-! ## The membership of a core -/

namespace Core

variable {S : Scheme H K} {rt : Runtime} {v : Validator} {proxy : ProxyCommitCallback K}

/-- The validators and peer-sets of a core are those of a history. -/
structure Follows (s : Core H K) (h : History K) : Prop where
  validators : s.host.validators = h.validators
  records : s.hg.store.peerSetCache.Records h.sets
  recorded : ∃ r, h.sets r ≠ none

theorem Follows.of_eq {s s' : Core H K} {h : History K} (hf : Follows s h)
    (hv : s'.host.validators = s.host.validators)
    (hp : s'.hg.store.peerSetCache = s.hg.store.peerSetCache) : Follows s' h :=
  ⟨hv.trans hf.validators, hp ▸ hf.records, hf.recorded⟩

/-- The history of a new core. -/
def genesisHistory (genesis : PeerSet K) : History K :=
  ⟨genesis, fun r => if r = 0 then some genesis else none⟩

theorem follows_new (n : ℕ) (peers genesis : PeerSet K) :
    Follows (Core.new peers genesis (InmemStore.new n) : Core H K) (genesisHistory genesis) := by
  obtain ⟨h, hi⟩ := exists_init (H := H) n genesis
  refine ⟨rfl, ?_, ⟨0, by simp [genesisHistory]⟩⟩
  rw [new_hg hi]
  unfold Hashgraph.init at hi
  cases hs : (Hashgraph.new (InmemStore.new n : InmemStore H K)).store.setPeerSet 0 genesis with
  | error err => rw [hs] at hi; cases hi
  | ok st =>
    rw [hs] at hi
    obtain rfl := Except.ok.inj hi
    have hnew : (PeerSetCache.new : PeerSetCache K).Records fun _ => none :=
      ⟨fun _ => rfl, List.Pairwise.nil, by simp [PeerSetCache.new]⟩
    obtain ⟨c', hc', hrec⟩ := hnew.set (r := 0) rfl genesis
    obtain rfl := Except.ok.inj (hc'.symm.trans (InmemStore.peerSetCache_setPeerSet hs))
    convert hrec using 1
    funext r
    rw [genesisHistory, Function.update_apply]

/-- The receipts of the application for a block. -/
def receiptsOf (proxy : ProxyCommitCallback K) (b : Block K) : List (InternalTransactionReceipt K) :=
  match proxy b with
  | .ok response => response.internalTransactionReceipts
  | .error _ => []

/-- A block with the application's receipts, as far as the membership goes. -/
def answer (proxy : ProxyCommitCallback K) (b : Block K) :
    ℤ × List (InternalTransactionReceipt K) :=
  (b.body.roundReceived, receiptsOf proxy b)

theorem foldl_applyReceipt (e : ℤ) (receipts : List (InternalTransactionReceipt K))
    (c : Changes K) :
    (receipts.foldl (applyReceipt v e) c).validators = afterReceipts receipts c.validators ∧
      (receipts.foldl (applyReceipt v e) c).changed =
        (c.changed || receipts.any InternalTransactionReceipt.changes) := by
  induction receipts generalizing c with
  | nil => simp [afterReceipts]
  | cons r rs ih =>
    have hone : (applyReceipt v e c r).validators = r.apply c.validators ∧
        (applyReceipt v e c r).changed = (c.changed || r.changes) := by
      unfold applyReceipt InternalTransactionReceipt.apply InternalTransactionReceipt.changes
      cases r.accepted with
      | false => simp
      | true => cases ht : r.internalTransaction.body.type <;> simp [ht]
    obtain ⟨h1, h2⟩ := ih (applyReceipt v e c r)
    rw [List.foldl_cons, h1, h2, hone.1, hone.2, List.any_cons, Bool.or_assoc]
    exact ⟨rfl, rfl⟩

/-- What the receipts of a block come to : there is nothing to record, the round has its
peer-set already, or the new validators are recorded. -/
theorem exec_process_cases (s : Core H K) (r : ℤ)
    (receipts : List (InternalTransactionReceipt K)) :
    ∃ res s', Exec.exec (processAcceptedInternalTransactions v r receipts) s = (res, s') ∧
      ((receipts.any InternalTransactionReceipt.changes = false ∧ res = .ok () ∧
          s'.host.validators = s.host.validators ∧ s'.hg = s.hg) ∨
        (receipts.any InternalTransactionReceipt.changes = true ∧
          ∃ err, s.hg.store.setPeerSet (r + 6) (afterReceipts receipts s.host.validators) =
              .error err ∧ res = .error (.wrap "Updating Store PeerSet" err) ∧
            s'.host.validators = s.host.validators ∧ s'.hg = s.hg) ∨
        (receipts.any InternalTransactionReceipt.changes = true ∧
          ∃ st, s.hg.store.setPeerSet (r + 6) (afterReceipts receipts s.host.validators) = .ok st ∧
            res = .ok () ∧ s'.host.validators = afterReceipts receipts s.host.validators ∧
            s'.hg = { s.hg with store := st })) := by
  obtain ⟨hval, hch⟩ := foldl_applyReceipt (v := v) (r + 6) receipts
    ⟨s.host.validators, s.host.peers, s.host.removedRound, false⟩
  unfold processAcceptedInternalTransactions
  simp only [Exec.exec_bind, Exec.exec_get, Exec.exec_modify]
  rw [hch, Bool.false_or]
  cases hany : receipts.any InternalTransactionReceipt.changes with
  | false => exact ⟨_, _, rfl, .inl ⟨rfl, rfl, rfl, rfl⟩⟩
  | true =>
    simp only [if_true, Exec.exec_bind, Exec.exec_modify, Session.exec_onHashgraph, hval]
    cases hst : s.hg.store.setPeerSet (r + 6) (afterReceipts receipts s.host.validators) with
    | error err =>
      rw [Hashgraph.exec_tryStore_error hst]
      exact ⟨_, _, rfl, .inr (.inl ⟨trivial, err, rfl, rfl, rfl, rfl⟩)⟩
    | ok st =>
      rw [Hashgraph.exec_tryStore_ok hst]
      exact ⟨_, _, rfl, .inr (.inr ⟨trivial, st, rfl, rfl, rfl, rfl⟩)⟩

/-- The receipts of a block are processed as the history says. -/
theorem Follows.process {s : Core H K} {h : History K} (hf : Follows s h) (r : ℤ)
    (receipts : List (InternalTransactionReceipt K)) :
    Follows (Exec.exec (processAcceptedInternalTransactions v r receipts) s).2
      (h.commit r receipts) := by
  obtain ⟨res, s', hexec, hcase⟩ := exec_process_cases (v := v) s r receipts
  rw [hexec]
  rcases hcase with ⟨hany, -, hval, hhg⟩ | ⟨-, err, herr, -, hval, hhg⟩ | ⟨hany, st, hst, -, hval, hhg⟩
  · rw [History.commit, if_neg (by simp [hany])]
    exact hf.of_eq hval (by rw [hhg])
  · rw [History.commit, if_neg]
    · exact hf.of_eq hval (by rw [hhg])
    · -- a round that has no peer-set takes one
      rintro ⟨-, hnone⟩
      obtain ⟨c', hc', -⟩ := hf.records.set hnone (afterReceipts receipts s.host.validators)
      simp only [InmemStore.setPeerSet, hc'] at herr
      cases herr
  · have hpsc := InmemStore.peerSetCache_setPeerSet hst
    by_cases hnone : h.sets (r + 6) = none
    · obtain ⟨c', hc', hrec⟩ := hf.records.set hnone (afterReceipts receipts s.host.validators)
      obtain rfl := Except.ok.inj (hpsc.symm.trans hc')
      rw [History.commit, if_pos ⟨hany, hnone⟩, ← hf.validators]
      exact ⟨hval, by rw [hhg]; exact hrec, ⟨r + 6, by simp⟩⟩
    · obtain ⟨err, herr⟩ := hf.records.set_error hnone (afterReceipts receipts s.host.validators)
      cases hpsc.symm.trans herr

variable (S v proxy) in
/-- The commit of a block does what the history says. -/
theorem Follows.commitCallback {s : Core H K} {h : History K} (hf : Follows s h) (b : Block K) :
    Follows (commitCallback S v proxy b s)
      (h.commit (answer proxy b).1 (answer proxy b).2) := by
  unfold Core.commitCallback answer receiptsOf
  cases hproxy : proxy b with
  | error err =>
    have hc : h.commit b.body.roundReceived [] = h := by rw [History.commit, if_neg (by simp)]
    simp only [commit, hproxy, Exec.exec_throw, hc]
    exact hf
  | ok response =>
    set block : Block K := { b with body := { b.body with
      stateHash := response.stateHash
      internalTransactionReceipts := response.internalTransactionReceipts } } with hblock
    have hf₁ : Follows (setBlock block s) h := hf.of_eq rfl rfl
    obtain ⟨r₀, hr₀⟩ := hf.recorded
    have hsign : Exec.Returns (signBlock S v block) (setBlock block s) fun b' s' =>
        b'.body = block.body ∧ Follows s' h := by
      obtain ⟨P, hP⟩ := hf₁.records.exists_get hr₀ block.body.roundReceived
      refine Exec.Returns.bind (Session.returns_onHashgraph (Hashgraph.returns_read hP ?_))
      cases P.byID.lookup v.id with
      | none => exact Exec.returns_pure ⟨rfl, hf₁⟩
      | some _ =>
        exact Exec.Returns.bind (Exec.returns_modify (Exec.Returns.bind (Exec.returns_modify
          (Exec.returns_pure ⟨rfl, hf₁.of_eq rfl rfl⟩))))
    obtain ⟨b', s', he, hb', hf'⟩ := hsign
    have hanchor : Exec.Returns (Session.onHashgraph (Hashgraph.setAnchorBlock b')) s'
        fun _ s'' => Follows s'' h := by
      obtain ⟨P, hP⟩ := hf'.records.exists_get hr₀ b'.body.roundReceived
      refine Session.returns_onHashgraph (Exec.Returns.bind (Hashgraph.returns_read hP ?_))
      refine Exec.returns_modify (hf'.of_eq rfl ?_)
      split_ifs <;> rfl
    obtain ⟨_, s'', he', hf''⟩ := hanchor
    have hexec : Exec.exec (commit S v proxy b) s = Exec.exec (processAcceptedInternalTransactions v
        b'.body.roundReceived response.internalTransactionReceipts) s'' := by
      simp only [commit, hproxy, Exec.exec_bind, Exec.exec_modify, ← hblock, he, he']
    rw [hexec, hb']
    exact hf''.process _ _

/-! ## Runs -/

/-- The second session comes from the first by commits that the record shows. -/
def Advances (proxy : ProxyCommitCallback K)
    (t t' : Session (CoreState H K × List (Block K × Core H K)) H K) : Prop :=
  ∃ ext, t'.host.2 = t.host.2 ++ ext ∧ ∀ h, Follows t.untraced h →
    (∀ pre c post, ext = pre ++ c :: post →
      Follows c.2 (h.replay (pre.map fun c => answer proxy c.1))) ∧
    Follows t'.untraced (h.replay (ext.map fun c => answer proxy c.1))

theorem Advances.refl (t : Session (CoreState H K × List (Block K × Core H K)) H K) :
    Advances proxy t t :=
  ⟨[], by simp, fun h hf => ⟨fun pre c post he => by simp at he, hf⟩⟩

theorem Advances.trans {t t' t'' : Session (CoreState H K × List (Block K × Core H K)) H K}
    (h : Advances proxy t t') (h' : Advances proxy t' t'') : Advances proxy t t'' := by
  obtain ⟨ext, he, hext⟩ := h
  obtain ⟨ext', he', hext'⟩ := h'
  refine ⟨ext ++ ext', by rw [he', he, List.append_assoc], fun hist hf => ?_⟩
  obtain ⟨hpre, hfol⟩ := hext hist hf
  obtain ⟨hpre', hfol'⟩ := hext' _ hfol
  have hreplay : ∀ l, (hist.replay (ext.map fun c => answer proxy c.1)).replay l =
      hist.replay ((ext.map fun c => answer proxy c.1) ++ l) := fun l => by
    simp [History.replay]
  refine ⟨fun pre c post hsplit => ?_, ?_⟩
  · rcases List.append_eq_append_iff.1 hsplit with ⟨as, rfl, hs⟩ | ⟨bs, rfl, hs⟩
    · have := hpre' as c post hs
      rwa [hreplay, ← List.map_append] at this
    · cases bs with
      | nil =>
        have := hpre' [] c post (by simpa using hs.symm)
        simpa [History.replay] using this
      | cons d bs =>
        obtain ⟨rfl, rfl⟩ := List.cons.inj hs
        exact hpre pre c bs rfl
  · rw [List.map_append, ← hreplay]
    exact hfol'

/-- Between commits nothing is recorded. -/
theorem advances_unshelved : Session.Unshelved
    (Advances proxy : Session (CoreState H K × List (Block K × Core H K)) H K → _ → Prop) :=
  fun _ _ hs => ⟨[], by simp, fun _ hf => ⟨fun pre c post he => by simp at he,
    hf.of_eq rfl (congrArg Shelf.peerSets hs)⟩⟩

theorem advances_commitFrame (fr : Frame H K)
    (t : Session (CoreState H K × List (Block K × Core H K)) H K) :
    Advances proxy t
      (Session.commitFrame S (Session.traced (Core.commitCallback S v proxy)) fr t) := by
  unfold Session.commitFrame
  extract_lets block
  split_ifs
  · exact .refl t
  · exact .refl t
  · refine ⟨[(block, ⟨t.host.1, { t.hg with store := t.hg.store.setBlock block }⟩)], rfl,
      fun h hf => ?_⟩
    have hf₁ : Follows (⟨t.host.1, { t.hg with store := t.hg.store.setBlock block }⟩ : Core H K) h :=
      hf.of_eq rfl rfl
    refine ⟨fun pre c post he => ?_, hf₁.commitCallback S v proxy block⟩
    obtain ⟨rfl, hc⟩ : pre = [] ∧ c = _ := by
      cases pre with
      | nil => exact ⟨rfl, (List.cons.inj he).1.symm⟩
      | cons d pre => simp at he
    rw [hc]
    exact hf₁

theorem advances_feed (t : Session (CoreState H K × List (Block K × Core H K)) H K)
    (i : Session.Input H K) :
    Advances proxy t (Session.feed S rt (Session.traced (Core.commitCallback S v proxy)) t i) :=
  advances_unshelved.feed .trans advances_commitFrame t i

variable (S rt v proxy) in
/-- The membership of a core in a run is the history of its commits. -/
theorem follows_run {s : Core H K} {h : History K} (hf : Follows s h)
    (is : List (Session.Input H K)) :
    (∀ pre c post, Session.commits S rt (Core.commitCallback S v proxy) s is = pre ++ c :: post →
      Follows c.2 (h.replay (pre.map fun c => answer proxy c.1))) ∧
    Follows (Session.run S rt (Core.commitCallback S v proxy) s is)
      (h.replay ((Session.commits S rt (Core.commitCallback S v proxy) s is).map
        fun c => answer proxy c.1)) := by
  have hadv : ∀ t, Advances proxy t
      (Session.run S rt (Session.traced (Core.commitCallback S v proxy)) t is) := by
    induction is with
    | nil => exact fun t => .refl t
    | cons i is ih => exact fun t => (advances_feed t i).trans (ih _)
  obtain ⟨ext, hext, hall⟩ := hadv ⟨(s.host, []), s.hg⟩
  rw [List.nil_append] at hext
  rw [Session.commits, hext]
  have hun := Session.untraced_run S rt (Core.commitCallback S v proxy) ⟨(s.host, []), s.hg⟩ is
  obtain ⟨hpre, hfin⟩ := hall h hf
  rw [hun] at hfin
  exact ⟨hpre, hfin⟩

end Core

end Babble
