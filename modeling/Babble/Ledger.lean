import Babble.Calls

/-!
# Frames and blocks in a run

The frames of the processed rounds follow one another without gaps, and the blocks that a
run commits are made from them : `blocksFrom` numbers the frames that carry transactions.
`Ledger` says that of a session that keeps a record of its commits, and a call keeps it so
(`Call.ledger`).
-/

set_option linter.unusedSectionVars false

namespace Babble

variable {C H K : Type} [DecidableEq H] [DecidableEq K] [Hex H] [Hex K]

/-! ## Lists that grow at the end -/

/-- Every element of the list has `F`, given those before it. -/
def EachAfter {α : Type} (F : List α → α → Prop) (l : List α) : Prop :=
  ∀ pre a post, l = pre ++ a :: post → F pre a

namespace EachAfter

variable {α : Type} {F : List α → α → Prop} {l l' : List α} {a : α}

theorem nil (F : List α → α → Prop) : EachAfter F [] :=
  fun pre a post h => by simp at h

theorem snoc (hl : EachAfter F l) (ha : F l a) : EachAfter F (l ++ [a]) := by
  intro pre b post h
  rcases List.eq_nil_or_concat post with rfl | ⟨post', c, rfl⟩
  · obtain ⟨rfl, hab⟩ := List.append_inj' h rfl
    exact List.singleton_inj.1 hab ▸ ha
  · rw [List.concat_eq_append, ← List.cons_append, ← List.append_assoc] at h
    exact hl pre b post' (List.append_inj' h rfl).1

theorem mono {G : List α → α → Prop} (hl : EachAfter F l) (h : ∀ pre a, F pre a → G pre a) :
    EachAfter G l :=
  fun pre a post he => h pre a (hl pre a post he)

theorem append (hl : EachAfter F l) (hl' : EachAfter (fun pre a => F (l ++ pre) a) l') :
    EachAfter F (l ++ l') := by
  induction l' using List.reverseRecOn with
  | nil => rwa [List.append_nil]
  | append_singleton l' a ih =>
    rw [← List.append_assoc]
    refine (ih fun pre b post he => hl' pre b (post ++ [a]) (by simp [he])).snoc ?_
    exact hl' l' a [] rfl

theorem getElem (hl : EachAfter F l) {j : ℕ} (hj : j < l.length) : F (l.take j) l[j] := by
  refine hl (l.take j) l[j] (l.drop (j + 1)) ?_
  rw [← List.drop_eq_getElem_cons hj, List.take_append_drop]

theorem of_mem (hl : EachAfter F l) (ha : a ∈ l) : ∃ pre, F pre a := by
  obtain ⟨pre, post, h⟩ := List.append_of_mem ha
  exact ⟨pre, hl pre a post h⟩

theorem flatMap {β : Type} {f : α → List β} {G : List β → β → Prop}
    (h : EachAfter (fun pre a => EachAfter (fun l b => G (pre.flatMap f ++ l) b) (f a)) l) :
    EachAfter G (l.flatMap f) := by
  induction l using List.reverseRecOn with
  | nil => exact nil G
  | append_singleton l a ih =>
    rw [List.flatMap_append, List.flatMap_singleton]
    exact (ih fun pre b post he => h pre b (post ++ [a]) (by simp [he])).append (h l a [] rfl)

theorem take (hl : EachAfter F l) (n : ℕ) :
    EachAfter (fun pre a => F pre a ∧ EachAfter F pre ∧ a ∈ l ∧ pre.length < n) (l.take n) := by
  intro pre a post he
  obtain ⟨rest, hlist⟩ : ∃ rest, l = pre ++ a :: rest :=
    ⟨post ++ l.drop n, by
      rw [← List.cons_append, ← List.append_assoc, ← he, List.take_append_drop]⟩
  refine ⟨hl pre a rest hlist, fun pre' b post' he' => ?_, ?_, ?_⟩
  · exact hl pre' b (post' ++ a :: rest) (by rw [hlist, he', List.append_assoc]; rfl)
  · rw [hlist]
    exact List.mem_append_right _ List.mem_cons_self
  · have := congrArg List.length he
    rw [List.length_take, List.length_append, List.length_cons] at this
    omega

/-- Two lists of the same length agree, if each element is determined by those before it. -/
theorem map_eq {α' β : Type} {G : List α' → α' → Prop} {f : α → β} {g : α' → β} {l' : List α'}
    (hl : EachAfter F l) (hl' : EachAfter G l') (hlen : l.length = l'.length)
    (h : ∀ pre a pre' a', F pre a → G pre' a' → pre.map f = pre'.map g → f a = g a') :
    l.map f = l'.map g := by
  induction l using List.reverseRecOn generalizing l' with
  | nil => rw [List.length_eq_zero_iff.1 hlen.symm]; rfl
  | append_singleton l a ih =>
    rcases List.eq_nil_or_concat l' with rfl | ⟨l', a', rfl⟩
    · simp at hlen
    · rw [List.concat_eq_append] at hl' hlen ⊢
      have hlen : l.length = l'.length := by simpa using hlen
      have hmap := ih (fun pre b post he => hl pre b (post ++ [a]) (by simp [he]))
        (fun pre b post he => hl' pre b (post ++ [a']) (by simp [he])) hlen
      rw [List.map_append, List.map_append, hmap, List.map_singleton, List.map_singleton,
        h l a l' a' (hl l a [] rfl) (hl' l' a' [] rfl) hmap]

/-- The elements with a property, each after those with the property before it. -/
theorem filter {p : α → Bool} (h : EachAfter (fun pre a => p a = true → F (pre.filter p) a) l) :
    EachAfter F (l.filter p) := by
  induction l using List.reverseRecOn with
  | nil => exact nil F
  | append_singleton l a ih =>
    have ih := ih fun pre b post he => h pre b (post ++ [a]) (by simp [he])
    rw [List.filter_append, List.filter_singleton]
    cases hp : p a with
    | true => exact ih.snoc (h l a [] rfl hp)
    | false => rwa [cond_false, List.append_nil]

end EachAfter

/-! ## Blocks of frames -/

/-- The transactions of a frame, in order. -/
def Frame.transactions (fr : Frame H K) : List (List UInt8) :=
  fr.events.flatMap fun e => e.core.body.transactions

/-- The internal transactions of a frame, in order. -/
def Frame.internalTransactions (fr : Frame H K) : List (InternalTransaction K) :=
  fr.events.flatMap fun e => e.core.body.internalTransactions

/-- The frame makes no block. -/
def Frame.Void (fr : Frame H K) : Prop :=
  fr.transactions = [] ∧ fr.internalTransactions = []

instance (fr : Frame H K) : Decidable fr.Void :=
  inferInstanceAs (Decidable (_ ∧ _))

/-- The blocks made from a list of frames, numbered from `k` on. -/
def blocksFrom (S : Scheme H K) : ℤ → List (Frame H K) → List (Block K)
  | _, [] => []
  | k, fr :: frs =>
    if fr.Void then blocksFrom S k frs else Block.fromFrame S k fr :: blocksFrom S (k + 1) frs

section BlocksFrom

variable {S : Scheme H K} {k : ℤ} {fs fs' : List (Frame H K)} {fr : Frame H K}

theorem blocksFrom_append : blocksFrom S k (fs ++ fs') =
    blocksFrom S k fs ++ blocksFrom S (k + (blocksFrom S k fs).length) fs' := by
  induction fs generalizing k with
  | nil => simp [blocksFrom]
  | cons fr fs ih =>
    rw [List.cons_append, blocksFrom, blocksFrom]
    split_ifs
    · exact ih
    · rw [ih, List.cons_append, List.length_cons]
      push_cast
      rw [add_assoc, add_comm (1 : ℤ)]

theorem blocksFrom_singleton : blocksFrom S k [fr] =
    if fr.Void then [] else [Block.fromFrame S k fr] := by
  simp [blocksFrom]

/-- The blocks are numbered one after the other. -/
theorem map_index_blocksFrom : (blocksFrom S k fs).map (fun b => b.body.index) =
    (List.range (blocksFrom S k fs).length).map fun i : ℕ => k + (i : ℤ) := by
  induction fs generalizing k with
  | nil => rfl
  | cons fr fs ih =>
    rw [blocksFrom]
    split_ifs
    · exact ih
    · rw [List.map_cons, List.length_cons, List.range_succ_eq_map, List.map_cons, ih, List.map_map]
      refine congrArg₂ _ (add_zero k).symm (List.map_congr_left fun i _ => ?_)
      simp only [Function.comp]
      push_cast
      omega

/-- The rounds-received of the blocks are those of the frames they are made from. -/
theorem roundReceived_blocksFrom :
    ((blocksFrom S k fs).map fun b => b.body.roundReceived).Sublist (fs.map Frame.round) := by
  induction fs generalizing k with
  | nil => exact List.Sublist.refl _
  | cons fr fs ih =>
    rw [blocksFrom]
    split_ifs
    · exact ih.cons _
    · exact ih.cons_cons fr.round

/-- The transactions of the blocks are those of the frames. -/
theorem transactions_blocksFrom :
    (blocksFrom S k fs).flatMap (fun b => b.body.transactions) = fs.flatMap Frame.transactions := by
  induction fs generalizing k with
  | nil => rfl
  | cons fr fs ih =>
    rw [blocksFrom, List.flatMap_cons]
    split_ifs with hv
    · rw [ih, hv.1, List.nil_append]
    · rw [List.flatMap_cons, ih]
      rfl

/-- Frames that differ in the order of their maps only make the same block. -/
theorem Block.fromFrame_congr {fr fr' : Frame H K} (h : fr.content = fr'.content) :
    Block.fromFrame S k fr = Block.fromFrame S k fr' := by
  have hround : fr.round = fr'.round := congrArg FrameContent.round h
  have hpeers : fr.peers = fr'.peers := congrArg FrameContent.peers h
  have hevents : fr.events = fr'.events := congrArg FrameContent.events h
  have htime : fr.timestamp = fr'.timestamp := congrArg FrameContent.timestamp h
  simp only [Block.fromFrame, Frame.hash, h, hround, hpeers, hevents, htime]

theorem blocksFrom_congr (h : fs.map Frame.content = fs'.map Frame.content) :
    blocksFrom S k fs = blocksFrom S k fs' := by
  induction fs generalizing k fs' with
  | nil =>
    rw [List.map_eq_nil_iff.1 h.symm]
  | cons fr fs ih =>
    obtain ⟨fr', frs', rfl, h1, h2⟩ := List.map_eq_cons_iff.1 h.symm
    have hevents : fr'.events = fr.events := congrArg FrameContent.events h1
    have hvoid : fr'.Void ↔ fr.Void := by
      simp only [Frame.Void, Frame.transactions, Frame.internalTransactions, hevents]
    simp only [blocksFrom, hvoid, Block.fromFrame_congr h1, ih h2.symm]

end BlocksFrom

/-- The frames of the processed rounds that are stored, in order. -/
def Hashgraph.processedFrames (h : Hashgraph H K) : List (Frame H K) :=
  (List.range (h.lastConsensusRound.getD (-1) + 1).toNat).filterMap fun r : ℕ =>
    h.store.frameCache.lookup (r : ℤ)

/-- The consensus events, in order. -/
def Hashgraph.consensusOrder (h : Hashgraph H K) : List (FrameEvent H K) :=
  h.processedFrames.flatMap Frame.events

namespace Session

variable {S : Scheme H K} {rt : Runtime} {R : Reading H K} {ps : ℤ → PeerSet K}
  {A : Assignment H} {q n : ℤ} {cb : CommitCallback C H K} {i : Input H K}

/-- A session that keeps a record of its commits. -/
abbrev Recorded (C H K : Type) := Session (C × List (Block K × Session C H K)) H K

/-- The blocks that were committed. -/
def blocks (s : Recorded C H K) : List (Block K) :=
  s.host.2.map Prod.fst

/-- The frames `fs` are those of the rounds up to `q`, and the commits are their blocks. -/
structure Ledger (S : Scheme H K) (q : ℤ) (fs : List (Frame H K)) (s : Recorded C H K) : Prop where
  le : -1 ≤ q
  rounds : fs.map Frame.round = (List.range (q + 1).toNat).map fun r : ℕ => (r : ℤ)
  stored : ∀ fr ∈ fs, s.hg.store.frameCache.lookup fr.round = some fr
  committed : blocks s = blocksFrom S 0 fs
  lastBlock : s.hg.store.lastBlock = (blocks s).length - 1
  lastConsensusEvents : s.hg.store.lastConsensusEvents =
    Hashgraph.consensusEvents S (fs.flatMap Frame.events) ∅
  sharedRoots : s.hg.store.sharedRoots = none

theorem Hosting.traced (hcb : Hosting cb) : Hosting (traced cb) :=
  fun b s => hcb b ⟨s.host.1, s.hg⟩

variable {fs : List (Frame H K)} {fr : Frame H K} {s t s' : Recorded C H K} {h₁ : Hashgraph H K}

theorem Ledger.round_le (hl : Ledger S q fs s) (hfr : fr ∈ fs) : fr.round ≤ q := by
  have hmem : fr.round ∈ fs.map Frame.round := List.mem_map_of_mem hfr
  rw [hl.rounds] at hmem
  obtain ⟨r, hr, he⟩ := List.mem_map.1 hmem
  have := List.mem_range.1 hr
  omega

/-- A session with a block stored. -/
def storing (b : Block K) (s : Session C H K) : Session C H K :=
  { s with hg := { s.hg with store := s.hg.store.setBlock b } }

/-- The frames of the rounds are those that are stored for the processed rounds. -/
theorem Ledger.processedFrames_eq (hl : Ledger S q fs s)
    (hq : s.hg.lastConsensusRound.getD (-1) = q) : s.hg.processedFrames = fs := by
  have hfilter : (List.range (q + 1).toNat).filterMap
      (fun r : ℕ => s.hg.store.frameCache.lookup (r : ℤ)) =
      ((List.range (q + 1).toNat).map fun r : ℕ => (r : ℤ)).filterMap
        fun r => s.hg.store.frameCache.lookup r := by
    rw [List.filterMap_map]
    rfl
  rw [Hashgraph.processedFrames, hq, hfilter, ← hl.rounds, List.filterMap_map]
  have hall := hl.stored
  clear hfilter hl
  induction fs with
  | nil => rfl
  | cons fr fs ih =>
    have hfr : ((fun r => s.hg.store.frameCache.lookup r) ∘ Frame.round) fr = some fr :=
      hall fr List.mem_cons_self
    rw [List.filterMap_cons_some hfr, ih fun fr' h => hall fr' (List.mem_cons_of_mem fr h)]

/-- The commit of a frame. -/
theorem commitFrame_eq (cb : CommitCallback C H K) (fr : Frame H K) (s : Session C H K) :
    commitFrame S cb fr s =
      if fr.Void then s
      else cb (Block.fromFrame S (s.hg.store.lastBlock + 1) fr)
        (storing (Block.fromFrame S (s.hg.store.lastBlock + 1) fr) s) := by
  unfold commitFrame
  by_cases hev : fr.events = []
  · have hv : fr.Void := by simp [Frame.Void, Frame.transactions, Frame.internalTransactions, hev]
    rw [if_pos hev, if_pos hv]
  · rw [if_neg hev]
    rfl

/-- What the commit of a frame does to the store and the record. -/
theorem commitFrame_traced (hcb : Hosting cb) (fr : Frame H K) (t : Recorded C H K)
    (hsh : t.hg.store.sharedRoots = none) :
    (commitFrame S (traced cb) fr t).hg.store.frameCache = t.hg.store.frameCache ∧
      (commitFrame S (traced cb) fr t).hg.store.lastConsensusEvents =
        t.hg.store.lastConsensusEvents ∧
      (commitFrame S (traced cb) fr t).hg.store.sharedRoots = none ∧
      blocks (commitFrame S (traced cb) fr t) =
        blocks t ++ blocksFrom S (t.hg.store.lastBlock + 1) [fr] ∧
      (commitFrame S (traced cb) fr t).hg.store.lastBlock =
        t.hg.store.lastBlock + (blocksFrom S (t.hg.store.lastBlock + 1) [fr]).length := by
  rw [commitFrame_eq, blocksFrom_singleton]
  split_ifs with hv
  · exact ⟨rfl, rfl, hsh, (List.append_nil _).symm, (add_zero _).symm⟩
  · set b := Block.fromFrame S (t.hg.store.lastBlock + 1) fr
    have hb : b.body.index = t.hg.store.lastBlock + 1 := rfl
    have hlast : (storing b t).hg.store.lastBlock = t.hg.store.lastBlock + 1 :=
      if_pos (by omega)
    have hh := hcb.traced b (storing b t)
    refine ⟨hh.frameCache hsh, hh.lastConsensusEvents, hh.sharedRoots.trans hsh, ?_, ?_⟩
    · exact List.map_append
    · exact (hh.lastBlock (by omega)).trans hlast

/-- A processed round adds its frame. -/
theorem Ledger.close (hcb : Hosting cb) (hl : Ledger S q fs t) (hround : fr.round = q + 1)
    (ho : Hashgraph.Opened S fr t.hg h₁) :
    Ledger S (q + 1) (fs ++ [fr]) (close S (traced cb) (q + 1) fr { t with hg := h₁ }) := by
  obtain ⟨hfc, hlce, hlb, hsh⟩ : h₁.store.frameCache = t.hg.store.frameCache.insert fr.round fr ∧
      h₁.store.lastConsensusEvents =
        Hashgraph.consensusEvents S fr.events t.hg.store.lastConsensusEvents ∧
      h₁.store.lastBlock = t.hg.store.lastBlock ∧
      h₁.store.sharedRoots = t.hg.store.sharedRoots := by
    obtain ⟨k, cc, tot, rfl⟩ := ho
    exact ⟨rfl, rfl, rfl, rfl⟩
  obtain ⟨h1, h2, h3, h4, h5⟩ := commitFrame_traced (S := S) hcb fr { t with hg := h₁ }
    (hsh.trans hl.sharedRoots)
  obtain ⟨m, first, he⟩ := Hashgraph.closeRound_eq (q + 1) fr
    (commitFrame S (traced cb) fr { t with hg := h₁ }).hg
  have hle := hl.le
  have hlast : h₁.store.lastBlock + 1 = 0 + ((blocksFrom S 0 fs).length : ℤ) := by
    rw [hlb, hl.lastBlock, hl.committed]
    omega
  rw [Session.close, he]
  refine ⟨by omega, ?_, fun fr' hfr' => ?_, ?_, ?_, ?_, h3⟩
  · rw [List.map_append, hl.rounds, show (q + 1 + 1).toNat = (q + 1).toNat + 1 by omega,
      List.range_succ, List.map_append, List.map_singleton, List.map_singleton, hround]
    congr 2
    omega
  · refine (congrArg (AList.lookup fr'.round) (h1.trans hfc)).trans ?_
    rcases List.mem_append.1 hfr' with hfr' | hfr'
    · have := hl.round_le hfr'
      exact (AList.lookup_insert_ne (by omega)).trans (hl.stored fr' hfr')
    · rw [List.mem_singleton.1 hfr']
      exact AList.lookup_insert _
  · rw [blocksFrom_append, ← hlast, ← hl.committed]
    exact h4
  · have hlen : (blocks (commitFrame S (traced cb) fr { t with hg := h₁ })).length =
        (blocks t).length + (blocksFrom S (h₁.store.lastBlock + 1) [fr]).length :=
      (congrArg List.length h4).trans List.length_append
    have hlb' := hl.lastBlock
    have h5 : (commitFrame S (traced cb) fr { t with hg := h₁ }).hg.store.lastBlock =
      h₁.store.lastBlock + (blocksFrom S (h₁.store.lastBlock + 1) [fr]).length := h5
    change (commitFrame S (traced cb) fr { t with hg := h₁ }).hg.store.lastBlock =
      ((blocks (commitFrame S (traced cb) fr { t with hg := h₁ })).length : ℤ) - 1
    omega
  · refine (h2.trans hlce).trans ?_
    rw [hl.lastConsensusEvents, List.flatMap_append, Hashgraph.consensusEvents,
      Hashgraph.consensusEvents, Hashgraph.consensusEvents, List.foldl_append, List.flatMap_singleton]

/-- A frame as it was computed in a session whose ledger had the frames `fs`, while the
rounds after `q` were processed. -/
structure FrameFrom (S : Scheme H K) (rt : Runtime) (cb : CommitCallback C H K) (A : Assignment H)
    (q : ℤ) (s : Recorded C H K) (fs : List (Frame H K)) (fr : Frame H K) where
  n : ℤ
  t : Recorded C H K
  info : RoundInfo H
  P : PeerSet K
  processed : Processed S rt (traced cb) A q s n t
  ledger : Ledger S n fs t
  round : t.hg.store.roundCache.lookup (n + 1) = some info
  decided : info.decided = true
  peers : t.hg.store.getPeerSet (n + 1) = .ok P
  frame : FrameOf rt A t.hg.store.core t.hg.store (n + 1) info P fr

/-- The rounds that are processed add their frames. -/
theorem Processed.ledger (hcb : Hosting cb) (hl : Ledger S q fs s)
    (hp : Processed S rt (traced cb) A q s n t) : ∃ fs', Ledger S n (fs ++ fs') t ∧
      EachAfter (fun pre fr => Nonempty (FrameFrom S rt cb A q s (fs ++ pre) fr)) fs' := by
  induction hp with
  | start => exact ⟨[], by rwa [List.append_nil], EachAfter.nil _⟩
  | @round n t info P fr h₁ ht hinfo hdec hP hfr ho ih =>
    obtain ⟨fs', hl', hframes⟩ := ih
    refine ⟨fs' ++ [fr], ?_, hframes.snoc ⟨n, t, info, P, ht, hl', hinfo, hdec, hP, hfr⟩⟩
    rw [← List.append_assoc]
    exact hl'.close hcb hfr.round ho

theorem Ledger.clean (hl : Ledger S q fs t) {l : List ℤ}
    (h : s = { t with hg := { t.hg with pendingRounds := t.hg.pendingRounds.clean l } }) :
    Ledger S q fs s := by
  subst h
  exact ⟨hl.le, hl.rounds, hl.stored, hl.committed, hl.lastBlock, hl.lastConsensusEvents,
    hl.sharedRoots⟩

/-- The passes of a call leave the ledger. -/
theorem Ledger.of_call (hl : Ledger S q fs s) (c : Call S rt (traced cb) R ps A q s i s') :
    Ledger S q fs { s with hg := c.h₄ } := by
  obtain ⟨pec, hst, -⟩ := Hashgraph.setEvent_eq c.ins.setEvent
  obtain ⟨ti, sigs, he₁⟩ := c.result
  obtain ⟨ec, rc, m, pr, us, he₄⟩ := c.consensus.eq
  obtain ⟨h1, h2, h3, h4, h5, h6, h7⟩ := hl
  rw [he₄, he₁, hst]
  exact ⟨h1, h2, h3, h4, h5, h6, h7⟩

/-- A call adds the frames of the rounds that it processes. -/
theorem Call.ledger (hcb : Hosting cb) (c : Call S rt (traced cb) R ps A q s i s')
    (hl : Ledger S q fs s) : ∃ fs', Ledger S c.n (fs ++ fs') s' ∧
      EachAfter (fun pre fr =>
        Nonempty (FrameFrom S rt cb c.A' q { s with hg := c.h₄ } (fs ++ pre) fr)) fs' := by
  obtain ⟨fs', hl', hframes⟩ := c.processed.ledger hcb (hl.of_call c)
  exact ⟨fs', hl'.clean c.eq, hframes⟩

theorem ledger_init {m : ℕ} {P : PeerSet K} {h : Hashgraph H K}
    (hi : (Hashgraph.new (InmemStore.new m)).init P = .ok h) (c : C) :
    Ledger S (-1) [] (⟨(c, []), h⟩ : Recorded C H K) := by
  unfold Hashgraph.init at hi
  cases hs : (Hashgraph.new (InmemStore.new m : InmemStore H K)).store.setPeerSet 0 P with
  | error err => rw [hs] at hi; cases hi
  | ok st =>
    simp only [hs, Except.ok.injEq] at hi
    subst hi
    obtain ⟨psc, pec, roots, fc, hset, rfl, -, -⟩ := InmemStore.setPeerSet_eq hs
    exact ⟨le_rfl, rfl, fun _ h => (by cases h), rfl, rfl, rfl, rfl⟩

/-- A call that is rejected leaves the ledger. -/
theorem Ledger.topologicalIndex (hl : Ledger S q fs s) (ti : ℤ) :
    Ledger S q fs { s with hg := { s.hg with topologicalIndex := ti } } :=
  ⟨hl.le, hl.rounds, hl.stored, hl.committed, hl.lastBlock, hl.lastConsensusEvents, hl.sharedRoots⟩

end Session

end Babble
