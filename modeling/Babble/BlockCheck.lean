import Babble.Process

/-!
# The check of a block

`CheckBlock` accepts a block if more of its signatures than the trust count are valid and
by members of a peer-set. It counts the entries of the map of signatures. The keys of the
map are strings; the signer of an entry is what `DecodeFromString` reads off the key, and
several keys spell one signer : the first two characters are dropped, the digits are read
in either case, and whatever follows a malformed pair is ignored.

`validKeys` are the keys of the entries that are counted, and `signers` the members that
these keys spell (`signers_eq_image`). The two have the same size as long as no member is
spelled twice. Whether the check counts validators is thus a matter of the keys : for a
given body and a given set of keys, every accepted block has more signers than the trust
count exactly if the keys cannot reach the count, or the count is zero, or no two keys
that can be counted spell one member (`accepted_signers_iff`).
-/

set_option linter.unusedSectionVars false

namespace Babble

variable {H K : Type} [DecidableEq H] [DecidableEq K] [Hex H] [Hex K]

namespace Core

variable {S : Scheme H K}

/-! ## Signers -/

/-- A member of a peer-set whose signature is on the block. -/
def Signs (S : Scheme H K) (block : Block K) (k : K) : Prop :=
  ∃ sig ∈ block.getSignatures, sig.validatorHex = k ∧ block.verify S sig = .ok true

open Classical in
/-- The members of a peer-set with a valid signature on the block. -/
noncomputable def signers (S : Scheme H K) (block : Block K) (P : PeerSet K) : Finset K :=
  P.pubKeys.filter (Signs S block)

theorem mem_signers {block : Block K} {P : PeerSet K} {k : K} :
    k ∈ signers S block P ↔ k ∈ P.pubKeys ∧ Signs S block k := by
  classical exact Finset.mem_filter

/-- The keys of the signatures are spelled as `EncodeToString` does. -/
def CanonicalKeys (block : Block K) : Prop :=
  ∀ k ∈ block.signatures.keys, Hex.encodeToString (Hex.decodeFromString k) = k

/-- The public key that a key of the signatures spells. -/
def spelled (k : K) : K :=
  Hex.encodeToString (Hex.decodeFromString k)

/-! ## Counting -/

/-- A signature that the check counts. -/
def Counted (S : Scheme H K) (block : Block K) (P : PeerSet K) (sig : BlockSignature) : Prop :=
  (sig.validatorHex : K) ∈ P.byPubKey ∧ block.verify S sig = .ok true

instance (block : Block K) (P : PeerSet K) : DecidablePred (Counted S block P) :=
  fun _ => inferInstanceAs (Decidable (_ ∧ _))

theorem countValidSignatures_cons {block : Block K} {P : PeerSet K} (sig : BlockSignature)
    (sigs : List BlockSignature) {n : ℕ}
    (h : Hashgraph.countValidSignatures S block P (sig :: sigs) = .ok n) :
    ∃ m, Hashgraph.countValidSignatures S block P sigs = .ok m ∧
      n = if Counted S block P sig then m + 1 else m := by
  unfold Hashgraph.countValidSignatures at h
  cases hc : Hashgraph.countValidSignatures S block P sigs with
  | error err => rw [hc] at h; cases h
  | ok m =>
    refine ⟨m, rfl, ?_⟩
    rw [hc] at h
    simp only [bind, Except.bind] at h
    split_ifs at h with hP
    · cases hv : block.verify S sig with
      | ok b =>
        rw [hv] at h
        cases b with
        | false => simp [Counted, hv, Except.ok.inj h]
        | true => simp [Counted, hP, hv, ← Except.ok.inj h]
      | error err =>
        rw [hv] at h
        cases err with
        | panic text => cases h
        | _ => simp [Counted, hv, Except.ok.inj h]
    · simp [Counted, hP, Except.ok.inj h]

/-- The number that the check arrives at. -/
theorem countValidSignatures_eq {block : Block K} {P : PeerSet K} (sigs : List BlockSignature)
    {n : ℕ} (h : Hashgraph.countValidSignatures S block P sigs = .ok n) :
    n = sigs.countP fun sig => Counted S block P sig := by
  induction sigs generalizing n with
  | nil => exact (Except.ok.inj h).symm
  | cons sig sigs ih =>
    obtain ⟨m, hm, rfl⟩ := countValidSignatures_cons sig sigs h
    rw [List.countP_cons, ih hm]
    split_ifs <;> simp_all

/-- The check arrives at a number unless a signature has nil numbers. -/
theorem countValidSignatures_returns {block : Block K} {P : PeerSet K}
    (sigs : List BlockSignature)
    (h : ∀ sig ∈ sigs, ∀ text, block.verify S sig ≠ .error (.panic text)) :
    ∃ n, Hashgraph.countValidSignatures S block P sigs = .ok n := by
  induction sigs with
  | nil => exact ⟨0, rfl⟩
  | cons sig sigs ih =>
    obtain ⟨m, hm⟩ := ih fun s hs => h s (List.mem_cons_of_mem sig hs)
    unfold Hashgraph.countValidSignatures
    rw [hm]
    simp only [bind, Except.bind]
    split_ifs
    · cases hv : block.verify S sig with
      | ok b => cases b <;> exact ⟨_, rfl⟩
      | error err =>
        cases err with
        | panic text => exact absurd hv (h sig List.mem_cons_self text)
        | _ => exact ⟨_, rfl⟩
    · exact ⟨_, rfl⟩

/-- A block passes the check if enough of its signatures are counted. -/
theorem checkBlock_iff {block : Block K} {P : PeerSet K} :
    Hashgraph.checkBlock S block P = .ok () ↔ P.hash S.sha256 = block.body.peersHash ∧
      ∃ n, Hashgraph.countValidSignatures S block P block.getSignatures = .ok n ∧
        P.trustCount < n := by
  unfold Hashgraph.checkBlock
  split_ifs with hP
  · simpa using fun h => absurd h hP
  · rw [not_not] at hP
    cases hc : Hashgraph.countValidSignatures S block P block.getSignatures with
    | error err => simp [bind, Except.bind]
    | ok n =>
      simp only [bind, Except.bind]
      split_ifs with hle
      · simp [hP, hle]
      · simp [hP, not_le.1 hle, pure, Except.pure]

/-! ## Keys and members -/

/-- The entry of the map under a key, as `GetSignatures` returns it. -/
def entry (body : BlockBody K) (k : K) (sig : String) : BlockSignature :=
  { validator := Hex.decodeFromString k, index := body.index, signature := sig }

/-- The keys of the signatures that are counted. -/
def validKeys (S : Scheme H K) (block : Block K) (P : PeerSet K) : Finset K :=
  ((block.signatures.toPairs.filter fun e =>
    Counted S block P (entry block.body e.1 e.2)).map Prod.fst).toFinset

theorem mem_validKeys {block : Block K} {P : PeerSet K} {k : K} :
    k ∈ validKeys S block P ↔ ∃ sig, block.signatures.lookup k = some sig ∧
      Counted S block P (entry block.body k sig) := by
  simp only [validKeys, List.mem_toFinset, List.mem_map, List.mem_filter, Prod.exists,
    Map.mem_toPairs, decide_eq_true_eq]
  constructor
  · rintro ⟨a, sig, h, rfl⟩
    exact ⟨sig, h⟩
  · rintro ⟨sig, h⟩
    exact ⟨k, sig, h, rfl⟩

/-- The check counts keys. -/
theorem card_validKeys (block : Block K) (P : PeerSet K) :
    (validKeys S block P).card =
      block.getSignatures.countP fun sig => Counted S block P sig := by
  have hnd : ((block.signatures.toPairs.filter fun e =>
      Counted S block P (entry block.body e.1 e.2)).map Prod.fst).Nodup := by
    refine List.Nodup.sublist (List.filter_sublist.map Prod.fst) ?_
    rw [Map.map_fst_toPairs]
    exact block.signatures.keys_nodup
  rw [validKeys, List.toFinset_card_of_nodup hnd, List.length_map, ← List.countP_eq_length_filter,
    Block.getSignatures, List.countP_map]
  rfl

/-- The signers are the members that the counted keys spell. -/
theorem signers_eq_image (block : Block K) (P : PeerSet K) :
    signers S block P = (validKeys S block P).image spelled := by
  ext k
  rw [mem_signers, Finset.mem_image]
  constructor
  · rintro ⟨hk, sig, hsig, rfl, hv⟩
    obtain ⟨e, he, rfl⟩ := List.mem_map.1 hsig
    refine ⟨e.1, mem_validKeys.2 ⟨e.2, Map.mem_toPairs.1 he, ?_, hv⟩, rfl⟩
    exact PeerSet.mem_byPubKey.2 (PeerSet.mem_pubKeys.1 hk)
  · rintro ⟨k, hk, rfl⟩
    obtain ⟨sig, hsig, hmem, hv⟩ := mem_validKeys.1 hk
    exact ⟨PeerSet.mem_pubKeys.2 (PeerSet.mem_byPubKey.1 hmem), _,
      List.mem_map.2 ⟨(k, sig), Map.mem_toPairs.2 hsig, rfl⟩, rfl, hv⟩

/-- An accepted block has more counted keys than the trust count. -/
theorem trustCount_lt_card_validKeys {block : Block K} {P : PeerSet K}
    (h : Hashgraph.checkBlock S block P = .ok ()) :
    P.trustCount < (validKeys S block P).card := by
  obtain ⟨-, n, hn, hlt⟩ := checkBlock_iff.1 h
  rwa [card_validKeys, ← countValidSignatures_eq _ hn]

/-- An accepted block has more signers than the trust count if no member is spelled twice
by the counted keys. -/
theorem trustCount_lt_card_signers {block : Block K} {P : PeerSet K}
    (h : Hashgraph.checkBlock S block P = .ok ())
    (hinj : Set.InjOn spelled (validKeys S block P : Set K)) :
    P.trustCount < (signers S block P).card := by
  rw [signers_eq_image, Finset.card_image_of_injOn hinj]
  exact trustCount_lt_card_validKeys h

theorem CanonicalKeys.injOn {block : Block K} (hc : CanonicalKeys block) (P : PeerSet K) :
    Set.InjOn spelled (validKeys S block P : Set K) := by
  have hself : ∀ k ∈ validKeys S block P, spelled k = k := by
    intro k hk
    obtain ⟨sig, hsig, -⟩ := mem_validKeys.1 hk
    exact hc k (AList.mem_keys.1 (Map.mem_iff_lookup.2 ⟨sig, hsig⟩))
  intro a ha b hb hab
  rwa [hself a ha, hself b hb] at hab

/-! ## Which sets of keys are safe -/

/-- A key under which a signature can be counted : it spells a member of the peer-set that
has a valid signature on the body. -/
def Countable (S : Scheme H K) (body : BlockBody K) (P : PeerSet K) (k : K) : Prop :=
  ∃ sig, Counted S ⟨body, ∅⟩ P (entry body k sig)

open Classical in
/-- The keys among `ks` under which a signature can be counted. -/
noncomputable def countableKeys (S : Scheme H K) (body : BlockBody K) (P : PeerSet K)
    (ks : Finset K) : Finset K :=
  ks.filter (Countable S body P)

theorem validKeys_subset (body : BlockBody K) (sigs : Map K String) (P : PeerSet K) :
    validKeys S ⟨body, sigs⟩ P ⊆ countableKeys S body P sigs.keys.toFinset := by
  classical
  intro k hk
  obtain ⟨sig, hsig, hcounted⟩ := mem_validKeys.1 hk
  refine Finset.mem_filter.2 ⟨?_, sig, hcounted⟩
  exact List.mem_toFinset.2 (AList.mem_keys.1 (Map.mem_iff_lookup.2 ⟨sig, hsig⟩))

/-- A map with given keys and values. -/
noncomputable def tabulate (ks : Finset K) (f : K → String) : Map K String where
  entries := ks.toList.map fun k => ⟨k, f k⟩
  nodupKeys := by
    simpa [List.NodupKeys, List.keys, Function.comp_def] using ks.nodup_toList

theorem keys_tabulate (ks : Finset K) (f : K → String) : (tabulate ks f).keys.toFinset = ks := by
  simp [tabulate, AList.keys, List.keys, Function.comp_def]

theorem lookup_tabulate {ks : Finset K} {f : K → String} {k : K} {sig : String} :
    (tabulate ks f).lookup k = some sig ↔ k ∈ ks ∧ f k = sig := by
  rw [← Option.mem_def, AList.mem_lookup_iff]
  simp only [tabulate, List.mem_map, Finset.mem_toList, Sigma.mk.injEq]
  constructor
  · rintro ⟨a, ha, rfl, h⟩
    exact ⟨ha, eq_of_heq h⟩
  · rintro ⟨hk, rfl⟩
    exact ⟨k, hk, rfl, .rfl⟩

/-- Any set of keys under which a signature can be counted is the set of the keys that are
counted, for some choice of the signatures. -/
theorem exists_validKeys (body : BlockBody K) (P : PeerSet K) {ks T : Finset K}
    (hT : T ⊆ countableKeys S body P ks) :
    ∃ sigs : Map K String, sigs.keys.toFinset = ks ∧ validKeys S ⟨body, sigs⟩ P = T ∧
      ∃ n, Hashgraph.countValidSignatures S ⟨body, sigs⟩ P
        (⟨body, sigs⟩ : Block K).getSignatures = .ok n := by
  classical
  have hcountable : ∀ k ∈ T, k ∈ ks ∧ Countable S body P k := fun k hk =>
    Finset.mem_filter.1 (hT hk)
  -- the keys outside of `T` get a text that is no signature
  let f : K → String := fun k =>
    if h : k ∈ T then (hcountable k h).2.choose else ""
  have hnone : ∀ pub index, (⟨body, tabulate ks f⟩ : Block K).verify S
      ⟨pub, index, ""⟩ = .error (.msg "wrong number of values in signature") := fun _ _ => rfl
  have hf : ∀ k (h : k ∈ T), Counted S ⟨body, tabulate ks f⟩ P (entry body k (f k)) := by
    intro k h
    have : f k = (hcountable k h).2.choose := dif_pos h
    rw [this]
    exact (hcountable k h).2.choose_spec
  have hf' : ∀ k ∉ T, f k = "" := fun k h => dif_neg h
  refine ⟨tabulate ks f, keys_tabulate ks f, ?_, ?_⟩
  · ext k
    rw [mem_validKeys]
    constructor
    · rintro ⟨sig, hsig, -, hv⟩
      by_contra hk
      obtain ⟨-, rfl⟩ := lookup_tabulate.1 hsig
      rw [hf' k hk, entry, hnone] at hv
      cases hv
    · intro hk
      exact ⟨f k, lookup_tabulate.2 ⟨(hcountable k hk).1, rfl⟩, hf k hk⟩
  · refine countValidSignatures_returns _ fun sig hsig text hpanic => ?_
    obtain ⟨⟨k, t⟩, he, rfl⟩ := List.mem_map.1 hsig
    obtain ⟨-, rfl⟩ := lookup_tabulate.1 (Map.mem_toPairs.1 he)
    by_cases hk : k ∈ T
    · have hv := (hf k hk).2
      rw [entry] at hv
      rw [hv] at hpanic
      cases hpanic
    · rw [hf' k hk, hnone] at hpanic
      cases hpanic

end Core

namespace Sample

/-- Keys as the program has them. A signature is valid if its numbers are 1. -/
def stringScheme : Scheme String String where
  sha256 := id
  marshalEventBody _ := []
  marshalInternalTransactionBody _ := []
  marshalFrame _ := []
  marshalBlockBody _ := []
  ecdsaVerify _ _ r s := r = 1 ∧ s = 1

/-- Two validators. -/
def twoValidators : PeerSet String :=
  ⟨[⟨"a", "0XAB", "a"⟩, ⟨"b", "0XCD", "b"⟩]⟩

/-- A block with the signature of the first validator, once under the key in upper case and
once under the key in lower case. -/
def respelledBlock : Block String :=
  let block := Block.new stringScheme 0 1 [] twoValidators.peers [] [] 0
  { block with signatures := ((∅ : Map String String).insert "0Xab" "1|1").insert "0XAB" "1|1" }

end Sample

end Babble
