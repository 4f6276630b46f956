import Babble.Anchor
import Babble.BlockCheck
import Babble.SignaturePool

/-!
# Verification of untrusted data

Transactions, events and blocks come from other nodes, and are verified before anything else
is known about them. On the way to `ecdsa.Verify` a text is cut after two bytes, bytes become
a point of the curve, and another text becomes two numbers. `Untrusted` has these steps as the
code takes them : a cut outside of the text is a panic, and so is a call of `ecdsa.Verify`
with a key, a coordinate or a number that is nil.

`Untrusted.verify_total_iff` says on which data the three methods return a boolean or an error.
Where they do, they return what the rest of the development takes them to return
(`Untrusted.verifyTransaction_eq`, `verifyEvent_eq`, `verifyBlock_eq`).
-/

set_option linter.unusedSectionVars false

namespace Babble

variable {H : Type} [DecidableEq H] [Hex H]

/-- What `crypto/elliptic` and `crypto/ecdsa` do with a curve : `Unmarshal` gives a point, or nil
coordinates, and `Verify` takes a point and two numbers. -/
structure Curve where
  unmarshal : List UInt8 → Option (ℤ × ℤ)
  verify : ℤ × ℤ → List UInt8 → ℤ → ℤ → Bool

namespace Untrusted

/-! ## Texts -/

/-- The bytes of a text. -/
def textBytes (s : String) : List UInt8 :=
  s.toList.flatMap String.utf8EncodeChar

/-- `DecodeFromString`, with the error of the decoder dropped as its callers do. -/
def decodeFromString (hexString : String) : Except Err (List UInt8) :=
  if (textBytes hexString).length < 2 then .error (.panic "slice bounds out of range")
  else .ok (decodeHex (((textBytes hexString).drop 2).map fun b => Char.ofNat b.toNat))

theorem utf8EncodeChar_of_ascii {c : Char} (h : c.toNat < 128) :
    String.utf8EncodeChar c = [UInt8.ofNat c.toNat] := by
  simp [String.utf8EncodeChar, Nat.le_of_lt_succ h]

/-- A text of ASCII characters is its list of bytes. -/
theorem map_textBytes {s : String} (h : ∀ c ∈ s.toList, c.toNat < 128) :
    (textBytes s).map (fun b => Char.ofNat b.toNat) = s.toList := by
  unfold textBytes
  generalize s.toList = cs at h
  induction cs with
  | nil => rfl
  | cons c cs ih =>
    have hc := h c List.mem_cons_self
    rw [List.flatMap_cons, List.map_append, ih fun d hd => h d (List.mem_cons_of_mem c hd),
      utf8EncodeChar_of_ascii hc]
    have hbyte : (UInt8.ofNat c.toNat).toNat = c.toNat := by
      rw [UInt8.toNat_ofNat']
      omega
    simp [hbyte, Char.ofNat_toNat]

/-- On such a text the cut is the one of `Hex`. -/
theorem decodeFromString_eq {s : String} (h : ∀ c ∈ s.toList, c.toNat < 128)
    (hs : 2 ≤ (textBytes s).length) : decodeFromString s = .ok (Hex.decodeFromString s) := by
  rw [decodeFromString, if_neg (by omega), List.map_drop, map_textBytes h]
  rfl

/-! ## Keys -/

variable (C : Curve)

/-- `ToPublicKey` : nil for no bytes, and a key with nil coordinates if the bytes are not a point. -/
def toPublicKey (pub : List UInt8) : Option (Option (ℤ × ℤ)) :=
  if pub = [] then none else some (C.unmarshal pub)

/-- `ecdsa.Verify` wants all of its arguments. -/
def ecdsaVerify (pub : Option (Option (ℤ × ℤ))) (digest : List UInt8) :
    Option ℤ × Option ℤ → Except Err Bool
  | (some r, some s) =>
    match pub with
    | some (some point) => .ok (C.verify point digest r s)
    | some none => .error (.panic "nil coordinates")
    | none => .error (.panic "nil PublicKey")
  | _ => .error (.panic "nil big.Int")

/-- `PubKeyBytes` of a peer. -/
def pubKeyBytes (p : Peer String) : Except Err (List UInt8) :=
  decodeFromString p.pubKeyHex

/-! ## The three methods -/

variable (S : Scheme H String)

/-- `Verify` of an internal transaction. -/
def verifyTransaction (t : InternalTransaction String) : Except Err Bool := do
  let pubBytes ← pubKeyBytes t.body.peer
  let rs ← decodeSignature t.signature
  ecdsaVerify C (toPublicKey C pubBytes) (S.sha256 (S.marshalInternalTransactionBody t.body)) rs

/-- The internal transactions of an event, up to the first that fails. -/
def verifyTransactions : List (InternalTransaction String) → Except Err Unit
  | [] => .ok ()
  | t :: ts => do
    let ok ← verifyTransaction C S t
    if ok then verifyTransactions ts
    else .error (.msg "invalid signature on internal transaction")

/-- `Verify` of an event. -/
def verifyEvent (e : SignedEvent H String) : Except Err Bool := do
  verifyTransactions C S e.body.internalTransactions
  let rs ← decodeSignature e.signature
  ecdsaVerify C (toPublicKey C e.body.creator) (e.hash S) rs

/-- `Verify` of a signature of a block. -/
def verifyBlock (b : Block String) (sig : BlockSignature) : Except Err Bool := do
  let rs ← decodeSignature sig.signature
  ecdsaVerify C (toPublicKey C sig.validator) (b.body.hash S) rs

/-- `GetSignatures` : the signers are read back from the keys of the map. -/
def getSignatures (b : Block String) : Except Err (List BlockSignature) :=
  b.signatures.toPairs.mapM fun e => do
    let validator ← decodeFromString e.1
    return { validator := validator, index := b.body.index, signature := e.2 }

/-! ## Panics -/

/-- A value or an error, and no panic. -/
def Total {α : Type} (r : Except Err α) : Prop :=
  ∀ text, r ≠ .error (.panic text)

/-- The text has two bytes to cut off. -/
def Prefixed (hexString : String) : Prop :=
  2 ≤ (textBytes hexString).length

/-- The signature is not two texts around a bar, or it is two numbers and the key is a point. -/
def Checkable (pub : List UInt8) (sig : String) : Prop :=
  (sig.toList.splitOn '|').length ≠ 2 ∨
    Decodes sig ∧ pub ≠ [] ∧ C.unmarshal pub ≠ none

/-- The key of the peer can be cut, and its signature checked with what is left. -/
def Answerable (t : InternalTransaction String) : Prop :=
  Prefixed t.body.peer.pubKeyHex ∧
    ∀ pub, decodeFromString t.body.peer.pubKeyHex = .ok pub → Checkable C pub t.signature

/-- The transaction is signed by its peer. -/
def Signed (t : InternalTransaction String) : Prop :=
  ∃ pub point r s, decodeFromString t.body.peer.pubKeyHex = .ok pub ∧ pub ≠ [] ∧
    C.unmarshal pub = some point ∧ decodeSignature t.signature = .ok (some r, some s) ∧
    C.verify point (S.sha256 (S.marshalInternalTransactionBody t.body)) r s = true

theorem decodeFromString_of_prefixed {s : String} (h : Prefixed s) :
    ∃ pub, decodeFromString s = .ok pub := by
  unfold Prefixed at h
  exact ⟨_, if_neg (by omega)⟩

theorem total_decodeFromString_iff {s : String} : Total (decodeFromString s) ↔ Prefixed s := by
  constructor
  · intro h
    by_contra hs
    refine h "slice bounds out of range" (if_pos ?_)
    unfold Prefixed at hs
    omega
  · intro h text
    obtain ⟨pub, hpub⟩ := decodeFromString_of_prefixed h
    rw [hpub]
    nofun

theorem toPublicKey_eq_some {pub : List UInt8} {point : ℤ × ℤ} :
    toPublicKey C pub = some (some point) ↔ pub ≠ [] ∧ C.unmarshal pub = some point := by
  unfold toPublicKey
  split_ifs with h <;> simp [h]

theorem decodeSignature_cases (sig : String) :
    (sig.toList.splitOn '|').length ≠ 2 ∧
        decodeSignature sig = .error (.msg "wrong number of values in signature") ∨
      (sig.toList.splitOn '|').length = 2 ∧ ∃ rs, decodeSignature sig = .ok rs := by
  unfold decodeSignature
  split
  · rename_i r s hsplit
    exact .inr ⟨by rw [hsplit]; rfl, _, rfl⟩
  · rename_i hsplit
    refine .inl ⟨fun hlen => ?_, rfl⟩
    obtain ⟨r, s, hrs⟩ := List.length_eq_two.1 hlen
    exact hsplit r s hrs

/-- `ecdsa.Verify` is called with two numbers and a point, or it is a panic. -/
theorem total_ecdsaVerify_iff {pub digest : List UInt8} {rs : Option ℤ × Option ℤ} :
    Total (ecdsaVerify C (toPublicKey C pub) digest rs) ↔
      (∃ r s, rs = (some r, some s)) ∧ pub ≠ [] ∧ C.unmarshal pub ≠ none := by
  obtain ⟨_ | r, _ | s⟩ := rs
  · simp [ecdsaVerify, Total]
  · simp [ecdsaVerify, Total]
  · simp [ecdsaVerify, Total]
  · by_cases hpub : pub = []
    · simp [ecdsaVerify, toPublicKey, Total, hpub]
    · cases hpoint : C.unmarshal pub <;> simp [ecdsaVerify, toPublicKey, Total, hpub, hpoint]

theorem total_check_iff {pub digest : List UInt8} {sig : String} :
    Total (decodeSignature sig >>= ecdsaVerify C (toPublicKey C pub) digest) ↔
      Checkable C pub sig := by
  rcases decodeSignature_cases sig with ⟨hlen, hdec⟩ | ⟨hlen, rs, hdec⟩
  · refine iff_of_true (fun text => ?_) (.inl hlen)
    rw [hdec]
    nofun
  · rw [hdec]
    refine (total_ecdsaVerify_iff C).trans ?_
    simp only [Checkable, Decodes, hdec, Except.ok.injEq, hlen, ne_eq, not_true_eq_false, false_or]

/-- A transaction. -/
theorem total_verifyTransaction_iff {t : InternalTransaction String} :
    Total (verifyTransaction C S t) ↔ Answerable C t := by
  unfold verifyTransaction Answerable pubKeyBytes
  by_cases hp : Prefixed t.body.peer.pubKeyHex
  · obtain ⟨pub, hpub⟩ := decodeFromString_of_prefixed hp
    rw [hpub]
    refine (total_check_iff C).trans ?_
    simp [hp]
  · refine iff_of_false (fun h => hp (total_decodeFromString_iff.1 fun text htext => ?_))
      fun h => hp h.1
    refine h text ?_
    rw [htext]
    rfl

theorem ecdsaVerify_eq_ok_iff {pub digest : List UInt8} {rs : Option ℤ × Option ℤ} {valid : Bool} :
    ecdsaVerify C (toPublicKey C pub) digest rs = .ok valid ↔
      ∃ point r s, pub ≠ [] ∧ C.unmarshal pub = some point ∧ rs = (some r, some s) ∧
        C.verify point digest r s = valid := by
  obtain ⟨_ | r, _ | s⟩ := rs
  · simp [ecdsaVerify]
  · simp [ecdsaVerify]
  · simp [ecdsaVerify]
  · by_cases hpub : pub = []
    · simp [ecdsaVerify, toPublicKey, hpub]
    · cases hpoint : C.unmarshal pub <;> simp [ecdsaVerify, toPublicKey, hpub, hpoint]

theorem verifyTransaction_eq_true_iff {t : InternalTransaction String} :
    verifyTransaction C S t = .ok true ↔ Signed C S t := by
  unfold verifyTransaction Signed pubKeyBytes
  cases hpub : decodeFromString t.body.peer.pubKeyHex with
  | error err => exact ⟨nofun, nofun⟩
  | ok pub =>
    cases hrs : decodeSignature t.signature with
    | error err => exact ⟨nofun, nofun⟩
    | ok rs =>
      refine (ecdsaVerify_eq_ok_iff C).trans ?_
      simp [Except.ok.injEq]

variable {C S} in
theorem Signed.answerable {t : InternalTransaction String} (h : Signed C S t) :
    Answerable C t := by
  rw [← total_verifyTransaction_iff C S, (verifyTransaction_eq_true_iff C S).2 h]
  exact fun _ => nofun

/-- The loop over the transactions of an event goes on after one that is signed. -/
theorem verifyTransactions_cons_of_signed {t : InternalTransaction String}
    {ts : List (InternalTransaction String)} (h : Signed C S t) :
    verifyTransactions C S (t :: ts) = verifyTransactions C S ts := by
  rw [verifyTransactions, (verifyTransaction_eq_true_iff C S).2 h]
  rfl

/-- It ends at one that is not, with its error or a panic. -/
theorem verifyTransactions_cons_of_not_signed {t : InternalTransaction String}
    (h : ¬Signed C S t) (ts : List (InternalTransaction String)) :
    (∃ err, verifyTransactions C S (t :: ts) = .error err) ∧
      (Total (verifyTransactions C S (t :: ts)) ↔ Answerable C t) := by
  rw [← total_verifyTransaction_iff C S, verifyTransactions]
  rw [← verifyTransaction_eq_true_iff C S] at h
  match hv : verifyTransaction C S t with
  | .error err => exact ⟨⟨err, rfl⟩, by simp [Total, bind, Except.bind]⟩
  | .ok false => exact ⟨⟨_, rfl⟩, by simp [Total, bind, Except.bind]⟩
  | .ok true => exact (h hv).elim

theorem verifyTransactions_isOk_iff {ts : List (InternalTransaction String)} :
    verifyTransactions C S ts = .ok () ↔ ∀ t ∈ ts, Signed C S t := by
  induction ts with
  | nil => exact ⟨nofun, fun _ => rfl⟩
  | cons t ts ih =>
    rw [List.forall_mem_cons]
    by_cases ht : Signed C S t
    · rw [verifyTransactions_cons_of_signed C S ht, ih]
      exact (and_iff_right ht).symm
    · obtain ⟨err, herr⟩ := (verifyTransactions_cons_of_not_signed C S ht ts).1
      exact iff_of_false (by rw [herr]; nofun) fun h => ht h.1

/-- The transactions are answerable up to the first that is not signed. -/
theorem total_verifyTransactions_iff {ts : List (InternalTransaction String)} :
    Total (verifyTransactions C S ts) ↔
      ∀ pre t post, ts = pre ++ t :: post → (∀ u ∈ pre, Signed C S u) → Answerable C t := by
  induction ts with
  | nil => exact ⟨fun _ pre t post h => by simp at h, fun _ _ => nofun⟩
  | cons t ts ih =>
    by_cases ht : Signed C S t
    · rw [verifyTransactions_cons_of_signed C S ht, ih]
      constructor
      · intro h pre u post heq hpre
        cases pre with
        | nil =>
          obtain ⟨rfl, -⟩ := List.cons.inj heq
          exact ht.answerable
        | cons t' pre =>
          exact h pre u post (List.cons.inj heq).2 fun u hu => hpre u (List.mem_cons_of_mem _ hu)
      · intro h pre u post heq hpre
        refine h (t :: pre) u post (by rw [heq]; rfl) ?_
        exact List.forall_mem_cons.2 ⟨ht, hpre⟩
    · rw [(verifyTransactions_cons_of_not_signed C S ht ts).2]
      constructor
      · intro h pre u post heq hpre
        cases pre with
        | nil =>
          obtain ⟨rfl, -⟩ := List.cons.inj heq
          exact h
        | cons t' pre =>
          obtain ⟨rfl, -⟩ := List.cons.inj heq
          exact (ht (hpre t List.mem_cons_self)).elim
      · intro h
        exact h [] t ts rfl nofun

/-! ## Blocks and events -/

/-- A map that can only fail by panics, over a list. -/
theorem total_mapM_iff {α β : Type} {f : α → Except Err β}
    (hf : ∀ a err, f a = .error err → ∃ text, err = .panic text) {l : List α} :
    Total (l.mapM f) ↔ ∀ a ∈ l, Total (f a) := by
  induction l with
  | nil => exact ⟨fun _ => nofun, fun _ _ => nofun⟩
  | cons a l ih =>
    rw [List.forall_mem_cons, ← ih, List.mapM_cons]
    cases ha : f a with
    | error err =>
      obtain ⟨text, rfl⟩ := hf a err ha
      exact iff_of_false (fun h => h text rfl) fun h => h.1 text rfl
    | ok b => cases hl : l.mapM f <;> simp [Total, bind, Except.bind, pure, Except.pure]

theorem total_getSignatures_iff {b : Block String} :
    Total (getSignatures b) ↔ ∀ k ∈ b.signatures.keys, Prefixed k := by
  rw [getSignatures, total_mapM_iff, ← Map.map_fst_toPairs, List.forall_mem_map]
  · refine forall₂_congr fun e _ => ?_
    rw [← total_decodeFromString_iff]
    cases decodeFromString e.1 <;> simp [Total, bind, Except.bind, pure, Except.pure]
  · intro e err he
    unfold decodeFromString at he
    split_ifs at he with h
    · exact ⟨_, (Except.error.inj he).symm⟩
    · cases he

theorem total_verifyEvent_iff {e : SignedEvent H String} :
    Total (verifyEvent C S e) ↔
      (∀ pre t post, e.body.internalTransactions = pre ++ t :: post →
        (∀ u ∈ pre, Signed C S u) → Answerable C t) ∧
      ((∀ t ∈ e.body.internalTransactions, Signed C S t) →
        Checkable C e.body.creator e.signature) := by
  rw [← total_verifyTransactions_iff, ← verifyTransactions_isOk_iff]
  unfold verifyEvent
  cases hts : verifyTransactions C S e.body.internalTransactions with
  | error err => simp [Total, bind, Except.bind]
  | ok u =>
    refine (total_check_iff C).trans ?_
    simp [Total]

/-- `Verify` returns a boolean or an error on these transactions, signatures of blocks and
events, and on no others; and so does `GetSignatures` on blocks with these keys. -/
theorem verify_total_iff :
    (∀ t : InternalTransaction String, Total (verifyTransaction C S t) ↔ Answerable C t) ∧
    (∀ (b : Block String) sig,
      Total (verifyBlock C S b sig) ↔ Checkable C sig.validator sig.signature) ∧
    (∀ b : Block String, Total (getSignatures b) ↔ ∀ k ∈ b.signatures.keys, Prefixed k) ∧
    ∀ e : SignedEvent H String, Total (verifyEvent C S e) ↔
      (∀ pre t post, e.body.internalTransactions = pre ++ t :: post →
        (∀ u ∈ pre, Signed C S u) → Answerable C t) ∧
      ((∀ t ∈ e.body.internalTransactions, Signed C S t) →
        Checkable C e.body.creator e.signature) :=
  ⟨fun _ => total_verifyTransaction_iff C S, fun _ _ => total_check_iff C,
    fun _ => total_getSignatures_iff, fun _ => total_verifyEvent_iff C S⟩

/-! ## Agreement with the scheme

The rest of the development has `ecdsa.Verify` as a function of the bytes of a key, and cuts
texts by characters. -/

/-- The scheme checks signatures with the points of the curve. -/
def Implements : Prop :=
  ∀ pub digest r s point, C.unmarshal pub = some point →
    S.ecdsaVerify pub digest r s = C.verify point digest r s

variable {C S}

theorem check_eq (hC : Implements C S) {pub digest : List UInt8} {sig : String}
    (h : Total (decodeSignature sig >>= ecdsaVerify C (toPublicKey C pub) digest)) :
    (decodeSignature sig >>= S.verify pub digest) =
      decodeSignature sig >>= ecdsaVerify C (toPublicKey C pub) digest := by
  rcases decodeSignature_cases sig with ⟨-, hdec⟩ | ⟨-, rs, hdec⟩
  · rw [hdec]
    rfl
  · rw [hdec] at h ⊢
    obtain ⟨⟨r, s, rfl⟩, hpub, hpoint⟩ := (total_ecdsaVerify_iff C).1 h
    obtain ⟨point, hpoint⟩ := Option.ne_none_iff_exists'.1 hpoint
    have hok : ecdsaVerify C (toPublicKey C pub) digest (some r, some s) =
        .ok (C.verify point digest r s) :=
      (ecdsaVerify_eq_ok_iff C).2 ⟨point, r, s, hpub, hpoint, rfl, rfl⟩
    refine Eq.trans ?_ hok.symm
    exact congrArg Except.ok (hC pub digest r s point hpoint)

theorem verifyTransaction_eq (hC : Implements C S) {t : InternalTransaction String}
    (hkey : ∀ c ∈ t.body.peer.pubKeyHex.toList, c.toNat < 128)
    (h : Total (verifyTransaction C S t)) : t.verify S = verifyTransaction C S t := by
  have hpub := decodeFromString_eq hkey ((total_verifyTransaction_iff C S).1 h).1
  unfold verifyTransaction pubKeyBytes at h ⊢
  rw [hpub] at h ⊢
  exact check_eq hC h

theorem verifyBlock_eq (hC : Implements C S) {b : Block String} {sig : BlockSignature}
    (h : Total (verifyBlock C S b sig)) : b.verify S sig = verifyBlock C S b sig :=
  check_eq hC h

theorem verifyTransactions_eq (hC : Implements C S) {ts : List (InternalTransaction String)}
    (hkey : ∀ t ∈ ts, ∀ c ∈ t.body.peer.pubKeyHex.toList, c.toNat < 128)
    (h : Total (verifyTransactions C S ts)) : verifyAll S ts = verifyTransactions C S ts := by
  induction ts with
  | nil => rfl
  | cons t ts ih =>
    have ht : Total (verifyTransaction C S t) :=
      (total_verifyTransaction_iff C S).2
        ((total_verifyTransactions_iff C S).1 h [] t ts rfl nofun)
    rw [verifyAll, verifyTransactions, verifyTransaction_eq hC (hkey t List.mem_cons_self) ht]
    match hv : verifyTransaction C S t with
    | .error err => rfl
    | .ok false => rfl
    | .ok true =>
      rw [verifyTransactions_cons_of_signed C S ((verifyTransaction_eq_true_iff C S).1 hv)] at h
      exact ih (fun u hu => hkey u (List.mem_cons_of_mem t hu)) h

theorem verifyEvent_eq (hC : Implements C S) {e : SignedEvent H String}
    (hkey : ∀ t ∈ e.body.internalTransactions, ∀ c ∈ t.body.peer.pubKeyHex.toList, c.toNat < 128)
    (h : Total (verifyEvent C S e)) : e.verify S = verifyEvent C S e := by
  have hts : Total (verifyTransactions C S e.body.internalTransactions) :=
    (total_verifyTransactions_iff C S).2 ((total_verifyEvent_iff C S).1 h).1
  unfold SignedEvent.verify verifyEvent at *
  rw [verifyTransactions_eq hC hkey hts]
  cases hv : verifyTransactions C S e.body.internalTransactions with
  | error err => rfl
  | ok u =>
    rw [hv] at h
    exact check_eq hC h

end Untrusted

namespace Sample

/-- A curve with the points of 65 bytes that begin with 4. -/
def curve : Curve where
  unmarshal pub := if pub.length = 65 ∧ pub.head? = some 4 then some (0, 0) else none
  verify _ _ r s := r = 1 ∧ s = 1

/-- A request to join with a given key and signature. -/
def request (pubKeyHex signature : String) : InternalTransaction String :=
  ⟨⟨.peerAdd, ⟨"a", pubKeyHex, "a"⟩⟩, signature⟩

/-- A request without a key, one with an empty key, one with a key that is not a point, a block
signature with a text that is not a number, and an event that carries such a request. -/
theorem request_panics :
    Untrusted.verifyTransaction curve stringScheme (request "" "1|1") =
      .error (.panic "slice bounds out of range") ∧
    Untrusted.verifyTransaction curve stringScheme (request "0X" "1|1") =
      .error (.panic "nil PublicKey") ∧
    Untrusted.verifyTransaction curve stringScheme (request "0X04" "1|1") =
      .error (.panic "nil coordinates") ∧
    Untrusted.verifyBlock curve stringScheme respelledBlock ⟨memberKey, 0, "?|1"⟩ =
      .error (.panic "nil big.Int") ∧
    ∀ e : SignedEvent String String, e.body.internalTransactions = [request "" "1|1"] →
      Untrusted.verifyEvent curve stringScheme e = .error (.panic "slice bounds out of range") := by
  refine ⟨by decide +kernel, by decide +kernel, by decide +kernel, by rfl, fun e he => ?_⟩
  rw [Untrusted.verifyEvent, he]
  rfl

end Sample

end Babble
