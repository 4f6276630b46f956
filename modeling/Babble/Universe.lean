import Babble.Block
import Babble.Voting

/-!
# Events without forks

A `Universe` is a set of event bodies that are told apart by their hashes, whose indexes
count the events of a creator, and where no creator has two events on one self-parent. The
events whose ancestors are all in the set form an event graph over hashes
(`Universe.graph`), on which rounds, votes and round-received are defined
(`EventGraph.round`, `EventGraph.Famous`, `EventGraph.Received`).

The nodes of a network hold parts of one universe. Signatures are not in it : two nodes
may hold one body under different signatures.
-/

set_option linter.unusedSectionVars false

namespace Babble

variable {H K : Type} [DecidableEq H] [DecidableEq K] [Hex H] [Hex K]

/-- The hash of a body as a string. -/
def EventBody.hex (S : Scheme H K) (b : EventBody H K) : H :=
  Hex.encodeToString (S.sha256 (S.marshalEventBody b))

theorem SignedEvent.hex_eq (S : Scheme H K) (e : SignedEvent H K) : e.hex S = e.body.hex S :=
  rfl

/-- Bodies that are told apart by their hashes, with index 0 for first events and the next
index for an event on a self-parent. -/
structure Indexed (S : Scheme H K) (bodies : Set (EventBody H K)) : Prop where
  collisionFree : ∀ b ∈ bodies, ∀ b' ∈ bodies, b.hex S = b'.hex S → b = b'
  index_first : ∀ b ∈ bodies, b.selfParent = none → b.index = 0
  index_next : ∀ b ∈ bodies, ∀ p ∈ bodies, b.selfParent = some (p.hex S) → b.index = p.index + 1

theorem Indexed.mono {S : Scheme H K} {bodies bodies' : Set (EventBody H K)}
    (h : Indexed S bodies) (hsub : bodies' ⊆ bodies) : Indexed S bodies' where
  collisionFree b hb b' hb' := h.collisionFree b (hsub hb) b' (hsub hb')
  index_first b hb := h.index_first b (hsub hb)
  index_next b hb p hp := h.index_next b (hsub hb) p (hsub hp)

/-- A set of bodies without collisions and without forks, with the indexes in order. -/
structure Universe (S : Scheme H K) where
  bodies : Set (EventBody H K)
  indexed : Indexed S bodies
  noFork : ∀ b ∈ bodies, ∀ b' ∈ bodies, b.creator = b'.creator →
    b.selfParent = b'.selfParent → b = b'

namespace Universe

variable {S : Scheme H K} (U : Universe S)

/-- A hash of a body whose ancestors are all in the universe, with the self-parents by one
creator. -/
inductive Grounded : H → Prop
  | intro {b : EventBody H K} (hb : b ∈ U.bodies)
      (selfParent : ∀ p, b.selfParent = some p → Grounded p)
      (creator : ∀ p ∈ U.bodies, b.selfParent = some (p.hex S) → p.creator = b.creator)
      (otherParent : ∀ p, b.otherParent = some p → Grounded p) : Grounded (b.hex S)

open Classical in
/-- The body with a hash. -/
noncomputable def body (x : H) : EventBody H K :=
  if h : ∃ b ∈ U.bodies, b.hex S = x then h.choose else ⟨[], [], none, none, [], 0, [], 0⟩

variable {U} {x y p : H} {b : EventBody H K}

theorem body_hex (hb : b ∈ U.bodies) : U.body (b.hex S) = b := by
  have h : ∃ b' ∈ U.bodies, b'.hex S = b.hex S := ⟨b, hb, rfl⟩
  rw [body, dif_pos h]
  exact U.indexed.collisionFree _ h.choose_spec.1 b hb h.choose_spec.2

namespace Grounded

theorem mem (h : U.Grounded x) : U.body x ∈ U.bodies := by
  cases h with
  | intro hb => rwa [body_hex hb]

theorem hex_body (h : U.Grounded x) : (U.body x).hex S = x := by
  cases h with
  | intro hb => rw [body_hex hb]

theorem selfParent (h : U.Grounded x) (hp : (U.body x).selfParent = some p) : U.Grounded p := by
  cases h with
  | intro hb hs =>
    rw [body_hex hb] at hp
    exact hs p hp

theorem otherParent (h : U.Grounded x) (hp : (U.body x).otherParent = some p) : U.Grounded p := by
  cases h with
  | intro hb _ _ ho =>
    rw [body_hex hb] at hp
    exact ho p hp

theorem creator_selfParent (h : U.Grounded x) (hp : (U.body x).selfParent = some p) :
    (U.body p).creator = (U.body x).creator := by
  have hpg := h.selfParent hp
  cases h with
  | intro hb _ hc =>
    rw [body_hex hb] at hp ⊢
    exact hc _ hpg.mem (by rw [hp, hpg.hex_body])

theorem index_next (h : U.Grounded x) (hp : (U.body x).selfParent = some p) :
    (U.body x).index = (U.body p).index + 1 :=
  U.indexed.index_next _ h.mem _ (h.selfParent hp).mem (by rw [hp, (h.selfParent hp).hex_body])

theorem index_nonneg (h : U.Grounded x) : 0 ≤ (U.body x).index := by
  induction h with
  | @intro b hb hs hc ho ih _ =>
    have hx : U.Grounded (b.hex S) := .intro hb hs hc ho
    cases hsp : b.selfParent with
    | none =>
      rw [body_hex hb]
      exact (U.indexed.index_first b hb hsp).ge
    | some p =>
      have hnext := hx.index_next (by rw [body_hex hb, hsp])
      have := ih p hsp
      omega

/-- A creator has one event at an index : by induction down the self-parents. -/
theorem unique (hx : U.Grounded x) (hy : U.Grounded y)
    (hc : (U.body x).creator = (U.body y).creator) (hi : (U.body x).index = (U.body y).index) :
    x = y := by
  induction hx generalizing y with
  | @intro b hb hs hcr ho ih _ =>
    have hx : U.Grounded (b.hex S) := .intro hb hs hcr ho
    suffices hsp : (U.body (b.hex S)).selfParent = (U.body y).selfParent by
      rw [← hx.hex_body, ← hy.hex_body, U.noFork _ hx.mem _ hy.mem hc hsp]
    cases hspx : (U.body (b.hex S)).selfParent with
    | none =>
      cases hspy : (U.body y).selfParent with
      | none => rfl
      | some q =>
        have h0 := U.indexed.index_first _ hx.mem hspx
        have h1 := hy.index_next hspy
        have := (hy.selfParent hspy).index_nonneg
        omega
    | some p =>
      have h1 := hx.index_next hspx
      cases hspy : (U.body y).selfParent with
      | none =>
        have h0 := U.indexed.index_first _ hy.mem hspy
        have := (hx.selfParent hspx).index_nonneg
        omega
      | some q =>
        have h2 := hy.index_next hspy
        have hcp := hx.creator_selfParent hspx
        have hcq := hy.creator_selfParent hspy
        rw [body_hex hb] at hspx
        rw [ih p hspx (hy.selfParent hspy) (by rw [hcp, hcq, hc]) (by omega)]

end Grounded

open Classical in
variable (U) in
/-- The event graph of a universe. -/
noncomputable def graph : EventGraph H K where
  Mem := U.Grounded
  creator x := Hex.encodeToString (U.body x).creator
  index x := (U.body x).index
  selfParent x := if U.Grounded x then (U.body x).selfParent else none
  otherParent x := if U.Grounded x then (U.body x).otherParent else none
  selfParent_mem {x p} h := by
    split_ifs at h with hx
    exact ⟨hx, hx.selfParent h⟩
  otherParent_mem {x p} h := by
    split_ifs at h with hx
    exact ⟨hx, hx.otherParent h⟩
  wf := by
    have hacc : ∀ x, U.Grounded x → Acc (fun p x =>
        (if U.Grounded x then (U.body x).selfParent else none) = some p ∨
          (if U.Grounded x then (U.body x).otherParent else none) = some p) x := by
      intro x hx
      induction hx with
      | @intro b hb hs hc ho ihs iho =>
        have hx : U.Grounded (b.hex S) := .intro hb hs hc ho
        refine ⟨_, fun p hp => ?_⟩
        rw [if_pos hx, if_pos hx, body_hex hb] at hp
        exact hp.elim (ihs p) (iho p)
    refine ⟨fun x => ?_⟩
    by_cases hx : U.Grounded x
    · exact hacc x hx
    · refine ⟨_, fun p hp => ?_⟩
      rw [if_neg hx, if_neg hx] at hp
      exact hp.elim (fun h => by cases h) fun h => by cases h
  creator_selfParent {x p} h := by
    split_ifs at h with hx
    rw [hx.creator_selfParent h]
  index_first {x} hx h := by
    rw [if_pos hx] at h
    exact U.indexed.index_first _ hx.mem h
  index_next {x p} h := by
    split_ifs at h with hx
    exact hx.index_next h
  unique {x y} hx hy hc hi := hx.unique hy (Hex.encode_injective hc) hi

theorem graph_mem : U.graph.Mem x ↔ U.Grounded x :=
  Iff.rfl

theorem graph_selfParent (hx : U.Grounded x) : U.graph.selfParent x = (U.body x).selfParent :=
  if_pos hx

theorem graph_otherParent (hx : U.Grounded x) : U.graph.otherParent x = (U.body x).otherParent :=
  if_pos hx

/-- A list of bodies as a universe. -/
def ofList (S : Scheme H K) (l : List (EventBody H K))
    (collisionFree : ∀ b ∈ l, ∀ b' ∈ l, b.hex S = b'.hex S → b = b')
    (index_first : ∀ b ∈ l, b.selfParent = none → b.index = 0)
    (index_next : ∀ b ∈ l, ∀ p ∈ l, b.selfParent = some (p.hex S) → b.index = p.index + 1)
    (noFork : ∀ b ∈ l, ∀ b' ∈ l, b.creator = b'.creator → b.selfParent = b'.selfParent → b = b') :
    Universe S where
  bodies := { b | b ∈ l }
  indexed := ⟨collisionFree, index_first, index_next⟩
  noFork := noFork

end Universe

end Babble
