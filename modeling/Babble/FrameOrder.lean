import Babble.Frames
import Babble.Sample

/-!
# The order of frame events

Frame events are sorted by Lamport timestamp, and ties are broken by the `R` values of the
signatures. This is a total order on a set of events, with a single sorted list, if and only
if no two of them agree in both (`total_iff`).

`R` is determined by the nonce that the signer picks. A creator that signs two events with
one nonce, or two creators that share one, give them the same `R` (`nonce_reused`).
-/

set_option linter.unusedSectionVars false

namespace Babble

variable {H K : Type} [DecidableEq H] [DecidableEq K] [Hex H] [Hex K]

namespace FrameEvent

theorem less_irrefl (a : FrameEvent H K) : a.less a = false := by
  rw [Bool.eq_false_iff, ne_eq, less_iff]
  omega

theorem less_trans {a b c : FrameEvent H K} (h : a.less b = true) (h' : b.less c = true) :
    a.less c = true := by
  rw [less_iff] at *
  omega

/-- Events with one key are left incomparable. -/
theorem not_less_of_key_eq {a b : FrameEvent H K} (h : a.key = b.key) : a.less b = false := by
  simp only [key, Prod.mk.injEq] at h
  rw [Bool.eq_false_iff, ne_eq, less_iff]
  omega

/-- A list in the order that `SortedFrameEvents` asks for. -/
def Sorted (l : List (FrameEvent H K)) : Prop :=
  l.Pairwise fun a b => b.less a = false

/-- On the events of a list, `Less` is a strict total order and all sorted permutations of
the list are the same, if and only if no two of the events have the same Lamport timestamp
and the same `R`. -/
theorem total_iff (l : List (FrameEvent H K)) :
    (IsStrictTotalOrder { a // a ∈ l } (fun a b => a.1.less b.1 = true) ∧
      ∀ l₁ l₂ : List (FrameEvent H K), l₁.Perm l → l₂.Perm l → Sorted l₁ → Sorted l₂ → l₁ = l₂) ↔
    ∀ a ∈ l, ∀ b ∈ l, a.key = b.key → a = b := by
  constructor
  · rintro ⟨horder, -⟩ a ha b hb hkey
    have htri := horder.trichotomous ⟨a, ha⟩ ⟨b, hb⟩
    simpa [not_less_of_key_eq hkey, not_less_of_key_eq hkey.symm] using htri
  · intro hkeys
    refine ⟨{ trichotomous := fun a b hab hba => ?_, irrefl := fun a => ?_, trans := fun a b c => ?_ },
      fun l₁ l₂ hp₁ hp₂ h₁ h₂ => ?_⟩
    · exact Subtype.ext (hkeys _ a.2 _ b.2
        (key_eq_of_not_less (Bool.eq_false_iff.2 hab) (Bool.eq_false_iff.2 hba)))
    · simp [less_irrefl]
    · exact less_trans
    · refine List.Perm.eq_of_pairwise (fun a b ha hb hab hba => ?_) h₁ h₂ (hp₁.trans hp₂.symm)
      exact hkeys a (hp₁.mem_iff.1 ha) b (hp₂.mem_iff.1 hb) (key_eq_of_not_less hba hab)

end FrameEvent

namespace Sample

/-- ECDSA over a group of seven elements, with 1 for the generator and for a signature `(r, s)`
of `z` under the public key `q` the equation `r = s⁻¹ (z + r q)`. -/
def smallScheme : Scheme Bytes Bytes :=
  { scheme with
    ecdsaVerify := fun pub digest r s =>
      match pub, digest with
      | [q], [z] => 0 < r && 0 < s && r < 7 && s < 7 && (r * s - z.toNat - r * q.toNat) % 7 == 0
      | _, _ => false }

/-- Two events, by the creators 1 and 2, signed with the nonce 3 : `R` is 3 and `S` is a third
of `z + 3 q`. -/
def reused : List (FrameEvent Bytes Bytes) :=
  [ ⟨{ event 2 1 0 none none [] with signature := "3|4" }, 0, 0, true⟩,
    ⟨{ event 3 2 0 none none [] with signature := "3|3" }, 0, 0, true⟩ ]

/-- The two events have different hashes and valid signatures, but neither precedes the other,
so that both orders of them are sorted. -/
theorem nonce_reused :
    (reused.Pairwise fun a b => a.core.hex smallScheme ≠ b.core.hex smallScheme) ∧
    (∀ a ∈ reused, a.core.verify smallScheme = .ok true) ∧
    (∀ a ∈ reused, ∀ b ∈ reused, a.less b = false) ∧
    FrameEvent.Sorted reused ∧ FrameEvent.Sorted reused.reverse ∧ reused ≠ reused.reverse := by
  unfold FrameEvent.Sorted
  decide +kernel

end Sample

end Babble
