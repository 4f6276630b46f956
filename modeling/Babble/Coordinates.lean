import Babble.Listing
import Babble.Universe

/-!
# What the coordinates of events mean

Every stored event keeps, by participant, its last ancestor and its first descendant.
`Lineage` ties the last ancestors to an event graph : they are the latest events on the
participants' chains that the event descends from. `Coordinates` does the same for the
first descendants : they are those of `EventGraph.FirstDesc`, where the walk that enters
them stops at witnesses.

After a reset the store holds only a part of the ancestors. The window `T` is a set of
events, closed under descendants, for which nothing is missing; what is said about an
event is said for ancestors in the window. From `init` on, all events are in it.

The insertion of an event keeps the coordinates (`Coordinates.mark`), whatever the order in
which the ancestors are marked.
-/

set_option linter.unusedSectionVars false

namespace Babble

variable {H K : Type} [DecidableEq H] [DecidableEq K] [Hex H] [Hex K]

/-- The event stored under `x` is the event `x` of the graph. -/
structure Depicts (G : EventGraph H K) (x : H) (e : SignedEvent H K) : Prop where
  mem : G.Mem x
  creator : e.creator = G.creator x
  index : e.body.index = G.index x
  selfParent : e.body.selfParent = G.selfParent x
  otherParent : e.body.otherParent = G.otherParent x

/-- Coordinates of an event of `k`. -/
structure Locates (G : EventGraph H K) (k : K) (c : EventCoordinates H) : Prop where
  creator : G.creator c.hash = k
  index : G.index c.hash = c.index

/-- A window is closed under descendants. -/
def UpClosed (G : EventGraph H K) (T : H → Prop) : Prop :=
  ∀ {x y}, G.Anc x y → T y → T x

/-- The stored events are events of the graph, and their last ancestors are those of the
graph, for ancestors in the window. -/
structure Lineage (G : EventGraph H K) (T : H → Prop) (ec : Map H (Event H K)) : Prop where
  event : ∀ {x e}, ec.lookup x = some e → Depicts G x e.toSignedEvent
  closed : ∀ {x p}, x ∈ ec → G.Parent p x → T p → p ∈ ec
  lastSound : ∀ {x e k c}, ec.lookup x = some e → e.lastAncestors.lookup k = some c →
    Locates G k c ∧ G.Anc x c.hash
  lastComplete : ∀ {x e y}, ec.lookup x = some e → T y → G.Anc x y →
    ∃ c, e.lastAncestors.lookup (G.creator y) = some c ∧ G.index y ≤ c.index

/-- The coordinates of the stored events are those of the graph, for ancestors in the
window. -/
structure Coordinates (G : EventGraph H K) (stop T : H → Prop) (ec : Map H (Event H K)) : Prop
    extends Lineage G T ec where
  first : ∀ {y e k c}, ec.lookup y = some e → T y →
    (e.firstDescendants.lookup k = some c ↔
      c.hash ∈ ec ∧ Locates G k c ∧ G.FirstDesc stop y c.hash)

/-! ## Marking along a chain -/

namespace Hashgraph

variable {G : EventGraph H K} {wit : H → Bool} {k : K} {c : EventCoordinates H}
  {ec : Map H (Event H K)} {a y : H}

theorem EventsMarked.depicts {ec ec' : Map H (Event H K)} (h : EventsMarked ec ec')
    (hfit : ∀ {x e}, ec.lookup x = some e → Depicts G x e.toSignedEvent) {x : H}
    {e' : Event H K} (he' : ec'.lookup x = some e') : Depicts G x e'.toSignedEvent := by
  obtain ⟨e, he, hm⟩ := h.lookup_back he'
  have hd := hfit he
  rw [hm.eq]
  exact hd

/-- The events above `y` on its chain, up to `a`. -/
def Between (G : EventGraph H K) (y a z : H) : Prop :=
  G.Mem z ∧ G.creator z = G.creator y ∧ G.index y < G.index z ∧ G.index z ≤ G.index a

/-- The walk from `a` enters the descendant in `y`, if it meets no witness and no event
that is marked already. -/
theorem exists_lookup_markFrom
    (hfit : ∀ {x e}, ec.lookup x = some e → Depicts G x e.toSignedEvent)
    (ha : G.Mem a) {ey : Event H K} (hy : ec.lookup y = some ey)
    (hey : ey.firstDescendants.lookup k = none) (hc : G.creator a = G.creator y)
    (hle : G.index y ≤ G.index a)
    (hclear : ∀ z, Between G y a z → wit z = false ∧
      ∃ ez, ec.lookup z = some ez ∧ ez.firstDescendants.lookup k = none)
    {fuel : ℕ} (hfuel : (G.index a - G.index y).toNat < fuel) :
    ∃ e', (markFrom wit k c fuel (some a) ec).lookup y = some e' ∧
      e'.firstDescendants.lookup k = some c := by
  have hym : G.Mem y := (hfit hy).mem
  induction fuel generalizing a ec with
  | zero => omega
  | succ fuel ih =>
    rcases hle.lt_or_eq with hlt | heq
    · -- above `y` : mark `a` and go on to its self-parent
      obtain ⟨hw, ea, hea, hf⟩ := hclear a ⟨ha, hc, hlt, le_rfl⟩
      obtain ⟨p, hs, hcp, hip, -⟩ := EventGraph.anc_selfParent_of_index_lt ha hym hc hlt
      have hsp : ea.body.selfParent = some p := (hfit hea).selfParent.trans hs
      rw [markFrom_of_lookup fuel hea hf, if_neg (by simp [hw]), hsp]
      have hother : ∀ z, G.index z ≤ G.index p →
          (ec.insert a (addFirstDescendant k c ea)).lookup z = ec.lookup z := by
        intro z hz
        refine AList.lookup_insert_ne ?_
        rintro rfl
        omega
      refine ih (fun hx => (eventsMarked_insert hea hf).depicts hfit hx) (G.selfParent_mem hs).2 ?_
        hcp (by omega) (fun z hz => ?_) (by omega)
      · rw [hother y (by omega), hy]
      · obtain ⟨hzm, hzc, hz1, hz2⟩ := hz
        rw [hother z hz2]
        exact hclear z ⟨hzm, hzc, hz1, by omega⟩
    · obtain rfl : a = y := G.unique ha hym hc heq.symm
      have hmark : (ec.insert a (addFirstDescendant k c ey)).lookup a =
          some (addFirstDescendant k c ey) := AList.lookup_insert _
      have hk : (addFirstDescendant k c ey).firstDescendants.lookup k = some c :=
        AList.lookup_insert _
      rw [markFrom_of_lookup fuel hy hey]
      split_ifs
      · exact ⟨_, hmark, hk⟩
      · -- the rest of the walk keeps what is marked
        obtain ⟨e', he', hm⟩ := (eventsMarked_markFrom fuel ey.body.selfParent _).lookup hmark
        exact ⟨e', he', hm.keeps k c hk⟩

/-- A walk from `a` down the chain comes to `y` : it meets no witness before, and no event
that has a descendant by `k`. -/
structure Passes (G : EventGraph H K) (wit : H → Bool) (k : K) (ec : Map H (Event H K))
    (a y : H) : Prop where
  creator : G.creator y = G.creator a
  index_le : G.index y ≤ G.index a
  clear : ∀ z, Between G y a z → wit z = false
  unmarked : ∀ z, G.Mem z → G.creator z = G.creator y → G.index y ≤ G.index z →
    G.index z ≤ G.index a → Unmarked k ec z

/-- What the walk from `a` enters is the descendant, in an event that it comes to. -/
theorem of_lookup_markFrom
    (hfit : ∀ {x e}, ec.lookup x = some e → Depicts G x e.toSignedEvent) {fuel : ℕ}
    {e e' : Event H K} (hy : ec.lookup y = some e)
    (hy' : (markFrom wit k c fuel (some a) ec).lookup y = some e') {k' : K}
    {c' : EventCoordinates H} (hk' : e'.firstDescendants.lookup k' = some c') :
    e.firstDescendants.lookup k' = some c' ∨ k' = k ∧ c' = c ∧ Passes G wit k ec a y := by
  induction fuel generalizing a ec e with
  | zero =>
    obtain rfl := Option.some.inj (hy.symm.trans hy')
    exact Or.inl hk'
  | succ fuel ih =>
    by_cases hstop : ∀ ea, ec.lookup a = some ea → ∃ c, ea.firstDescendants.lookup k = some c
    · rw [markFrom_of_stop _ hstop] at hy'
      obtain rfl := Option.some.inj (hy.symm.trans hy')
      exact Or.inl hk'
    push Not at hstop
    obtain ⟨ea, hea, hf⟩ := hstop
    have hf : ea.firstDescendants.lookup k = none := Option.eq_none_iff_forall_ne_some.2 hf
    have ham := (hfit hea).mem
    have hua : Unmarked k ec a := fun ea' h => Option.some.inj (hea.symm.trans h) ▸ hf
    rw [markFrom_of_lookup fuel hea hf] at hy'
    -- the event `y` after `a` is marked
    obtain ⟨e₁, he₁, hold⟩ : ∃ e₁, (ec.insert a (addFirstDescendant k c ea)).lookup y = some e₁ ∧
        ∀ k' c', e₁.firstDescendants.lookup k' = some c' →
          e.firstDescendants.lookup k' = some c' ∨ k' = k ∧ c' = c ∧ y = a := by
      rw [Map.lookup_insert_ite]
      split_ifs with hya
      · subst hya
        obtain rfl := Option.some.inj (hy.symm.trans hea)
        refine ⟨_, rfl, fun k' c' h => ?_⟩
        rw [addFirstDescendant, Map.lookup_insert_ite] at h
        split_ifs at h with hkk
        · exact Or.inr ⟨hkk, (Option.some.inj h).symm, rfl⟩
        · exact Or.inl h
      · exact ⟨e, hy, fun k' c' h => Or.inl h⟩
    have hown : ∀ {k' c'}, e₁.firstDescendants.lookup k' = some c' →
        e.firstDescendants.lookup k' = some c' ∨ k' = k ∧ c' = c ∧ Passes G wit k ec a y := by
      intro k' c' h
      rcases hold k' c' h with h | ⟨rfl, rfl, rfl⟩
      · exact Or.inl h
      · refine Or.inr ⟨rfl, rfl, rfl, le_rfl, fun z hz => ?_, fun z hzm hzc h1 h2 => ?_⟩
        · have := hz.2.2
          omega
        · rw [G.unique hzm ham hzc (le_antisymm h2 h1)]
          exact hua
    split_ifs at hy' with hw
    · obtain rfl := Option.some.inj (he₁.symm.trans hy')
      exact hown hk'
    cases hs : G.selfParent a with
    | none =>
      rw [(hfit hea).selfParent, hs, markFrom_none] at hy'
      obtain rfl := Option.some.inj (he₁.symm.trans hy')
      exact hown hk'
    | some p =>
      rw [(hfit hea).selfParent, hs] at hy'
      have hip := G.index_next hs
      have hcp := G.creator_selfParent hs
      have hmark : EventsMarked ec (ec.insert a (addFirstDescendant k c ea)) :=
        eventsMarked_insert hea hf
      rcases ih (fun hx => hmark.depicts hfit hx) he₁ hy' with h | ⟨rfl, rfl, hc, hi, hclear, hun⟩
      · exact hown h
      · refine Or.inr ⟨rfl, rfl, hc.trans hcp, by omega, fun z hz => ?_, fun z hzm hzc h1 h2 => ?_⟩
        · obtain ⟨hzm, hzc, hz1, hz2⟩ := hz
          rcases hz2.lt_or_eq with hlt | heq
          · exact hclear z ⟨hzm, hzc, hz1, by omega⟩
          · rw [G.unique hzm ham (by rw [hzc, hc, hcp]) heq]
            simpa using hw
        · rcases h2.lt_or_eq with hlt | heq
          · exact (hun z hzm hzc h1 (by omega)).of_marked hmark
          · rw [G.unique hzm ham (by rw [hzc, hc, hcp]) heq]
            exact hua

/-- The walk from `a` leaves the events of other creators alone. -/
theorem lookup_markFrom_of_ne
    (hfit : ∀ {x e}, ec.lookup x = some e → Depicts G x e.toSignedEvent) {z : H}
    (hz : G.creator z ≠ G.creator a) (fuel : ℕ) :
    (markFrom wit k c fuel (some a) ec).lookup z = ec.lookup z := by
  induction fuel generalizing a ec with
  | zero => rfl
  | succ fuel ih =>
    by_cases hstop : ∀ ea, ec.lookup a = some ea → ∃ c, ea.firstDescendants.lookup k = some c
    · rw [markFrom_of_stop _ hstop]
    push Not at hstop
    obtain ⟨ea, hea, hf⟩ := hstop
    have hf : ea.firstDescendants.lookup k = none := Option.eq_none_iff_forall_ne_some.2 hf
    have hins : (ec.insert a (addFirstDescendant k c ea)).lookup z = ec.lookup z :=
      AList.lookup_insert_ne fun hza => hz (hza ▸ rfl)
    rw [markFrom_of_lookup fuel hea hf, (hfit hea).selfParent]
    split_ifs
    · exact hins
    · cases hs : G.selfParent a with
      | none => rw [markFrom_none, hins]
      | some p =>
        rw [ih (fun hx => (eventsMarked_insert hea hf).depicts hfit hx), hins]
        rw [G.creator_selfParent hs]
        exact hz

/-- The walks from one ancestor by each creator enter the descendant in `y`, if the one on
the chain of `y` does. -/
theorem exists_lookup_markAll
    (hfit : ∀ {x e}, ec.lookup x = some e → Depicts G x e.toSignedEvent)
    {l : List (K × EventCoordinates H)} (hnd : (l.map Prod.fst).Nodup)
    (hl : ∀ d ∈ l, Locates G d.1 d.2 ∧ G.Mem d.2.hash) {d : EventCoordinates H}
    (hd : (G.creator y, d) ∈ l) {ey : Event H K} (hy : ec.lookup y = some ey)
    (hey : ey.firstDescendants.lookup k = none) (hle : G.index y ≤ d.index)
    (hclear : ∀ z, Between G y d.hash z → wit z = false ∧
      ∃ ez, ec.lookup z = some ez ∧ ez.firstDescendants.lookup k = none)
    {fuel : ℕ} (hfuel : (d.index - G.index y).toNat < fuel) :
    ∃ e', (markAll wit k c fuel l ec).lookup y = some e' ∧
      e'.firstDescendants.lookup k = some c := by
  induction l generalizing ec ey with
  | nil => cases hd
  | cons d₀ l ih =>
    rw [markAll, List.foldl_cons]
    rw [List.map_cons, List.nodup_cons] at hnd
    rcases List.mem_cons.1 hd with rfl | hd
    · obtain ⟨hloc, hmem⟩ := hl _ List.mem_cons_self
      simp only at hloc hmem
      obtain ⟨e', he', hk⟩ := exists_lookup_markFrom hfit hmem hy hey hloc.creator
        (by rw [hloc.index]; exact hle) hclear (by rw [hloc.index]; exact hfuel)
      obtain ⟨e'', he'', hm⟩ := (eventsMarked_markAll fuel l _).lookup he'
      exact ⟨e'', he'', hm.keeps k c hk⟩
    · obtain ⟨hloc, -⟩ := hl _ List.mem_cons_self
      have hne : G.creator y ≠ d₀.1 := fun h => hnd.1 (h ▸ List.mem_map_of_mem hd)
      have hsame : ∀ z, G.creator z = G.creator y →
          (markFrom wit k c fuel (some d₀.2.hash) ec).lookup z = ec.lookup z := fun z hz =>
        lookup_markFrom_of_ne hfit (by rw [hz, hloc.creator]; exact hne) fuel
      refine ih (fun hx => (eventsMarked_markFrom fuel _ ec).depicts hfit hx) hnd.2
        (fun d' hd' => hl d' (List.mem_cons_of_mem _ hd')) hd ((hsame y rfl).trans hy) hey
        fun z hz => ?_
      rw [hsame z hz.2.1]
      exact hclear z hz

/-- What the walks enter is the descendant, in events that the walk from the ancestor on their
chain comes to. -/
theorem of_lookup_markAll
    (hfit : ∀ {x e}, ec.lookup x = some e → Depicts G x e.toSignedEvent) {fuel : ℕ}
    {l : List (K × EventCoordinates H)} (hl : ∀ d ∈ l, Locates G d.1 d.2) {e e' : Event H K}
    (hy : ec.lookup y = some e) (hy' : (markAll wit k c fuel l ec).lookup y = some e') {k' : K}
    {c' : EventCoordinates H} (hk' : e'.firstDescendants.lookup k' = some c') :
    e.firstDescendants.lookup k' = some c' ∨ k' = k ∧ c' = c ∧
      ∃ d, (G.creator y, d) ∈ l ∧ Passes G wit k ec d.hash y := by
  induction l generalizing ec e with
  | nil =>
    obtain rfl := Option.some.inj (hy.symm.trans hy')
    exact Or.inl hk'
  | cons d₀ l ih =>
    rw [markAll, List.foldl_cons] at hy'
    have hmark : EventsMarked ec (markFrom wit k c fuel (some d₀.2.hash) ec) :=
      eventsMarked_markFrom _ _ _
    obtain ⟨e₁, he₁, -⟩ := hmark.lookup hy
    rcases ih (fun hx => hmark.depicts hfit hx) (fun d hd => hl d (List.mem_cons_of_mem _ hd)) he₁
      hy' with h | ⟨rfl, rfl, d, hd, hpass⟩
    · rcases of_lookup_markFrom hfit hy he₁ h with h | ⟨rfl, rfl, hpass⟩
      · exact Or.inl h
      · refine Or.inr ⟨rfl, rfl, d₀.2, ?_, hpass⟩
        rw [hpass.creator, (hl d₀ List.mem_cons_self).creator]
        exact List.mem_cons_self
    · exact Or.inr ⟨rfl, rfl, d, List.mem_cons_of_mem _ hd, { hpass with
        unmarked := fun z hzm hzc h1 h2 => (hpass.unmarked z hzm hzc h1 h2).of_marked hmark }⟩

/-- A stretch of a chain that is stored is not longer than the store. -/
theorem index_sub_lt_length (hy : G.Mem y) (n : ℕ) : ∀ {a : H}, G.Mem a →
    G.creator a = G.creator y → G.index a = G.index y + n →
    (∀ z, G.Mem z → G.creator z = G.creator y → G.index y ≤ G.index z → G.index z ≤ G.index a →
      z ∈ ec) → n < ec.keys.length := by
  -- the stretch as a list, down from `a`
  suffices hlist : ∀ {a : H}, G.Mem a → G.creator a = G.creator y → G.index a = G.index y + n →
      ∃ l : List H, l.Nodup ∧ l.length = n + 1 ∧ ∀ z ∈ l, G.Mem z ∧ G.creator z = G.creator y ∧
        G.index y ≤ G.index z ∧ G.index z ≤ G.index a by
    intro a ha hc hi hst
    obtain ⟨l, hnd, hlen, hl⟩ := hlist ha hc hi
    have hsub : l ⊆ ec.keys := fun z hz => by
      obtain ⟨h1, h2, h3, h4⟩ := hl z hz
      exact AList.mem_keys.1 (hst z h1 h2 h3 h4)
    have := (hnd.subperm hsub).length_le
    omega
  induction n with
  | zero =>
    intro a ha hc hi
    refine ⟨[a], List.nodup_singleton a, rfl, fun z hz => ?_⟩
    rw [List.mem_singleton.1 hz]
    exact ⟨ha, hc, by omega, le_rfl⟩
  | succ n ih =>
    intro a ha hc hi
    push_cast at hi
    obtain ⟨p, hs, hcp, hip, -⟩ := EventGraph.anc_selfParent_of_index_lt ha hy hc (by omega)
    obtain ⟨l, hnd, hlen, hl⟩ := ih (G.selfParent_mem hs).2 hcp (by omega)
    refine ⟨a :: l, List.nodup_cons.2 ⟨fun hal => ?_, hnd⟩, by simp [hlen], fun z hz => ?_⟩
    · have := (hl a hal).2.2.2
      omega
    · rcases List.mem_cons.1 hz with rfl | hz
      · exact ⟨ha, hc, by omega, le_rfl⟩
      · obtain ⟨h1, h2, h3, h4⟩ := hl z hz
        exact ⟨h1, h2, h3, by omega⟩

/-! ## Last ancestors -/

/-- The later one of two coordinates on a chain, the first if there is a tie. -/
def later : Option (EventCoordinates H) → Option (EventCoordinates H) →
    Option (EventCoordinates H)
  | some s, some o => if s.index < o.index then some o else some s
  | none, o => o
  | some s, none => some s

theorem lookup_mergeAncestor (m : CoordinatesMap H K) (d : K × EventCoordinates H) (k : K) :
    (mergeAncestor m d).lookup k =
      if k = d.1 then later (m.lookup k) (some d.2) else m.lookup k := by
  unfold mergeAncestor
  split_ifs with hk
  · subst hk
    cases hm : m.lookup d.1 with
    | none => exact AList.lookup_insert _
    | some s =>
      simp only [later]
      split_ifs
      · exact AList.lookup_insert _
      · exact hm
  · cases m.lookup d.1 with
    | none => exact AList.lookup_insert_ne hk
    | some s =>
      simp only
      split_ifs
      · exact AList.lookup_insert_ne hk
      · rfl

theorem lookup_foldl_mergeAncestor (m m' : CoordinatesMap H K) (k : K) :
    (m'.toPairs.foldl mergeAncestor m).lookup k = later (m.lookup k) (m'.lookup k) := by
  -- along the list, where every creator occurs once
  have hlist : ∀ (l : List (K × EventCoordinates H)) (m : CoordinatesMap H K),
      (l.map Prod.fst).Nodup →
      (∀ d, (k, d) ∈ l → (l.foldl mergeAncestor m).lookup k = later (m.lookup k) (some d)) ∧
      (k ∉ l.map Prod.fst → (l.foldl mergeAncestor m).lookup k = m.lookup k) := by
    intro l
    induction l with
    | nil => exact fun m _ => ⟨fun d hd => (by cases hd), fun _ => rfl⟩
    | cons d₀ l ih =>
      intro m hnd
      rw [List.map_cons, List.nodup_cons] at hnd
      obtain ⟨hin, hout⟩ := ih (mergeAncestor m d₀) hnd.2
      rw [List.foldl_cons]
      refine ⟨fun d hd => ?_, fun hk => ?_⟩
      · rcases List.mem_cons.1 hd with rfl | hd
        · rw [hout hnd.1, lookup_mergeAncestor, if_pos rfl]
        · have hne : k ≠ d₀.1 := fun h => hnd.1 (h ▸ List.mem_map_of_mem hd)
          rw [hin d hd, lookup_mergeAncestor, if_neg hne]
      · rw [List.map_cons, List.mem_cons, not_or] at hk
        rw [hout hk.2, lookup_mergeAncestor, if_neg hk.1]
  obtain ⟨hin, hout⟩ := hlist m'.toPairs m (by rw [Map.map_fst_toPairs]; exact m'.keys_nodup)
  cases hl : m'.lookup k with
  | some d => exact hin d (Map.mem_toPairs.2 hl)
  | none =>
    rw [hout]
    · cases m.lookup k <;> rfl
    · rw [Map.map_fst_toPairs]
      exact fun h => AList.lookup_eq_none.1 hl (AList.mem_keys.2 h)

theorem later_eq_some {s o : Option (EventCoordinates H)} {d : EventCoordinates H}
    (h : later s o = some d) : s = some d ∨ o = some d := by
  unfold later at h
  split at h
  · split_ifs at h
    exacts [Or.inr h, Or.inl h]
  · exact Or.inr h
  · exact Or.inl h

theorem exists_later {s o : Option (EventCoordinates H)} {d : EventCoordinates H}
    (h : s = some d ∨ o = some d) : ∃ d', later s o = some d' ∧ d.index ≤ d'.index := by
  unfold later
  rcases h with rfl | rfl
  · cases o with
    | none => exact ⟨d, rfl, le_rfl⟩
    | some d' =>
      simp only
      split_ifs with hlt
      exacts [⟨d', rfl, hlt.le⟩, ⟨d, rfl, le_rfl⟩]
  · cases s with
    | none => exact ⟨d, rfl, le_rfl⟩
    | some d' =>
      simp only
      split_ifs with hlt
      exacts [⟨d, rfl, le_rfl⟩, ⟨d', rfl, not_lt.1 hlt⟩]

/-- The last ancestors that come from one parent. -/
def lastAncestorsOf (st : InmemStore H K) (p : Option H) (k : K) : Option (EventCoordinates H) :=
  (p.bind st.eventCache.lookup).bind fun e => e.lastAncestors.lookup k

theorem lookup_parentsLastAncestors (st : InmemStore H K) (event : SignedEvent H K) (k : K) :
    (parentsLastAncestors st event).lookup k =
      later (lastAncestorsOf st event.body.selfParent k)
        (lastAncestorsOf st event.body.otherParent k) := by
  have hparent : ∀ p : Option H, (∃ e, p.bind st.eventCache.lookup = some e ∧
      st.getParent p = .ok e) ∨ p.bind st.eventCache.lookup = none ∧
        ∃ err, st.getParent p = .error err := by
    intro p
    cases p with
    | none => exact Or.inr ⟨rfl, _, rfl⟩
    | some p =>
      simp only [InmemStore.getParent, InmemStore.getEvent, Option.bind_some]
      cases st.eventCache.lookup p with
      | none => exact Or.inr ⟨rfl, _, rfl⟩
      | some e => exact Or.inl ⟨e, rfl, rfl⟩
  unfold parentsLastAncestors lastAncestorsOf
  rcases hparent event.body.selfParent with ⟨es, hs, hgs⟩ | ⟨hs, errs, hgs⟩ <;>
    rcases hparent event.body.otherParent with ⟨eo, ho, hgo⟩ | ⟨ho, erro, hgo⟩ <;>
    simp only [hs, ho, hgs, hgo, Option.bind_some, Option.bind_none]
  · exact lookup_foldl_mergeAncestor _ _ k
  · cases es.lastAncestors.lookup k <;> rfl
  · rfl
  · rfl

end Hashgraph

namespace Lineage

variable {G : EventGraph H K} {T : H → Prop} {ec : Map H (Event H K)} {x y : H}

open Hashgraph

/-- The window of a stored event's ancestors is stored. -/
theorem mem_of_anc (hl : Lineage G T ec) (hT : UpClosed G T) (hx : x ∈ ec)
    (h : G.Anc x y) (hy : T y) : y ∈ ec := by
  induction h with
  | refl => exact hx
  | tail hyp hp ih => exact ih (hl.closed hx hp (hT hyp hy))

theorem mem_of_sAnc (hl : Lineage G T ec) (hT : UpClosed G T)
    (hpar : ∀ p, G.Parent p x → T p → p ∈ ec) (h : G.SAnc x y) (hy : T y) : y ∈ ec := by
  obtain ⟨p, hyp, hp⟩ := Relation.TransGen.tail'_iff.1 h
  exact hl.mem_of_anc hT (hpar p hp (hT hyp hy)) hyp hy

/-- The last ancestors of a new event : the event itself, and the later ones of its
parents. -/
theorem lastAncestors (hl : Lineage G T ec) (hT : UpClosed G T) {st : InmemStore H K}
    (hst : st.eventCache = ec) {event : SignedEvent H K} (hev : Depicts G x event)
    (hpar : ∀ p, G.Parent p x → T p → p ∈ ec) {m : CoordinatesMap H K}
    (hm : m = (parentsLastAncestors st event).insert event.creator ⟨x, event.body.index⟩) :
    (∀ k d, m.lookup k = some d → Locates G k d ∧ G.Anc x d.hash) ∧
      ∀ y, T y → G.Anc x y → ∃ d, m.lookup (G.creator y) = some d ∧ G.index y ≤ d.index := by
  subst hst
  have hlook : ∀ k, m.lookup k = if k = G.creator x then some ⟨x, G.index x⟩ else
      later (lastAncestorsOf st (G.selfParent x) k) (lastAncestorsOf st (G.otherParent x) k) := by
    intro k
    rw [hm, Map.lookup_insert_ite, hev.creator, hev.index, lookup_parentsLastAncestors,
      hev.selfParent, hev.otherParent]
  -- an entry taken over from a parent
  have hfrom : ∀ {p k d}, lastAncestorsOf st p k = some d → (∃ q, p = some q ∧ G.Parent q x) ∨
      p = none → Locates G k d ∧ G.Anc x d.hash := by
    intro p k d hd hp
    rcases hp with ⟨q, rfl, hq⟩ | rfl
    · obtain ⟨e, he, hk⟩ := Option.bind_eq_some_iff.1 hd
      obtain ⟨hloc, hanc⟩ := hl.lastSound he hk
      exact ⟨hloc, hq.anc.trans hanc⟩
    · cases hd
  have hself : (∃ q, G.selfParent x = some q ∧ G.Parent q x) ∨ G.selfParent x = none := by
    cases hs : G.selfParent x with
    | none => exact Or.inr rfl
    | some q => exact Or.inl ⟨q, rfl, Or.inl hs⟩
  have hother : (∃ q, G.otherParent x = some q ∧ G.Parent q x) ∨ G.otherParent x = none := by
    cases hs : G.otherParent x with
    | none => exact Or.inr rfl
    | some q => exact Or.inl ⟨q, rfl, Or.inr hs⟩
  refine ⟨fun k d hd => ?_, fun y hy hxy => ?_⟩
  · rw [hlook] at hd
    split_ifs at hd with hk
    · obtain rfl := Option.some.inj hd
      exact ⟨⟨hk.symm, rfl⟩, EventGraph.Anc.refl x⟩
    · rcases later_eq_some hd with hd | hd
      exacts [hfrom hd hself, hfrom hd hother]
  · rw [hlook]
    split_ifs with hk
    · exact ⟨_, rfl, hxy.index_le hev.mem hk.symm⟩
    · obtain ⟨p, hp, hpy⟩ := (EventGraph.anc_iff.1 hxy).resolve_left
        fun h => hk (congrArg G.creator h)
      obtain ⟨e, he⟩ := Map.mem_iff_lookup.1 (hpar p hp (hT hpy hy))
      obtain ⟨d, hd, hle⟩ := hl.lastComplete he hy hpy
      have hof : ∀ q, q = some p → lastAncestorsOf st q (G.creator y) = some d := by
        rintro q rfl
        exact Option.bind_eq_some_iff.2 ⟨e, he, hd⟩
      obtain ⟨d', hd', hle'⟩ := exists_later (hp.imp (hof _) (hof _))
      exact ⟨d', hd', hle.trans hle'⟩

/-- A new event with its last ancestors. -/
structure Arrives (G : EventGraph H K) (T : H → Prop) (ec : Map H (Event H K)) (x : H)
    (ev : Event H K) : Prop where
  new : x ∉ ec
  event : Depicts G x ev.toSignedEvent
  parents : ∀ p, G.Parent p x → T p → p ∈ ec
  lastSound : ∀ k d, ev.lastAncestors.lookup k = some d → Locates G k d ∧ G.Anc x d.hash
  lastComplete : ∀ y, T y → G.Anc x y →
    ∃ d, ev.lastAncestors.lookup (G.creator y) = some d ∧ G.index y ≤ d.index

theorem lookup_insert_cases {ev e : Event H K} (he : (ec.insert x ev).lookup y = some e) :
    y = x ∧ e = ev ∨ y ≠ x ∧ ec.lookup y = some e := by
  rw [Map.lookup_insert_ite] at he
  split_ifs at he with hy
  · exact Or.inl ⟨hy, (Option.some.inj he).symm⟩
  · exact Or.inr ⟨hy, he⟩

theorem Arrives.depicts {ev : Event H K} (hl : Lineage G T ec) (ha : Arrives G T ec x ev)
    {e : Event H K} (he : (ec.insert x ev).lookup y = some e) : Depicts G y e.toSignedEvent := by
  rcases lookup_insert_cases he with ⟨rfl, rfl⟩ | ⟨-, he⟩
  exacts [ha.event, hl.event he]

/-- The last ancestors of the stored events after a new event. -/
theorem mark {ev : Event H K} (hl : Lineage G T ec) (ha : Arrives G T ec x ev)
    {ec' : Map H (Event H K)} (hmarked : EventsMarked (ec.insert x ev) ec') : Lineage G T ec' := by
  have hmem : ∀ {z}, z ∈ ec' ↔ z = x ∨ z ∈ ec := fun {z} => by
    rw [hmarked.mem_iff, AList.mem_insert]
  refine ⟨fun he => hmarked.depicts (ha.depicts hl) he, fun {z p} hz hp hTp => ?_,
    fun he hk => ?_, fun he hTy hxy => ?_⟩
  · rcases hmem.1 hz with rfl | hz
    exacts [hmem.2 (Or.inr (ha.parents p hp hTp)), hmem.2 (Or.inr (hl.closed hz hp hTp))]
  · obtain ⟨e₀, he₀, hm⟩ := hmarked.lookup_back he
    rw [hm.lastAncestors] at hk
    rcases lookup_insert_cases he₀ with ⟨rfl, rfl⟩ | ⟨-, he₀⟩
    exacts [ha.lastSound _ _ hk, hl.lastSound he₀ hk]
  · obtain ⟨e₀, he₀, hm⟩ := hmarked.lookup_back he
    rw [hm.lastAncestors]
    rcases lookup_insert_cases he₀ with ⟨rfl, rfl⟩ | ⟨-, he₀⟩
    exacts [ha.lastComplete _ hTy hxy, hl.lastComplete he₀ hTy hxy]

/-- The fields of consensus do not matter. -/
theorem of_like {ec' : Map H (Event H K)} (hl : Lineage G T ec) (h : EventsLike ec ec') :
    Lineage G T ec' := by
  have hback : ∀ {x e'}, ec'.lookup x = some e' → ∃ e, ec.lookup x = some e ∧
      e'.toSignedEvent = e.toSignedEvent ∧ e'.lastAncestors = e.lastAncestors := by
    intro x e' he'
    obtain ⟨e, he⟩ := Map.mem_iff_lookup.1 (h.mem_iff.1 (Map.mem_iff_lookup.2 ⟨e', he'⟩))
    obtain ⟨e'', he'', hs⟩ := h.lookup he
    obtain rfl := Option.some.inj (he'.symm.trans he'')
    exact ⟨e, he, hs.signed, hs.lastAncestors⟩
  refine ⟨fun he' => ?_, fun hx hp hT => ?_, fun he' hk => ?_, fun he' hT hxy => ?_⟩
  · obtain ⟨e, he, hs, -⟩ := hback he'
    exact hs ▸ hl.event he
  · exact h.mem_iff.2 (hl.closed (h.mem_iff.1 hx) hp hT)
  · obtain ⟨e, he, -, hla⟩ := hback he'
    exact hl.lastSound he (hla ▸ hk)
  · obtain ⟨e, he, -, hla⟩ := hback he'
    exact hla ▸ hl.lastComplete he hT hxy

/-- What the store sees is ancestry. -/
theorem sees_iff {st : InmemStore H K} (hl : Lineage G T st.eventCache) (hx : x ∈ st.eventCache)
    (hy : y ∈ st.eventCache) (hTy : T y) : st.sees x y = true ↔ G.Anc x y := by
  obtain ⟨ex, hex⟩ := Map.mem_iff_lookup.1 hx
  obtain ⟨ey, hey⟩ := Map.mem_iff_lookup.1 hy
  have hdx := hl.event hex
  have hdy := hl.event hey
  have hsees : st.sees x y = true ↔
      x = y ∨ ∃ c, ex.lastAncestors.lookup (G.creator y) = some c ∧ G.index y ≤ c.index := by
    simp only [InmemStore.sees, hex, hey, Bool.or_eq_true, decide_eq_true_eq]
    rw [hdy.creator, hdy.index]
    cases ex.lastAncestors.lookup (G.creator y) <;> simp
  rw [hsees]
  constructor
  · rintro (rfl | ⟨c, hcy, hle⟩)
    · exact EventGraph.Anc.refl x
    · obtain ⟨hloc, hanc⟩ := hl.lastSound hex hcy
      exact hanc.trans (EventGraph.anc_of_index_le (hanc.mem hdx.mem) hdy.mem hloc.creator
        (by rw [hloc.index]; exact hle))
  · intro h
    exact Or.inr (hl.lastComplete hex hTy h)

end Lineage

namespace Coordinates

variable {G : EventGraph H K} {stop T : H → Prop} {ec : Map H (Event H K)} {x y : H}

open Hashgraph

theorem lookup_first (hc : Coordinates G stop T ec) {e : Event H K} {z : H}
    (hy : ec.lookup y = some e) (hTy : T y) (hz : z ∈ ec) (hfd : G.FirstDesc stop y z) :
    e.firstDescendants.lookup (G.creator z) = some ⟨z, G.index z⟩ :=
  (hc.first hy hTy).2 ⟨hz, ⟨rfl, rfl⟩, hfd⟩

/-- A new event with its own coordinates and its last ancestors. The walks ask `wit` for
the witnesses. -/
structure Arrives (G : EventGraph H K) (stop T : H → Prop) (ec : Map H (Event H K)) (x : H)
    (ev : Event H K) (wit : H → Bool) : Prop extends Lineage.Arrives G T ec x ev where
  first : ∀ k d, ev.firstDescendants.lookup k = some d ↔ k = G.creator x ∧ d = ⟨x, G.index x⟩
  witness : ∀ y, y ∈ ec → T y → (wit y = true ↔ stop y)

section Arrives

variable {ev e : Event H K} {wit : H → Bool} (hc : Coordinates G stop T ec) (hT : UpClosed G T)
  (ha : Arrives G stop T ec x ev wit)

include hc hT ha

theorem Arrives.mem_of_anc (h : G.Anc x y) (hne : y ≠ x) (hy : T y) : y ∈ ec :=
  hc.mem_of_sAnc hT ha.parents (h.sAnc hne) hy

/-- No stored event descends from the new one. -/
theorem Arrives.not_anc (hy : y ∈ ec) (hx : T x) : ¬G.Anc y x :=
  fun h => ha.new (hc.mem_of_anc hT hy h hx)

/-- If the walk from the last ancestor on the chain of `y` reaches `y` and `y` has no first
descendant by the creator of `x` yet, then `x` is the first. -/
theorem Arrives.firstDesc (hy : ec.lookup y = some e) (hTy : T y)
    (he : e.firstDescendants.lookup (G.creator x) = none) {d : EventCoordinates H}
    (hd : ev.lastAncestors.lookup (G.creator y) = some d) (hle : G.index y ≤ d.index)
    (hclear : ∀ z, Between G y d.hash z → wit z = false) : G.FirstDesc stop y x := by
  have hym := (hc.event hy).mem
  have hxm := ha.event.mem
  obtain ⟨hloc, hxd⟩ := ha.lastSound _ _ hd
  have hdm := hxd.mem hxm
  have hxy : G.Anc x y :=
    hxd.trans (EventGraph.anc_of_index_le hdm hym hloc.creator (by rw [hloc.index]; exact hle))
  -- no witness after `y` on its chain is an ancestor of `x`
  have hclean : ∀ w, stop w → G.Mem w → G.creator w = G.creator y → G.index y < G.index w →
      ¬G.Anc x w := by
    intro w hw hwm hwc hi hxw
    have hTw : T w := hT (EventGraph.anc_of_index_le hwm hym hwc hi.le) hTy
    obtain ⟨d', hd', hle'⟩ := ha.lastComplete w hTw hxw
    rw [hwc] at hd'
    obtain rfl := Option.some.inj (hd.symm.trans hd')
    have hwf := hclear w ⟨hwm, hwc, hi, hle'.trans hloc.index.ge⟩
    by_cases hwx : w = x
    · -- then `y` is on the chain of `x`, and is its own first descendant by that creator
      rw [← hwx, hwc, hc.lookup_first hy hTy (Map.mem_iff_lookup.2 ⟨e, hy⟩)
        (EventGraph.firstDesc_self hym)] at he
      cases he
    · rw [(ha.witness w (ha.mem_of_anc hc hT hxw hwx hTw) hTw).2 hw] at hwf
      cases hwf
  refine ⟨hxy, fun z hzm hzc hzy => ?_, hclean⟩
  by_contra hlt
  -- otherwise the first event of the creator below `x` would have been entered in `y`
  obtain ⟨z₀, hm₀, hc₀, hz₀, hy₀, hfirst⟩ := EventGraph.exists_first hzm hzy
  have hxz₀ : G.Anc x z₀ :=
    (EventGraph.anc_of_index_le hxm hzm hzc.symm (by omega)).trans hz₀
  have hne : z₀ ≠ x := by
    rintro rfl
    have := hfirst z hzm rfl hzy
    omega
  have hmem₀ := ha.mem_of_anc hc hT hxz₀ hne (hT hy₀ hTy)
  have hfd : G.FirstDesc stop y z₀ := ⟨hy₀, fun z' h1 h2 => hfirst z' h1 (h2.trans hc₀),
    fun w hw hwm hwc hi h => hclean w hw hwm hwc hi (hxz₀.trans h)⟩
  rw [← hc₀.trans hzc, hc.lookup_first hy hTy hmem₀ hfd] at he
  cases he

/-- If `x` is the first descendant of `y` by its creator, the walk from the last ancestor on
the chain of `y` meets nothing before `y` that stops it. -/
theorem Arrives.walk (hy : ec.lookup y = some e) (hTy : T y) (hfd : G.FirstDesc stop y x) :
    e.firstDescendants.lookup (G.creator x) = none ∧
      ∃ d, ev.lastAncestors.lookup (G.creator y) = some d ∧ G.index y ≤ d.index ∧
        ∀ z, Between G y d.hash z → wit z = false ∧
          ∃ ez, ec.lookup z = some ez ∧ ez.firstDescendants.lookup (G.creator x) = none := by
  have hymem : y ∈ ec := Map.mem_iff_lookup.2 ⟨e, hy⟩
  have hym := (hc.event hy).mem
  have hTx : T x := hT hfd.anc hTy
  -- a marked event of the chain has a first descendant that comes after `x`
  have hunmarked : ∀ {z ez}, ec.lookup z = some ez → G.Anc z y →
      ez.firstDescendants.lookup (G.creator x) = none := by
    intro z ez hz hzy
    refine Option.eq_none_iff_forall_ne_some.2 fun c hcz => ?_
    obtain ⟨hmem, hloc, hfz⟩ := (hc.first hz (hT hzy hTy)).1 hcz
    obtain ⟨ez', hez'⟩ := Map.mem_iff_lookup.1 hmem
    have hm := (hc.event hez').mem
    refine ha.not_anc hc hT hmem hTx (EventGraph.anc_of_index_le hm ha.event.mem hloc.creator ?_)
    exact hfd.first _ hm hloc.creator (hfz.anc.trans hzy)
  refine ⟨hunmarked hy (EventGraph.Anc.refl y), ?_⟩
  obtain ⟨d, hd, hle⟩ := ha.lastComplete y hTy hfd.anc
  obtain ⟨hloc, hxd⟩ := ha.lastSound _ _ hd
  refine ⟨d, hd, hle, fun z hz => ?_⟩
  obtain ⟨hzm, hzc, hi, hzd⟩ := hz
  have hzy : G.Anc z y := EventGraph.anc_of_index_le hzm hym hzc hi.le
  have hTz : T z := hT hzy hTy
  have hxz : G.Anc x z := hxd.trans (EventGraph.anc_of_index_le (hxd.mem ha.event.mem) hzm
    (hloc.creator.trans hzc.symm) hzd)
  have hzx : z ≠ x := by
    rintro rfl
    exact ha.new (hfd.eq_of_creator hzm hzc ▸ hymem)
  have hzmem := ha.mem_of_anc hc hT hxz hzx hTz
  obtain ⟨ez, hez⟩ := Map.mem_iff_lookup.1 hzmem
  refine ⟨?_, ez, hez, hunmarked hez hzy⟩
  cases hw : wit z with
  | false => rfl
  | true => exact absurd hxz (hfd.clear z ((ha.witness z hzmem hTz).1 hw) hzm hzc hi)

/-- The coordinates of the stored events after the walks from the ancestors of a new event
have entered it as a first descendant. -/
theorem mark {ancestors : List (K × EventCoordinates H)}
    (hperm : ancestors.Perm ev.lastAncestors.toPairs) :
    Coordinates G stop T (markAll wit (G.creator x) ⟨x, G.index x⟩
      ((ec.insert x ev).keys.length + 1) ancestors (ec.insert x ev)) := by
  set ec₀ := ec.insert x ev with hec₀
  set ec' := markAll wit (G.creator x) ⟨x, G.index x⟩ (ec₀.keys.length + 1) ancestors ec₀ with hec'
  have hmarked : EventsMarked ec₀ ec' := eventsMarked_markAll _ _ _
  have hmem : ∀ {z}, z ∈ ec' ↔ z = x ∨ z ∈ ec := fun {z} => by
    rw [hmarked.mem_iff, AList.mem_insert]
  have hfit₀ : ∀ {z e}, ec₀.lookup z = some e → Depicts G z e.toSignedEvent :=
    ha.toArrives.depicts hc.toLineage
  have hancestors : ∀ {k d}, (k, d) ∈ ancestors ↔ ev.lastAncestors.lookup k = some d := by
    intro k d
    rw [hperm.mem_iff, Map.mem_toPairs]
  refine ⟨hc.toLineage.mark ha.toArrives hmarked, fun {y e' k d} he' hTy => ?_⟩
  · obtain ⟨e₀, he₀, hm⟩ := hmarked.lookup_back he'
    constructor
    · intro hk
      -- an entry is an old one, or the new event
      have hold : e₀.firstDescendants.lookup k = some d →
          d.hash ∈ ec' ∧ Locates G k d ∧ G.FirstDesc stop y d.hash := by
        intro hk₀
        rcases Lineage.lookup_insert_cases he₀ with ⟨rfl, rfl⟩ | ⟨-, he₀⟩
        · obtain ⟨rfl, rfl⟩ := (ha.first k d).1 hk₀
          exact ⟨hmem.2 (Or.inl rfl), ⟨rfl, rfl⟩, EventGraph.firstDesc_self ha.event.mem⟩
        · obtain ⟨h1, h2, h3⟩ := (hc.first he₀ hTy).1 hk₀
          exact ⟨hmem.2 (Or.inr h1), h2, h3⟩
      rcases of_lookup_markAll hfit₀ (fun a ha' => (ha.lastSound _ _ (hancestors.1 ha')).1) he₀ he' hk
        with hk₀ | ⟨rfl, rfl, c, hcy, hpass⟩
      · exact hold hk₀
      have hle : G.index y ≤ c.index :=
        hpass.index_le.trans (ha.lastSound _ _ (hancestors.1 hcy)).1.index.le
      cases hk₀ : e₀.firstDescendants.lookup (G.creator x) with
      | some c₀ =>
        rw [hm.keeps _ _ hk₀] at hk
        exact hold (hk₀.trans hk)
      | none =>
        rcases Lineage.lookup_insert_cases he₀ with ⟨rfl, rfl⟩ | ⟨-, he₀⟩
        · rw [(ha.first _ _).2 ⟨rfl, rfl⟩] at hk₀
          cases hk₀
        · exact ⟨hmem.2 (Or.inl rfl), ⟨rfl, rfl⟩,
            ha.firstDesc hc hT he₀ hTy hk₀ (hancestors.1 hcy) hle hpass.clear⟩
    · rintro ⟨hd, hloc, hfd⟩
      rcases Lineage.lookup_insert_cases he₀ with ⟨rfl, rfl⟩ | ⟨hne, hey⟩
      · -- only the new event itself descends from it
        have hdx : d.hash = y := by
          rcases hmem.1 hd with h | h
          exacts [h, absurd hfd.anc (ha.not_anc hc hT h hTy)]
        refine hm.keeps _ _ ((ha.first k d).2 ⟨?_, ?_⟩)
        · rw [← hloc.creator, hdx]
        · rw [← hdx, hloc.index]
      · rcases hmem.1 hd with hdx | hd
        · obtain ⟨hnone, c, hcy, hle, hclear⟩ := ha.walk hc hT hey hTy (hdx ▸ hfd)
          obtain ⟨hcl, hxc⟩ := ha.lastSound _ _ hcy
          have hcm := hxc.mem ha.event.mem
          have hym := (hc.event hey).mem
          have hlook : ∀ {z ez}, ec.lookup z = some ez → ec₀.lookup z = some ez := by
            intro z ez hz
            rw [hec₀, AList.lookup_insert_ne]
            · exact hz
            · rintro rfl
              exact ha.new (Map.mem_iff_lookup.2 ⟨ez, hz⟩)
          have hfuel : (c.index - G.index y).toNat < ec₀.keys.length + 1 := by
            refine Nat.lt_succ_of_lt (index_sub_lt_length hym _ hcm hcl.creator (by
              have := hcl.index
              omega) fun z hzm hzc h1 h2 => ?_)
            rcases h1.lt_or_eq with h1 | h1
            · obtain ⟨-, ez, hez, -⟩ := hclear z ⟨hzm, hzc, h1, h2⟩
              exact Map.mem_iff_lookup.2 ⟨ez, hlook hez⟩
            · rw [G.unique hzm hym hzc h1.symm]
              exact Map.mem_iff_lookup.2 ⟨e₀, he₀⟩
          have hnd : (ancestors.map Prod.fst).Nodup := by
            rw [(hperm.map Prod.fst).nodup_iff, Map.map_fst_toPairs]
            exact ev.lastAncestors.keys_nodup
          obtain ⟨e'', he'', hk⟩ := exists_lookup_markAll hfit₀ hnd
            (fun a ha' => (ha.lastSound _ _ (hancestors.1 ha')).imp id fun h => h.mem ha.event.mem)
            (hancestors.2 hcy) he₀ hnone hle
            (fun z hz => (hclear z hz).imp id fun ⟨ez, h1, h2⟩ => ⟨ez, hlook h1, h2⟩) hfuel
          obtain rfl := Option.some.inj (he'.symm.trans he'')
          have hd' : d = ⟨x, G.index x⟩ := by
            rw [← hdx, hloc.index]
          rw [← hloc.creator, hdx, hd']
          exact hk
        · exact hm.keeps _ _ ((hc.first hey hTy).2 ⟨hd, hloc, hfd⟩)

end Arrives

/-- The fields of consensus do not matter. -/
theorem of_like {ec' : Map H (Event H K)} (hc : Coordinates G stop T ec) (h : EventsLike ec ec') :
    Coordinates G stop T ec' := by
  refine ⟨hc.toLineage.of_like h, fun {y e' k c} he' hT => ?_⟩
  obtain ⟨e, he⟩ := Map.mem_iff_lookup.1 (h.mem_iff.1 (Map.mem_iff_lookup.2 ⟨e', he'⟩))
  obtain ⟨e'', he'', hs⟩ := h.lookup he
  obtain rfl := Option.some.inj (he'.symm.trans he'')
  rw [hs.firstDescendants, hc.first he hT, h.mem_iff]

end Coordinates

end Babble
