import Babble.Consistency

/-!
# Ancestry by coordinates

`ancestor` compares the index of an event with the last ancestor that another event has on its
creator's chain. In every sequence of insertions, in any order that puts parents first, this is
reachability by parents (`GraphRun.ancestor_exact`).

First descendants are entered by walks that stop at witnesses, and at events that have one by the
same creator already. Which events count as witnesses does not matter here : where a walk
starts it leaves an entry (`Ancestry.marked`), so that a later walk of the same creator never
gets past the events that an earlier event of the creator descends from. So what is entered in an
event is the first descendant of the creator.
-/

set_option linter.unusedSectionVars false

namespace Babble

variable {H K : Type} [DecidableEq H] [DecidableEq K] [Hex H] [Hex K]

open Hashgraph

/-! ## First descendants -/

namespace Hashgraph

variable {wit : H → Bool} {k : K} {c : EventCoordinates H}

/-- A walk leaves an entry where it starts. -/
theorem not_unmarked_markFrom {ec : Map H (Event H K)} {a : H} (fuel : ℕ) (ha : a ∈ ec) :
    ¬Unmarked k (markFrom wit k c (fuel + 1) (some a) ec) a := by
  by_cases hun : Unmarked k ec a
  · obtain ⟨ea, hea⟩ := Map.mem_iff_lookup.1 ha
    have hins : ¬Unmarked k (ec.insert a (addFirstDescendant k c ea)) a := not_unmarked_insert
    rw [markFrom_of_lookup fuel hea (hun ea hea)]
    split_ifs
    · exact hins
    · exact fun h => hins (h.of_marked (eventsMarked_markFrom _ _ _))
  · exact fun h => hun (h.of_marked (eventsMarked_markFrom _ _ _))

theorem not_unmarked_markAll {ec : Map H (Event H K)} (fuel : ℕ)
    {l : List (K × EventCoordinates H)} {d : K × EventCoordinates H} (hd : d ∈ l)
    (hmem : d.2.hash ∈ ec) : ¬Unmarked k (markAll wit k c (fuel + 1) l ec) d.2.hash := by
  induction l generalizing ec with
  | nil => exact (List.not_mem_nil hd).elim
  | cons d₀ l ih =>
    rw [markAll, List.foldl_cons]
    rcases List.mem_cons.1 hd with rfl | hd
    · exact fun h => not_unmarked_markFrom fuel hmem (h.of_marked (eventsMarked_markAll _ _ _))
    · exact ih hd ((eventsMarked_markFrom _ _ _).mem_iff.2 hmem)

end Hashgraph

/-- Last ancestors are those of the graph. The first descendants that are entered are the
first ones by their creators, and the last ancestors of an event have an entry by its creator. -/
structure Ancestry (G : EventGraph H K) (ec : Map H (Event H K)) : Prop
    extends Lineage G (fun _ => True) ec where
  first : ∀ {y e k c}, ec.lookup y = some e → e.firstDescendants.lookup k = some c →
    c.hash ∈ ec ∧ Locates G k c ∧ G.Anc c.hash y ∧
      ∀ z, G.Mem z → G.creator z = k → G.Anc z y → c.index ≤ G.index z
  marked : ∀ {x e k c}, ec.lookup x = some e → e.lastAncestors.lookup k = some c →
    ¬Unmarked (G.creator x) ec c.hash

namespace Ancestry

variable {G : EventGraph H K} {ec : Map H (Event H K)} {x y : H} {ev : Event H K}

theorem upClosed_true : UpClosed G fun _ => True :=
  fun _ _ => trivial

theorem mem_of_anc (h : Ancestry G ec) (hx : x ∈ ec) (hxy : G.Anc x y) : y ∈ ec :=
  h.toLineage.mem_of_anc upClosed_true hx hxy trivial

/-- The ancestors of a new event are stored. -/
theorem mem_of_arrives (h : Ancestry G ec) (ha : Lineage.Arrives G (fun _ => True) ec x ev)
    (hxy : G.Anc x y) (hne : y ≠ x) : y ∈ ec :=
  h.toLineage.mem_of_sAnc upClosed_true ha.parents (hxy.sAnc hne) trivial

/-- No earlier event of the creator of `x` descends from an event that the walk from `x` comes
to : its last ancestor on the chain would have stopped the walk. -/
theorem index_le_of_passes (h : Ancestry G ec) (ha : Lineage.Arrives G (fun _ => True) ec x ev)
    {wit : H → Bool} {d : EventCoordinates H} (hd : ev.lastAncestors.lookup (G.creator y) = some d)
    (hpass : Passes G wit (G.creator x) (ec.insert x ev) d.hash y) {z : H} (hz : G.Mem z)
    (hc : G.creator z = G.creator x) (hzy : G.Anc z y) : G.index x ≤ G.index z := by
  by_contra hlt
  have hxz : G.Anc x z := EventGraph.anc_of_index_le ha.event.mem hz hc.symm (by omega)
  have hzx : z ≠ x := fun heq => hlt (heq ▸ le_rfl)
  obtain ⟨ez, hez⟩ := Map.mem_iff_lookup.1 (h.mem_of_arrives ha hxz hzx)
  obtain ⟨a, hlast, hya⟩ := h.lastComplete hez trivial hzy
  obtain ⟨hloc, hza⟩ := h.lastSound hez hlast
  have hmark := h.marked hez hlast
  have ham : G.Mem a.hash := hza.mem hz
  -- the last ancestor of `x` on the chain is not before the one of `z`
  obtain ⟨d', hd', had⟩ := ha.lastComplete a.hash trivial (hxz.trans hza)
  rw [hloc.creator, hd] at hd'
  obtain rfl := Option.some.inj hd'
  have hdloc := (ha.lastSound _ _ hd).1
  have hun := hpass.unmarked a.hash ham hloc.creator (by rw [hloc.index]; exact hya)
    (by rw [hdloc.index]; exact had)
  have hax : a.hash ≠ x := fun heq => EventGraph.SAnc.irrefl x ((hxz.sAnc hzx).trans_anc (heq ▸ hza))
  rw [hc] at hmark
  refine hmark fun ea hea => hun ea ?_
  rwa [AList.lookup_insert_ne hax]

/-- The insertion of an event, whatever the events where walks stop. -/
theorem mark (h : Ancestry G ec) (ha : Lineage.Arrives G (fun _ => True) ec x ev)
    (hfirst : ∀ k d, ev.firstDescendants.lookup k = some d ↔ k = G.creator x ∧ d = ⟨x, G.index x⟩)
    (wit : H → Bool) (fuel : ℕ) {ancestors : List (K × EventCoordinates H)}
    (hperm : ancestors.Perm ev.lastAncestors.toPairs) :
    Ancestry G (markAll wit (G.creator x) ⟨x, G.index x⟩ (fuel + 1) ancestors
      (ec.insert x ev)) := by
  set ec' := markAll wit (G.creator x) ⟨x, G.index x⟩ (fuel + 1) ancestors (ec.insert x ev)
    with hec'
  have hmarked : EventsMarked (ec.insert x ev) ec' := eventsMarked_markAll _ _ _
  have hmem : ∀ {y}, y ∈ ec' ↔ y = x ∨ y ∈ ec := by
    intro y
    rw [hmarked.mem_iff, AList.mem_insert]
  have hancestors : ∀ {k d}, (k, d) ∈ ancestors ↔ ev.lastAncestors.lookup k = some d := by
    intro k d
    rw [hperm.mem_iff, Map.mem_toPairs]
  refine ⟨h.toLineage.mark ha hmarked, ?_, ?_⟩
  · intro y e' k c he' hk
    obtain ⟨e₀, he₀, -⟩ := hmarked.lookup_back he'
    rcases of_lookup_markAll (fun he => ha.depicts h.toLineage he)
      (fun d hd => (ha.lastSound _ _ (hancestors.1 hd)).1) he₀ he' hk with hk₀ | ⟨rfl, rfl, d, hd, hpass⟩
    · rcases Lineage.lookup_insert_cases he₀ with ⟨rfl, rfl⟩ | ⟨-, he₀⟩
      · obtain ⟨rfl, rfl⟩ := (hfirst k c).1 hk₀
        exact ⟨hmem.2 (Or.inl rfl), ⟨rfl, rfl⟩, .refl y, fun z hz hc hzy => hzy.index_le hz hc⟩
      · obtain ⟨hc, hrest⟩ := h.first he₀ hk₀
        exact ⟨hmem.2 (Or.inr hc), hrest⟩
    · have hd := hancestors.1 hd
      obtain ⟨hloc, hxd⟩ := ha.lastSound _ _ hd
      have hdy : G.Anc d.hash y := EventGraph.anc_of_index_le (hxd.mem ha.event.mem)
        (ha.depicts h.toLineage he₀).mem hpass.creator.symm hpass.index_le
      exact ⟨hmem.2 (Or.inl rfl), ⟨rfl, rfl⟩, hxd.trans hdy,
        fun z hz hc hzy => h.index_le_of_passes ha hd hpass hz hc hzy⟩
  · intro z e' k c he' hk
    obtain ⟨e₀, he₀, hm⟩ := hmarked.lookup_back he'
    rw [hm.lastAncestors] at hk
    rcases Lineage.lookup_insert_cases he₀ with ⟨rfl, rfl⟩ | ⟨-, hez⟩
    · have hcmem : c.hash ∈ ec.insert z e₀ := by
        rw [AList.mem_insert]
        by_cases hcz : c.hash = z
        · exact Or.inl hcz
        · exact Or.inr (h.mem_of_arrives ha (ha.lastSound _ _ hk).2 hcz)
      exact not_unmarked_markAll fuel (hancestors.2 hk) hcmem
    · have hcx : c.hash ≠ x := fun heq =>
        ha.new (heq ▸ h.mem_of_anc (Map.mem_iff_lookup.2 ⟨_, hez⟩) (h.lastSound hez hk).2)
      intro hun
      refine h.marked hez hk fun a hla => (hun.of_marked hmarked) a ?_
      rwa [AList.lookup_insert_ne hcx]

end Ancestry

/-! ## The cache of answers -/

namespace Query

variable {S : Scheme H K} {rt : Runtime} {st : InmemStore H K}

theorem fixes_cached {α τ : Type} {g : Memo H → τ} {lookup : Memo H → Option α}
    {add : α → Memo H → Memo H} {compute : Query H α} (hadd : ∀ a m, g (add a m) = g m)
    (hc : Exec.Fixes g compute) : Exec.Fixes g (cached lookup add compute) := by
  refine Exec.fixes_get.bind fun m => ?_
  cases lookup m with
  | some a => exact Exec.fixes_pure a
  | none => exact hc.bind fun a => (Exec.fixes_modify (hadd a)).bind fun _ => Exec.fixes_pure a

theorem fixes_filter {α τ : Type} {g : Memo H → τ} {p : α → Query H Bool}
    (hp : ∀ a, Exec.Fixes g (p a)) (l : List α) : Exec.Fixes g (Exec.filter p l) := by
  induction l with
  | nil => exact Exec.fixes_pure _
  | cons a l ih => exact (hp a).bind fun _ => ih.bind fun _ => Exec.fixes_pure _

theorem fixes_parentValues {τ : Type} {g : Memo H → τ} {f : H → Query H ℤ}
    (hf : ∀ x, Exec.Fixes g (f x)) (p : Option H) (v : ℤ) :
    Exec.Fixes g (selfParentValue f p) ∧ Exec.Fixes g (raiseTo f v p) := by
  cases p with
  | none => exact ⟨Exec.fixes_pure _, Exec.fixes_pure _⟩
  | some p => exact ⟨hf p, (hf p).bind fun _ => Exec.fixes_pure _⟩

theorem fixes_stronglySee (x y : H) (P : PeerSet K) :
    Exec.Fixes Memo.ancestorCache (stronglySee S st x y P) :=
  fixes_cached (fun _ _ => rfl) ((Exec.fixes_ofExcept _).bind fun _ =>
    (Exec.fixes_ofExcept _).bind fun _ => Exec.fixes_pure _)

theorem fixes_round (x : H) : Exec.Fixes Memo.ancestorCache (round S rt st x) := by
  unfold round
  generalize depth st = fuel
  induction fuel generalizing x with
  | zero => exact Exec.fixes_throw _
  | succ fuel ih =>
    refine fixes_cached (fun _ _ => rfl) ((Exec.fixes_ofExcept _).bind fun ex => ?_)
    refine (fixes_parentValues ih _ 0).1.bind fun v => (fixes_parentValues ih _ v).2.bind fun p => ?_
    split
    · exact Exec.fixes_pure _
    · refine (Exec.fixes_ofExcept _).bind fun info => (Exec.fixes_ofExcept _).bind fun P => ?_
      have hvisit : Exec.Fixes Memo.ancestorCache (visit rt info.witnesses : Query H (List H)) :=
        fun _ => rfl
      exact hvisit.bind fun ws => (fixes_filter (fun w => fixes_stronglySee x w P) ws).bind
        fun _ => Exec.fixes_pure _

theorem fixes_witness (x : H) : Exec.Fixes Memo.ancestorCache (witness S rt st x) := by
  refine fixes_cached (fun _ _ => rfl) ((Exec.fixes_ofExcept _).bind fun ex => ?_)
  refine (fixes_round x).bind fun r => (Exec.fixes_ofExcept _).bind fun P => ?_
  split
  · exact (fixes_parentValues (fun y => fixes_round y) _ 0).1.bind fun _ => Exec.fixes_pure _
  · exact Exec.fixes_pure _

/-- A call of `ancestor` leaves the caches as they are, or adds its answer. -/
theorem ancestor_cases (st : InmemStore H K) (x y : H) (m : Memo H) :
    (Exec.exec (ancestor st x y) m).2 = m ∨
      ∃ b, (x = y ∧ b = true ∨ x ∈ st.eventCache ∧ y ∈ st.eventCache ∧ b = st.sees x y) ∧
        (Exec.exec (ancestor st x y) m).2 =
          { m with ancestorCache := m.ancestorCache.insert (x, y) b } := by
  have hok : ∀ {b}, m.ancestorCache.lookup (x, y) = none →
      Exec.exec (ancestorUncached st x y) m = (.ok b, m) → (Exec.exec (ancestor st x y) m).2 =
        { m with ancestorCache := m.ancestorCache.insert (x, y) b } := by
    intro b hl hr
    simp only [ancestor, cached, Exec.exec_bind, Exec.exec_get, hl, hr, Exec.exec_modify,
      Exec.exec_pure]
  have herr : m.ancestorCache.lookup (x, y) = none →
      Exec.exec (ancestorUncached st x y) m = (.error (.store "EventCache" .keyNotFound), m) →
      (Exec.exec (ancestor st x y) m).2 = m := by
    intro hl hr
    simp only [ancestor, cached, Exec.exec_bind, Exec.exec_get, hl, hr]
  cases hl : m.ancestorCache.lookup (x, y) with
  | some b =>
    left
    simp only [ancestor, cached, Exec.exec_bind, Exec.exec_get, hl, Exec.exec_pure]
  | none =>
    by_cases hxy : x = y
    · refine Or.inr ⟨true, Or.inl ⟨hxy, rfl⟩, hok hl ?_⟩
      rw [ancestorUncached, if_pos hxy, Exec.exec_pure]
    cases hx : st.eventCache.lookup x with
    | none =>
      refine Or.inl (herr hl ?_)
      simp only [ancestorUncached, if_neg hxy, Exec.exec_bind, Exec.exec_ofExcept,
        InmemStore.getEvent, hx]
    | some ex =>
      cases hy : st.eventCache.lookup y with
      | none =>
        refine Or.inl (herr hl ?_)
        simp only [ancestorUncached, if_neg hxy, Exec.exec_bind, Exec.exec_ofExcept,
          InmemStore.getEvent, hx, hy]
      | some ey =>
        have hx := Map.mem_iff_lookup.2 ⟨ex, hx⟩
        have hy := Map.mem_iff_lookup.2 ⟨ey, hy⟩
        obtain ⟨b, m', he, rfl, rfl⟩ := returns_ancestorUncached hx hy
        exact Or.inr ⟨_, Or.inr ⟨hx, hy, rfl⟩, hok hl he⟩

end Query

namespace Hashgraph

variable {S : Scheme H K} {rt : Runtime}

/-- The answers of `ancestor` so far. -/
def ancestorCache (h : Hashgraph H K) : Map (H × H) Bool :=
  h.memo.ancestorCache

theorem fixes_query {α : Type} {q : InmemStore H K → Query H α}
    (hq : ∀ st, Exec.Fixes Memo.ancestorCache (q st)) :
    Exec.Fixes ancestorCache (query q : Hg H K α) := by
  intro h
  rw [exec_query_eq]
  exact hq h.store h.memo

theorem fixes_markAncestors (creator : K) (coordinates : EventCoordinates H) (fuel : ℕ)
    (ah : Option H) :
    Exec.Fixes ancestorCache (markAncestors S rt creator coordinates fuel ah) := by
  induction fuel generalizing ah with
  | zero => exact Exec.fixes_pure _
  | succ fuel ih =>
    cases ah with
    | none => exact Exec.fixes_pure _
    | some ah =>
      unfold markAncestors
      refine Exec.fixes_get.bind fun h => ?_
      split
      · exact Exec.fixes_pure _
      split
      · exact Exec.fixes_pure _
      refine (Exec.fixes_modify (by intro h; rfl)).bind fun _ => ?_
      refine (fixes_query fun st => Query.fixes_witness ah).attempt.bind fun r => ?_
      split
      · exact Exec.fixes_pure _
      · exact ih _

theorem fixes_tryStore (context : String) (f : InmemStore H K → Except Err (InmemStore H K)) :
    Exec.Fixes ancestorCache (tryStore context f : Hg H K Unit) := by
  intro h
  cases hf : f h.store with
  | ok st => rw [exec_tryStore_ok hf]; rfl
  | error err => rw [exec_tryStore_error hf]

/-- The insertion of an event asks for no ancestor. -/
theorem ancestorCache_insertEvent (event : SignedEvent H K) (wire : WireInfo) (fill : Bool) :
    Exec.Fixes ancestorCache (insertEvent S rt event wire fill) := by
  have hread : ∀ {α : Type} (f : InmemStore H K → Except Err α),
      Exec.Fixes ancestorCache (read f : Hg H K α) := fun f h => by rw [exec_read]
  refine (hread _).bind fun _ => Exec.fixes_get.bind fun h => ?_
  refine (Exec.fixes_modify (by intro h; rfl)).bind fun _ => (hread _).bind fun w => ?_
  refine Exec.fixes_get.bind fun h' => (fixes_tryStore _ _).bind fun _ => ?_
  refine Exec.Fixes.bind ?_ fun _ => Exec.fixes_modify (by intro h; rfl)
  refine (fixes_query fun st _ => rfl).bind fun l => Exec.fixes_get.bind fun _ => ?_
  exact Exec.fixes_forM fun c => fixes_markAncestors _ _ _ _

end Hashgraph

/-! ## Sequences of calls -/

/-- A call of `InsertEvent` or of `ancestor`. -/
inductive GraphCall (H K : Type) where
  | insertEvent (i : Session.Input H K)
  | ancestor (x y : H)

/-- The number of calls of `InsertEvent`. -/
def GraphCall.insertions : List (GraphCall H K) → ℕ
  | [] => 0
  | .insertEvent _ :: l => insertions l + 1
  | .ancestor _ _ :: l => insertions l

namespace Hashgraph

variable (S : Scheme H K) (rt : Runtime)

/-- The hashgraph after a call, whether it fails or not. -/
def afterCall (h : Hashgraph H K) : GraphCall H K → Hashgraph H K
  | .insertEvent i => insertInput S rt h i
  | .ancestor x y => (Exec.exec (query fun st => Query.ancestor st x y) h).2

/-- Coordinates and cached answers are those of the graph. -/
structure Exact {S : Scheme H K} (U : Universe S) (size n : ℕ) (h : Hashgraph H K) : Prop where
  addressed : h.Addressed S
  stocked : h.Stocked S U.bodies SignedEvent.IsFirst size n
  ancestry : Ancestry U.graph h.store.eventCache
  answers : ∀ {x y b}, h.ancestorCache.lookup (x, y) = some b → (b = true ↔ U.graph.Anc x y)

namespace Exact

variable {S : Scheme H K} {rt : Runtime} {U : Universe S} {size n : ℕ} {h : Hashgraph H K}

theorem initial (m : ℕ) (P : PeerSet K) : Exact U m 0 (Hashgraph.initial m P) := by
  obtain ⟨hec, -, hmemo, -⟩ := Session.init_eq (init_initial (H := H) m P)
  have hst := Session.stocked_init (S := S) (init_initial (H := H) m P) U.bodies SignedEvent.IsFirst
  have hnone : ∀ {x e}, (Hashgraph.initial m P : Hashgraph H K).store.eventCache.lookup x ≠ some e := by
    intro x e he
    rw [hec] at he
    cases he
  have hmem : ∀ {x}, x ∉ (Hashgraph.initial m P : Hashgraph H K).store.eventCache := by
    intro x hx
    obtain ⟨e, he⟩ := Map.mem_iff_lookup.1 hx
    exact hnone he
  have hw := Session.wellFormed_init (S := S) (init_initial (H := H) m P)
    ⟨fun _ => 0, fun _ => false, fun _ => 0⟩
  refine ⟨hw.addressed, hst, ⟨⟨?_, ?_, ?_, ?_⟩, ?_, ?_⟩, ?_⟩
  · exact fun he => (hnone he).elim
  · exact fun hx => (hmem hx).elim
  · exact fun he => (hnone he).elim
  · exact fun he => (hnone he).elim
  · exact fun he => (hnone he).elim
  · exact fun he => (hnone he).elim
  · intro x y b hb
    rw [ancestorCache, hmemo] at hb
    cases hb

/-- What the store sees is ancestry. -/
theorem sees_iff (he : Exact U size n h) {x y : H} (hx : x ∈ h.store.eventCache)
    (hy : y ∈ h.store.eventCache) : h.store.sees x y = true ↔ U.graph.Anc x y :=
  he.ancestry.toLineage.sees_iff hx hy trivial

theorem insertEvent (he : Exact U size n h) {i : Session.Input H K}
    (hb : i.event.body ∈ U.bodies) (hn : n < size) :
    Exact U size (n + 1) (insertInput S rt h i) := by
  have hanswers : ∀ {x y b}, (insertInput S rt h i).ancestorCache.lookup (x, y) = some b →
      (b = true ↔ U.graph.Anc x y) := by
    intro x y b hl
    rw [insertInput, ancestorCache_insertEvent] at hl
    exact he.answers hl
  rcases insertEvent_cases_some S rt h i.event i.wire i.fill with
    ⟨err, ti, hexec⟩ | ⟨ins, wit, h', hst, hexec⟩
  · refine ⟨?_, ?_, ?_, hanswers⟩
    all_goals rw [insertInput, hexec]
    · exact ⟨he.addressed.keys, he.addressed.items⟩
    · exact ⟨he.stocked.body, he.stocked.listed.mono (Nat.le_succ n)⟩
    · exact he.ancestry
  · obtain ⟨hnew, hsig, hlisted⟩ := he.stocked.insertion he.addressed ins U.indexed hb hn
      fun e h1 h2 => ⟨h1, h2⟩
    have hmarked : EventsMarked ins.store.eventCache (ins.events wit) := eventsMarked_markAll _ _ _
    have hlin := he.ancestry.toLineage
    have hdep := he.stocked.depicts he.addressed hlin ins hb
    refine ⟨?_, ?_, ?_, hanswers⟩
    all_goals rw [insertInput, hexec]
    · exact he.addressed.of_insertion hst
    · rw [← hmarked.signedEvents_eq] at hsig hlisted
      refine ⟨fun {x e} hx => ?_, ?_⟩
      · rw [hst] at hx
        change signedEvents (ins.events wit) x = some e at hx
        rw [hsig, Function.update_apply] at hx
        split_ifs at hx
        · exact Option.some.inj hx ▸ hb
        · exact he.stocked.body hx
      · rw [hst]
        exact hlisted
    · have hmark := he.ancestry.mark (he.stocked.arrives he.addressed hlin ins hb
          Ancestry.upClosed_true hnew) (he.stocked.lookup_firstDescendants he.addressed hlin ins hb)
        wit ins.store.eventCache.keys.length ins.perm
      rw [← hdep.creator, ← hdep.index, ← ins.eventCache_eq] at hmark
      rw [hst]
      exact hmark

theorem ancestor (he : Exact U size n h) (x y : H) :
    Exact U size n (afterCall S rt h (.ancestor x y)) := by
  rw [afterCall, exec_query_eq]
  refine ⟨⟨he.addressed.keys, he.addressed.items⟩, ⟨he.stocked.body, he.stocked.listed⟩,
    he.ancestry, ?_⟩
  intro x' y' b hb
  rcases Query.ancestor_cases h.store x y h.memo with hm | ⟨a, ha, hm⟩
  · rw [ancestorCache, hm] at hb
    exact he.answers hb
  · rw [ancestorCache, hm, Map.lookup_insert_ite] at hb
    split_ifs at hb with heq
    · obtain ⟨rfl, rfl⟩ := Prod.mk.inj heq
      obtain rfl := Option.some.inj hb
      rcases ha with ⟨rfl, rfl⟩ | ⟨hx, hy, rfl⟩
      · exact iff_of_true rfl (.refl _)
      · exact he.sees_iff hx hy
    · exact he.answers hb

end Exact

end Hashgraph

/-- A hashgraph from `Init` on, under calls of `InsertEvent` with events of a universe, in any
order. Calls whose event is not accepted fail. -/
structure GraphRun {S : Scheme H K} (U : Universe S) where
  rt : Runtime
  peers : PeerSet K
  cacheSize : ℕ
  calls : List (GraphCall H K)
  bodies : ∀ i, .insertEvent i ∈ calls → i.event.body ∈ U.bodies
  noEviction : GraphCall.insertions calls ≤ cacheSize

/-! ## Reachability -/

namespace InmemStore

/-- `p` is a parent of the stored event `x`. -/
def Links (st : InmemStore H K) (x p : H) : Prop :=
  ∃ e, st.getEvent x = .ok e ∧ (e.body.selfParent = some p ∨ e.body.otherParent = some p)

/-- `y` is `x`, or is reachable from `x` by links to parents. -/
def Reaches (st : InmemStore H K) (x y : H) : Prop :=
  Relation.ReflTransGen st.Links x y

end InmemStore

namespace GraphRun

variable {S : Scheme H K} {U : Universe S} (r : GraphRun U)

/-- The hashgraph after all calls. -/
def hg : Hashgraph H K :=
  r.calls.foldl (afterCall S r.rt) (Hashgraph.initial r.cacheSize r.peers)

theorem exact : Exact U r.cacheSize (GraphCall.insertions r.calls) r.hg := by
  have hrun : ∀ (calls : List (GraphCall H K)) (n : ℕ) (h : Hashgraph H K),
      (∀ i, .insertEvent i ∈ calls → i.event.body ∈ U.bodies) →
      n + GraphCall.insertions calls ≤ r.cacheSize → Exact U r.cacheSize n h →
      Exact U r.cacheSize (n + GraphCall.insertions calls) (calls.foldl (afterCall S r.rt) h) := by
    intro calls
    induction calls with
    | nil => exact fun n h _ _ he => he
    | cons c calls ih =>
      intro n h hb hn he
      have hrest := fun i hi => hb i (List.mem_cons_of_mem c hi)
      cases c with
      | insertEvent i =>
        rw [GraphCall.insertions] at hn ⊢
        have hstep : Exact U r.cacheSize (n + 1) (insertInput S r.rt h i) :=
          he.insertEvent (hb i List.mem_cons_self) (by omega)
        rw [show n + (GraphCall.insertions calls + 1) = n + 1 + GraphCall.insertions calls by omega]
        exact ih (n + 1) _ hrest (by omega) hstep
      | ancestor x y => exact ih n _ hrest hn (he.ancestor x y)
  have h := hrun r.calls 0 _ r.bodies (by rw [Nat.zero_add]; exact r.noEviction)
    (.initial r.cacheSize r.peers)
  rwa [Nat.zero_add] at h

variable {r}

theorem links_iff {x p : H} (hx : x ∈ r.hg.store.eventCache) :
    r.hg.store.Links x p ↔ U.graph.Parent p x := by
  obtain ⟨e, he, hl⟩ := Query.getEvent_of_mem hx
  have hdep := r.exact.ancestry.event hl
  rw [EventGraph.Parent, ← hdep.selfParent, ← hdep.otherParent]
  constructor
  · rintro ⟨e', he', hp⟩
    obtain rfl := Except.ok.inj (he.symm.trans he')
    exact hp
  · exact fun hp => ⟨e, he, hp⟩

/-- Reachability in the store is ancestry in the graph. -/
theorem reaches_iff {x y : H} (hx : x ∈ r.hg.store.eventCache) :
    r.hg.store.Reaches x y ↔ U.graph.Anc x y := by
  constructor
  · intro h
    induction h with
    | refl => exact .refl x
    | @tail z p _ hp ih =>
      obtain ⟨e, he, -⟩ := id hp
      have hz := Map.mem_iff_lookup.2 ⟨e, InmemStore.getEvent_eq_ok.1 he⟩
      exact ih.trans ((links_iff hz).1 hp).anc
  · intro h
    induction h with
    | refl => exact .refl
    | @tail p x _ hp ih =>
      have hpx := r.exact.ancestry.closed hx hp trivial
      exact .head ((links_iff hx).2 hp) (ih hpx)

/-- For stored events, `ancestor` returns whether the one is reachable from the other, and a
first descendant is the event of lowest index, among the stored ones of its creator, from which
the event is reached. -/
theorem ancestor_exact (r : GraphRun U) {x y : H} (hx : x ∈ r.hg.store.eventCache)
    (hy : y ∈ r.hg.store.eventCache) :
    (∃ b, (Exec.exec (query fun st => Query.ancestor st x y) r.hg).1 = .ok b ∧
      (b = true ↔ r.hg.store.Reaches x y)) ∧
    ∀ e k c, r.hg.store.getEvent y = .ok e → e.firstDescendants.lookup k = some c →
      (∃ z, r.hg.store.getEvent c.hash = .ok z ∧ z.creator = k ∧ z.body.index = c.index) ∧
      r.hg.store.Reaches c.hash y ∧
      ∀ w z, r.hg.store.getEvent w = .ok z → z.creator = k → r.hg.store.Reaches w y →
        c.index ≤ z.body.index := by
  have hex := r.exact
  refine ⟨?_, fun e k c he hc => ?_⟩
  · have hret : Exec.Returns (Query.ancestor r.hg.store x y) r.hg.memo fun b _ =>
        (b = true ↔ U.graph.Anc x y) := by
      refine Query.returns_cached (fun b hb => hex.answers hb) fun _ => ?_
      refine (Query.returns_ancestorUncached hx hy).mono ?_
      rintro b m ⟨rfl, -⟩
      exact hex.sees_iff hx hy
    obtain ⟨b, m, hexec, hb⟩ := hret
    refine ⟨b, ?_, hb.trans (reaches_iff hx).symm⟩
    rw [exec_query_eq, hexec]
  · obtain ⟨hmem, hloc, hanc, hmin⟩ := hex.ancestry.first (InmemStore.getEvent_eq_ok.1 he) hc
    obtain ⟨z, hz, hlz⟩ := Query.getEvent_of_mem hmem
    have hdep := hex.ancestry.event hlz
    refine ⟨⟨z, hz, hdep.creator.trans hloc.creator, hdep.index.trans hloc.index⟩,
      (reaches_iff hmem).2 hanc, fun w ew hw hk hr => ?_⟩
    have hlw := InmemStore.getEvent_eq_ok.1 hw
    have hdw := hex.ancestry.event hlw
    have hanc' := (reaches_iff (Map.mem_iff_lookup.2 ⟨ew, hlw⟩)).1 hr
    rw [hdw.index]
    exact hmin w hdw.mem (hdw.creator.symm.trans hk) hanc'

end GraphRun

namespace Sample

/-- Twelve turns, with a question after the sixth. -/
def questioned : GraphRun quartet where
  rt := .plain
  peers := four
  cacheSize := 100
  calls := (calls (turns 6)).map .insertEvent ++ .ancestor [5] [0] ::
    (calls ((turns 12).drop 6)).map .insertEvent
  bodies := by
    intro i hi
    have hi : i.event ∈ turns 12 := by
      simp only [List.mem_append, List.mem_cons, List.mem_map, calls, List.map_map] at hi
      rcases hi with ⟨e, he, hei⟩ | hi | ⟨e, he, hei⟩
      · obtain rfl := GraphCall.insertEvent.inj hei
        exact List.mem_of_mem_take (i := 6) he
      · cases hi
      · obtain rfl := GraphCall.insertEvent.inj hei
        exact List.mem_of_mem_drop he
    exact show _ ∈ (turns 12 ++ [late]).map SignedEvent.body from
      List.mem_map_of_mem (List.mem_append_left _ hi)
  noEviction := by decide

/-- The sixth event is an ancestor of the last one, and not of the fourth. -/
theorem questioned_ancestor : questioned.hg.store.Reaches [11] [5] ∧
    ¬questioned.hg.store.Reaches [3] [5] := by
  have h3 : [3] ∈ questioned.hg.store.eventCache := by decide +kernel
  have h5 : [5] ∈ questioned.hg.store.eventCache := by decide +kernel
  have h11 : [11] ∈ questioned.hg.store.eventCache := by decide +kernel
  have hyes : (Exec.exec (query fun st => Query.ancestor st [11] [5]) questioned.hg).1 =
      .ok true := by decide +kernel
  have hno : (Exec.exec (query fun st => Query.ancestor st [3] [5]) questioned.hg).1 =
      .ok false := by decide +kernel
  obtain ⟨⟨b, hb, hiff⟩, -⟩ := questioned.ancestor_exact h11 h5
  obtain ⟨⟨b', hb', hiff'⟩, -⟩ := questioned.ancestor_exact h3 h5
  obtain rfl := Except.ok.inj (hyes.symm.trans hb)
  obtain rfl := Except.ok.inj (hno.symm.trans hb')
  exact ⟨hiff.1 rfl, fun hr => Bool.false_ne_true (hiff'.2 hr)⟩

end Sample

end Babble
