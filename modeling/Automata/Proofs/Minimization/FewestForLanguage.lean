import Automata.Proofs.Graph.Trim
import Automata.Proofs.Minimization.Fewest

namespace Automata

open Deterministic (Indistinguishable destination outcome)

namespace Graph

variable {g g' : Graph} {origin origin' : StateId} {block : StateId → Nat}

/-- Two graphs accept the same words. -/
def AcceptsAlike (g : Graph) (origin : StateId) (g' : Graph) (origin' : StateId) : Prop :=
  ∀ word, outcome g' origin' word = some true ↔ outcome g origin word = some true

/-- Two graphs are alike if they give the same verdict on every word. -/
theorem acceptsAlike_iff (hstart : g.soleStart = .ok origin) (hstart' : g'.soleStart = .ok origin') :
    AcceptsAlike g origin g' origin' ↔
      ∀ input, (Automaton.dfa g').accepts input = (Automaton.dfa g).accepts input := by
  refine forall_congr' fun input => ?_
  have haccepts := Automaton.accepts_of_soleStart (a := .dfa g) hstart input
  have haccepts' := Automaton.accepts_of_soleStart (a := .dfa g') hstart' input
  rw [haccepts, haccepts', ← Deterministic.acceptsFrom_iff, ← Deterministic.acceptsFrom_iff,
    ← Bool.eq_iff_iff]
  exact (Except.ok.injEq _ _).symm.to_iff

/-- Where every state is live, the accepted words tell all that a word can tell: one
that cannot be read begins no accepted word. -/
theorem indistinguishable_of_live (hlive : ∀ p ∈ g.reachableStates origin, g.isLive p = true)
    (hfree : g.ChoiceFree) {p q : StateId} (hp : p ∈ g.reachableStates origin)
    (hq : q ∈ g.reachableStates origin)
    (hsame : ∀ word, outcome g p word = some true ↔ outcome g q word = some true) :
    Indistinguishable g p q := by
  have hread {a b : StateId} (ha : a ∈ g.reachableStates origin)
      (hab : ∀ word, outcome g a word = some true → outcome g b word = some true)
      {word : List Char} {r : StateId} (hr : destination g a word = some r) :
      outcome g b word ≠ none := by
    have hreached := mem_reachable_trans ha (Deterministic.mem_reachable_of_destination hr)
    obtain ⟨rest, hrest⟩ := hfree.isLive_iff_outcome.1 (hlive r hreached)
    rw [← Deterministic.outcome_of_destination hr] at hrest
    obtain ⟨s, hs, _⟩ := Deterministic.outcome_eq_some_iff.1 (hab _ hrest)
    rw [Deterministic.destination_append] at hs
    obtain ⟨t, ht, _⟩ := Option.bind_eq_some_iff.1 hs
    rw [Ne, Deterministic.outcome_eq_none_iff, ht]
    exact nofun
  refine Deterministic.indistinguishable_iff.2 fun word => ?_
  cases houtcomeP : outcome g p word with
  | none =>
    cases houtcomeQ : outcome g q word with
    | none => rfl
    | some _ =>
      obtain ⟨r, hr, _⟩ := Deterministic.outcome_eq_some_iff.1 houtcomeQ
      exact absurd houtcomeP (hread hq (fun word => (hsame word).2) hr)
  | some accepting =>
    obtain ⟨r, hr, _⟩ := Deterministic.outcome_eq_some_iff.1 houtcomeP
    have hsome := hread hp (fun word => (hsame word).1) hr
    have hiff := hsame word
    cases houtcomeQ : outcome g q word with
    | none => exact absurd houtcomeQ hsome
    | some accepting' =>
      rw [houtcomeP, houtcomeQ, Option.some.injEq, Option.some.injEq, ← Bool.eq_iff_iff] at hiff
      rw [hiff]

/-- A state accepts the words that the states accept which it stands for. -/
theorem StandsFor.accepts_iff {p s : StateId} (hstands : StandsFor g origin g' origin' p s)
    (halike : AcceptsAlike g origin g' origin') (word : List Char) :
    outcome g' s word = some true ↔ outcome g p word = some true := by
  obtain ⟨first, q, hq, hsame, hs⟩ := hstands
  rw [Deterministic.indistinguishable_iff.1 hsame word,
    ← Deterministic.outcome_of_destination hq, ← Deterministic.outcome_of_destination hs]
  exact halike _

/-- Without dead states, the minimized graph is the smallest for its language. -/
theorem Classifies.length_states_le_of_live (hblock : g.Classifies origin block)
    (hfree : g.ChoiceFree) (hlive : ∀ p ∈ g.reachableStates origin, g.isLive p = true)
    (hstart' : g'.soleStart = .ok origin') (hg' : g'.WellFormed)
    (halike : AcceptsAlike g origin g' origin') :
    (g.minimized origin).states.length ≤ g'.states.length := by
  refine hblock.length_states_le g' origin' (fun p hp => ?_) fun p hp q hq s hps hqs => ?_
  · obtain ⟨word, hword⟩ := hfree.mem_reachable_iff.1 hp
    obtain ⟨rest, hrest⟩ := hfree.isLive_iff_outcome.1 (hlive p hp)
    rw [← Deterministic.outcome_of_destination hword] at hrest
    obtain ⟨r, hr, _⟩ := Deterministic.outcome_eq_some_iff.1 ((halike _).2 hrest)
    rw [Deterministic.destination_append] at hr
    obtain ⟨s, hs, _⟩ := Option.bind_eq_some_iff.1 hr
    exact ⟨s, hg'.hasState_of_destination (hasState_of_soleStart hstart') hs, word, p, hword,
      .refl p, hs⟩
  · exact indistinguishable_of_live hlive hfree hp hq fun word =>
      (hps.accepts_iff halike word).symm.trans (hqs.accepts_iff halike word)

/-- A block is live if its members are. -/
theorem Classifies.isLive_minimized (hblock : g.Classifies origin block) (hfree : g.ChoiceFree)
    {p : StateId} (hp : p ∈ g.reachableStates origin) :
    (g.minimized origin).isLive (block p) = g.isLive p := by
  rw [Bool.eq_iff_iff, hblock.choiceFree_minimized.isLive_iff_outcome, hfree.isLive_iff_outcome]
  simp only [hblock.outcome_minimized hp]

/-- If a dead state can be reached and minimization leaves more than one state, then
one that it leaves is dead and not the start state. -/
theorem Classifies.exists_dead (hblock : g.Classifies origin block) (hfree : g.ChoiceFree)
    {p : StateId} (hp : p ∈ g.reachableStates origin) (hdead : g.isLive p = false)
    (hmany : (g.minimized origin).states.length ≠ 1) :
    ∃ s ∈ (g.minimized origin).states,
      s.isStart = false ∧ (g.minimized origin).isLive s.id = false := by
  have hstart := hblock.soleStart_minimized
  cases horigin : g.isLive origin with
  | true =>
    -- the block of the dead state is not that of the start state
    obtain ⟨s, hs, hid⟩ := List.mem_map.1
      (hasState_iff.1 (hblock.hasState_minimized_iff.2 ⟨p, hp, rfl⟩))
    have hdeadBlock : (g.minimized origin).isLive s.id = false := by
      rw [hid, hblock.isLive_minimized hfree hp, hdead]
    refine ⟨s, hs, Bool.eq_false_iff.2 fun hmark => ?_, hdeadBlock⟩
    rw [id_eq_of_isStart hstart hs hmark,
      hblock.isLive_minimized hfree (g.origin_mem_reachableStates origin), horigin] at hdeadBlock
    cases hdeadBlock
  | false =>
    -- nothing is live, so any state but the start state will do
    obtain ⟨s, hs, hmark⟩ : ∃ s ∈ (g.minimized origin).states, s.isStart = false := by
      by_contra hnone
      have hall (s : State) (hs : s ∈ (g.minimized origin).states) : s.isStart = true :=
        Bool.eq_true_of_not_eq_false fun hmark => hnone ⟨s, hs, hmark⟩
      have hone : (g.minimized origin).startIds.length = 1 := by
        rw [soleStart_eq_ok_iff.1 hstart, List.length_singleton]
      rw [startIds, List.length_map, List.filter_eq_self.2 hall] at hone
      exact hmany hone
    obtain ⟨r, hr, hid⟩ := hblock.hasState_minimized_iff.1 (hasState_iff.2 (List.mem_map_of_mem hs))
    refine ⟨s, hs, hmark, ?_⟩
    rw [← hid, hblock.isLive_minimized hfree hr]
    refine Bool.eq_false_iff.2 fun hlive => ?_
    rw [isLive_of_mem_reachable hr hlive] at horigin
    cases horigin

/-- Among the automata that nothing is wrong with, the minimized one has as few
states as any that accepts the same words, exactly if all states that can be
reached lead to an accepting one, or only one state is left. -/
theorem minimize_fewest_for_language_iff (g : Graph) (hvalid : (Automaton.dfa g).issues = []) :
    ∃ origin q, g.soleStart = .ok origin ∧ g.minimize = .ok q ∧
      ((∀ g' : Graph, (Automaton.dfa g').issues = [] →
          (∀ input, (Automaton.dfa g').accepts input = (Automaton.dfa g).accepts input) →
            q.graph.states.length ≤ g'.states.length) ↔
        (∀ p ∈ reachable g.transitions origin,
          ∃ r ∈ reachable g.transitions p, g.isAccepting r = true) ∨
        q.graph.states.length = 1) := by
  have hg := issues_dfa_eq_nil_iff.1 hvalid
  obtain ⟨origin, hstart⟩ := hg.exists_soleStart
  obtain ⟨block, hblock⟩ := g.exists_classifies origin
  refine ⟨origin, _, hstart, minimize_of_soleStart hstart, fun hfewest => ?_,
    fun hlive g' hvalid' hwords => ?_⟩
  · by_contra hneither
    obtain ⟨hdead, hmany⟩ := not_or.1 hneither
    have hsmall := hblock.properDfa_minimized
    obtain ⟨p, hp, hpdead⟩ : ∃ p ∈ g.reachableStates origin, g.isLive p = false := by
      by_contra hnone
      refine hdead fun p hp => isLive_iff.1 ?_
      by_contra hpdead
      exact hnone ⟨p, hp, by simpa using hpdead⟩
    have hstart' : (g.minimized origin).trim.soleStart = .ok (block origin : StateId) := by
      rw [soleStart_trim, hblock.soleStart_minimized]
    have halike : AcceptsAlike g origin (g.minimized origin).trim (block origin) := fun word => by
      rw [hsmall.outcome_trim_iff, hblock.outcome_minimized (g.origin_mem_reachableStates origin)]
    have hle := hfewest _ (issues_dfa_eq_nil_iff.2 hsmall.trim)
      ((acceptsAlike_iff hstart hstart').1 halike)
    obtain ⟨s, hs, hmark, hdropped⟩ := hblock.exists_dead hg.choiceFree hp hpdead hmany
    exact Nat.not_lt_of_le hle (length_states_trim_lt hs hmark hdropped)
  · have hg' := issues_dfa_eq_nil_iff.1 hvalid'
    obtain ⟨origin', hstart'⟩ := hg'.exists_soleStart
    obtain hlive | hone := hlive
    · exact hblock.length_states_le_of_live hg.choiceFree (fun p hp => isLive_iff.2 (hlive p hp))
        hstart' hg'.toWellFormed ((acceptsAlike_iff hstart hstart').2 hwords)
    · have hlisted := hasState_iff.1 (hasState_of_soleStart hstart')
      have hpos := List.length_pos_of_mem hlisted
      rw [List.length_map] at hpos
      exact hone.le.trans hpos

/-- A graph without dead states, in which two states are merged and one is out of
reach. -/
theorem minimize_fewest_for_language_iff_of_live :
    let g : Graph :=
      { states := [{ id := 3, isStart := true }, { id := 1, isAccepting := true },
          { id := 2, isAccepting := true }, { id := 0 }]
        transitions := [
          { source := 3, target := 1, symbol := 'a' },
          { source := 3, target := 2, symbol := 'b' },
          { source := 1, target := 3, symbol := 'b' },
          { source := 2, target := 3, symbol := 'b' },
          { source := 0, target := 1, symbol := 'a' }] }
    (Automaton.dfa g).issues = [] ∧
      ∃ origin q, g.soleStart = .ok origin ∧ g.minimize = .ok q ∧
        ((∀ g' : Graph, (Automaton.dfa g').issues = [] →
            (∀ input, (Automaton.dfa g').accepts input = (Automaton.dfa g).accepts input) →
              q.graph.states.length ≤ g'.states.length) ↔
          (∀ p ∈ reachable g.transitions origin,
            ∃ r ∈ reachable g.transitions p, g.isAccepting r = true) ∨
          q.graph.states.length = 1) := by
  intro g
  have hvalid : (Automaton.dfa g).issues = [] := by decide
  exact ⟨hvalid, minimize_fewest_for_language_iff g hvalid⟩

/-- The minimized automaton may have more states than another one for its language:
here it keeps a state that reading `a` leads to and from which nothing is accepted. -/
theorem minimize_not_fewest_for_language_of_dead :
    let g : Graph :=
      { states := [{ id := 0, isStart := true, isAccepting := true }, { id := 1 }]
        transitions := [{ source := 0, target := 1, symbol := 'a' }] }
    let g' : Graph :=
      { states := [{ id := 0, isStart := true, isAccepting := true }], transitions := [] }
    (Automaton.dfa g).issues = [] ∧ (Automaton.dfa g').issues = [] ∧
      (∀ input, (Automaton.dfa g').accepts input = (Automaton.dfa g).accepts input) ∧
      ∃ q, g.minimize = .ok q ∧ g'.states.length < q.graph.states.length := by
  intro g g'
  have hvalid : (Automaton.dfa g).issues = [] := by decide
  have hdark : g.isLive 1 = false := by
    rw [← Bool.not_eq_true, isLive_iff]
    rintro ⟨q, hq, haccepting⟩
    obtain rfl | ⟨r, ⟨t, ht, hsource, _⟩, _⟩ := (mem_reachable_iff.1 hq).cases_head
    · exact absurd haccepting (by decide)
    · obtain rfl := List.mem_singleton.1 ht
      exact absurd hsource (by decide)
  have htrim : g.trim = g' := by simp [trim, g, g', hdark]
  have halike : AcceptsAlike g 0 g' 0 := fun word =>
    htrim ▸ (issues_dfa_eq_nil_iff.1 hvalid).outcome_trim_iff
  refine ⟨hvalid, by decide, (acceptsAlike_iff rfl rfl).1 halike, _, minimize_of_soleStart rfl, ?_⟩
  obtain ⟨block, hblock⟩ := g.exists_classifies 0
  have hstart : (0 : StateId) ∈ g.reachableStates 0 := g.origin_mem_reachableStates 0
  have hdead : (1 : StateId) ∈ g.reachableStates 0 :=
    reachable_closed (t := { source := 0, target := 1, symbol := 'a' }) (by decide) hstart
  have hdiffer : block 0 ≠ block 1 := fun hsame =>
    absurd ((hblock.block_eq_iff 0 hstart 1 hdead).1 hsame).accepting_eq (by decide)
  have hfirst := (hblock.colours.lt_count_iff (block 0)).2 ⟨0, hstart, rfl⟩
  have hsecond := (hblock.colours.lt_count_iff (block 1)).2 ⟨1, hdead, rfl⟩
  change 1 < (g.minimized 0).states.length
  rw [length_states_minimized]
  omega

end Graph

end Automata
