import Automata.Proofs.Minimization.Idempotence

namespace Automata

open Deterministic (Indistinguishable RunsAgree destination outcome)

namespace Graph

variable {g g' : Graph} {origin origin' : StateId} {block : StateId → Nat}

/-- Words lead from listed states to listed states. -/
theorem WellFormed.hasState_of_destination (hg : g.WellFormed) {p q : StateId}
    (hp : g.hasState p = true) {word : List Char} (hword : destination g p word = some q) :
    g.hasState q = true := by
  induction word generalizing p with
  | nil =>
    cases hword
    exact hp
  | cons c word ih =>
    obtain ⟨next, hsuccessor, hrest⟩ := Option.bind_eq_some_iff.1 hword
    obtain ⟨t, ht, _, _, rfl⟩ := Deterministic.exists_move_of_successor hsuccessor
    exact ih (hg.hasState_target t ht) hrest

/-- A state of another graph stands for a state: some word leads to it there, and
to a state here that no word tells from the given one. -/
def StandsFor (g : Graph) (origin : StateId) (g' : Graph) (origin' : StateId) (p s : StateId) :
    Prop :=
  ∃ word q, destination g origin word = some q ∧ Indistinguishable g p q ∧
    destination g' origin' word = some s

/-- The number of blocks is a lower bound for every graph that has a state to stand
for each of them. -/
theorem Classifies.length_states_le (hblock : g.Classifies origin block) (g' : Graph)
    (origin' : StateId)
    (htotal : ∀ p ∈ g.reachableStates origin, ∃ s, g'.hasState s = true ∧
      StandsFor g origin g' origin' p s)
    (hseparate : ∀ p ∈ g.reachableStates origin, ∀ q ∈ g.reachableStates origin, ∀ s,
      StandsFor g origin g' origin' p s → StandsFor g origin g' origin' q s →
        Indistinguishable g p q) :
    (g.minimized origin).states.length ≤ g'.states.length := by
  have hchoice (n : Nat) (hn : n ∈ List.range (g.minimized origin).states.length) :
      ∃ s, g'.hasState s = true ∧ ∃ p ∈ g.reachableStates origin, block p = n ∧
        StandsFor g origin g' origin' p s := by
    rw [List.mem_range, length_states_minimized] at hn
    obtain ⟨p, hp, hpn⟩ := (hblock.colours.lt_count_iff n).1 hn
    obtain ⟨s, hs, hstands⟩ := htotal p hp
    exact ⟨s, hs, p, hp, hpn, hstands⟩
  choose! state hlisted member hmember hnumber hstands using hchoice
  have hnodup : ((List.range (g.minimized origin).states.length).map state).Nodup := by
    refine List.nodup_range.map_on fun m hm n hn hsame => ?_
    rw [← hnumber m hm, ← hnumber n hn]
    refine (hblock.block_eq_iff _ (hmember m hm) _ (hmember n hn)).2 ?_
    exact hseparate _ (hmember m hm) _ (hmember n hn) _ (hstands m hm) (hsame ▸ hstands n hn)
  have hsubset : (List.range (g.minimized origin).states.length).map state ⊆
      g'.states.map (·.id) := by
    intro s hs
    obtain ⟨n, hn, rfl⟩ := List.mem_map.1 hs
    exact hasState_iff.1 (hlisted n hn)
  simpa using hnodup.length_le_of_subset hsubset

/-- A state that stands for another shows the same on every word if the runs of the
graphs agree. -/
theorem StandsFor.outcome_eq {p s : StateId} (hstands : StandsFor g origin g' origin' p s)
    (hagree : RunsAgree g origin g' origin') (word : List Char) :
    outcome g' s word = outcome g p word := by
  obtain ⟨first, q, hq, hsame, hs⟩ := hstands
  rw [Deterministic.indistinguishable_iff.1 hsame word,
    ← Deterministic.outcome_of_destination hq, ← Deterministic.outcome_of_destination hs,
    Deterministic.runsAgree_iff.1 hagree]

/-- A well-formed graph with the same runs has no fewer states than the
minimized one, if runs miss nothing. -/
theorem Classifies.length_states_le_of_runsAgree (hblock : g.Classifies origin block)
    (hcover : g.RunsCover origin) (hstart' : g'.soleStart = .ok origin') (hg' : g'.WellFormed)
    (hagree : RunsAgree g origin g' origin') :
    (g.minimized origin).states.length ≤ g'.states.length := by
  refine hblock.length_states_le g' origin' (fun p hp => ?_) fun p _ q _ s hp hq => ?_
  · obtain ⟨word, q, hq, hsame⟩ := hcover p hp
    have houtcome : outcome g' origin' word = some (g.isAccepting q) := by
      rw [Deterministic.runsAgree_iff.1 hagree, outcome, hq]
      rfl
    obtain ⟨s, hs, _⟩ := Deterministic.outcome_eq_some_iff.1 houtcome
    exact ⟨s, hg'.hasState_of_destination (hasState_of_soleStart hstart') hs, word, q, hq, hsame, hs⟩
  · exact Deterministic.indistinguishable_iff.2 fun word =>
      (hp.outcome_eq hagree word).symm.trans (hq.outcome_eq hagree word)

/-- The minimized graph has as few states as any well-formed graph whose runs agree
with those of the given one, exactly if each state that moves lead to is
indistinguishable from one that some word leads to. That is so for every graph
without silent and without competing moves. -/
theorem minimize_fewest_iff_runsCover (g : Graph) {origin : StateId}
    (hstart : g.soleStart = .ok origin) :
    ∃ q, g.minimize = .ok q ∧
      (g.RunsCover origin ↔ ∀ (g' : Graph) (origin' : StateId), g'.soleStart = .ok origin' →
        g'.WellFormed → RunsAgree g origin g' origin' →
          q.graph.states.length ≤ g'.states.length) ∧
      (g.ChoiceFree → g.RunsCover origin) := by
  obtain ⟨block, hblock⟩ := g.exists_classifies origin
  refine ⟨_, minimize_of_soleStart hstart, ⟨fun hcover g' origin' hstart' hg' hagree => ?_,
    fun hfewest => ?_⟩, fun hfree => hfree.runsCover origin⟩
  · exact hblock.length_states_le_of_runsAgree hcover hstart' hg' hagree
  · -- minimizing twice would otherwise give a smaller graph with the same runs
    by_contra hmissed
    obtain ⟨block', hblock'⟩ := (g.minimized origin).exists_classifies (block origin)
    have hagree : RunsAgree g origin ((g.minimized origin).minimized (block origin))
        (block' (block origin)) := by
      refine Deterministic.runsAgree_iff.2 fun input => ?_
      rw [Deterministic.runsAgree_iff.1 hblock'.runsAgree_minimized,
        Deterministic.runsAgree_iff.1 hblock.runsAgree_minimized]
    have hle := hfewest _ _ hblock'.soleStart_minimized
      hblock'.properDfa_minimized.toWellFormed hagree
    exact Nat.not_lt_of_le hle (hblock.length_states_minimized_lt hmissed)

/-- A graph with a state out of reach, a dead state that is kept, and two states to
merge. -/
theorem minimize_fewest_iff_runsCover_of_dead :
    let g : Graph :=
      { states := [{ id := 0, isStart := true }, { id := 1, isAccepting := true },
          { id := 2, isAccepting := true }, { id := 3 }, { id := 4 }]
        transitions := [
          { source := 0, target := 1, symbol := 'a' },
          { source := 0, target := 2, symbol := 'b' },
          { source := 1, target := 3, symbol := 'b' },
          { source := 2, target := 3, symbol := 'b' },
          { source := 4, target := 0, symbol := 'a' }] }
    g.soleStart = .ok 0 ∧
      ∃ q, g.minimize = .ok q ∧
        (g.RunsCover 0 ↔ ∀ (g' : Graph) (origin' : StateId), g'.soleStart = .ok origin' →
          g'.WellFormed → RunsAgree g 0 g' origin' →
            q.graph.states.length ≤ g'.states.length) ∧
        (g.ChoiceFree → g.RunsCover 0) :=
  ⟨rfl, minimize_fewest_iff_runsCover _ rfl⟩

/-- Without silent moves alone, the minimized graph may have more states than
another one with the same runs: it keeps a state that only a move leads to which no
run takes. -/
theorem minimize_not_fewest_of_shadowed :
    let loop : Graph :=
      { states := [{ id := 0, isStart := true }]
        transitions := [{ source := 0, target := 0, symbol := 'a' }] }
    shadowed.soleStart = .ok 0 ∧ (∀ t ∈ shadowed.transitions, t.isEpsilon = false) ∧
      loop.soleStart = .ok 0 ∧ loop.WellFormed ∧ RunsAgree shadowed 0 loop 0 ∧
      ∃ q, shadowed.minimize = .ok q ∧ loop.states.length < q.graph.states.length := by
  intro loop
  have hloop (c : Char) : Deterministic.successor loop 0 c = if c = 'a' then some 0 else none := by
    by_cases hc : c = 'a'
    · rw [if_pos hc, hc]
      rfl
    · rw [if_neg hc, Deterministic.successor_eq_none_iff]
      simp [loop, Transition.reads, Ne.symm hc]
  have hsame : Deterministic.Morphism shadowed loop (· = 0) id := by
    refine ⟨?_, ?_, ?_⟩
    · rintro p q c rfl hsuccessor
      rw [successor_shadowed, Option.ite_none_right_eq_some] at hsuccessor
      exact (Option.some.inj hsuccessor.2).symm
    · rintro p c rfl
      rw [successor_shadowed, Option.map_id, id_eq, id_eq, hloop]
    · rintro p rfl
      rfl
  obtain ⟨block, hblock⟩ := shadowed.exists_classifies 0
  refine ⟨rfl, by decide, rfl, ⟨by decide, by decide, by decide, by decide⟩, ?_,
    _, minimize_of_soleStart rfl, ?_⟩
  · exact Deterministic.runsAgree_iff.2 fun input => hsame.outcome_map rfl input
  · have hless := hblock.length_reachableStates_lt not_runsCover_shadowed
    have hstart := (shadowed.minimized 0).origin_mem_reachableStates (block 0)
    exact Nat.lt_of_le_of_lt (List.length_pos_of_mem hstart) hless

end Graph

end Automata
