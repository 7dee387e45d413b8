import Automata.Proofs.Determinization.Simulation
import Automata.Proofs.Determinization.Worklist
import Automata.Proofs.Issue
import Automata.Proofs.PathSemantics
import Automata.Proofs.Stepping

namespace Automata

/-- Some word, read to its end, leaves the automaton in the set. -/
def Automaton.CanBeIn (a : Automaton) (f : Frontier) : Prop :=
  ∃ (word : List Char) (begun : Execution) (r : Run Frontier),
    a.start word = .ok begun ∧ a.complete begun = .ok (.frontier r) ∧
      r.position = word.length ∧ r.current = f

namespace Frontier

variable {silence : Silence} {g : Graph} {origin : StateId} {f : Frontier}

/-- A run that has a state left at its end has read the whole input. -/
theorem position_complete {input : List Char}
    (hleft : ((machine silence g).complete (start silence g origin input)).current ≠ ∅) :
    ((machine silence g).complete (start silence g origin input)).position = input.length := by
  have hinput : (start silence g origin input).input = input := by rw [start, input_settle]
  have hposition := (Determinization.matches_start silence g origin input).position_source
  have hremaining := Run.length_remaining (start silence g origin input)
  have hsim := Determinization.simulates_repeat_step silence g origin input
    ((start silence g origin input).remaining.length + 1)
  change Determinization.Simulates _ _ _
    ((machine silence g).complete (start silence g origin input)) _ at hsim
  obtain hmatches | hstuck := hsim
  · rw [hmatches.position_source, input_complete]
    rw [hinput] at hposition hremaining
    omega
  · exact absurd hstuck.empty hleft

/-- The sets that the automaton can be in, as far as they are not empty, are those
that a word moves the start set to. -/
theorem canBeIn_iff (hstart : g.soleStart = .ok origin) (hne : f ≠ ∅) :
    (silence.automaton g).CanBeIn f ↔ ∃ word, after silence g origin word = f := by
  have hgraph : (silence.automaton g).graph.soleStart = .ok origin := by
    rw [silence.graph_automaton, hstart]
  have hdriven := Automaton.drivenBy_automaton silence g
  have hcomplete (word : List Char) := hdriven.complete_eq (lawful_machine silence g)
    ((machine silence g).trace origin word 0)
  constructor
  · rintro ⟨word, begun, r, hbegun, hr, _, rfl⟩
    obtain rfl := Except.ok.inj ((hdriven.start_eq hgraph word).symm.trans hbegun)
    obtain rfl := Execution.frontier.inj (Except.ok.inj ((hcomplete word).symm.trans hr))
    exact ⟨_, (tracks_complete silence g origin word).current.symm⟩
  · rintro ⟨word, rfl⟩
    have htracks := tracks_complete silence g origin word
    -- no state would be left by the whole word if none were left where the run has stopped
    have hleft : ((machine silence g).complete (start silence g origin word)).current ≠ ∅ := by
      intro hempty
      have hread := htracks.current.symm.trans hempty
      rw [input_complete] at hread
      have hwhole := after_append_of_empty hread
        (word.drop ((machine silence g).complete (start silence g origin word)).position)
      rw [List.take_append_drop] at hwhole
      exact hne hwhole
    have hposition := position_complete hleft
    refine ⟨word, _, _, hdriven.start_eq hgraph word, hcomplete word, hposition, ?_⟩
    have hcurrent := htracks.current
    rwa [hposition, input_complete, List.take_length] at hcurrent

/-- A set that no silent move leaves is its own closure. -/
theorem Closed.close_eq (hclosed : Closed silence g f) : silence.close g f = f := by
  refine SortedSet.ext fun q => Silence.mem_close_iff.trans ⟨?_, fun hq => ⟨q, hq, .nil q⟩⟩
  rintro ⟨p, hp, hpath⟩
  exact hclosed p hp q hpath

/-- No silent move leaves the set that a word leads to. -/
theorem closed_after (silence : Silence) (g : Graph) (origin : StateId) (word : List Char) :
    Closed silence g (after silence g origin word) := by
  intro p hp q hpath
  rw [mem_after_iff] at hp ⊢
  simpa using hp.append hpath

end Frontier

namespace Graph

variable {silence : Silence} {g : Graph} {origin : StateId}

/-- The sets of the result are those that words move the start set to. -/
theorem mem_frontiers_iff {f : Frontier} :
    f ∈ (g.determinizeFrom silence origin).frontiers ↔
      f ≠ ∅ ∧ ∃ word, Frontier.after silence g origin word = f := by
  constructor
  · intro hf
    obtain ⟨first, hfirst, hchain⟩ := Expansion.mem_reach_iff.1 hf
    obtain rfl := List.mem_singleton.1 hfirst
    clear hf
    induction hchain with
    | refl => exact ⟨Frontier.initial_ne_empty silence g origin, [], rfl⟩
    | tail _ hstep ih =>
      obtain ⟨c, _, rfl, hne⟩ := Frontier.follows_followUpSets_iff.1 hstep
      obtain ⟨_, word, rfl⟩ := ih
      exact ⟨hne, word ++ [c], Frontier.after_append word [c]⟩
  · rintro ⟨hne, word, rfl⟩
    induction word using List.reverseRecOn with
    | nil => exact List.mem_of_getElem? frontiers_zero
    | append_singleton word c ih =>
      have hbefore : Frontier.after silence g origin word ≠ ∅ := fun hempty =>
        hne (Frontier.after_append_of_empty hempty [c])
      rw [Frontier.after_append] at hne ⊢
      exact move_mem_frontiers (ih hbefore) hne

end Graph

namespace Determinization

variable {silence : Silence} {g : Graph} {origin : StateId} {d : Determinization}

/-- The mapping lists the sets in the order of their numbers. -/
theorem map_snd_mapping (d : Determinization) : d.mapping.map (·.2) = d.frontiers := by
  refine List.ext_getElem ?_ fun i _ _ => ?_
  · simp [mapping]
  · simp [mapping]

/-- The mapping lists the numbers from 0 without gaps. -/
theorem map_fst_mapping (d : Determinization) :
    d.mapping.map (·.1) = (List.range d.frontiers.length).map fun n : Nat => (n : StateId) := by
  refine List.ext_getElem ?_ fun i _ _ => ?_
  · simp [mapping]
  · simp [mapping]

/-- A number is mapped to the set at its place. -/
theorem mem_mapping_iff {k : StateId} {f : Frontier} :
    (k, f) ∈ d.mapping ↔ ∃ n : Nat, d.frontiers[n]? = some f ∧ (n : StateId) = k := by
  simp only [mapping, List.mem_mapIdx, List.getElem?_eq_some_iff, Prod.mk.injEq]
  constructor
  · rintro ⟨n, hn, hk, hf⟩
    exact ⟨n, ⟨hn, hf⟩, hk⟩
  · rintro ⟨n, ⟨hn, hf⟩, hk⟩
    exact ⟨n, hn, hk, hf⟩

/-- The moves from a list of sets start at the places in it. -/
theorem exists_source_of_mem_movesOf {symbols : List Char} {final expanded : List Frontier}
    {t : Transition} (ht : t ∈ movesOf silence g symbols final expanded) :
    ∃ n < expanded.length, t.source = n := by
  obtain ⟨_, hmoves, ht⟩ := List.mem_flatten.1 ht
  obtain ⟨n, hn, rfl⟩ := List.mem_mapIdx.1 hmoves
  obtain ⟨c, _, hsome⟩ := List.mem_filterMap.1 ht
  obtain ⟨_, rfl⟩ := transition?_eq_some_iff.1 hsome
  exact ⟨n, hn, rfl⟩

/-- No two moves start at the same place on the same symbol. -/
theorem nodup_choices_movesOf {symbols : List Char} (hsymbols : symbols.Nodup)
    (final expanded : List Frontier) :
    ((movesOf silence g symbols final expanded).map fun t => (t.source, t.symbol)).Nodup := by
  induction expanded using List.reverseRecOn with
  | nil => exact List.nodup_nil
  | append_singleton expanded f ih =>
    rw [movesOf_concat, List.map_append, List.nodup_append]
    refine ⟨ih, ?_, ?_⟩
    · rw [List.map_filterMap]
      refine hsymbols.filterMap fun c c' key hkey hkey' => ?_
      simp only [Option.mem_def, Option.map_eq_some_iff, transition?_eq_some_iff] at hkey hkey'
      obtain ⟨_, ⟨_, rfl⟩, rfl⟩ := hkey
      obtain ⟨_, ⟨_, rfl⟩, hsame⟩ := hkey'
      exact (congrArg Prod.snd hsame).symm
    · rintro _ hfirst _ hlast rfl
      obtain ⟨t, ht, hkey⟩ := List.mem_map.1 hfirst
      obtain ⟨u, hu, hkey'⟩ := List.mem_map.1 hlast
      obtain ⟨n, hn, hsource⟩ := exists_source_of_mem_movesOf ht
      obtain ⟨c, _, hsome⟩ := List.mem_filterMap.1 hu
      obtain ⟨_, rfl⟩ := transition?_eq_some_iff.1 hsome
      have hsame : t.source = expanded.length := congrArg Prod.fst (hkey.trans hkey'.symm)
      exact Nat.ne_of_lt hn (Int.ofNat_inj.1 (hsource.symm.trans hsame))

end Determinization

namespace Graph

variable {silence : Silence} {g : Graph} {origin : StateId}

theorem hasState_determinizeFrom {n : Nat} {f : Frontier}
    (hf : (g.determinizeFrom silence origin).frontiers[n]? = some f) :
    (g.determinizeFrom silence origin).graph.hasState n = true :=
  hasState_iff.2 (List.mem_map_of_mem (mem_determinizeFrom_states_iff.2 ⟨n, f, hf, rfl⟩))

/-- The result keeps all rules of checked editing. -/
theorem wellFormed_determinizeFrom : (g.determinizeFrom silence origin).graph.WellFormed where
  nodup_ids := nodup_determinizeFrom_ids
  length_startIds_le := by rw [soleStart_eq_ok_iff.1 soleStart_determinizeFrom]; exact le_rfl
  hasState_source t ht := by
    obtain ⟨n, f, c, hf, _, _, rfl⟩ := mem_determinizeFrom_transitions_iff.1 ht
    exact hasState_determinizeFrom hf
  hasState_target t ht := by
    obtain ⟨n, f, c, hf, _, hmove, rfl⟩ := mem_determinizeFrom_transitions_iff.1 ht
    exact hasState_determinizeFrom (getElem?_idxOf_move hf hmove)

/-- The result keeps all rules of a deterministic automaton, whatever is wrong with
the graph it is made from. -/
theorem properDfa_determinizeFrom : (g.determinizeFrom silence origin).graph.ProperDfa where
  toWellFormed := wellFormed_determinizeFrom
  exists_soleStart := ⟨0, soleStart_determinizeFrom⟩
  isEpsilon_eq_false t ht := by
    obtain ⟨n, f, c, _, hc, _, rfl⟩ := mem_determinizeFrom_transitions_iff.1 ht
    obtain ⟨u, _, hepsilon, rfl⟩ := mem_alphabet_iff.1 hc
    exact hepsilon
  hasStackEffect_eq_false t ht := by
    obtain ⟨n, f, c, _, _, _, rfl⟩ := mem_determinizeFrom_transitions_iff.1 ht
    rfl
  nodup_choices := Determinization.nodup_choices_movesOf (SortedSet.nodup_toList _) _ _

end Graph

/-- The result is the graph of the sets that the automaton can be in, which all
have a number and are joined by the moves between them. -/
structure Determinization.IsFrontierGraph (d : Determinization) (silence : Silence) (g : Graph)
    (origin : StateId) : Prop where
  issues_eq_nil : (Automaton.dfa d.graph).issues = []
  ids_eq : d.graph.states.map (·.id) =
    (List.range d.graph.states.length).map fun n : Nat => (n : StateId)
  keys_eq : d.mapping.map (·.1) = d.graph.states.map (·.id)
  nodup_values : (d.mapping.map (·.2)).Nodup
  mem_values_iff : ∀ f, f ∈ d.mapping.map (·.2) ↔ f ≠ ∅ ∧ (silence.automaton g).CanBeIn f
  close_eq : ∀ f ∈ d.mapping.map (·.2), silence.close g f = f
  startIds_eq : d.graph.startIds = [0]
  initial_mem : (0, Frontier.initial silence g origin) ∈ d.mapping
  isAccepting_iff : ∀ k f, (k, f) ∈ d.mapping →
    (d.graph.isAccepting k = true ↔ ∃ q ∈ f, g.isAccepting q = true)
  moves_iff : ∀ (k l : StateId) (c : Char),
    (∃ t ∈ d.graph.transitions, t.source = k ∧ t.symbol = c ∧ t.target = l) ↔
      ∃ f e, (k, f) ∈ d.mapping ∧ (l, e) ∈ d.mapping ∧ f.move silence g c = e ∧ e ≠ ∅

namespace Graph

variable {silence : Silence} {g : Graph} {origin : StateId}

theorem length_determinizeFrom_states :
    (g.determinizeFrom silence origin).graph.states.length =
      (g.determinizeFrom silence origin).frontiers.length := by
  simp [determinizeFrom]

/-- States are joined exactly as the sets they stand for. -/
theorem exists_move_determinizeFrom_iff {k l : StateId} {c : Char} :
    (∃ t ∈ (g.determinizeFrom silence origin).graph.transitions,
        t.source = k ∧ t.symbol = c ∧ t.target = l) ↔
      ∃ f e, (k, f) ∈ (g.determinizeFrom silence origin).mapping ∧
        (l, e) ∈ (g.determinizeFrom silence origin).mapping ∧ f.move silence g c = e ∧ e ≠ ∅ := by
  simp only [Determinization.mem_mapping_iff]
  constructor
  · rintro ⟨t, ht, rfl, rfl, rfl⟩
    obtain ⟨n, f, c, hf, _, hmove, rfl⟩ := mem_determinizeFrom_transitions_iff.1 ht
    exact ⟨f, _, ⟨n, hf, rfl⟩, ⟨_, getElem?_idxOf_move hf hmove, rfl⟩, rfl, hmove⟩
  · rintro ⟨f, _, ⟨n, hf, rfl⟩, ⟨m, he, rfl⟩, rfl, hmove⟩
    have hc : c ∈ g.alphabet := by
      by_contra hc
      exact hmove (Frontier.move_eq_empty_of_notMem_alphabet hc)
    refine ⟨_, mem_determinizeFrom_transitions_iff.2 ⟨n, f, c, hf, hc, hmove, rfl⟩, rfl, rfl, ?_⟩
    obtain ⟨hm, hget⟩ := List.getElem?_eq_some_iff.1 he
    rw [← hget, nodup_frontiers.idxOf_getElem]

/-- The subset construction yields the graph of all sets that the automaton can
be in. -/
theorem isFrontierGraph_determinizeFrom (hstart : g.soleStart = .ok origin) :
    (g.determinizeFrom silence origin).IsFrontierGraph silence g origin where
  issues_eq_nil := issues_dfa_eq_nil_iff.2 properDfa_determinizeFrom
  ids_eq := by rw [length_determinizeFrom_states, map_id_determinizeFrom_states]
  keys_eq := by rw [Determinization.map_fst_mapping, map_id_determinizeFrom_states]
  nodup_values := by rw [Determinization.map_snd_mapping]; exact nodup_frontiers
  mem_values_iff f := by
    rw [Determinization.map_snd_mapping, mem_frontiers_iff]
    exact and_congr_right fun hne => (Frontier.canBeIn_iff hstart hne).symm
  close_eq f hf := by
    rw [Determinization.map_snd_mapping, mem_frontiers_iff] at hf
    obtain ⟨_, word, rfl⟩ := hf
    exact (Frontier.closed_after silence g origin word).close_eq
  startIds_eq := soleStart_eq_ok_iff.1 soleStart_determinizeFrom
  initial_mem := Determinization.mem_mapping_iff.2 ⟨0, frontiers_zero, rfl⟩
  isAccepting_iff k f hkf := by
    obtain ⟨n, hf, rfl⟩ := Determinization.mem_mapping_iff.1 hkf
    rw [isAccepting_determinizeFrom hf, Frontier.isAccepting_iff]
  moves_iff _ _ _ := exists_move_determinizeFrom_iff

/-- The subset construction comes to its end and yields the graph of the sets that
the automaton can be in. No turn of its loop fails, and the queue is empty after
exactly as many turns as the result has states. Nothing is asked of the graph but a
single start state. -/
theorem determinize_is_frontier_graph (silence : Silence) (g : Graph) {origin : StateId}
    (hstart : g.soleStart = .ok origin) :
    ∃ d, g.determinize silence = .ok d ∧ g.determinizeChecked silence = .ok d ∧
      (∀ k, ∃ w, g.determinizeWithin silence k = .ok w ∧
        (w.queue = [] ↔ d.graph.states.length ≤ k) ∧
        (w.queue = [] → w.graph = d.graph ∧ w.frontiers = d.mapping)) ∧
      d.IsFrontierGraph silence g origin := by
  refine ⟨_, determinize_of_soleStart hstart silence,
    determinizeChecked_of_soleStart hstart silence, fun k => ?_,
    isFrontierGraph_determinizeFrom hstart⟩
  obtain ⟨w, hw, hqueue, hfinal⟩ := determinizeWithin_of_soleStart hstart silence k
  rw [length_determinizeFrom_states]
  refine ⟨w, hw, hqueue, fun hempty => ?_⟩
  rw [hfinal hempty]
  exact ⟨rfl, rfl⟩

/-- A graph with a choice, a repeated move, a cycle of silent moves, a move to an
unknown state and a state that nothing leads to. -/
theorem determinize_is_frontier_graph_of_loop :
    let g : Graph :=
      { states := [{ id := 3, isStart := true }, { id := -1, isAccepting := true }, { id := 5 }]
        transitions := [
          { source := 3, target := 3, symbol := 'a' },
          { source := 3, target := -1, symbol := 'a' },
          { source := 3, target := -1, symbol := 'a' },
          { source := -1, target := 3, symbol := epsilon },
          { source := 3, target := -1, symbol := epsilon },
          { source := -1, target := 7, symbol := 'b' },
          { source := 5, target := 3, symbol := 'c' }] }
    g.soleStart = .ok 3 ∧
      ∃ d, g.determinize .followed = .ok d ∧ g.determinizeChecked .followed = .ok d ∧
        (∀ k, ∃ w, g.determinizeWithin .followed k = .ok w ∧
          (w.queue = [] ↔ d.graph.states.length ≤ k) ∧
          (w.queue = [] → w.graph = d.graph ∧ w.frontiers = d.mapping)) ∧
        d.IsFrontierGraph .followed g 3 :=
  ⟨rfl, determinize_is_frontier_graph .followed _ rfl⟩

end Graph

end Automata
