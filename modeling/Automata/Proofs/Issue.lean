import Automata.Issue
import Automata.Proofs.Graph.WellFormed

namespace Automata

/-- Nothing is repeated exactly if all values are distinct. -/
theorem repeated_eq_nil_iff {α : Type} [Ranked α] [DecidableEq α] {values : List α} :
    repeated values = [] ↔ values.Nodup := by
  rw [List.nodup_iff_count_le_one, repeated, List.filter_eq_nil_iff]
  simp only [List.forall_mem_map, SortedSet.mem_toList, SortedSet.mem_ofList, decide_eq_true_eq,
    Nat.not_lt]
  constructor
  · intro hlisted a
    by_cases ha : a ∈ values
    · exact hlisted a ha
    · rw [List.count_eq_zero_of_not_mem ha]
      exact Nat.zero_le 1
  · intro hcount a _
    exact hcount a

namespace Graph

variable {g : Graph}

/-- No unknown end is found exactly if all moves run between known states. -/
theorem endpointIssues_eq_nil_iff :
    (g.transitions.flatMap fun t =>
      ([t.source, t.target].filter (!g.hasState ·)).map (Issue.unknownEndpoint t)) = [] ↔
      ∀ t ∈ g.transitions, g.hasState t.source = true ∧ g.hasState t.target = true := by
  simp [List.flatMap_eq_nil_iff, List.filter_eq_nil_iff]

/-- Nothing is wrong with the structure exactly if the graph is well formed and
has a start state. -/
theorem structuralIssues_eq_nil_iff :
    g.structuralIssues = [] ↔ g.WellFormed ∧ ∃ origin, g.soleStart = .ok origin := by
  rw [structuralIssues, List.append_eq_nil_iff, List.append_eq_nil_iff, List.map_eq_nil_iff,
    repeated_eq_nil_iff, endpointIssues_eq_nil_iff]
  cases hstart : g.soleStart with
  | error cause =>
    refine iff_of_false (fun hnone => List.cons_ne_nil _ _ hnone.1.2) ?_
    rintro ⟨_, _, hok⟩
    cases hok
  | ok origin =>
    constructor
    · rintro ⟨⟨hnodup, _⟩, hknown⟩
      have hstarts : g.startIds.length ≤ 1 := by simp [soleStart_eq_ok_iff.1 hstart]
      exact ⟨⟨hnodup, hstarts, fun t ht => (hknown t ht).1, fun t ht => (hknown t ht).2⟩, _, rfl⟩
    · rintro ⟨hg, _⟩
      exact ⟨⟨hg.nodup_ids, rfl⟩, fun t ht => ⟨hg.hasState_source t ht, hg.hasState_target t ht⟩⟩

/-- No silent move is found exactly if every move reads. -/
theorem epsilonIssues_eq_nil_iff {kind : Kind} :
    g.epsilonIssues kind = [] ↔ ∀ t ∈ g.transitions, t.isEpsilon = false := by
  simp [epsilonIssues, List.filter_eq_nil_iff]

/-- No use of the stack is found exactly if every move leaves it alone. -/
theorem stackIssues_eq_nil_iff {kind : Kind} :
    g.stackIssues kind = [] ↔ ∀ t ∈ g.transitions, t.hasStackEffect = false := by
  simp [stackIssues, List.filter_eq_nil_iff]

/-- No choice is found exactly if no two reading moves share source and
symbol. -/
theorem choiceIssues_eq_nil_iff :
    g.choiceIssues = [] ↔
      ((g.transitions.filter (!·.isEpsilon)).map fun t => (t.source, t.symbol)).Nodup := by
  rw [choiceIssues, List.map_eq_nil_iff, repeated_eq_nil_iff]

/-- No choice is found exactly if no two moves share source, symbol and demanded
symbol. -/
theorem stackChoiceIssues_eq_nil_iff :
    g.stackChoiceIssues = [] ↔
      (g.transitions.map fun t => (t.source, t.symbol, t.pop)).Nodup := by
  rw [stackChoiceIssues, List.map_eq_nil_iff, repeated_eq_nil_iff]

/-- What a deterministic automaton keeps to: a well-formed graph with one start
state whose moves read a symbol, leave the stack alone, and never compete. -/
structure ProperDfa (g : Graph) : Prop extends g.WellFormed where
  exists_soleStart : ∃ origin, g.soleStart = .ok origin
  isEpsilon_eq_false : ∀ t ∈ g.transitions, t.isEpsilon = false
  hasStackEffect_eq_false : ∀ t ∈ g.transitions, t.hasStackEffect = false
  nodup_choices : (g.transitions.map fun t => (t.source, t.symbol)).Nodup

/-- Nothing is wrong with a deterministic automaton exactly if its graph is a
proper one. -/
theorem issues_dfa_eq_nil_iff : (Automaton.dfa g).issues = [] ↔ g.ProperDfa := by
  simp only [Automaton.issues, List.append_eq_nil_iff, structuralIssues_eq_nil_iff,
    epsilonIssues_eq_nil_iff, stackIssues_eq_nil_iff, choiceIssues_eq_nil_iff]
  have hall (hsilent : ∀ t ∈ g.transitions, t.isEpsilon = false) :
      g.transitions.filter (!·.isEpsilon) = g.transitions :=
    List.filter_eq_self.2 fun t ht => by rw [hsilent t ht]; rfl
  constructor
  · rintro ⟨⟨⟨⟨hg, hstart⟩, hsilent⟩, hstack⟩, hchoices⟩
    exact ⟨hg, hstart, hsilent, hstack, hall hsilent ▸ hchoices⟩
  · rintro ⟨hg, hstart, hsilent, hstack, hchoices⟩
    exact ⟨⟨⟨⟨hg, hstart⟩, hsilent⟩, hstack⟩, (hall hsilent).symm ▸ hchoices⟩

end Graph

end Automata
