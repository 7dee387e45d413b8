import Automata.Proofs.Stepping
import Automata.Proofs.Wire.Execution

namespace Automata

/-- The run has the shape of those that the automaton starts. -/
inductive Execution.BelongsTo : Execution → Automaton → Prop where
  | dfa (g : Graph) (r : Run StateId) : BelongsTo (.deterministic r) (.dfa g)
  | nfa (g : Graph) (r : Run Frontier) : BelongsTo (.frontier r) (.nfa g)
  | epsilonNfa (g : Graph) (r : Run Frontier) : BelongsTo (.frontier r) (.epsilonNfa g)
  | pda (g : Graph) (limits : Limits) (r : Run Configuration) :
    BelongsTo (.stack r) (.pda g limits)

namespace Execution.BelongsTo

variable {a : Automaton} {e : Execution}

/-- A run of the right shape is one of the machine that drives the automaton. -/
theorem exists_drivenBy (hbelongs : e.BelongsTo a) :
    ∃ (C : Type) (m : Machine C) (wrap : Run C → Execution) (r : Run C), m.Lawful ∧
      a.DrivenBy m wrap ∧ (∀ s, (wrap s).BelongsTo a) ∧ wrap r = e := by
  cases hbelongs with
  | dfa g r =>
    exact ⟨_, _, _, r, Deterministic.lawful_machine g, Automaton.drivenBy_dfa g, .dfa g, rfl⟩
  | nfa g r =>
    exact ⟨_, _, _, r, Frontier.lawful_machine .ignored g, Automaton.drivenBy_nfa g, .nfa g, rfl⟩
  | epsilonNfa g r =>
    exact ⟨_, _, _, r, Frontier.lawful_machine .followed g, Automaton.drivenBy_epsilonNfa g,
      .epsilonNfa g, rfl⟩
  | pda g limits r =>
    exact ⟨_, _, _, r, Pushdown.lawful_machine g limits, Automaton.drivenBy_pda g limits,
      .pda g limits, rfl⟩

end Execution.BelongsTo

namespace Automaton

/-- A run on an input is in bounds: every symbol that was read has its entry in
the history, what is unread is a part of the input, stepping back never takes
the position below zero, rewinding steps back no more often than there is
something to undo, and few steps are left to the end. -/
structure InBounds (a : Automaton) (input : List Char) (e : Execution) : Prop where
  belongsTo : e.BelongsTo a
  input_eq : e.input = input
  historyLength_eq : e.historyLength = e.position
  position_le : e.position ≤ input.length
  length_remaining : e.remaining.length + e.position = input.length
  stepBack :
    (e.stepBack.position = e.position ∧ e.stepBack.historyLength = e.historyLength) ∨
      (e.stepBack.position + 1 = e.position ∧ e.stepBack.historyLength + 1 = e.historyLength)
  rewindTo : ∀ n, ∃ k ≤ e.position + 1,
    (List.replicate k Action.stepBackward).foldlM a.perform e = .ok (e.rewindTo n)
  complete : ∃ n ≤ input.length - e.position + 1, ∃ last,
    (List.replicate n Action.stepForward).foldlM a.perform e = .ok last ∧
      last.isFinished = true ∧ a.complete e = .ok last ∧
      ∀ k < n, ∃ s, (List.replicate k Action.stepForward).foldlM a.perform e = .ok s ∧
        s.isFinished = false

namespace DrivenBy

variable {a : Automaton} {C : Type} {m : Machine C} {wrap : Run C → Execution} {r : Run C}

/-- Rewinding takes no more steps back than there is history, and one for a run
that is stuck. -/
theorem exists_steps_to_rewindTo (hdriven : a.DrivenBy m wrap) (r : Run C) (n : Nat) :
    ∃ k ≤ r.history.length + 1, (List.replicate k Action.stepBackward).foldlM a.perform (wrap r) =
      .ok ((wrap r).rewindTo n) := by
  obtain ⟨k, hk, hrewind⟩ := r.rewindTo_eq_repeat n
  refine ⟨k, hk, ?_⟩
  rw [hdriven.foldlM_stepBackward, Execution.rewindTo, hdriven.mapRun (Run.rewindTo n), hrewind]

/-- Steps that read what is left of the input, and one more, finish the run. -/
theorem exists_steps_to_complete (hdriven : a.DrivenBy m wrap) (hm : m.Lawful) (r : Run C) :
    ∃ n ≤ r.remaining.length + 1, ∃ last,
      (List.replicate n Action.stepForward).foldlM a.perform (wrap r) = .ok last ∧
        last.isFinished = true ∧ a.complete (wrap r) = .ok last ∧
        ∀ k < n, ∃ s, (List.replicate k Action.stepForward).foldlM a.perform (wrap r) = .ok s ∧
          s.isFinished = false := by
  have hisFinished (s : Run C) : (wrap s).isFinished = s.isFinished :=
    hdriven.fold Run.isFinished s
  obtain ⟨n, hn, hfinished, hunfinished⟩ := hm.exists_first_finished r
  refine ⟨n, hn, wrap (m.complete r), ?_, ?_, hdriven.complete_eq hm r, fun k hk => ?_⟩
  · rw [hdriven.foldlM_stepForward, hm.repeat_step_eq_complete hfinished]
  · rw [hisFinished, hm.progresses.isFinished_complete]
  · exact ⟨_, hdriven.foldlM_stepForward k r, by rw [hisFinished, hunfinished k hk]⟩

/-- A run that is well formed stays within its input and its history, whatever
comes next. -/
theorem inBounds (hdriven : a.DrivenBy m wrap) (hm : m.Lawful)
    (hbelongs : (wrap r).BelongsTo a) (hr : r.WellFormed) : a.InBounds r.input (wrap r) := by
  have hposition (s : Run C) : (wrap s).position = s.position := hdriven.fold (·.position) s
  have hhistory (s : Run C) : (wrap s).historyLength = s.history.length :=
    hdriven.fold (·.history.length) s
  have hback : (wrap r).stepBack = wrap r.stepBack := hdriven.mapRun Run.stepBack r
  have hremaining : (wrap r).remaining = r.remaining := hdriven.fold Run.remaining r
  refine ⟨hbelongs, hdriven.fold (·.input) r, ?_, ?_, ?_, ?_, ?_, ?_⟩
  · rw [hhistory, hposition, hr.1]
  · rw [hposition]
    exact hr.2
  · rw [hremaining, hposition, hr.remaining]
  · rw [hback, hposition, hposition, hhistory, hhistory]
    exact hr.position_stepBack
  · rw [hposition, ← hr.1]
    exact hdriven.exists_steps_to_rewindTo r
  · rw [hposition, ← Run.length_remaining]
    exact hdriven.exists_steps_to_complete hm r

end DrivenBy

/-- Whatever is done to a run that was read succeeds and leaves it in bounds, on
the same input, provided the automaton is of the kind that the run belongs to.
The configurations, the halt and the verdict that were read are not asked
about. -/
theorem actions_in_bounds_of_read (a : Automaton) {j : Json} {e : Execution}
    (hread : Execution.ofJson j = .ok e) (hbelongs : e.BelongsTo a) (actions : List Action) :
    ∃ s, actions.foldlM a.perform e = .ok s ∧ a.InBounds e.input s := by
  obtain ⟨C, m, wrap, r, hm, hdriven, hwrap, rfl⟩ := hbelongs.exists_drivenBy
  have hr : r.WellFormed := by
    have hwell := (Execution.ofJson_eq_ok_iff.1 hread).2
    rwa [Execution.WellFormed, hdriven.fold] at hwell
  have hinput (s : Run C) : (wrap s).input = s.input := hdriven.fold (·.input) s
  have hkeeps := hm.keeps_wellFormed.and (hm.keeps_input r.input)
  obtain ⟨s, ⟨hs, hsame⟩, hreached⟩ := hdriven.foldlM_perform_of_keeps hkeeps actions ⟨hr, rfl⟩
  refine ⟨wrap s, hreached, ?_⟩
  rw [hinput, ← hsame]
  exact hdriven.inBounds hm (hwrap s) hs

/-- A run that no machine produces: its stack is empty, it is in a state that the
graph lacks, and it was stopped by a bound in the middle of its input without a
verdict. -/
theorem actions_in_bounds_of_read_stray :
    let a : Automaton := .pda
      { states := [{ id := 0, isStart := true }]
        transitions := [.pushdown 0 0 epsilon none ['X']] }
      { epsilonIterations := 0, stackGrowth := 2 }
    let j : Json := .obj [("kind", "stack"), ("state", .obj [
      ("input", "ab"), ("position", .int 1), ("halt", .obj [("limitExceeded", "stackGrowth")]),
      ("current", .obj [("state", .int 7), ("stack", .arr [])]),
      ("history", .arr [.obj [("state", .int 0), ("stack", .arr ["#", "Y"])]])])]
    let e : Execution := .stack {
      input := ['a', 'b'], position := 1, halt := some (.limitExceeded .stackGrowth)
      current := ⟨7, []⟩, history := [⟨0, ['Y', '#']⟩] }
    Execution.ofJson j = .ok e ∧ e.BelongsTo a ∧ ∀ actions : List Action,
      ∃ s, actions.foldlM a.perform e = .ok s ∧ a.InBounds e.input s := by
  intro a j e
  have hread : Execution.ofJson j = .ok e := rfl
  have hbelongs : e.BelongsTo a := .pda _ _ _
  exact ⟨hread, hbelongs, actions_in_bounds_of_read a hread hbelongs⟩

end Automaton

end Automata
