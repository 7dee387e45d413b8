import Automata.Proofs.Acceptance
import Automata.Proofs.Result
import Automata.Proofs.Run.Invariant

namespace Automata

namespace Automaton

/-- The automaton drives its runs by a machine; what is done to an execution is
done to the run it wraps. -/
structure DrivenBy (a : Automaton) {C : Type} (m : Machine C) (wrap : Run C → Execution) :
    Prop where
  startAt : ∀ origin input, a.startAt origin input = wrap (m.start origin input)
  drive : ∀ (action : {D : Type} → Machine D → Run D → Run D) (r : Run C),
    a.drive action (wrap r) = .ok (wrap (action m r))
  mapRun : ∀ (f : {D : Type} → Run D → Run D) (r : Run C), (wrap r).mapRun f = wrap (f r)
  fold : ∀ {β : Type} (f : {D : Type} → Run D → β) (r : Run C), (wrap r).fold f = f r

/-- A deterministic automaton runs from state to state. -/
theorem drivenBy_dfa (g : Graph) :
    (dfa g).DrivenBy (Deterministic.machine g) .deterministic :=
  ⟨fun _ _ => rfl, fun _ _ => rfl, fun _ _ => rfl, fun _ _ => rfl⟩

/-- A nondeterministic automaton runs from frontier to frontier, and passes over
silent moves. -/
theorem drivenBy_nfa (g : Graph) :
    (nfa g).DrivenBy (Frontier.machine .ignored g) .frontier :=
  ⟨fun _ _ => rfl, fun _ _ => rfl, fun _ _ => rfl, fun _ _ => rfl⟩

/-- With silent moves allowed it follows them. -/
theorem drivenBy_epsilonNfa (g : Graph) :
    (epsilonNfa g).DrivenBy (Frontier.machine .followed g) .frontier :=
  ⟨fun _ _ => rfl, fun _ _ => rfl, fun _ _ => rfl, fun _ _ => rfl⟩

/-- A pushdown automaton runs from configuration to configuration. -/
theorem drivenBy_pda (g : Graph) (limits : Limits) :
    (pda g limits).DrivenBy (Pushdown.machine g limits) .stack :=
  ⟨fun _ _ => rfl, fun _ _ => rfl, fun _ _ => rfl, fun _ _ => rfl⟩

/-- Both kinds with frontiers, by what they do with silent moves. -/
theorem drivenBy_automaton (silence : Silence) (g : Graph) :
    (silence.automaton g).DrivenBy (Frontier.machine silence g) .frontier := by
  cases silence with
  | ignored => exact drivenBy_nfa g
  | followed => exact drivenBy_epsilonNfa g

/-- Automata of every kind are driven by a lawful machine. -/
theorem exists_drivenBy (a : Automaton) :
    ∃ (C : Type) (m : Machine C) (wrap : Run C → Execution), m.Lawful ∧ a.DrivenBy m wrap := by
  cases a with
  | dfa g => exact ⟨_, _, _, Deterministic.lawful_machine g, drivenBy_dfa g⟩
  | nfa g => exact ⟨_, _, _, Frontier.lawful_machine .ignored g, drivenBy_nfa g⟩
  | epsilonNfa g => exact ⟨_, _, _, Frontier.lawful_machine .followed g, drivenBy_epsilonNfa g⟩
  | pda g limits => exact ⟨_, _, _, Pushdown.lawful_machine g limits, drivenBy_pda g limits⟩

/-- The runs that an automaton goes through on an input, one for every number of
steps. -/
structure RunsThrough (a : Automaton) (input : List Char) (trace : Nat → Execution) : Prop where
  start : a.start input = .ok (trace 0)
  step : ∀ k, a.step (trace k) = .ok (trace (k + 1))

/-- What can be done to a run. -/
inductive Action where
  | stepForward
  | stepBackward
  | rewindTo (position : Nat)
  | executeAll

/-- Does something to a run. -/
def perform (a : Automaton) (e : Execution) : Action → Except Fault Execution
  | .stepForward => a.step e
  | .stepBackward => .ok e.stepBack
  | .rewindTo position => .ok (e.rewindTo position)
  | .executeAll => a.complete e

/-- Which of the first runs of a trace every action leads to. -/
structure Walks (a : Automaton) (trace : Nat → Execution) (last : Nat) : Prop where
  step : ∀ k ≤ last, a.step (trace k) = .ok (trace (min (k + 1) last))
  stepBack : ∀ k ≤ last, (trace k).stepBack = trace (k - 1)
  complete : ∀ k ≤ last, a.complete (trace k) = .ok (trace last)
  rewindTo : ∀ k ≤ last, ∀ n, (trace k).rewindTo n =
    if n < (trace k).position ∨ (n = (trace k).position ∧ (trace k).halt = some .noTransition)
      then trace n else trace k

namespace Walks

variable {a : Automaton} {trace : Nat → Execution} {last : Nat}

/-- An action leads from one of the runs to one of them. -/
theorem perform (hwalks : a.Walks trace last)
    (hposition : ∀ k ≤ last, (trace k).position ≤ last) {k : Nat} (hk : k ≤ last)
    (action : Action) : ∃ j ≤ last, a.perform (trace k) action = .ok (trace j) := by
  cases action with
  | stepForward => exact ⟨_, Nat.min_le_right _ _, hwalks.step k hk⟩
  | stepBackward => exact ⟨k - 1, by omega, congrArg Except.ok (hwalks.stepBack k hk)⟩
  | executeAll => exact ⟨last, Nat.le_refl _, hwalks.complete k hk⟩
  | rewindTo n =>
    have hbound := hposition k hk
    have hrewind := congrArg (Except.ok (ε := Fault)) (hwalks.rewindTo k hk n)
    split at hrewind
    · exact ⟨n, by omega, hrewind⟩
    · exact ⟨k, hk, hrewind⟩

/-- Any number of actions leads from one of the runs to one of them. -/
theorem foldlM_perform (hwalks : a.Walks trace last)
    (hposition : ∀ k ≤ last, (trace k).position ≤ last) (actions : List Action) {k : Nat}
    (hk : k ≤ last) : ∃ j ≤ last, actions.foldlM a.perform (trace k) = .ok (trace j) := by
  induction actions generalizing k with
  | nil => exact ⟨k, hk, rfl⟩
  | cons action actions ih =>
    obtain ⟨i, hi, hfirst⟩ := hwalks.perform hposition hk action
    obtain ⟨j, hj, hrest⟩ := ih hi
    refine ⟨j, hj, ?_⟩
    rw [List.foldlM_cons, hfirst]
    exact hrest

end Walks

namespace DrivenBy

variable {a : Automaton} {C : Type} {m : Machine C} {wrap : Run C → Execution}
  {origin : StateId} {input : List Char} {last : Nat}

/-- An automaton with one start state starts where the trace of its machine
does. -/
theorem start_eq (hdriven : a.DrivenBy m wrap) (hstart : a.graph.soleStart = .ok origin)
    (input : List Char) : a.start input = .ok (wrap (m.trace origin input 0)) := by
  rw [Automaton.start, hstart]
  exact congrArg Except.ok (hdriven.startAt origin input)

/-- A step of the automaton is the next run of the trace. -/
theorem step_trace (hdriven : a.DrivenBy m wrap) (k : Nat) :
    a.step (wrap (m.trace origin input k)) = .ok (wrap (m.trace origin input (k + 1))) :=
  hdriven.drive Machine.step _

/-- The runs of the automaton are those of the trace. -/
theorem runsThrough (hdriven : a.DrivenBy m wrap) (hstart : a.graph.soleStart = .ok origin)
    (input : List Char) : a.RunsThrough input fun k => wrap (m.trace origin input k) :=
  ⟨hdriven.start_eq hstart input, hdriven.step_trace⟩

/-- Completing a run succeeds, and is completing the run of the machine. -/
theorem complete_eq (hdriven : a.DrivenBy m wrap) (hm : m.Lawful) (r : Run C) :
    a.complete (wrap r) = .ok (wrap (m.complete r)) := by
  have hisFinished : (wrap r).isFinished = r.isFinished := hdriven.fold Run.isFinished r
  rw [Automaton.complete, hisFinished, hdriven.drive Machine.complete]
  split
  · rename_i hfinished
    rw [hm.complete_of_isFinished hfinished]
  · rfl

theorem trailWithin_eq (hdriven : a.DrivenBy m wrap) (n : Nat) (r : Run C) :
    a.trailWithin n (wrap r) = .ok ((m.trailWithin n r).map wrap) := by
  induction n generalizing r with
  | zero => rfl
  | succ n ih =>
    have hisFinished : (wrap r).isFinished = r.isFinished := hdriven.fold Run.isFinished r
    rw [Automaton.trailWithin, hisFinished, Machine.trailWithin]
    cases r.isFinished with
    | true => rfl
    | false => exact bind_eq_ok (hdriven.drive Machine.step r) (bind_eq_ok (ih (m.step r)) rfl)

/-- Walking to the end of a run ends where completing it does. -/
theorem exists_trail (hdriven : a.DrivenBy m wrap) (hm : m.Lawful) (r : Run C) :
    ∃ rest, a.trail (wrap r) = .ok (wrap r :: rest) ∧
      rest.getLast?.getD (wrap r) = wrap (m.complete r) := by
  have hremaining : (wrap r).remaining = r.remaining := hdriven.fold Run.remaining r
  obtain ⟨rest, hrest, hlast⟩ := hm.exists_trailWithin (r.remaining.length + 1) r
  refine ⟨rest.map wrap, ?_, ?_⟩
  · rw [trail, hremaining, hdriven.trailWithin_eq, hrest, List.map_cons]
  · rw [List.getLast?_map, Option.getD_map, hlast]
    rfl

/-- Every action succeeds, and keeps what the machine keeps. -/
theorem perform_of_keeps (hdriven : a.DrivenBy m wrap) {I : Run C → Prop} (hkeeps : m.Keeps I)
    {r : Run C} (hr : I r) (action : Action) :
    ∃ s, I s ∧ a.perform (wrap r) action = .ok (wrap s) := by
  cases action with
  | stepForward => exact ⟨m.step r, hkeeps.step r hr, hdriven.drive Machine.step r⟩
  | stepBackward => exact ⟨r.stepBack, hkeeps.stepBack r hr, congrArg _ (hdriven.mapRun _ r)⟩
  | rewindTo n => exact ⟨r.rewindTo n, hkeeps.rewindTo hr n, congrArg _ (hdriven.mapRun _ r)⟩
  | executeAll =>
    change ∃ s, I s ∧ a.complete (wrap r) = .ok (wrap s)
    unfold Automaton.complete
    split
    · exact ⟨r, hr, rfl⟩
    · exact ⟨m.complete r, hkeeps.repeat_step hr _, hdriven.drive Machine.complete r⟩

/-- What a step keeps in either direction, any number of actions keeps. -/
theorem foldlM_perform_of_keeps (hdriven : a.DrivenBy m wrap) {I : Run C → Prop}
    (hkeeps : m.Keeps I) (actions : List Action) {r : Run C} (hr : I r) :
    ∃ s, I s ∧ actions.foldlM a.perform (wrap r) = .ok (wrap s) := by
  induction actions generalizing r with
  | nil => exact ⟨r, hr, rfl⟩
  | cons action actions ih =>
    obtain ⟨t, ht, hfirst⟩ := hdriven.perform_of_keeps hkeeps hr action
    obtain ⟨s, hs, hrest⟩ := ih ht
    refine ⟨s, hs, ?_⟩
    rw [List.foldlM_cons, hfirst]
    exact hrest

/-- Doing the same again and again repeats what it does to the run. -/
theorem foldlM_replicate {action : Action} {f : Run C → Run C}
    (haction : ∀ r, a.perform (wrap r) action = .ok (wrap (f r))) (n : Nat) (r : Run C) :
    (List.replicate n action).foldlM a.perform (wrap r) = .ok (wrap (Nat.repeat f n r)) := by
  induction n generalizing r with
  | zero => rfl
  | succ n ih =>
    have hrest := ih (f r)
    rw [List.replicate_succ, List.foldlM_cons, haction, Nat.add_comm n 1, ← repeat_add f r 1 n]
    exact hrest

/-- Several steps forward are several steps of the machine. -/
theorem foldlM_stepForward (hdriven : a.DrivenBy m wrap) (n : Nat) (r : Run C) :
    (List.replicate n Action.stepForward).foldlM a.perform (wrap r) =
      .ok (wrap (Nat.repeat m.step n r)) := by
  have hstep (r : Run C) : a.perform (wrap r) .stepForward = .ok (wrap (m.step r)) :=
    hdriven.drive Machine.step r
  exact foldlM_replicate hstep n r

/-- Several steps back are several steps back of the run. -/
theorem foldlM_stepBackward (hdriven : a.DrivenBy m wrap) (n : Nat) (r : Run C) :
    (List.replicate n Action.stepBackward).foldlM a.perform (wrap r) =
      .ok (wrap (Nat.repeat Run.stepBack n r)) := by
  have hback (r : Run C) : a.perform (wrap r) .stepBackward = .ok (wrap r.stepBack) :=
    congrArg Except.ok (hdriven.mapRun Run.stepBack r)
  exact foldlM_replicate hback n r

/-- Every action leads to a run on the same trace. -/
theorem walks (hdriven : a.DrivenBy m wrap) (hm : m.Lawful)
    (hlast : m.EndsAt origin input last) :
    a.Walks (fun k => wrap (m.trace origin input k)) last where
  step k hk := by
    rw [Automaton.step, hdriven.drive Machine.step, hm.step_trace hlast hk]
  stepBack k hk := by
    rw [Execution.stepBack, hdriven.mapRun Run.stepBack, hm.stepBack_trace hlast hk]
  complete k hk := by rw [hdriven.complete_eq hm, hm.complete_trace hlast k]
  rewindTo k hk n := by
    have hposition : (wrap (m.trace origin input k)).position =
      (m.trace origin input k).position := hdriven.fold (·.position) _
    have hhalt : (wrap (m.trace origin input k)).halt = (m.trace origin input k).halt :=
      hdriven.fold (·.halt) _
    simp only [hposition, hhalt]
    rw [Execution.rewindTo, hdriven.mapRun (Run.rewindTo n), hm.rewindTo_trace hlast hk n]
    split <;> rfl

theorem position_le (hdriven : a.DrivenBy m wrap) (hm : m.Lawful)
    (hlast : m.EndsAt origin input last) {k : Nat} (hk : k ≤ last) :
    (wrap (m.trace origin input k)).position ≤ last := by
  have hposition : (wrap (m.trace origin input k)).position =
    (m.trace origin input k).position := hdriven.fold (·.position) _
  have hsteps := hm.stepsTaken_trace hlast hk
  rw [hposition]
  unfold Run.stepsTaken at hsteps
  split at hsteps <;> omega

end DrivenBy

/-- Driving a run by hand walks back and forth on one trace: the runs that
follow one another from the start up to the first that is finished. No order of
actions leads off it, and what an action leads to depends on the place alone. -/
theorem actions_walk_trace (a : Automaton) {origin : StateId}
    (hstart : a.graph.soleStart = .ok origin) (input : List Char) :
    ∃ (trace : Nat → Execution) (last : Nat), a.start input = .ok (trace 0) ∧
      (∀ i, a.step (trace i) = .ok (trace (i + 1))) ∧
      (trace last).isFinished = true ∧ (∀ i < last, (trace i).isFinished = false) ∧
      a.Walks trace last ∧
      ∀ actions : List Action, ∃ k ≤ last,
        actions.foldlM a.perform (trace 0) = .ok (trace k) := by
  obtain ⟨C, m, wrap, hm, hdriven⟩ := a.exists_drivenBy
  obtain ⟨last, hlast⟩ := hm.exists_endsAt origin input
  have hfinished (k : Nat) : (wrap (m.trace origin input k)).isFinished =
    (m.trace origin input k).isFinished := hdriven.fold Run.isFinished _
  have hwalks := hdriven.walks hm hlast
  refine ⟨fun k => wrap (m.trace origin input k), last, hdriven.start_eq hstart input,
    hdriven.step_trace, ?_, fun i hi => ?_, hwalks, fun actions => ?_⟩
  · rw [hfinished, hlast.finished]
  · rw [hfinished, hlast.unfinished i hi]
  · exact hwalks.foldlM_perform (fun _ => hdriven.position_le hm hlast) actions (Nat.zero_le _)

/-- A pushdown automaton that takes a silent move with the first symbol and gets
stuck at the second. -/
theorem actions_walk_trace_of_pushdown :
    let a : Automaton := .pda
      { states := [{ id := 0, isStart := true }, { id := 1, isAccepting := true }]
        transitions := [
          .pushdown 0 0 'a' none ['X'],
          .pushdown 0 1 epsilon (some 'X') [],
          .pushdown 1 1 'b' (some 'X') []] }
      { epsilonIterations := 2, stackGrowth := 3 }
    a.graph.soleStart = .ok 0 ∧
      ∃ (trace : Nat → Execution) (last : Nat), a.start ['a', 'b'] = .ok (trace 0) ∧
        (∀ i, a.step (trace i) = .ok (trace (i + 1))) ∧
        (trace last).isFinished = true ∧ (∀ i < last, (trace i).isFinished = false) ∧
        a.Walks trace last ∧
        ∀ actions : List Action, ∃ k ≤ last,
          actions.foldlM a.perform (trace 0) = .ok (trace k) :=
  ⟨rfl, actions_walk_trace _ rfl _⟩

end Automaton

end Automata
