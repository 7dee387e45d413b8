import Automata.Proofs.Acceptance
import Automata.Proofs.Run.Trace

namespace Automata

namespace Frontier

variable {silence : Silence} {g : Graph} {origin : StateId} {input : List Char} {r : Run Frontier}

/-- How a run through sets of states can have halted. It is never stuck at a
symbol: the symbol that leaves no state has been read. -/
def HaltsAhead (r : Run Frontier) : Prop :=
  r.halt = none ∨ r.halt = some .endOfInput ∨ (r.halt = some .emptyFrontier ∧ r.current = ∅)

theorem HaltsAhead.isStuck_eq_false (hr : HaltsAhead r) : r.isStuck = false := by
  obtain hhalt | hhalt | ⟨hhalt, _⟩ := hr <;> simp [Run.isStuck, hhalt, Halt.advanced]

/-- A run that is settled has its halt ahead. -/
theorem haltsAhead_settle (hhalt : r.halt = none) : HaltsAhead (settle g r) := by
  obtain ⟨_, hsettle⟩ | ⟨_, hsettle⟩ := settle_cases g r
  · rw [hsettle]
    exact .inr (.inl rfl)
  · rw [hsettle]
    exact .inl hhalt

/-- A step keeps the halt ahead. -/
theorem HaltsAhead.step (hr : HaltsAhead r) : HaltsAhead (step silence g r) := by
  cases hopen : r.isFinished with
  | true =>
    rw [step_of_isFinished hopen]
    exact hr
  | false =>
    have hhalt : r.halt = none := Run.isFinished_eq_false_iff.1 hopen
    obtain ⟨_, hstep⟩ | ⟨c, _, ⟨_, hstep⟩ | ⟨_, hstep⟩⟩ := step_cases silence g hopen
    · rw [hstep]
      exact .inr (.inl rfl)
    · rw [hstep]
      exact .inr (.inr ⟨rfl, rfl⟩)
    · rw [hstep]
      exact haltsAhead_settle hhalt

/-- No run from the start is stuck before it stops. -/
theorem haltsAhead_trace (silence : Silence) (g : Graph) (origin : StateId) (input : List Char)
    (k : Nat) : HaltsAhead ((machine silence g).trace origin input k) := by
  induction k with
  | zero => exact haltsAhead_settle rfl
  | succ k ih => exact ih.step

/-- Every step up to the last reads a symbol. -/
theorem position_trace {last : Nat} (hlast : (machine silence g).EndsAt origin input last) {k : Nat}
    (hk : k ≤ last) : ((machine silence g).trace origin input k).position = k := by
  have hsteps := (lawful_machine silence g).stepsTaken_trace hlast hk
  rwa [Run.stepsTaken, (haltsAhead_trace silence g origin input k).isStuck_eq_false,
    if_neg Bool.false_ne_true] at hsteps

/-- A run keeps its input. -/
theorem input_trace (k : Nat) : ((machine silence g).trace origin input k).input = input := by
  change (Nat.repeat (Frontier.step silence g) k (start silence g origin input)).input = input
  rw [input_repeat_step, start, input_settle]

/-- The states of a run are the ends of the paths that spell what it has read. -/
theorem mem_current_trace_iff (k : Nat) {q : StateId} :
    q ∈ ((machine silence g).trace origin input k).current ↔
      Path silence g.transitions origin
        (input.take ((machine silence g).trace origin input k).position) q := by
  have htracks : Tracks silence g origin ((machine silence g).trace origin input k) :=
    tracks_repeat_step silence g origin input k
  rw [htracks.current, mem_after_iff, input_trace]

/-- A run that is left without a state leaves no path for the whole input. -/
theorem not_path_of_emptyFrontier {k : Nat}
    (hhalt : ((machine silence g).trace origin input k).halt = some .emptyFrontier)
    (q : StateId) : ¬ Path silence g.transitions origin input q := by
  have htracks : Tracks silence g origin ((machine silence g).trace origin input k) :=
    tracks_repeat_step silence g origin input k
  have hcurrent : ((machine silence g).trace origin input k).current = ∅ := by
    obtain hnone | hend | ⟨_, hempty⟩ := haltsAhead_trace silence g origin input k
    · rw [hhalt] at hnone
      cases hnone
    · rw [hhalt] at hend
      cases hend
    · exact hempty
  have hread := after_append_of_empty (htracks.current.symm.trans hcurrent)
    (input.drop ((machine silence g).trace origin input k).position)
  rw [input_trace, List.take_append_drop] at hread
  rw [← mem_after_iff, hread]
  exact SortedSet.notMem_empty

end Frontier

theorem Silence.graph_automaton (silence : Silence) (g : Graph) :
    (silence.automaton g).graph = g := by
  cases silence <;> rfl

namespace Automaton

/-- A run through sets of states follows all paths at once: after `k` symbols it
is in the ends of the paths that spell them, in epsilon automata with silent
moves anywhere on the way. So an input is accepted along a path that spells it,
also if the run ends early because no state is left, and epsilon, which no path
spells, is in no accepted input. -/
theorem frontier_eq_path_ends (silence : Silence) (g : Graph) {origin : StateId}
    (hstart : g.soleStart = .ok origin) (input : List Char) :
    ∃ (run : Nat → Run Frontier) (last : Nat),
      (silence.automaton g).start input = .ok (.frontier (run 0)) ∧
      (∀ k, (silence.automaton g).step (.frontier (run k)) = .ok (.frontier (run (k + 1)))) ∧
      (run last).isFinished = true ∧ (∀ k < last, (run k).isFinished = false) ∧
      (∀ k ≤ last, (run k).position = k ∧
        ∀ q, q ∈ (run k).current ↔ Path silence g.transitions origin (input.take k) q) ∧
      (∃ verdict, (silence.automaton g).accepts input = .ok verdict ∧
        (verdict = true ↔
          ∃ q, Path silence g.transitions origin input q ∧ g.isAccepting q = true)) ∧
      ((run last).halt = some .emptyFrontier →
        ∀ q, ¬ Path silence g.transitions origin input q) ∧
      (epsilon ∈ input → (silence.automaton g).accepts input = .ok false) := by
  obtain ⟨last, hlast⟩ := (Frontier.lawful_machine silence g).exists_endsAt origin input
  have haccepts := silence.accepts_automaton hstart input
  refine ⟨(Frontier.machine silence g).trace origin input, last, ?_, fun k => ?_, hlast.finished,
    hlast.unfinished, fun k hk => ?_, ⟨_, haccepts, Frontier.acceptsFrom_iff silence g origin input⟩,
    fun hhalt => Frontier.not_path_of_emptyFrontier hhalt, fun hepsilon => ?_⟩
  · rw [start, silence.graph_automaton, hstart]
    cases silence <;> rfl
  · cases silence <;> rfl
  · have hposition := Frontier.position_trace hlast hk
    refine ⟨hposition, fun q => ?_⟩
    rw [Frontier.mem_current_trace_iff, hposition]
  · rw [haccepts]
    refine congrArg Except.ok (Bool.eq_false_iff.2 fun haccepted => ?_)
    obtain ⟨q, hpath, _⟩ := (Frontier.acceptsFrom_iff silence g origin input).1 haccepted
    exact hpath.epsilon_notMem hepsilon

/-- A graph with a cycle of silent moves around a symbol, a move to an unknown
state and an input that no path spells to its end. -/
theorem frontier_eq_path_ends_of_cycle :
    let g : Graph :=
      { states := [{ id := 0, isStart := true }, { id := 1, isAccepting := true }]
        transitions := [
          { source := 0, target := 1, symbol := epsilon },
          { source := 1, target := 0, symbol := epsilon },
          { source := 1, target := 0, symbol := 'a' },
          { source := 0, target := 7, symbol := 'b' }] }
    let input := ['a', 'b', 'a', 'a']
    g.soleStart = .ok 0 ∧
      ∃ (run : Nat → Run Frontier) (last : Nat),
        (Automaton.epsilonNfa g).start input = .ok (.frontier (run 0)) ∧
        (∀ k, (Automaton.epsilonNfa g).step (.frontier (run k)) =
          .ok (.frontier (run (k + 1)))) ∧
        (run last).isFinished = true ∧ (∀ k < last, (run k).isFinished = false) ∧
        (∀ k ≤ last, (run k).position = k ∧
          ∀ q, q ∈ (run k).current ↔ Path .followed g.transitions 0 (input.take k) q) ∧
        (∃ verdict, (Automaton.epsilonNfa g).accepts input = .ok verdict ∧
          (verdict = true ↔
            ∃ q, Path .followed g.transitions 0 input q ∧ g.isAccepting q = true)) ∧
        ((run last).halt = some .emptyFrontier →
          ∀ q, ¬ Path .followed g.transitions 0 input q) ∧
        (epsilon ∈ input → (Automaton.epsilonNfa g).accepts input = .ok false) :=
  ⟨rfl, frontier_eq_path_ends .followed _ rfl _⟩

end Automaton

end Automata
