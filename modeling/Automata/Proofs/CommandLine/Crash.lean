import Automata.CommandLine.Program
import Automata.Proofs.Determinization.Checked
import Automata.Proofs.EpsilonElimination
import Automata.Proofs.Graph.Editing
import Automata.Proofs.Minimization.Checked
import Automata.Proofs.Stepping

namespace Automata

/-- Silent moves can be removed from a graph with a single start state exactly
if its numbers are distinct and no known state reads a symbol into an unknown
one. -/
theorem Graph.exists_eliminateEpsilon_iff {g : Graph} {origin : StateId}
    (hstart : g.soleStart = .ok origin) :
    (∃ g', g.eliminateEpsilon = .ok g') ↔
      (g.states.map (·.id)).Nodup ∧ ∀ p c q, g.hasState p = true →
        Path .followed g.transitions p [c] q → g.hasState q = true := by
  have hstarts : g.startIds.length ≤ 1 := by simp [soleStart_eq_ok_iff.1 hstart]
  rw [eliminateEpsilon_eq, exists_ofParts_iff, wellFormed_withoutEpsilon_iff]
  simp only [hstarts, true_and]

namespace CommandLine

variable {a : Automaton} {g : Graph} {origin : StateId}

/-- A report says how the run on an input ended, which was carried to its end. -/
def RunReport.Describes (r : RunReport) (a : Automaton) (input : String) : Prop :=
  r.input = input ∧ ∃ first last, a.start input.toList = .ok first ∧ a.complete first = .ok last ∧
    last.isFinished = true ∧ r.accepted = last.verdict.getD false ∧
      r.position = last.position ∧ r.halt = last.halt

/-- An automaton with a single start state is run on an input to the end,
whatever else is wrong with it. -/
theorem exists_runOne (hstart : a.graph.soleStart = .ok origin) (trace : Bool) (input : String) :
    ∃ r, runOne a trace input = .ok r ∧ r.Describes a input := by
  obtain ⟨C, m, wrap, hm, hdriven⟩ := a.exists_drivenBy
  have hfirst := hdriven.start_eq hstart input.toList
  obtain ⟨rest, htrail, hlast⟩ := hdriven.exists_trail hm (m.trace origin input.toList 0)
  have hstarts : (a.start input.toList).mapError Fault.graph =
      .ok (wrap (m.trace origin input.toList 0)) := by
    rw [hfirst]
    rfl
  refine ⟨_, bind_eq_ok hstarts (bind_eq_ok htrail rfl), rfl, _, _, hfirst,
    hdriven.complete_eq hm _, ?_, ?_, ?_, ?_⟩
  · exact (hdriven.fold Run.isFinished _).trans (hm.progresses.isFinished_complete _)
  all_goals simp only [RunReport.ofTrail, List.tail_cons, hlast]

/-- An automaton with a single start state is run on every input. -/
theorem exists_runAll (hstart : a.graph.soleStart = .ok origin) (inputs : List String)
    (trace : Bool) : ∃ reports, runAll a inputs trace = .ok reports ∧
      List.Forall₂ (fun input r => r.Describes a input) inputs reports := by
  obtain ⟨reports, hreports, hall⟩ := exists_mapM_eq_ok fun input (_ : input ∈ inputs) =>
    exists_runOne hstart trace input
  refine ⟨reports, ?_, hall⟩
  rw [runAll, hstart, hreports]
  rfl

/-- Without a single start state nothing is run, and the reason is reported. -/
theorem runAll_of_error {cause : GraphError} (hstart : a.graph.soleStart = .error cause)
    (inputs : List String) (trace : Bool) :
    runAll a inputs trace = .error (.notExecutable cause) := by
  rw [runAll, hstart]
  rfl

/-- A DFA with a single start state is minimized. -/
theorem minimize_dfa (hstart : g.soleStart = .ok origin) :
    minimize (.dfa g) =
      .ok ((Table.ofGraphFrom g origin).quotient g (Table.ofGraphFrom g origin).refine) := by
  rw [minimize, hstart, Graph.minimizeChecked_of_soleStart hstart]
  rfl

/-- Minimizing never crashes. -/
theorem minimize_ne_crash (a : Automaton) (cause : Fault) : minimize a ≠ .error (.crash cause) := by
  cases a with
  | dfa g =>
    cases hstart : g.soleStart with
    | error reason =>
      rw [minimize, hstart]
      nofun
    | ok origin =>
      rw [minimize_dfa hstart]
      nofun
  | nfa g => nofun
  | epsilonNfa g => nofun
  | pda g limits => nofun

/-- Without a single start state nothing is converted, and the reason is
reported. -/
theorem convert_of_error {cause : GraphError} (hstart : a.graph.soleStart = .error cause) :
    convert a = .error (.notConvertible a.kind cause) := by
  unfold convert
  rw [hstart]
  rfl

/-- An NFA with a single start state is converted. -/
theorem convert_nfa (hstart : g.soleStart = .ok origin) :
    convert (.nfa g) = .ok (.dfa (g.determinizeFrom .ignored origin).graph) := by
  rw [convert, Automaton.graph, hstart, Graph.determinizeChecked_of_soleStart hstart]
  rfl

/-- Converting an automaton with silent moves removes them, and crashes if that
fails. -/
theorem convert_epsilonNfa (hstart : g.soleStart = .ok origin) :
    convert (.epsilonNfa g) = (g.eliminateEpsilon.map .nfa).mapError (.crash ∘ .graph) := by
  rw [convert, Automaton.graph, hstart]
  cases g.eliminateEpsilon <;> rfl

/-- Conversion crashes exactly on automata with silent moves whose removal is
refused. -/
theorem convert_crashes_iff :
    (∃ cause, convert a = .error (.crash cause)) ↔
      ∃ g origin, a = .epsilonNfa g ∧ g.soleStart = .ok origin ∧
        ¬ ∃ g', g.eliminateEpsilon = .ok g' := by
  constructor
  · rintro ⟨cause, hcrash⟩
    cases hstart : a.graph.soleStart with
    | error reason =>
      rw [convert_of_error hstart] at hcrash
      cases hcrash
    | ok origin =>
      cases a with
      | dfa g =>
        unfold convert at hcrash
        rw [hstart] at hcrash
        cases hcrash
      | nfa g =>
        rw [convert_nfa (g := g) hstart] at hcrash
        cases hcrash
      | epsilonNfa g =>
        refine ⟨g, origin, rfl, hstart, ?_⟩
        rintro ⟨g', hg'⟩
        rw [convert_epsilonNfa (g := g) hstart, hg'] at hcrash
        cases hcrash
      | pda g limits =>
        unfold convert at hcrash
        rw [hstart] at hcrash
        cases hcrash
  · rintro ⟨g, origin, rfl, hstart, hrefused⟩
    rw [convert_epsilonNfa hstart]
    cases hresult : g.eliminateEpsilon with
    | error cause => exact ⟨.graph cause, rfl⟩
    | ok g' => exact (hrefused ⟨g', hresult⟩).elim

/-- Runs and minimization never crash: with a single start state they are carried
out, whatever else is wrong with the graph, and without one they report that. A
conversion crashes exactly if silent moves are to be removed from a graph that
repeats a number, or in which a listed state reads a symbol, with the silent
moves before and after it, into a state that is not listed. -/
theorem only_epsilon_elimination_crashes (a : Automaton) :
    (∀ (inputs : List String) (trace : Bool),
      (∃ cause, runAll a inputs trace = .error (.notExecutable cause)) ∨
        ∃ reports, runAll a inputs trace = .ok reports ∧
          List.Forall₂ (fun input r => r.Describes a input) inputs reports) ∧
    (∀ cause, minimize a ≠ .error (.crash cause)) ∧
    ((∃ cause, convert a = .error (.crash cause)) ↔
      ∃ g origin, a = .epsilonNfa g ∧ g.soleStart = .ok origin ∧
        (¬ (g.states.map (·.id)).Nodup ∨ ∃ p c q, g.hasState p = true ∧
          Path .followed g.transitions p [c] q ∧ g.hasState q = false)) := by
  refine ⟨fun inputs trace => ?_, minimize_ne_crash a, ?_⟩
  · cases hstart : a.graph.soleStart with
    | error cause => exact .inl ⟨cause, runAll_of_error hstart inputs trace⟩
    | ok origin => exact .inr (exists_runAll hstart inputs trace)
  · rw [convert_crashes_iff]
    refine exists_congr fun g => exists_congr fun origin => and_congr_right fun _ =>
      and_congr_right fun hstart => ?_
    rw [Graph.exists_eliminateEpsilon_iff hstart, not_and_or]
    simp only [not_forall, Bool.not_eq_true, exists_prop]

/-- A file with a move to a state that it does not list is read, its start state
is found, and the removal of silent moves crashes. -/
theorem convert_crashes_of_unknown_target :
    let j : Json := .obj [("kind", "epsilon_nfa"),
      ("states", .arr [.obj [("id", .int 0), ("isStart", true), ("isAccepting", false)]]),
      ("transitions", .arr [.obj [("fromStateId", .int 0), ("toStateId", .int 1),
        ("symbol", "a")]])]
    let g : Graph :=
      { states := [{ id := 0, isStart := true }]
        transitions := [{ source := 0, target := 1, symbol := 'a' }] }
    Automaton.ofJson j = .ok (.epsilonNfa g) ∧ g.soleStart = .ok 0 ∧
      ∃ cause, convert (.epsilonNfa g) = .error (.crash cause) := by
  intro j g
  have hstart : g.soleStart = .ok 0 := rfl
  refine ⟨rfl, hstart, convert_crashes_iff.2 ⟨g, 0, rfl, hstart, ?_⟩⟩
  rw [Graph.exists_eliminateEpsilon_iff hstart]
  rintro ⟨_, hends⟩
  have hpath : Path .followed g.transitions 0 ['a'] 1 :=
    Path.single (t := { source := 0, target := 1, symbol := 'a' }) List.mem_cons_self
      (Silence.takes_followed _)
  exact absurd (hends 0 'a' 1 rfl hpath) (by decide)

end CommandLine

end Automata
