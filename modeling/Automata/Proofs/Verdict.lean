import Automata.Proofs.Pushdown.Moves
import Automata.Proofs.Run.Verdict
import Automata.Proofs.SafeStepping

namespace Automata

namespace Automaton

/-- The configuration that the run is in accepts. -/
def AcceptsAt (a : Automaton) : Execution → Prop
  | .deterministic r => a.graph.isAccepting r.current = true
  | .frontier r => ∃ q ∈ r.current, a.graph.isAccepting q = true
  | .stack r => a.graph.isAccepting r.current.state = true ∧ r.current.stack = [bottomMarker]

/-- Some move reads the symbol in the configuration that the run is in. -/
def CanRead (a : Automaton) (symbol : Char) : Execution → Prop
  | .deterministic r => ∃ t ∈ a.graph.transitions, t.source = r.current ∧ t.reads symbol = true
  | .frontier r => ∃ t ∈ a.graph.transitions, t.source ∈ r.current ∧ t.reads symbol = true
  | .stack r => ∃ t ∈ a.graph.transitions, Pushdown.Enabled r.current symbol t

/-- The halt of the run and its verdict fit the place that it is at: there is a
verdict exactly if there is a halt, and each halt has its grounds. -/
structure Justifies (a : Automaton) (e : Execution) : Prop where
  verdict_eq_none_iff : e.verdict = none ↔ e.halt = none
  position_lt : e.halt = none → e.position < e.input.length
  endOfInput : e.halt = some .endOfInput → e.position = e.input.length ∧
    ∃ verdict, e.verdict = some verdict ∧ (verdict = true ↔ a.AcceptsAt e)
  verdict_of_halt : ∀ halt, e.halt = some halt → halt ≠ .endOfInput → e.verdict = some false
  noTransition : e.halt = some .noTransition → (a.kind = .dfa ∨ a.kind = .pda) ∧
    e.position < e.input.length ∧ ∀ symbol, e.symbol? = some symbol → ¬ a.CanRead symbol e
  emptyFrontier : e.halt = some .emptyFrontier → (a.kind = .nfa ∨ a.kind = .epsilonNfa) ∧
    ∃ r, e = .frontier r ∧ r.current = ∅
  limitExceeded : ∀ limit, e.halt = some (.limitExceeded limit) → a.kind = .pda
  frontier : ∀ r, e = .frontier r → (e.halt = none → r.current ≠ ∅) ∧ ∀ f ∈ r.history, f ≠ ∅

/-- The grounds on which a machine stops its runs are those of the automaton. -/
structure StopsOn (a : Automaton) {C : Type} (wrap : Run C → Execution)
    (grounds : Run.Grounds C) : Prop where
  accepts : ∀ r, grounds.accepts r.current = true ↔ a.AcceptsAt (wrap r)
  stuck : ∀ r symbol, grounds.stuck r.current symbol →
    (a.kind = .dfa ∨ a.kind = .pda) ∧ ¬ a.CanRead symbol (wrap r)
  lost : ∀ r, grounds.lost r.current → (a.kind = .nfa ∨ a.kind = .epsilonNfa) ∧
    ∃ s, wrap r = .frontier s ∧ s.current = ∅
  bounded : grounds.bounded → a.kind = .pda
  viable : ∀ r s, wrap r = .frontier s → (grounds.viable r.current → s.current ≠ ∅) ∧
    ((∀ c ∈ r.history, grounds.viable c) → ∀ f ∈ s.history, f ≠ ∅)

/-- A deterministic run stops for want of a move, or at the end of its input. -/
theorem stopsOn_dfa (g : Graph) : (dfa g).StopsOn .deterministic (Deterministic.grounds g) where
  accepts _ := .rfl
  stuck r symbol hstuck := by
    refine ⟨.inl rfl, ?_⟩
    rintro ⟨t, ht, hsource, hreads⟩
    rw [Deterministic.successor_eq_none_iff.1 hstuck t ht hsource] at hreads
    cases hreads
  lost _ hlost := hlost.elim
  bounded hbounded := hbounded.elim
  viable _ _ hwrap := by cases hwrap

/-- A run with frontiers stops on an empty one, or at the end of its input. -/
theorem stopsOn_automaton (silence : Silence) (g : Graph) :
    (silence.automaton g).StopsOn .frontier (Frontier.grounds g) where
  accepts r := by cases silence <;> exact Frontier.isAccepting_iff
  stuck _ _ hstuck := hstuck.elim
  lost r hlost := by
    refine ⟨?_, r, rfl, hlost⟩
    cases silence with
    | ignored => exact .inl rfl
    | followed => exact .inr rfl
  bounded hbounded := hbounded.elim
  viable _ _ hwrap := by
    cases hwrap
    exact ⟨id, id⟩

/-- A pushdown run stops for want of a move, at a bound, or at the end of its
input. -/
theorem stopsOn_pda (g : Graph) (limits : Limits) :
    (pda g limits).StopsOn .stack (Pushdown.grounds g) where
  accepts _ := Pushdown.isAccepting_iff
  stuck r symbol hstuck := by
    refine ⟨.inr rfl, ?_⟩
    rintro ⟨t, ht, henabled⟩
    exact Pushdown.select_eq_none_iff.1 hstuck t ht henabled
  lost _ hlost := hlost.elim
  bounded _ := rfl
  viable _ _ hwrap := by cases hwrap

namespace DrivenBy

variable {a : Automaton} {C : Type} {m : Machine C} {wrap : Run C → Execution}
  {grounds : Run.Grounds C} {r : Run C} {origin : StateId} {input : List Char}

/-- The verdict of a run fits how it stopped, in the terms of its automaton. -/
theorem justifies (hdriven : a.DrivenBy m wrap) (hstops : a.StopsOn wrap grounds)
    (hr : r.Justified grounds) : a.Justifies (wrap r) := by
  have hinput : (wrap r).input = r.input := hdriven.fold (·.input) r
  have hposition : (wrap r).position = r.position := hdriven.fold (·.position) r
  have hverdict : (wrap r).verdict = r.verdict := hdriven.fold (·.verdict) r
  have hhalt : (wrap r).halt = r.halt := hdriven.fold (·.halt) r
  have hsymbol : (wrap r).symbol? = r.symbol? := hdriven.fold Run.symbol? r
  constructor <;> simp only [hinput, hposition, hverdict, hhalt, hsymbol]
  case verdict_eq_none_iff => exact hr.verdict_eq_none_iff
  case position_lt => exact fun hopen => (hr.open_of_halt_eq hopen).position_lt
  case endOfInput =>
    intro hend
    obtain ⟨hlast, hdecided⟩ := hr.of_endOfInput hend
    exact ⟨hlast, _, hdecided, hstops.accepts r⟩
  case verdict_of_halt => exact fun _ => hr.verdict_of_halt
  case noTransition =>
    intro hend
    obtain ⟨symbol, hnext, hstuck⟩ := hr.of_noTransition hend
    obtain ⟨hkind, hunread⟩ := hstops.stuck r symbol hstuck
    refine ⟨hkind, Run.position_lt_of_symbol? hnext, fun other hother => ?_⟩
    obtain rfl := Option.some.inj (hnext.symm.trans hother)
    exact hunread
  case emptyFrontier => exact fun hend => hstops.lost r (hr.of_emptyFrontier hend)
  case limitExceeded => exact fun _ hend => hstops.bounded (hr.of_limitExceeded hend)
  case frontier =>
    intro s hwrap
    obtain ⟨hcurrent, hhistory⟩ := hstops.viable r s hwrap
    exact ⟨fun hopen => hcurrent (hr.open_of_halt_eq hopen).viable_current,
      hhistory hr.viable_history⟩

/-- If the start is justified and steps keep runs justified, every run that is
driven from the start is. -/
theorem foldlM_perform_justifies (hdriven : a.DrivenBy m wrap) (hm : m.Lawful)
    (hstops : a.StopsOn wrap grounds) (hkeeps : m.Keeps (Run.Justified grounds))
    (hstart : (m.start origin input).Justified grounds) (hbelongs : ∀ r, (wrap r).BelongsTo a)
    (actions : List Action) :
    ∃ e, actions.foldlM a.perform (a.startAt origin input) = .ok e ∧ e.input = input ∧
      e.BelongsTo a ∧ a.Justifies e := by
  obtain ⟨s, ⟨hs, hinput⟩, hreached⟩ := hdriven.foldlM_perform_of_keeps
    (hkeeps.and (hm.keeps_input input)) actions ⟨hstart, (hm.begins origin input).input_eq⟩
  rw [← hdriven.startAt origin input] at hreached
  exact ⟨wrap s, hreached, (hdriven.fold (·.input) s).trans hinput, hbelongs s,
    hdriven.justifies hstops hs⟩

end DrivenBy

theorem foldlM_perform_startAt (a : Automaton) (origin : StateId) (input : List Char)
    (actions : List Action) :
    ∃ e, actions.foldlM a.perform (a.startAt origin input) = .ok e ∧ e.input = input ∧
      e.BelongsTo a ∧ a.Justifies e := by
  cases a with
  | dfa g =>
    exact (drivenBy_dfa g).foldlM_perform_justifies (Deterministic.lawful_machine g) (stopsOn_dfa g)
      (Deterministic.keeps_justified g) (Deterministic.justified_start g origin input) (.dfa g)
      actions
  | nfa g =>
    exact (drivenBy_nfa g).foldlM_perform_justifies (Frontier.lawful_machine .ignored g)
      (stopsOn_automaton .ignored g) (Frontier.keeps_justified .ignored g)
      (Frontier.justified_start .ignored g origin input) (.nfa g) actions
  | epsilonNfa g =>
    exact (drivenBy_epsilonNfa g).foldlM_perform_justifies (Frontier.lawful_machine .followed g)
      (stopsOn_automaton .followed g) (Frontier.keeps_justified .followed g)
      (Frontier.justified_start .followed g origin input) (.epsilonNfa g) actions
  | pda g limits =>
    exact (drivenBy_pda g limits).foldlM_perform_justifies (Pushdown.lawful_machine g limits)
      (stopsOn_pda g limits) (Pushdown.keeps_justified g limits)
      (Pushdown.justified_start g limits origin input) (.pda g limits) actions

/-- A step for every symbol of the input, and one more, finish a run from its
start. -/
theorem exists_steps_to_finish (a : Automaton) (origin : StateId) (input : List Char) :
    ∃ n ≤ input.length + 1, ∃ last,
      (List.replicate n Action.stepForward).foldlM a.perform (a.startAt origin input) = .ok last ∧
        last.isFinished = true := by
  obtain ⟨C, m, wrap, hm, hdriven⟩ := a.exists_drivenBy
  obtain ⟨n, hn, last, hsteps, hfinished, _⟩ :=
    hdriven.exists_steps_to_complete hm (m.start origin input)
  rw [Run.length_remaining, (hm.begins origin input).input_eq] at hn
  rw [hdriven.startAt]
  exact ⟨n, Nat.le_trans hn (by omega), last, hsteps, hfinished⟩

/-- Whatever is done to a run from its start, its verdict fits its halt, and both
fit the place that the run is at. Steps alone finish the run, one for every symbol
and one more at most. -/
theorem verdict_fits_halt (a : Automaton) {origin : StateId}
    (hstart : a.graph.soleStart = .ok origin) (input : List Char) :
    ∃ first, a.start input = .ok first ∧
      (∀ actions : List Action, ∃ e, actions.foldlM a.perform first = .ok e ∧ e.input = input ∧
        e.BelongsTo a ∧ a.Justifies e) ∧
      ∃ n ≤ input.length + 1, ∃ last,
        (List.replicate n Action.stepForward).foldlM a.perform first = .ok last ∧
          last.isFinished = true := by
  refine ⟨a.startAt origin input, ?_, a.foldlM_perform_startAt origin input,
    a.exists_steps_to_finish origin input⟩
  rw [start, hstart]
  rfl

/-- A pushdown automaton whose silent moves reach a bound after the first symbol. -/
theorem verdict_fits_halt_of_pushdown :
    let a : Automaton := .pda
      { states := [{ id := 0, isStart := true, isAccepting := true }, { id := 1 }]
        transitions := [.pushdown 0 1 'a' none ['X'], .pushdown 1 1 epsilon none ['X', 'X']] }
      { epsilonIterations := 5, stackGrowth := 4 }
    a.graph.soleStart = .ok 0 ∧
      ∃ first, a.start ['a', 'b'] = .ok first ∧
        (∀ actions : List Action, ∃ e, actions.foldlM a.perform first = .ok e ∧
          e.input = ['a', 'b'] ∧ e.BelongsTo a ∧ a.Justifies e) ∧
        ∃ n ≤ ['a', 'b'].length + 1, ∃ last,
          (List.replicate n Action.stepForward).foldlM a.perform first = .ok last ∧
            last.isFinished = true :=
  ⟨rfl, verdict_fits_halt _ rfl _⟩

end Automaton

end Automata
