import Automata.Proofs.Acceptance
import Automata.Proofs.Determinization

namespace Automata

namespace Determinization

variable {silence : Silence} {g : Graph} {origin : StateId}

/-- Both runs have read the same symbols, one for each of the given number of
steps until the input ends, and the state of the second stands for the set that
the first is in. -/
structure Matches (g : Graph) (frontiers : List Frontier) (k : Nat) (source : Run Frontier)
    (result : Run StateId) : Prop where
  input : result.input = source.input
  position_source : source.position = min k source.input.length
  position_result : result.position = min k source.input.length
  halt_source : source.halt = if source.input.length ≤ k then some .endOfInput else none
  halt_result : result.halt = source.halt
  verdict_source : source.verdict = source.halt.map fun _ => source.current.isAccepting g
  verdict_result : result.verdict = source.verdict
  nonempty : source.current ≠ ∅
  current : ∃ n : Nat, result.current = n ∧ frontiers[n]? = some source.current

/-- Both runs have stopped at a symbol that leads nowhere. Only the first counts
it as read. -/
structure Stuck (source : Run Frontier) (result : Run StateId) : Prop where
  input : result.input = source.input
  position : source.position = result.position + 1
  halt_source : source.halt = some .emptyFrontier
  halt_result : result.halt = some .noTransition
  verdict_source : source.verdict = some false
  verdict_result : result.verdict = some false
  empty : source.current = ∅

/-- The state of a run on a set is known to the run on the numbers, until no
state is left. -/
def Simulates (g : Graph) (frontiers : List Frontier) (k : Nat) (source : Run Frontier)
    (result : Run StateId) : Prop :=
  Matches g frontiers k source result ∨ Stuck source result

variable {source : Run Frontier} {result : Run StateId} {k : Nat}

/-- Before it is decided whether the input has ended, two aligned runs that are
both open settle alike. -/
theorem matches_settle (hinput : result.input = source.input) (hsource : source.position = k)
    (hresult : result.position = k) (hk : k ≤ source.input.length)
    (hopenSource : source.halt = none ∧ source.verdict = none)
    (hopenResult : result.halt = none ∧ result.verdict = none) (hnonempty : source.current ≠ ∅)
    {n : Nat} (hcurrent : result.current = n)
    (hfrontier : (g.determinizeFrom silence origin).frontiers[n]? = some source.current) :
    Matches g (g.determinizeFrom silence origin).frontiers k (Frontier.settle g source)
      (Deterministic.settle (g.determinizeFrom silence origin).graph result) := by
  have hmin : k = min k source.input.length := by omega
  obtain ⟨hend, hsettle⟩ | ⟨hend, hsettle⟩ := Frontier.settle_cases g source
  · have hlength : source.input.length ≤ k := hsource ▸ of_decide_eq_true hend
    have hendResult : result.atEnd = true := by
      simp only [Run.atEnd, hinput, hresult, decide_eq_true_eq]
      exact hlength
    rw [hsettle, Deterministic.settle, if_pos hendResult]
    refine ⟨hinput, hsource.trans hmin, hresult.trans hmin, ?_, rfl, rfl, ?_, hnonempty,
      n, hcurrent, hfrontier⟩
    · exact (if_pos hlength).symm
    · simp only [Run.finish, hcurrent, Graph.isAccepting_determinizeFrom hfrontier]
  · have hlength : ¬ source.input.length ≤ k := hsource ▸ of_decide_eq_false hend
    have hendResult : ¬ result.atEnd = true := by
      simp only [Run.atEnd, hinput, hresult, decide_eq_true_eq]
      exact hlength
    rw [hsettle, Deterministic.settle, if_neg hendResult]
    refine ⟨hinput, hsource.trans hmin, hresult.trans hmin, ?_, ?_, ?_, ?_, hnonempty,
      n, hcurrent, hfrontier⟩
    · rw [if_neg hlength, hopenSource.1]
    · rw [hopenSource.1, hopenResult.1]
    · rw [hopenSource.1, hopenSource.2]
      rfl
    · rw [hopenSource.2, hopenResult.2]

/-- Both runs begin at the start set and its number. -/
theorem matches_start (silence : Silence) (g : Graph) (origin : StateId) (input : List Char) :
    Matches g (g.determinizeFrom silence origin).frontiers 0
      (Frontier.start silence g origin input)
      (Deterministic.start (g.determinizeFrom silence origin).graph 0 input) :=
  matches_settle rfl rfl rfl (Nat.zero_le _) ⟨rfl, rfl⟩ ⟨rfl, rfl⟩
    (Frontier.initial_ne_empty silence g origin) (n := 0) rfl Graph.frontiers_zero

/-- A step keeps an open pair of runs aligned, or stops both at a symbol that
leads nowhere. -/
theorem Matches.step_open
    (hmatches : Matches g (g.determinizeFrom silence origin).frontiers k source result)
    (hshort : k < source.input.length) :
    Simulates g (g.determinizeFrom silence origin).frontiers (k + 1)
      (Frontier.step silence g source)
      (Deterministic.step (g.determinizeFrom silence origin).graph result) := by
  obtain ⟨hinput, hsource, hresult, hhalt, hhalt', hverdict, hverdict', _, n, hcurrent, hfrontier⟩ :=
    hmatches
  rw [Nat.min_eq_left (Nat.le_of_lt hshort)] at hsource hresult
  rw [if_neg (by omega)] at hhalt
  rw [hhalt] at hhalt' hverdict
  have hopen : source.isFinished = false := Run.isFinished_eq_false_iff.2 hhalt
  have hopen' : result.isFinished = false := Run.isFinished_eq_false_iff.2 hhalt'
  obtain ⟨c, hsymbol⟩ : ∃ c, source.symbol? = some c :=
    ⟨_, List.getElem?_eq_getElem (hsource ▸ hshort)⟩
  have hsymbol' : result.symbol? = some c := by
    rw [← hsymbol]
    simp only [Run.symbol?, hinput, hsource, hresult]
  have hsuccessor := Graph.successor_determinizeFrom hfrontier c
  rw [← hcurrent] at hsuccessor
  rw [Deterministic.step_of_symbol?_eq_some hopen' hsymbol', hsuccessor]
  by_cases hmove : source.current.move silence g c = ∅
  · rw [Frontier.step_of_move_eq_empty hopen hsymbol hmove, if_pos hmove]
    exact .inr ⟨hinput, by simp [Run.finish, Run.advance, hsource, hresult], rfl, rfl, rfl, rfl, rfl⟩
  · rw [Frontier.step_of_move_ne_empty hopen hsymbol hmove, if_neg hmove]
    refine .inl (matches_settle hinput ?_ ?_ hshort ⟨hhalt, hverdict⟩ ⟨hhalt', ?_⟩ hmove rfl ?_)
    · simp only [Run.advance, hsource]
    · simp only [Run.advance, hresult]
    · exact hverdict'.trans hverdict
    · exact Graph.getElem?_idxOf_move hfrontier hmove

/-- The two runs stay in step. -/
theorem Simulates.step
    (hsim : Simulates g (g.determinizeFrom silence origin).frontiers k source result) :
    Simulates g (g.determinizeFrom silence origin).frontiers (k + 1)
      (Frontier.step silence g source)
      (Deterministic.step (g.determinizeFrom silence origin).graph result) := by
  obtain hmatches | hstuck := hsim
  · by_cases hshort : k < source.input.length
    · exact hmatches.step_open hshort
    · have hhalt := hmatches.halt_source
      rw [if_pos (by omega)] at hhalt
      rw [Frontier.step_of_isFinished (by rw [Run.isFinished, hhalt]; rfl),
        Deterministic.step_of_isFinished (by rw [Run.isFinished, hmatches.halt_result, hhalt]; rfl)]
      refine .inl { hmatches with
        position_source := hmatches.position_source.trans (by omega)
        position_result := hmatches.position_result.trans (by omega)
        halt_source := ?_ }
      rw [hhalt, if_pos (by omega)]
  · rw [Frontier.step_of_isFinished (by rw [Run.isFinished, hstuck.halt_source]; rfl),
      Deterministic.step_of_isFinished (by rw [Run.isFinished, hstuck.halt_result]; rfl)]
    exact .inr hstuck

/-- Runs that go along with each other have the same verdict. -/
theorem Simulates.verdict {frontiers : List Frontier}
    (hsim : Simulates g frontiers k source result) : result.verdict = source.verdict := by
  obtain hmatches | hstuck := hsim
  · exact hmatches.verdict_result
  · rw [hstuck.verdict_source, hstuck.verdict_result]

/-- The runs of both machines go along with each other, step by step. -/
theorem simulates_repeat_step (silence : Silence) (g : Graph) (origin : StateId)
    (input : List Char) (k : Nat) :
    Simulates g (g.determinizeFrom silence origin).frontiers k
      (Nat.repeat (Frontier.step silence g) k (Frontier.start silence g origin input))
      (Nat.repeat (Deterministic.step (g.determinizeFrom silence origin).graph) k
        (Deterministic.start (g.determinizeFrom silence origin).graph 0 input)) :=
  Machine.repeat_step_related (m := Frontier.machine silence g)
    (n := Deterministic.machine (g.determinizeFrom silence origin).graph)
    (fun _ _ _ hsim => hsim.step) (.inl (matches_start silence g origin input)) k

/-- The result accepts what the automaton accepts. -/
theorem acceptsFrom_determinizeFrom (silence : Silence) (g : Graph) (origin : StateId)
    (input : List Char) :
    (Deterministic.machine (g.determinizeFrom silence origin).graph).acceptsFrom 0 input =
      (Frontier.machine silence g).acceptsFrom origin input := by
  have hstart := matches_start silence g origin input
  refine Machine.acceptsFrom_eq_of_related (m := Frontier.machine silence g)
    (n := Deterministic.machine (g.determinizeFrom silence origin).graph)
    (R := Simulates g (g.determinizeFrom silence origin).frontiers)
    (fun _ _ _ hsim => hsim.step) (fun _ _ _ hsim => hsim.verdict) (.inl hstart) ?_
  change (Deterministic.start _ 0 input).remaining.length =
    (Frontier.start silence g origin input).remaining.length
  rw [Run.length_remaining, Run.length_remaining, hstart.input, hstart.position_source,
    hstart.position_result]

/-- After any prefix of any input, the states that the source automaton is in
are not exhausted exactly when the deterministic run still goes on, and then
they are the set listed for the state of that run. -/
def Mirrors (d : Determinization) (silence : Silence) (g : Graph) (origin : StateId) : Prop :=
  ∀ read rest : List Char,
    let source := Nat.repeat (Frontier.step silence g) read.length
      (Frontier.start silence g origin (read ++ rest))
    let result := Nat.repeat (Deterministic.step d.graph) read.length
      (Deterministic.start d.graph 0 (read ++ rest))
    (source.current ≠ ∅ ↔ result.halt ≠ some .noTransition) ∧
      (source.current ≠ ∅ → source.position = read.length ∧ result.position = read.length ∧
        ∃ n : Nat, result.current = n ∧ d.frontiers[n]? = some source.current)

/-- Every run on the result shows the sets that the automaton goes through. -/
theorem mirrors_determinizeFrom (silence : Silence) (g : Graph) (origin : StateId) :
    (g.determinizeFrom silence origin).Mirrors silence g origin := by
  intro read rest source result
  have hinput : source.input = read ++ rest := by
    rw [Frontier.input_repeat_step, Frontier.start, Frontier.input_settle]
  have hlength : min read.length source.input.length = read.length := by
    rw [hinput, List.length_append]
    omega
  have hsim : Simulates g _ read.length source result :=
    simulates_repeat_step silence g origin (read ++ rest) read.length
  obtain hmatches | hstuck := hsim
  · refine ⟨iff_of_true hmatches.nonempty ?_, fun _ => ⟨?_, ?_, hmatches.current⟩⟩
    · rw [hmatches.halt_result, hmatches.halt_source]
      split <;> simp
    · rw [hmatches.position_source, hlength]
    · rw [hmatches.position_result, hlength]
  · exact ⟨iff_of_false (not_not_intro hstuck.empty) (not_not_intro hstuck.halt_result),
      fun hnonempty => absurd hstuck.empty hnonempty⟩

end Determinization

/-- The subset construction keeps the language and follows the source automaton
symbol by symbol. Nothing is asked of the graph but a single start state: moves
may be repeated, form cycles or lead to numbers that no state has. -/
theorem Graph.determinize_preserves_runs (silence : Silence) (g : Graph) {origin : StateId}
    (hstart : g.soleStart = .ok origin) :
    ∃ d, g.determinize silence = .ok d ∧ d.graph.soleStart = .ok 0 ∧
      (∀ input, (Automaton.dfa d.graph).accepts input = (silence.automaton g).accepts input) ∧
      d.Mirrors silence g origin := by
  refine ⟨g.determinizeFrom silence origin, ?_, soleStart_determinizeFrom, fun input => ?_,
    Determinization.mirrors_determinizeFrom silence g origin⟩
  · rw [determinize, hstart]
    rfl
  · rw [silence.accepts_automaton hstart input,
      Automaton.accepts_of_soleStart (a := .dfa _) soleStart_determinizeFrom input]
    exact congrArg Except.ok (Determinization.acceptsFrom_determinizeFrom silence g origin input)

/-- A graph with a choice, a repeated move, a cycle of silent moves and a move to
an unknown state. -/
theorem Graph.determinize_preserves_runs_of_loop :
    let g : Graph :=
      { states := [{ id := 3, isStart := true }, { id := -1, isAccepting := true }]
        transitions := [
          { source := 3, target := 3, symbol := 'a' },
          { source := 3, target := -1, symbol := 'a' },
          { source := 3, target := -1, symbol := 'a' },
          { source := -1, target := 3, symbol := epsilon },
          { source := 3, target := -1, symbol := epsilon },
          { source := -1, target := 7, symbol := 'b' }] }
    g.soleStart = .ok 3 ∧
      ∃ d, g.determinize .followed = .ok d ∧ d.graph.soleStart = .ok 0 ∧
        (∀ input, (Automaton.dfa d.graph).accepts input =
          (Silence.followed.automaton g).accepts input) ∧
        d.Mirrors .followed g 3 :=
  ⟨rfl, determinize_preserves_runs .followed _ rfl⟩

end Automata
