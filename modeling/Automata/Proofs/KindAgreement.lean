import Automata.Proofs.Acceptance
import Automata.Proofs.Pushdown.Computation
import Automata.Proofs.Run.ChoiceFree
import Automata.Proofs.Run.Morphism
import Automata.Proofs.Run.Translation
import Automata.Proofs.Stepping
import Mathlib.Data.List.Find

namespace Automata

variable {g : Graph}

/-- Where no move is silent, it does not matter whether silent moves are
followed. -/
theorem Path.of_loud {silence silence' : Silence} {moves : List Transition}
    (hloud : ∀ t ∈ moves, t.isEpsilon = false) {p q : StateId} {word : List Char}
    (hpath : Path silence moves p word q) : Path silence' moves p word q := by
  induction hpath with
  | nil q => exact .nil q
  | cons hmove _ _ ih => exact .cons hmove (fun _ => hloud _ hmove) ih

/-- Without silent moves closing a set changes nothing, whether or not they are
followed. -/
theorem Silence.close_eq_of_loud (silence silence' : Silence)
    (hloud : ∀ t ∈ g.transitions, t.isEpsilon = false) : silence.close g = silence'.close g := by
  funext f
  refine SortedSet.ext fun q => ?_
  rw [mem_close_iff, mem_close_iff]
  constructor
  · rintro ⟨p, hp, hpath⟩
    exact ⟨p, hp, hpath.of_loud hloud⟩
  · rintro ⟨p, hp, hpath⟩
    exact ⟨p, hp, hpath.of_loud hloud⟩

/-- So it makes no difference to a machine whether it follows them. -/
theorem Frontier.machine_eq_of_loud (silence silence' : Silence)
    (hloud : ∀ t ∈ g.transitions, t.isEpsilon = false) :
    machine silence g = machine silence' g := by
  have hclose := silence.close_eq_of_loud silence' hloud
  refine machine_congr rfl ?_ ?_
  · funext origin
    rw [initial, initial, hclose]
  · funext f symbol
    rw [move, move, hclose]

namespace Frontier

variable {p q : StateId} {c : Char}

/-- A set with one state accepts if the state does. -/
theorem isAccepting_singleton (g : Graph) (q : StateId) :
    isAccepting g (.singleton q) = g.isAccepting q := by
  rw [Bool.eq_iff_iff, isAccepting_iff]
  simp

/-- A state that cannot read a symbol leaves the set empty. -/
theorem move_singleton_of_successor_eq_none (hnone : Deterministic.successor g p c = none) :
    move .ignored g (.singleton p) c = ∅ := by
  refine SortedSet.ext fun q => iff_of_false (fun hq => ?_) SortedSet.notMem_empty
  obtain ⟨t, ht, hreads, hsource, _⟩ := mem_move_iff.1 hq
  have hunread :=
    Deterministic.successor_eq_none_iff.1 hnone t ht (SortedSet.mem_singleton.1 hsource)
  rw [hreads] at hunread
  cases hunread

/-- Where moves do not compete, a set with one state is followed by a set with
one state. -/
theorem move_singleton_of_successor_eq_some (hg : g.ChoiceFree)
    (hsuccessor : Deterministic.successor g p c = some q) :
    move .ignored g (.singleton p) c = .singleton q := by
  obtain ⟨t, ht, rfl, hreads, rfl⟩ := Deterministic.exists_move_of_successor hsuccessor
  refine SortedSet.ext fun q => ?_
  rw [mem_move_iff, SortedSet.mem_singleton]
  constructor
  · rintro ⟨u, hu, hureads, hsource, hpath⟩
    rw [← Path.nil_ignored_iff.1 hpath]
    have hsymbol := (Transition.reads_iff.1 hureads).2.trans (Transition.reads_iff.1 hreads).2.symm
    exact hg.target_eq u hu t ht (SortedSet.mem_singleton.1 hsource) hsymbol
  · rintro rfl
    exact ⟨t, ht, hreads, SortedSet.mem_singleton.2 rfl, .nil _⟩

/-- The run through sets of states that goes along with a run through states. It
is in the one state that the other is in; if the other is stuck, it has read the
symbol all the same and is left without a state. -/
def along (r : Run StateId) : Run Frontier :=
  if r.isStuck then { (r.map .singleton).advance ∅ with halt := some .emptyFrontier }
  else r.map .singleton

/-- A run that stopped for lack of a move is carried over to one that lost its
last state. -/
theorem along_of_isStuck {r : Run StateId} (hstuck : r.isStuck = true) :
    along r = { (r.map .singleton).advance ∅ with halt := some .emptyFrontier } :=
  if_pos hstuck

theorem along_of_not_isStuck {r : Run StateId} (hfree : r.isStuck = false) :
    along r = r.map .singleton :=
  if_neg (by simp [hfree])

/-- A run that has read a symbol is settled alike in both machines. -/
theorem settle_singleton {r : Run StateId} (hfree : r.isStuck = false) :
    settle g (r.map .singleton) = along (Deterministic.settle g r) := by
  have hend : (r.map SortedSet.singleton).atEnd = r.atEnd := rfl
  obtain ⟨hatEnd, hsettle⟩ | ⟨hmore, hsettle⟩ := Deterministic.settle_cases g r
  · rw [hsettle, along_of_not_isStuck (Run.isStuck_finish rfl _), settle, hend, hatEnd, if_pos rfl,
      ← isAccepting_singleton]
    rfl
  · rw [hsettle, along_of_not_isStuck hfree, settle, hend, hmore, if_neg Bool.false_ne_true]

/-- Both runs end together. -/
theorem isFinished_along (r : Run StateId) : (along r).isFinished = r.isFinished := by
  cases hstuck : r.isStuck with
  | true =>
    rw [along_of_isStuck hstuck, Run.isFinished, Run.isFinished, Run.isStuck_iff.1 hstuck]
    rfl
  | false =>
    rw [along_of_not_isStuck hstuck]
    rfl

/-- Both runs have the same verdict. -/
theorem verdict_along (r : Run StateId) : (along r).verdict = r.verdict := by
  unfold along
  split <;> rfl

/-- A step of one machine is carried over to a step of the other. -/
theorem step_along (hg : g.ChoiceFree) (r : Run StateId) :
    step .ignored g (along r) = along (Deterministic.step g r) := by
  cases hopen : r.isFinished with
  | true =>
    rw [step_of_isFinished ((isFinished_along r).trans hopen),
      Deterministic.step_of_isFinished hopen]
  | false =>
    have hhalt : r.halt = none := Run.isFinished_eq_false_iff.1 hopen
    have hfree : r.isStuck = false := by simp [Run.isStuck, hhalt]
    rw [along_of_not_isStuck hfree]
    cases hsymbol : r.symbol? with
    | none =>
      rw [Deterministic.step_of_symbol?_eq_none hopen hsymbol,
        step_of_symbol?_eq_none (r := r.map .singleton) hopen hsymbol]
      exact settle_singleton hfree
    | some c =>
      rw [Deterministic.step_of_symbol?_eq_some hopen hsymbol]
      cases hsuccessor : Deterministic.successor g r.current c with
      | none =>
        have hempty := move_singleton_of_successor_eq_none hsuccessor
        rw [step_of_move_eq_empty (r := r.map .singleton) hopen hsymbol hempty]
        rfl
      | some q =>
        have hmove : move .ignored g (r.map .singleton).current c = .singleton q :=
          move_singleton_of_successor_eq_some hg hsuccessor
        have hnonempty : move .ignored g (r.map .singleton).current c ≠ ∅ := by
          rw [hmove]
          exact SortedSet.singleton_ne_empty q
        rw [step_of_move_ne_empty (r := r.map .singleton) hopen hsymbol hnonempty, hmove]
        exact settle_singleton (r := r.advance q) hfree

/-- Where moves do not compete, following all of them is following one. -/
theorem translates_machine (hg : g.ChoiceFree) :
    (Deterministic.machine g).Translates (machine .ignored g) along where
  start origin input := settle_singleton (r := { input, current := origin }) rfl
  step := step_along hg
  isFinished := isFinished_along
  verdict := verdict_along

end Frontier

namespace Pushdown

variable {limits : Limits} {p : StateId} {c : Char} {t : Transition}

/-- A move that leaves the stack alone leads to its target, with the stack that a
run begins with still untouched. -/
theorem fire_initial (hplain : t.hasStackEffect = false) :
    (Configuration.initial p).fire t = .initial t.target := by
  obtain ⟨hpop, hpush⟩ := Transition.hasStackEffect_eq_false_iff.1 hplain
  simp [Configuration.fire, Configuration.initial, hpop, hpush]

/-- Such a move is allowed wherever its source and symbol fit. -/
theorem enabled_initial_iff (hplain : t.hasStackEffect = false) :
    Enabled (.initial p) c t ↔ t.source = p ∧ t.symbol = c := by
  rw [enabled_iff, Configuration.canFire, (Transition.hasStackEffect_eq_false_iff.1 hplain).1]
  simp [Configuration.initial]

/-- Without stack actions there is no preference among the moves, so the first is
taken. -/
theorem select_initial (hloud : ∀ t ∈ g.transitions, t.isEpsilon = false)
    (hplain : ∀ t ∈ g.transitions, t.hasStackEffect = false) :
    ((Configuration.initial p).select g c).map (·.target) = Deterministic.successor g p c := by
  have hdemanding : (g.transitions.find? fun t => Enabled (.initial p) c t && t.pop.isSome) =
      none := by
    refine List.find?_eq_none.2 fun t ht => ?_
    simp [(Transition.hasStackEffect_eq_false_iff.1 (hplain t ht)).1]
  rw [select_eq, hdemanding, Option.none_or, Deterministic.successor, Graph.movesFrom,
    List.find?_filter]
  refine congrArg (Option.map _) (List.find?_congr fun t ht => ?_)
  rw [Bool.eq_iff_iff]
  simp [enabled_initial_iff (hplain t ht), Transition.reads, hloud t ht]

/-- Without silent moves there is no pass to go through once a symbol has been
read. -/
theorem settle_initial (hloud : ∀ t ∈ g.transitions, t.isEpsilon = false) (r : Run StateId) :
    settle g limits (r.map .initial) = (Deterministic.settle g r).map .initial := by
  have hpass : closingPass g limits r.symbol? (.initial r.current) = (.initial r.current, none) :=
    closingPass_of_loud hloud _ _
  obtain ⟨hend, hsettle⟩ | ⟨hmore, hsettle⟩ := Deterministic.settle_cases g r
  · have hverdict : (Configuration.initial r.current).isAccepting g = g.isAccepting r.current := by
      simp [Configuration.isAccepting, Configuration.hasEmptyStack, Configuration.initial]
    rw [hsettle, settle_of_atEnd (r := r.map .initial) hpass hend, hverdict]
    rfl
  · rw [hsettle, settle_of_not_atEnd (r := r.map .initial) hpass hmore]
    rfl

/-- Without silent moves and moves that use the stack a pushdown machine takes
the steps of a deterministic one. -/
theorem step_initial (hloud : ∀ t ∈ g.transitions, t.isEpsilon = false)
    (hplain : ∀ t ∈ g.transitions, t.hasStackEffect = false) (r : Run StateId) :
    step g limits (r.map .initial) = (Deterministic.step g r).map .initial := by
  cases hopen : r.isFinished with
  | true =>
    rw [step_of_isFinished (r := r.map .initial) hopen, Deterministic.step_of_isFinished hopen]
  | false =>
    cases hsymbol : r.symbol? with
    | none =>
      rw [step_of_symbol?_eq_none (r := r.map .initial) hopen hsymbol,
        Deterministic.step_of_symbol?_eq_none hopen hsymbol]
      exact settle_initial hloud r
    | some a =>
      rw [step_of_symbol?_eq_some (r := r.map .initial) hopen hsymbol,
        Deterministic.step_of_symbol?_eq_some hopen hsymbol, ← select_initial hloud hplain]
      change ((Configuration.initial r.current).select g a).elim _ _ = _
      cases hselect : (Configuration.initial r.current).select g a with
      | none => rfl
      | some t =>
        have ht : t ∈ g.transitions := (select_eq_some_iff.1 hselect).mem
        change settle g limits
            ((r.map .initial).advance ((Configuration.initial r.current).fire t)) =
          (Deterministic.settle g (r.advance t.target)).map .initial
        rw [fire_initial (hplain t ht)]
        exact settle_initial hloud (r.advance t.target)

/-- Where no move is silent or uses the stack, the stack stays as it is and the
state is the one that the machine without a stack is in, whatever the bounds. -/
theorem translates_machine (hloud : ∀ t ∈ g.transitions, t.isEpsilon = false)
    (hplain : ∀ t ∈ g.transitions, t.hasStackEffect = false) (limits : Limits) :
    (Deterministic.machine g).Translates (machine g limits) (Run.map .initial) where
  start origin input := settle_initial hloud { input, current := origin }
  step := step_initial hloud hplain
  isFinished _ := rfl
  verdict _ := rfl

end Pushdown

namespace Automaton

/-- Automata of all four kinds agree on a graph where their meanings overlap.
Without silent moves, the two kinds that are in sets of states go through the
same runs. If moreover no two moves share their source and their symbol, such a
set holds the one state that the deterministic run is in, until that run is
stuck, and is left without a state by the symbol that it is stuck at. If no move
uses the stack, the pushdown run is in the same state as the deterministic one
and has nothing but the marker on its stack. Runs that agree have one verdict. -/
theorem kinds_agree (g : Graph) {origin : StateId} (hstart : g.soleStart = .ok origin)
    (hloud : ∀ t ∈ g.transitions, t.isEpsilon = false) (input : List Char) :
    ∃ (states : Nat → Run StateId) (sets : Nat → Run Frontier) (verdict verdict' : Bool),
      ((dfa g).RunsThrough input (fun k => .deterministic (states k)) ∧
        (nfa g).RunsThrough input (fun k => .frontier (sets k)) ∧
        (epsilonNfa g).RunsThrough input (fun k => .frontier (sets k))) ∧
      ((dfa g).accepts input = .ok verdict ∧ (nfa g).accepts input = .ok verdict' ∧
        (epsilonNfa g).accepts input = .ok verdict') ∧
      ((g.transitions.map fun t => (t.source, t.symbol)).Nodup → verdict' = verdict ∧
        (∀ k, (states k).halt ≠ some .noTransition → sets k = (states k).map .singleton) ∧
        ∀ k, (states k).halt = some .noTransition →
          (sets k).current = ∅ ∧ (sets k).position = (states k).position + 1 ∧
            (sets k).halt = some .emptyFrontier ∧ (sets k).verdict = (states k).verdict) ∧
      ((∀ t ∈ g.transitions, t.hasStackEffect = false) → ∀ limits,
        (pda g limits).accepts input = .ok verdict ∧
        (pda g limits).RunsThrough input fun k => .stack ((states k).map .initial)) := by
  have hmachine := Frontier.machine_eq_of_loud .followed .ignored hloud
  have hlawful := Deterministic.lawful_machine g
  have hepsilonNfa : (epsilonNfa g).DrivenBy (Frontier.machine .ignored g) .frontier :=
    hmachine ▸ drivenBy_epsilonNfa g
  have hverdict : (epsilonNfa g).acceptsFrom origin input = (nfa g).acceptsFrom origin input := by
    change (Frontier.machine .followed g).acceptsFrom origin input =
      (Frontier.machine .ignored g).acceptsFrom origin input
    rw [hmachine]
  refine ⟨_, _, _, _, ⟨(drivenBy_dfa g).runsThrough hstart input,
    (drivenBy_nfa g).runsThrough hstart input, hepsilonNfa.runsThrough hstart input⟩,
    ⟨accepts_of_soleStart (a := .dfa g) hstart input,
      accepts_of_soleStart (a := .nfa g) hstart input,
      hverdict ▸ accepts_of_soleStart (a := .epsilonNfa g) hstart input⟩,
    fun hnodup => ?_, fun hplain limits => ?_⟩
  · have hg : g.ChoiceFree := ⟨hloud, fun t ht u hu hsource hsymbol => by
      rw [List.inj_on_of_nodup_map hnodup ht hu (Prod.ext hsource hsymbol)]⟩
    have htranslates := Frontier.translates_machine hg
    have htrace := htranslates.trace_eq origin input
    refine ⟨htranslates.acceptsFrom_eq hlawful (Frontier.lawful_machine .ignored g) origin input,
      fun k hfree => ?_, fun k hstuck => ?_⟩
    · rw [htrace, Frontier.along_of_not_isStuck]
      exact Bool.eq_false_iff.2 (mt Run.isStuck_iff.1 hfree)
    · rw [htrace, Frontier.along_of_isStuck (Run.isStuck_iff.2 hstuck)]
      exact ⟨rfl, rfl, rfl, rfl⟩
  · have htranslates := Pushdown.translates_machine hloud hplain limits
    have hverdict :=
      htranslates.acceptsFrom_eq hlawful (Pushdown.lawful_machine g limits) origin input
    have hruns := (drivenBy_pda g limits).runsThrough hstart input
    simp only [htranslates.trace_eq] at hruns
    refine ⟨?_, hruns⟩
    rw [accepts_of_soleStart (a := .pda g limits) hstart input]
    exact congrArg Except.ok hverdict

/-- Two states that take turns; the input ends in a symbol that neither reads
where it is read. -/
theorem kinds_agree_of_turns :
    let g : Graph :=
      { states := [{ id := 0, isStart := true }, { id := 1, isAccepting := true }]
        transitions := [
          { source := 0, target := 1, symbol := 'a' }, { source := 1, target := 0, symbol := 'b' },
          { source := 0, target := 0, symbol := 'b' }] }
    let input := ['b', 'a', 'b', 'a', 'a']
    g.soleStart = .ok 0 ∧ (∀ t ∈ g.transitions, t.isEpsilon = false) ∧
      (g.transitions.map fun t => (t.source, t.symbol)).Nodup ∧
      (∀ t ∈ g.transitions, t.hasStackEffect = false) ∧
      ∃ (states : Nat → Run StateId) (sets : Nat → Run Frontier) (verdict : Bool),
        ((dfa g).RunsThrough input (fun k => .deterministic (states k)) ∧
          (nfa g).RunsThrough input (fun k => .frontier (sets k)) ∧
          (epsilonNfa g).RunsThrough input (fun k => .frontier (sets k))) ∧
        ((dfa g).accepts input = .ok verdict ∧ (nfa g).accepts input = .ok verdict ∧
          (epsilonNfa g).accepts input = .ok verdict) ∧
        ((∀ k, (states k).halt ≠ some .noTransition → sets k = (states k).map .singleton) ∧
          ∀ k, (states k).halt = some .noTransition →
            (sets k).current = ∅ ∧ (sets k).position = (states k).position + 1 ∧
              (sets k).halt = some .emptyFrontier ∧ (sets k).verdict = (states k).verdict) ∧
        ∀ limits, (pda g limits).accepts input = .ok verdict ∧
          (pda g limits).RunsThrough input fun k => .stack ((states k).map .initial) := by
  intro g input
  have hloud : ∀ t ∈ g.transitions, t.isEpsilon = false := by decide
  have hnodup : (g.transitions.map fun t => (t.source, t.symbol)).Nodup := by decide
  have hplain : ∀ t ∈ g.transitions, t.hasStackEffect = false := by decide
  obtain ⟨states, sets, verdict, verdict', hruns, haccepts, hsets, hstacks⟩ :=
    kinds_agree g rfl hloud input
  obtain ⟨rfl, hagree⟩ := hsets hnodup
  exact ⟨rfl, hloud, hnodup, hplain, states, sets, verdict', hruns, haccepts, hagree,
    hstacks hplain⟩

end Automaton

end Automata
