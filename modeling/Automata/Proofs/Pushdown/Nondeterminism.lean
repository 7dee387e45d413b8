import Automata.Proofs.Path
import Automata.Proofs.Pushdown.Acceptance
import Mathlib.Data.List.Nodup

namespace Automata

namespace Graph

/-- On every symbol, a state has either a single move, which demands nothing of
the stack, or moves that demand symbols, no two of them the same. -/
def StackDeterministic (g : Graph) : Prop :=
  ∀ (id : StateId) (symbol : Char),
    (∃ t, (g.movesFrom id).filter (·.symbol = symbol) = [t] ∧ t.pop = none) ∨
      ((∀ t ∈ (g.movesFrom id).filter (·.symbol = symbol), t.pop ≠ none) ∧
        (((g.movesFrom id).filter (·.symbol = symbol)).map (·.pop)).Nodup)

/-- Moves that all demand a symbol need only differ in where they start, in what
they read or in what they demand. -/
theorem stackDeterministic_of_nodup {g : Graph} (hdemands : ∀ t ∈ g.transitions, t.pop ≠ none)
    (hchoices : (g.transitions.map fun t => (t.source, t.symbol, t.pop)).Nodup) :
    g.StackDeterministic := by
  intro id symbol
  have hsublist : ((g.movesFrom id).filter (·.symbol = symbol)).Sublist g.transitions :=
    List.filter_sublist.trans List.filter_sublist
  refine .inr ⟨fun t ht => hdemands t (hsublist.subset ht), ?_⟩
  have hdistinct := hchoices.sublist (hsublist.map _)
  rw [List.Nodup, List.pairwise_map] at hdistinct ⊢
  refine hdistinct.imp_of_mem fun {t u} ht hu hdiffer hpop => hdiffer ?_
  have hchoice {t : Transition} (ht : t ∈ (g.movesFrom id).filter (·.symbol = symbol)) :
      t.source = id ∧ t.symbol = symbol := by
    obtain ⟨hfrom, hsymbol⟩ := List.mem_filter.1 ht
    exact ⟨of_decide_eq_true (List.mem_filter.1 hfrom).2, of_decide_eq_true hsymbol⟩
  rw [(hchoice ht).1, (hchoice ht).2, (hchoice hu).1, (hchoice hu).2, hpop]

end Graph

namespace Pushdown

variable {g : Graph} {limits : Limits} {c d : Configuration} {word rest : List Char}

/-- Some sequence of moves, each of them with the symbol that it demands on top
of the stack, leads from one configuration to another and reads a word. -/
inductive Reaches (g : Graph) : Configuration → List Char → Configuration → Prop where
  | refl (c : Configuration) : Reaches g c [] c
  | move {c c' d : Configuration} {word : List Char} {t : Transition} (hmove : t ∈ g.transitions)
    (hfires : Fires t c c') (hreaches : Reaches g c' word d) : Reaches g c (t.label ++ word) d

theorem Reaches.read {c' : Configuration} {symbol : Char} {t : Transition}
    (hmove : t ∈ g.transitions) (hreads : t.reads symbol = true) (hfires : Fires t c c')
    (hreaches : Reaches g c' word d) : Reaches g c (symbol :: word) d := by
  have hlonger := Reaches.move hmove hfires hreaches
  rwa [Transition.label_of_reads hreads] at hlonger

theorem Reaches.silent {c' : Configuration} {t : Transition} (hmove : t ∈ g.transitions)
    (hsilent : t.isEpsilon = true) (hfires : Fires t c c') (hreaches : Reaches g c' word d) :
    Reaches g c word d := by
  have hlonger := Reaches.move hmove hfires hreaches
  rwa [Transition.label_of_isEpsilon hsilent] at hlonger

/-- A machine with preferences makes a computation of the machine without. Were
there an epsilon in the input, a silent move might have read it. -/
theorem Computes.reaches {events : List Event} (hcomputes : Computes g c rest events d [])
    (hrest : epsilon ∉ rest) : Reaches g c rest d := by
  generalize hempty : ([] : List Char) = final at hcomputes
  induction hcomputes with
  | refl c rest =>
    subst hempty
    exact .refl c
  | step hmove _ ih =>
    obtain ⟨symbol, t, rfl, hselect, rfl, rfl⟩ | ⟨t, rfl, hsilent, rfl, rfl⟩ := moves_iff.1 hmove
    · obtain ⟨hsymbol, hrest⟩ := List.ne_and_not_mem_of_not_mem_cons hrest
      have hchooses := select_eq_some_iff.1 hselect
      have hloud : t.isEpsilon = false :=
        decide_eq_false fun hsilent => hsymbol (hsilent.symm.trans hchooses.enabled.1)
      have hreads : t.reads symbol = true := Transition.reads_iff.2 ⟨hloud, hchooses.enabled.1⟩
      exact .read hchooses.mem hreads hchooses.enabled.fires (ih hrest hempty)
    · obtain ⟨_, hchooses⟩ := silentMove_eq_some_iff.1 hsilent
      exact .silent hchooses.mem (decide_eq_true hchooses.enabled.1) hchooses.enabled.fires
        (ih hrest hempty)

/-- There is never anything to prefer: at most one move is enabled. -/
theorem eq_of_enabled (hg : g.StackDeterministic) {symbol : Char} {t u : Transition}
    (ht : t ∈ g.transitions) (hu : u ∈ g.transitions) (htenabled : Enabled c symbol t)
    (huenabled : Enabled c symbol u) : t = u := by
  have hlisted {t : Transition} (ht : t ∈ g.transitions) (henabled : Enabled c symbol t) :
      t ∈ (g.movesFrom c.state).filter (·.symbol = symbol) := by
    obtain ⟨hsource, hsymbol, _⟩ := enabled_iff.1 henabled
    exact List.mem_filter.2
      ⟨List.mem_filter.2 ⟨ht, decide_eq_true hsource⟩, decide_eq_true hsymbol⟩
  have htlisted := hlisted ht htenabled
  have hulisted := hlisted hu huenabled
  obtain ⟨single, hmoves, _⟩ | ⟨hdemands, hdistinct⟩ := hg c.state symbol
  · rw [hmoves, List.mem_singleton] at htlisted hulisted
    rw [htlisted, hulisted]
  · have htop {t : Transition} (hlisted : t ∈ (g.movesFrom c.state).filter (·.symbol = symbol))
        (henabled : Enabled c symbol t) : t.pop = c.top? := by
      obtain ⟨demanded, hpop⟩ := Option.ne_none_iff_exists'.1 (hdemands t hlisted)
      obtain ⟨_, _, hcan⟩ := enabled_iff.1 henabled
      rw [Configuration.canFire, hpop] at hcan
      rw [hpop, of_decide_eq_true hcan]
    exact List.inj_on_of_nodup_map hdistinct htlisted hulisted
      ((htop htlisted htenabled).trans (htop hulisted huenabled).symm)

/-- Without a choice, a move that is enabled is the one that is selected. -/
theorem select_eq_of_enabled (hg : g.StackDeterministic) {symbol : Char} {t : Transition}
    (ht : t ∈ g.transitions) (henabled : Enabled c symbol t) : c.select g symbol = some t := by
  obtain ⟨u, hchooses⟩ := Chooses.exists_of_enabled ht henabled
  rw [eq_of_enabled hg ht hchooses.mem henabled hchooses.enabled]
  exact select_eq_some_iff.2 hchooses

/-- Any computation without a preferred move is the one that the machine with
preferences makes. -/
theorem Reaches.acceptsWithin (hloud : ∀ t ∈ g.transitions, t.isEpsilon = false)
    (hg : g.StackDeterministic) (hreaches : Reaches g c word d) (haccepts : d.isAccepting g = true)
    (limits : Limits) : AcceptsWithin g limits c word := by
  induction hreaches with
  | refl c => exact (acceptsWithin_nil_iff (closingPass_of_loud hloud none c)).2 haccepts
  | @move c c' d word t hmove hfires _ ih =>
    have hreads : t.reads t.symbol = true := Transition.reads_iff.2 ⟨hloud t hmove, rfl⟩
    rw [Transition.label_of_reads hreads, List.singleton_append,
      acceptsWithin_cons_iff (closingPass_of_loud hloud (some t.symbol) c)]
    obtain rfl := hfires.eq_fire
    exact ⟨t, select_eq_of_enabled hg hmove ⟨rfl, _, hfires⟩, ih haccepts⟩

/-- Some computation reads the word and ends in an accepting state with nothing
but the marker on the stack. -/
def AcceptsSomehow (g : Graph) (origin : StateId) (word : List Char) : Prop :=
  ∃ last, Reaches g ⟨origin, [bottomMarker]⟩ word last ∧ g.isAccepting last.state = true ∧
    last.stack = [bottomMarker]

end Pushdown

namespace Automaton

/-- A pushdown automaton agrees with the nondeterministic machine of the
textbooks. What it accepts, some computation of that machine accepts. If no move
is silent and there is never more than one move to take, it accepts all that any
computation accepts, whatever its bounds. -/
theorem pda_agrees_with_nondeterministic (g : Graph) {origin : StateId}
    (hstart : g.soleStart = .ok origin) (limits : Limits) (input : List Char) :
    ∃ verdict, (pda g limits).accepts input = .ok verdict ∧
      (epsilon ∉ input → verdict = true → Pushdown.AcceptsSomehow g origin input) ∧
      ((∀ t ∈ g.transitions, t.isEpsilon = false) → g.StackDeterministic →
        Pushdown.AcceptsSomehow g origin input → verdict = true) := by
  refine ⟨_, accepts_of_soleStart (a := .pda g limits) hstart input, fun hinput haccepted => ?_,
    fun hloud hg haccepted => ?_⟩
  · obtain ⟨events, last, hcomputes, _, haccepting, hstack, _⟩ :=
      (Pushdown.acceptsFrom_iff g limits origin input).1 haccepted
    exact ⟨last, hcomputes.reaches hinput, haccepting, hstack⟩
  · obtain ⟨last, hreaches, haccepting, hstack⟩ := haccepted
    refine (Pushdown.acceptsFrom_iff g limits origin input).2 ?_
    exact hreaches.acceptsWithin hloud hg (Pushdown.isAccepting_iff.2 ⟨haccepting, hstack⟩) limits

/-- A machine for as many `b` as `a`, which tells its first move on `a` from the
others by the marker. -/
theorem pda_agrees_with_nondeterministic_of_counting :
    let g : Graph :=
      { states := [{ id := 0, isStart := true }, { id := 1, isAccepting := true }]
        transitions := [
          .pushdown 0 0 'a' (some '#') ['X', '#'],
          .pushdown 0 0 'a' (some 'X') ['X', 'X'],
          .pushdown 0 1 'b' (some 'X') [],
          .pushdown 1 1 'b' (some 'X') []] }
    let input := ['a', 'a', 'b', 'b']
    g.soleStart = .ok 0 ∧ epsilon ∉ input ∧ (∀ t ∈ g.transitions, t.isEpsilon = false) ∧
      g.StackDeterministic ∧ ∃ verdict,
        (pda g { epsilonIterations := 0 }).accepts input = .ok verdict ∧
          (verdict = true ↔ Pushdown.AcceptsSomehow g 0 input) := by
  intro g input
  have hinput : epsilon ∉ input := by decide
  have hloud : ∀ t ∈ g.transitions, t.isEpsilon = false := by decide
  have hg : g.StackDeterministic := Graph.stackDeterministic_of_nodup (by decide) (by decide)
  obtain ⟨verdict, haccepts, hsound, hcomplete⟩ :=
    pda_agrees_with_nondeterministic g rfl { epsilonIterations := 0 } input
  exact ⟨rfl, hinput, hloud, hg, verdict, haccepts, hsound hinput, hcomplete hloud hg⟩

end Automaton

end Automata
