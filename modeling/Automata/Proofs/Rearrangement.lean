import Automata.Proofs.Issue
import Automata.Proofs.Pushdown.Moves
import Automata.Proofs.Run.Frontier
import Automata.Proofs.Stepping
import Mathlib.Data.List.Find

namespace Automata

namespace Graph

/-- Two graphs list the same states and the same moves, each in an order of its
own. -/
structure Rearranges (g h : Graph) : Prop where
  perm_states : g.states.Perm h.states
  perm_transitions : g.transitions.Perm h.transitions

/-- A state has at most one move that reads a given symbol. -/
def ReadsUniquely (g : Graph) : Prop :=
  ∀ t ∈ g.transitions, ∀ u ∈ g.transitions, ∀ symbol,
    t.reads symbol = true → u.reads symbol = true → t.source = u.source → t = u

/-- Of the moves on a symbol that are possible in a configuration, at most one
demands a symbol on the stack, and at most one does not. -/
def SelectsUniquely (g : Graph) : Prop :=
  ∀ t ∈ g.transitions, ∀ u ∈ g.transitions, ∀ (c : Configuration) symbol,
    Pushdown.Enabled c symbol t → Pushdown.Enabled c symbol u →
      t.pop.isSome = u.pop.isSome → t = u

variable {g h : Graph}

/-- A graph without reported choices has at most one move for a state and a
symbol. -/
theorem readsUniquely_of_choiceIssues_eq_nil (hissues : g.choiceIssues = []) :
    g.ReadsUniquely := by
  rw [choiceIssues_eq_nil_iff] at hissues
  intro t ht u hu symbol htreads hureads hsource
  obtain ⟨htloud, htsymbol⟩ := Transition.reads_iff.1 htreads
  obtain ⟨huloud, husymbol⟩ := Transition.reads_iff.1 hureads
  refine List.inj_on_of_nodup_map hissues ?_ ?_ ?_
  · exact List.mem_filter.2 ⟨ht, by rw [htloud]; rfl⟩
  · exact List.mem_filter.2 ⟨hu, by rw [huloud]; rfl⟩
  · exact Prod.ext hsource (htsymbol.trans husymbol.symm)

/-- What a possible move demands is what lies on top of the stack. -/
theorem pop_eq_of_enabled {c : Configuration} {symbol : Char} {t : Transition}
    (henabled : Pushdown.Enabled c symbol t) : t.pop = if t.pop.isSome then c.top? else none := by
  obtain ⟨_, _, hcan⟩ := Pushdown.enabled_iff.1 henabled
  cases hpop : t.pop with
  | none => rfl
  | some demanded =>
    rw [Configuration.canFire, hpop] at hcan
    exact (of_decide_eq_true hcan).symm

/-- A graph without reported choices selects its moves whatever their order. -/
theorem selectsUniquely_of_stackChoiceIssues_eq_nil (hissues : g.stackChoiceIssues = []) :
    g.SelectsUniquely := by
  rw [stackChoiceIssues_eq_nil_iff] at hissues
  intro t ht u hu c symbol htenabled huenabled hdemands
  obtain ⟨htsource, htsymbol, _⟩ := Pushdown.enabled_iff.1 htenabled
  obtain ⟨husource, husymbol, _⟩ := Pushdown.enabled_iff.1 huenabled
  have hpop : t.pop = u.pop := by
    rw [pop_eq_of_enabled htenabled, pop_eq_of_enabled huenabled, hdemands]
  refine List.inj_on_of_nodup_map hissues ht hu ?_
  rw [htsource, husource, htsymbol, husymbol, hpop]

namespace Rearranges

theorem mem_transitions_iff (hgh : g.Rearranges h) {t : Transition} :
    t ∈ g.transitions ↔ t ∈ h.transitions :=
  hgh.perm_transitions.mem_iff

/-- States are found by their number, so that their order does not matter. -/
theorem state?_eq (hgh : g.Rearranges h) (hnodup : (g.states.map (·.id)).Nodup) (id : StateId) :
    g.state? id = h.state? id := by
  refine List.find?_eq_find?_of_perm hgh.perm_states ?_
  rintro s ⟨hs, hsid⟩ u ⟨hu, huid⟩
  refine List.inj_on_of_nodup_map hnodup hs hu ?_
  exact (of_decide_eq_true hsid).trans (of_decide_eq_true huid).symm

theorem isAccepting_eq (hgh : g.Rearranges h) (hnodup : (g.states.map (·.id)).Nodup) :
    g.isAccepting = h.isAccepting := by
  funext id
  rw [isAccepting, isAccepting, hgh.state?_eq hnodup]

theorem soleStart_eq (hgh : g.Rearranges h) {origin : StateId} (hstart : g.soleStart = .ok origin) :
    h.soleStart = .ok origin := by
  have hperm : h.startIds.Perm g.startIds := ((hgh.perm_states.filter _).map _).symm
  rw [soleStart_eq_ok_iff] at hstart ⊢
  rw [hstart] at hperm
  exact List.perm_singleton.1 hperm

/-- Graphs with the same moves have the same paths. -/
theorem path_iff (hgh : g.Rearranges h) {silence : Silence} {p q : StateId} {word : List Char} :
    Path silence g.transitions p word q ↔ Path silence h.transitions p word q :=
  ⟨Path.mono fun _ => hgh.mem_transitions_iff.1, Path.mono fun _ => hgh.mem_transitions_iff.2⟩

end Rearranges

end Graph

open Automata.Graph (Rearranges)

variable {g h : Graph}

namespace Deterministic

/-- Where at most one move applies, the order of the moves does not matter. -/
theorem successor_eq_of_rearranges (hgh : g.Rearranges h) (hunique : g.ReadsUniquely) :
    successor g = successor h := by
  funext id symbol
  simp only [successor, Graph.movesFrom, List.find?_filter]
  refine congrArg (Option.map _) (List.find?_eq_find?_of_perm hgh.perm_transitions ?_)
  rintro t ⟨ht, htaken⟩ u ⟨hu, hutaken⟩
  simp only [decide_eq_true_eq] at htaken hutaken
  exact hunique t ht u hu symbol htaken.2 hutaken.2 (htaken.1.trans hutaken.1.symm)

theorem machine_eq_of_rearranges (hgh : g.Rearranges h) (hnodup : (g.states.map (·.id)).Nodup)
    (hunique : g.ReadsUniquely) : machine g = machine h := by
  have hsettle : settle g = settle h := by
    funext r
    rw [settle, settle, hgh.isAccepting_eq hnodup]
  have hstart : start g = start h := by
    funext origin input
    rw [start, start, hsettle]
  have hstep : step g = step h := by
    funext r
    rw [step, step, hsettle, successor_eq_of_rearranges hgh hunique]
  rw [machine, machine, hstart, hstep]

end Deterministic

namespace Frontier

variable {silence : Silence}

theorem initial_eq_of_rearranges (hgh : g.Rearranges h) (origin : StateId) :
    initial silence g origin = initial silence h origin :=
  SortedSet.ext fun q => by rw [mem_initial_iff, mem_initial_iff, hgh.path_iff]

theorem move_eq_of_rearranges (hgh : g.Rearranges h) : move silence g = move silence h := by
  funext f symbol
  refine SortedSet.ext fun q => ?_
  simp only [mem_move_iff, hgh.mem_transitions_iff, hgh.path_iff]

theorem isAccepting_eq_of_rearranges (hgh : g.Rearranges h)
    (hnodup : (g.states.map (·.id)).Nodup) : isAccepting g = isAccepting h := by
  funext f
  rw [isAccepting, isAccepting, hgh.isAccepting_eq hnodup]

theorem machine_eq_of_rearranges (hgh : g.Rearranges h) (hnodup : (g.states.map (·.id)).Nodup) :
    machine silence g = machine silence h := by
  refine machine_congr ?_ ?_ ?_
  · funext r
    rw [settle, settle, isAccepting_eq_of_rearranges hgh hnodup]
  · funext origin
    exact initial_eq_of_rearranges hgh origin
  · exact move_eq_of_rearranges hgh

end Frontier

namespace Pushdown

/-- Where at most one move can be selected, the order of the moves does not
matter. -/
theorem select_eq_of_rearranges (hgh : g.Rearranges h) (hunique : g.SelectsUniquely)
    (c : Configuration) (symbol : Char) : c.select g symbol = c.select h symbol := by
  rw [select_eq, select_eq]
  have hdemanding : (g.transitions.find? fun t => Enabled c symbol t && t.pop.isSome) =
      h.transitions.find? fun t => Enabled c symbol t && t.pop.isSome := by
    refine List.find?_eq_find?_of_perm hgh.perm_transitions ?_
    rintro t ⟨ht, htaken⟩ u ⟨hu, hutaken⟩
    simp only [Bool.and_eq_true, decide_eq_true_eq] at htaken hutaken
    exact hunique t ht u hu c symbol htaken.1 hutaken.1 (htaken.2.trans hutaken.2.symm)
  cases hfound : g.transitions.find? fun t => Enabled c symbol t && t.pop.isSome with
  | some t => rw [← hdemanding, hfound, Option.some_or, Option.some_or]
  | none =>
    rw [← hdemanding, hfound, Option.none_or, Option.none_or]
    have hundemanding (t : Transition) (ht : t ∈ g.transitions) (henabled : Enabled c symbol t) :
        t.pop.isSome = false := by
      simpa [henabled] using List.find?_eq_none.1 hfound t ht
    refine List.find?_eq_find?_of_perm hgh.perm_transitions ?_
    rintro t ⟨ht, htaken⟩ u ⟨hu, hutaken⟩
    have htenabled := of_decide_eq_true htaken
    have huenabled := of_decide_eq_true hutaken
    exact hunique t ht u hu c symbol htenabled huenabled
      ((hundemanding t ht htenabled).trans (hundemanding u hu huenabled).symm)

/-- A closing pass does not depend on the order of the moves either. -/
theorem pass_eq_of_rearranges (hgh : g.Rearranges h) (hunique : g.SelectsUniquely)
    (next : Option Char) (maxHeight budget : Nat) (c : Configuration) :
    pass g next maxHeight budget c = pass h next maxHeight budget c := by
  have hsame (c : Configuration) : silentMove h next c = silentMove g next c := by
    simp only [silentMove, select_eq_of_rearranges hgh hunique]
  induction budget generalizing c with
  | zero =>
    cases hsilent : silentMove g next c with
    | none =>
      rw [pass_of_silentMove_eq_none hsilent,
        pass_of_silentMove_eq_none ((hsame c).trans hsilent)]
    | some t => rw [pass_zero hsilent, pass_zero ((hsame c).trans hsilent)]
  | succ budget ih =>
    cases hsilent : silentMove g next c with
    | none =>
      rw [pass_of_silentMove_eq_none hsilent,
        pass_of_silentMove_eq_none ((hsame c).trans hsilent)]
    | some t => rw [pass_succ hsilent, pass_succ ((hsame c).trans hsilent), ih]

theorem machine_eq_of_rearranges (hgh : g.Rearranges h) (hnodup : (g.states.map (·.id)).Nodup)
    (hunique : g.SelectsUniquely) (limits : Limits) : machine g limits = machine h limits := by
  have hsettle : settle g limits = settle h limits := by
    funext r
    simp only [settle, pass_eq_of_rearranges hgh hunique, Configuration.isAccepting,
      hgh.isAccepting_eq hnodup]
  have hstart : start g limits = start h limits := by
    funext origin input
    rw [start, start, hsettle]
  have hstep : step g limits = step h limits := by
    funext r
    simp only [step, hsettle, select_eq_of_rearranges hgh hunique]
  rw [machine, machine, hstart, hstep]

end Pushdown

namespace Automaton

variable {a : Automaton}

theorem graph_withGraph (a : Automaton) (g : Graph) : (a.withGraph g).graph = g := by
  cases a <;> rfl

/-- Nothing is wrong with the graph of an automaton with which nothing is wrong. -/
theorem structuralIssues_eq_nil_of_issues_eq_nil (hissues : a.issues = []) :
    a.graph.structuralIssues = [] := by
  cases a <;> simp only [issues, List.append_eq_nil_iff] at hissues
  · exact hissues.1.1.1
  · exact hissues.1.1
  · exact hissues.1
  · exact hissues.1

/-- One machine drives the runs of an automaton, in whatever order its graph is
listed. -/
theorem exists_drivenBy_both (hissues : a.issues = []) (hgh : a.graph.Rearranges h) :
    ∃ (C : Type) (m : Machine C) (wrap : Run C → Execution), m.Lawful ∧
      a.DrivenBy m wrap ∧ (a.withGraph h).DrivenBy m wrap := by
  obtain ⟨hg, _⟩ := Graph.structuralIssues_eq_nil_iff.1
    (structuralIssues_eq_nil_of_issues_eq_nil hissues)
  have hnodup := hg.nodup_ids
  cases a with
  | dfa g =>
    have hunique : g.ReadsUniquely :=
      Graph.readsUniquely_of_choiceIssues_eq_nil (List.append_eq_nil_iff.1 hissues).2
    have hmachine : Deterministic.machine g = Deterministic.machine h :=
      Deterministic.machine_eq_of_rearranges hgh hnodup hunique
    exact ⟨_, _, _, Deterministic.lawful_machine g, drivenBy_dfa g, hmachine ▸ drivenBy_dfa h⟩
  | nfa g =>
    have hmachine : Frontier.machine .ignored g = Frontier.machine .ignored h :=
      Frontier.machine_eq_of_rearranges hgh hnodup
    exact ⟨_, _, _, Frontier.lawful_machine .ignored g, drivenBy_nfa g,
      hmachine ▸ drivenBy_nfa h⟩
  | epsilonNfa g =>
    have hmachine : Frontier.machine .followed g = Frontier.machine .followed h :=
      Frontier.machine_eq_of_rearranges hgh hnodup
    exact ⟨_, _, _, Frontier.lawful_machine .followed g, drivenBy_epsilonNfa g,
      hmachine ▸ drivenBy_epsilonNfa h⟩
  | pda g limits =>
    have hunique : g.SelectsUniquely :=
      Graph.selectsUniquely_of_stackChoiceIssues_eq_nil (List.append_eq_nil_iff.1 hissues).2
    have hmachine : Pushdown.machine g limits = Pushdown.machine h limits :=
      Pushdown.machine_eq_of_rearranges hgh hnodup hunique limits
    exact ⟨_, _, _, Pushdown.lawful_machine g limits, drivenBy_pda g limits,
      hmachine ▸ drivenBy_pda h limits⟩

/-- Runs of an automaton with which nothing is wrong do not depend on the order
in which its states and moves are listed: on every input, they agree step by
step. In particular it never comes to a choice of the first among several moves
where choices are reported. -/
theorem rearranged_runs_agree (a : Automaton) (hissues : a.issues = []) (g : Graph)
    (hstates : g.states.Perm a.graph.states)
    (htransitions : g.transitions.Perm a.graph.transitions) (input : List Char) :
    (∃ trace : Nat → Execution,
      (a.start input = .ok (trace 0) ∧ ∀ k, a.step (trace k) = .ok (trace (k + 1))) ∧
      (a.withGraph g).start input = .ok (trace 0) ∧
        ∀ k, (a.withGraph g).step (trace k) = .ok (trace (k + 1))) ∧
      ∀ h : Graph, (h.choiceIssues = [] → h.ReadsUniquely) ∧
        (h.stackChoiceIssues = [] → h.SelectsUniquely) := by
  have hgh : a.graph.Rearranges g := ⟨hstates.symm, htransitions.symm⟩
  obtain ⟨_, origin, hstart⟩ := Graph.structuralIssues_eq_nil_iff.1
    (structuralIssues_eq_nil_of_issues_eq_nil hissues)
  obtain ⟨C, m, wrap, hm, hdriven, hdriven'⟩ := exists_drivenBy_both hissues hgh
  have hstart' : (a.withGraph g).graph.soleStart = .ok origin := by
    rw [graph_withGraph]
    exact hgh.soleStart_eq hstart
  exact ⟨⟨fun k => wrap (m.trace origin input k),
    ⟨hdriven.start_eq hstart input, hdriven.step_trace⟩,
    hdriven'.start_eq hstart' input, hdriven'.step_trace⟩,
    fun h => ⟨Graph.readsUniquely_of_choiceIssues_eq_nil,
      Graph.selectsUniquely_of_stackChoiceIssues_eq_nil⟩⟩

/-- A pushdown automaton with a demanding and an undemanding move on one symbol
and a silent move beside them. -/
theorem rearranged_runs_agree_of_pushdown :
    let states : List State := [{ id := 0, isStart := true }, { id := 1, isAccepting := true }]
    let moves : List Transition := [.pushdown 0 0 'a' none ['X'], .pushdown 0 1 'a' (some 'X') [],
      .pushdown 0 1 epsilon (some '#') ['#']]
    let a : Automaton := .pda { states, transitions := moves } { epsilonIterations := 2 }
    let g : Graph := { states := states.reverse, transitions := moves.reverse }
    a.issues = [] ∧ g.states.Perm a.graph.states ∧ g.transitions.Perm a.graph.transitions ∧
      (∃ trace : Nat → Execution,
        (a.start ['a', 'a'] = .ok (trace 0) ∧ ∀ k, a.step (trace k) = .ok (trace (k + 1))) ∧
        (a.withGraph g).start ['a', 'a'] = .ok (trace 0) ∧
          ∀ k, (a.withGraph g).step (trace k) = .ok (trace (k + 1))) ∧
        ∀ h : Graph, (h.choiceIssues = [] → h.ReadsUniquely) ∧
          (h.stackChoiceIssues = [] → h.SelectsUniquely) :=
  ⟨by decide, List.reverse_perm _, List.reverse_perm _,
    rearranged_runs_agree _ (by decide) _ (List.reverse_perm _) (List.reverse_perm _) _⟩

end Automaton

end Automata
