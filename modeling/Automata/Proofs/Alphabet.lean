import Automata.Proofs.Acceptance
import Automata.Proofs.Graph.Basic
import Automata.Proofs.Pushdown.Acceptance
import Automata.Proofs.Run.Destination

namespace Automata

variable {g : Graph}

/-- The reserved symbol is in no alphabet. -/
theorem Graph.epsilon_notMem_alphabet : epsilon ∉ g.alphabet := by
  intro hmem
  obtain ⟨t, _, hloud, hsymbol⟩ := mem_alphabet_iff.1 hmem
  rw [Transition.isEpsilon, decide_eq_true hsymbol] at hloud
  cases hloud

/-- What labels a move belongs to the alphabet, unless it is epsilon. -/
theorem Graph.symbol_mem_alphabet {t : Transition} (ht : t ∈ g.transitions)
    (hsymbol : t.symbol ≠ epsilon) : t.symbol ∈ g.alphabet :=
  mem_alphabet_iff.2 ⟨t, ht, decide_eq_false hsymbol, rfl⟩

/-- A word that leads somewhere is a word over the alphabet. -/
theorem Deterministic.mem_alphabet_of_destination {p q : StateId} {word : List Char}
    (hdestination : destination g p word = some q) : ∀ c ∈ word, c ∈ g.alphabet := by
  induction word generalizing p with
  | nil => exact nofun
  | cons c word ih =>
    rw [destination_cons] at hdestination
    obtain ⟨next, hsuccessor, hrest⟩ := Option.bind_eq_some_iff.1 hdestination
    obtain ⟨t, ht, _, hreads, _⟩ := exists_move_of_successor hsuccessor
    have hc : c ∈ g.alphabet := Graph.mem_alphabet_iff.2 ⟨t, ht, Transition.reads_iff.1 hreads⟩
    exact List.forall_mem_cons.2 ⟨hc, ih hrest⟩

/-- Along a path only symbols of the alphabet are read. -/
theorem Path.mem_alphabet {silence : Silence} {p q : StateId} {word : List Char}
    (hpath : Path silence g.transitions p word q) : ∀ c ∈ word, c ∈ g.alphabet := by
  induction hpath with
  | nil => exact nofun
  | @cons t _ _ hmove _ _ ih =>
    refine List.forall_mem_append.2 ⟨fun c hc => ?_, ih⟩
    unfold Transition.label at hc
    split at hc
    · cases hc
    · rename_i hloud
      obtain rfl := List.mem_singleton.1 hc
      exact Graph.symbol_mem_alphabet hmove fun hsilent => hloud (decide_eq_true hsilent)

/-- What a machine with a stack reads labels a move. -/
theorem Pushdown.Computes.exists_symbol {c d : Configuration} {rest : List Char}
    {events : List Event} (hcomputes : Computes g c rest events d []) :
    ∀ a ∈ rest, ∃ t ∈ g.transitions, t.symbol = a := by
  generalize hempty : ([] : List Char) = final at hcomputes
  induction hcomputes with
  | refl =>
    subst hempty
    exact nofun
  | step hmove _ ih =>
    obtain ⟨a, t, rfl, hselect, _⟩ | ⟨t, rfl, _⟩ := moves_iff.1 hmove
    · have hchooses := select_eq_some_iff.1 hselect
      exact List.forall_mem_cons.2 ⟨⟨t, hchooses.mem, hchooses.enabled.1⟩, ih hempty⟩
    · exact ih hempty

namespace Automaton

variable {a : Automaton} {origin : StateId} {word : List Char}

/-- Without a stack every symbol of an accepted word is in the alphabet, and so
none is epsilon. -/
theorem mem_alphabet_of_acceptsFrom (hkind : a.kind ≠ .pda)
    (haccepts : a.acceptsFrom origin word = true) : ∀ c ∈ word, c ∈ a.graph.alphabet := by
  cases a with
  | dfa g =>
    obtain ⟨q, hdestination, _⟩ :=
      Deterministic.outcome_eq_some_iff.1 (Deterministic.acceptsFrom_iff.1 haccepts)
    exact Deterministic.mem_alphabet_of_destination hdestination
  | nfa g =>
    obtain ⟨q, hpath, _⟩ := (Frontier.acceptsFrom_iff .ignored g origin word).1 haccepts
    exact hpath.mem_alphabet
  | epsilonNfa g =>
    obtain ⟨q, hpath, _⟩ := (Frontier.acceptsFrom_iff .followed g origin word).1 haccepts
    exact hpath.mem_alphabet
  | pda g limits => exact absurd rfl hkind

/-- With or without a stack every symbol of an accepted word labels a move. -/
theorem exists_symbol_of_acceptsFrom (haccepts : a.acceptsFrom origin word = true) :
    ∀ c ∈ word, ∃ t ∈ a.graph.transitions, t.symbol = c := by
  by_cases hkind : a.kind = .pda
  · cases a with
    | pda g limits =>
      obtain ⟨events, last, hcomputes, _⟩ :=
        (Pushdown.acceptsFrom_iff g limits origin word).1 haccepts
      exact hcomputes.exists_symbol
    | dfa g | nfa g | epsilonNfa g => cases hkind
  · intro c hc
    obtain ⟨t, ht, _, hsymbol⟩ :=
      Graph.mem_alphabet_iff.1 (mem_alphabet_of_acceptsFrom hkind haccepts c hc)
    exact ⟨t, ht, hsymbol⟩

/-- A verdict is only given on automata with a single start state. -/
theorem exists_soleStart_of_accepts {verdict : Bool} (haccepts : a.accepts word = .ok verdict) :
    ∃ origin, a.graph.soleStart = .ok origin ∧ a.acceptsFrom origin word = verdict := by
  rw [accepts] at haccepts
  cases hstart : a.graph.soleStart with
  | error cause =>
    rw [hstart] at haccepts
    cases haccepts
  | ok origin =>
    rw [hstart] at haccepts
    cases haccepts
    exact ⟨origin, rfl, rfl⟩

/-- Every symbol of an accepted word labels a move. All of them belong to the
alphabet exactly if the automaton has no stack or epsilon is not among them: with
a stack, a silent move reads an epsilon of the input. -/
theorem accepted_over_alphabet_iff (a : Automaton) {word : List Char}
    (haccepted : a.accepts word = .ok true) :
    (∀ c ∈ word, ∃ t ∈ a.graph.transitions, t.symbol = c) ∧
      ((∀ c ∈ word, c ∈ a.graph.alphabet) ↔ (a.kind = .pda → epsilon ∉ word)) := by
  obtain ⟨origin, _, haccepts⟩ := exists_soleStart_of_accepts haccepted
  have hlabels := exists_symbol_of_acceptsFrom haccepts
  refine ⟨hlabels, ⟨fun hall _ hmem => ?_, fun hloud => ?_⟩⟩
  · exact Graph.epsilon_notMem_alphabet (hall epsilon hmem)
  · by_cases hkind : a.kind = .pda
    · intro c hc
      obtain ⟨t, ht, rfl⟩ := hlabels c hc
      exact Graph.symbol_mem_alphabet ht fun hsilent => hloud hkind (hsilent ▸ hc)
    · exact mem_alphabet_of_acceptsFrom hkind haccepts

/-- A pushdown automaton with a silent move that follows a symbol. -/
theorem accepted_over_alphabet_iff_of_silent_end :
    let a : Automaton := .pda
      { states := [{ id := 0, isStart := true }, { id := 1 }, { id := 2, isAccepting := true }]
        transitions := [.pushdown 0 1 'a' none ['X'], .pushdown 1 2 epsilon (some 'X') []] }
    let word := ['a', epsilon]
    a.accepts word = .ok true ∧ (∀ c ∈ word, ∃ t ∈ a.graph.transitions, t.symbol = c) ∧
      ((∀ c ∈ word, c ∈ a.graph.alphabet) ↔ (a.kind = .pda → epsilon ∉ word)) :=
  ⟨rfl, accepted_over_alphabet_iff _ rfl⟩

/-- The single move of this graph is silent. As a pushdown automaton it accepts
the empty word and the epsilon as well, as an epsilon-NFA it does not accept the
epsilon. -/
theorem epsilon_accepted_with_stack :
    let g : Graph :=
      { states := [{ id := 0, isStart := true }, { id := 1, isAccepting := true }]
        transitions := [{ source := 0, target := 1, symbol := epsilon }] }
    g.soleStart = .ok 0 ∧ (pda g).accepts [] = .ok true ∧ (pda g).accepts [epsilon] = .ok true ∧
      epsilon ∉ g.alphabet ∧ (epsilonNfa g).accepts [epsilon] = .ok false := by
  intro g
  have hstart : g.soleStart = .ok 0 := rfl
  refine ⟨hstart, rfl, rfl, Graph.epsilon_notMem_alphabet, ?_⟩
  rw [accepts_of_soleStart (a := .epsilonNfa g) hstart]
  refine congrArg Except.ok (Bool.eq_false_iff.2 fun haccepts => ?_)
  have hepsilon := mem_alphabet_of_acceptsFrom (by decide) haccepts epsilon List.mem_cons_self
  exact Graph.epsilon_notMem_alphabet hepsilon

end Automaton

end Automata
