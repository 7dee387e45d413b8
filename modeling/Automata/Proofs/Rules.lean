import Automata.Proofs.Issue
import Automata.Proofs.Wire.Graph

namespace Automata

namespace MoveRecord

variable {r s : MoveRecord}

/-- The record demands a symbol on the stack or pushes one. Epsilon is none. -/
def UsesStack (r : MoveRecord) : Prop :=
  (∃ symbol ∈ r.pop, symbol ≠ epsilon) ∨
    ∃ text ∈ r.push, ∃ symbol ∈ text.toList, symbol ≠ epsilon

/-- Both records demand the same symbol on the stack, or neither demands any. -/
def DemandsLike (r s : MoveRecord) : Prop :=
  ∀ symbol, symbol ≠ epsilon → (r.pop = some symbol ↔ s.pop = some symbol)

theorem isEpsilon_move_eq_false_iff : r.move.isEpsilon = false ↔ r.symbol ≠ epsilon := by
  simp [Transition.isEpsilon, move, Transition.pushdown]

theorem hasStackEffect_move_eq_false_iff : r.move.hasStackEffect = false ↔ ¬ r.UsesStack := by
  rw [Transition.hasStackEffect_eq_false_iff, UsesStack, not_or]
  refine and_congr ?_ ?_
  · cases hpop : r.pop <;> simp [move, Transition.pushdown, hpop]
  · cases hpush : r.push <;> simp [move, Transition.pushdown, hpush]

/-- Two records demand the same of the stack exactly if their moves do: an
absent symbol and the epsilon symbol are the same. -/
theorem pop_move_eq_iff : r.move.pop = s.move.pop ↔ r.DemandsLike s := by
  have hpop (r : MoveRecord) (symbol : Char) :
      r.move.pop = some symbol ↔ symbol ≠ epsilon ∧ r.pop = some symbol := by
    simp only [move, Transition.pushdown, Option.filter_eq_some_iff, decide_eq_true_eq]
    exact and_comm
  constructor
  · intro hsame symbol hsymbol
    have hiff := hpop r symbol
    rw [hsame, hpop s symbol, and_iff_right hsymbol, and_iff_right hsymbol] at hiff
    exact hiff.symm
  · intro hlike
    refine Option.ext fun symbol => ?_
    rw [hpop, hpop]
    exact and_congr_right (hlike symbol)

end MoveRecord

/-- The rules for all kinds: no two states have the same number, exactly one is
marked as the start, and moves run between states that are listed. -/
structure Connected (states : List State) (moves : List MoveRecord) : Prop where
  distinct : states.Pairwise fun s u => s.id ≠ u.id
  one_start : states.countP (·.isStart) = 1
  known_ends : ∀ r ∈ moves, (∃ s ∈ states, s.id = r.source) ∧ ∃ s ∈ states, s.id = r.target

/-- All rules for an automaton of a kind. -/
structure Kind.Permits (kind : Kind) (states : List State) (moves : List MoveRecord) : Prop
    extends Connected states moves where
  reading : kind = .dfa ∨ kind = .nfa → ∀ r ∈ moves, r.symbol ≠ epsilon
  stackless : kind ≠ .pda → ∀ r ∈ moves, ¬ r.UsesStack
  choiceless : kind = .dfa →
    moves.Pairwise fun r s => ¬ (r.source = s.source ∧ r.symbol = s.symbol)
  stack_choiceless : kind = .pda →
    moves.Pairwise fun r s => ¬ (r.source = s.source ∧ r.symbol = s.symbol ∧ r.DemandsLike s)

namespace Graph

variable {g : Graph} {moves : List MoveRecord}

/-- A start state is found exactly if one state is a start state. -/
theorem exists_soleStart_iff :
    (∃ origin, g.soleStart = .ok origin) ↔ g.states.countP (·.isStart) = 1 := by
  simp only [soleStart_eq_ok_iff, ← List.length_eq_one_iff, startIds, List.length_map,
    List.countP_eq_length_filter]

/-- Whatever all moves of a graph have to be shows in how they are written. -/
theorem forall_move_iff (hmoves : g.transitions = moves.map (·.move)) {P : Transition → Prop} :
    (∀ t ∈ g.transitions, P t) ↔ ∀ r ∈ moves, P r.move := by
  rw [hmoves, List.forall_mem_map]

/-- No issue with the structure is reported exactly if the states and moves fit
together. -/
theorem structuralIssues_eq_nil_iff_connected (hmoves : g.transitions = moves.map (·.move)) :
    g.structuralIssues = [] ↔ Connected g.states moves := by
  have hknown : (∀ t ∈ g.transitions, g.hasState t.source = true ∧ g.hasState t.target = true) ↔
      ∀ r ∈ moves, (∃ s ∈ g.states, s.id = r.source) ∧ ∃ s ∈ g.states, s.id = r.target := by
    simp only [forall_move_iff hmoves, hasState_iff, List.mem_map]
    rfl
  rw [structuralIssues_eq_nil_iff, exists_soleStart_iff]
  constructor
  · rintro ⟨hg, hstart⟩
    exact ⟨List.pairwise_map.1 hg.nodup_ids, hstart,
      hknown.1 fun t ht => ⟨hg.hasState_source t ht, hg.hasState_target t ht⟩⟩
  · rintro ⟨hdistinct, hstart, hends⟩
    have hends := hknown.2 hends
    have hstarts : g.startIds.length = 1 := by
      rw [startIds, List.length_map, ← List.countP_eq_length_filter, hstart]
    exact ⟨⟨List.pairwise_map.2 hdistinct, Nat.le_of_eq hstarts, fun t ht => (hends t ht).1,
      fun t ht => (hends t ht).2⟩, hstart⟩

/-- No silent move is reported exactly if every move reads. -/
theorem epsilonIssues_eq_nil_iff_reading (hmoves : g.transitions = moves.map (·.move))
    {kind : Kind} : g.epsilonIssues kind = [] ↔ ∀ r ∈ moves, r.symbol ≠ epsilon := by
  rw [epsilonIssues_eq_nil_iff, forall_move_iff hmoves]
  simp only [MoveRecord.isEpsilon_move_eq_false_iff]

/-- No use of the stack is reported exactly if there is none. -/
theorem stackIssues_eq_nil_iff_stackless (hmoves : g.transitions = moves.map (·.move))
    {kind : Kind} : g.stackIssues kind = [] ↔ ∀ r ∈ moves, ¬ r.UsesStack := by
  rw [stackIssues_eq_nil_iff, forall_move_iff hmoves]
  simp only [MoveRecord.hasStackEffect_move_eq_false_iff]

/-- The check for choices skips silent moves. Where there are none it skips
nothing. -/
theorem choiceIssues_eq_nil_iff_choiceless (hmoves : g.transitions = moves.map (·.move))
    (hreading : ∀ r ∈ moves, r.symbol ≠ epsilon) :
    g.choiceIssues = [] ↔
      moves.Pairwise fun r s => ¬ (r.source = s.source ∧ r.symbol = s.symbol) := by
  have hall : g.transitions.filter (!·.isEpsilon) = g.transitions := by
    refine List.filter_eq_self.2 ((forall_move_iff hmoves).2 fun r hr => ?_)
    rw [MoveRecord.isEpsilon_move_eq_false_iff.2 (hreading r hr)]
    rfl
  rw [choiceIssues_eq_nil_iff, hall, hmoves, List.map_map, List.Nodup, List.pairwise_map]
  simp only [Function.comp_apply, ne_eq, Prod.mk.injEq]
  rfl

/-- No choice is reported exactly if no two moves from one state read the same
and demand the same of the stack. -/
theorem stackChoiceIssues_eq_nil_iff_choiceless (hmoves : g.transitions = moves.map (·.move)) :
    g.stackChoiceIssues = [] ↔ moves.Pairwise fun r s =>
      ¬ (r.source = s.source ∧ r.symbol = s.symbol ∧ r.DemandsLike s) := by
  rw [stackChoiceIssues_eq_nil_iff, hmoves, List.map_map, List.Nodup, List.pairwise_map]
  simp only [Function.comp_apply, ne_eq, Prod.mk.injEq, MoveRecord.pop_move_eq_iff]
  rfl

end Graph

namespace Automaton

section Kinds

variable {g : Graph} {moves : List MoveRecord}

theorem issues_dfa_iff_permits (hmoves : g.transitions = moves.map (·.move)) :
    (dfa g).issues = [] ↔ Kind.dfa.Permits g.states moves := by
  simp only [issues, List.append_eq_nil_iff, Graph.structuralIssues_eq_nil_iff_connected hmoves,
    Graph.epsilonIssues_eq_nil_iff_reading hmoves, Graph.stackIssues_eq_nil_iff_stackless hmoves]
  constructor
  · rintro ⟨⟨⟨hconnected, hreading⟩, hstackless⟩, hchoices⟩
    have hchoiceless := (Graph.choiceIssues_eq_nil_iff_choiceless hmoves hreading).1 hchoices
    exact { hconnected with
      reading := fun _ => hreading
      stackless := fun _ => hstackless
      choiceless := fun _ => hchoiceless
      stack_choiceless := fun hkind => absurd hkind (by decide) }
  · rintro ⟨hconnected, hreading, hstackless, hchoiceless, _⟩
    have hreading := hreading (.inl rfl)
    exact ⟨⟨⟨hconnected, hreading⟩, hstackless (by decide)⟩,
      (Graph.choiceIssues_eq_nil_iff_choiceless hmoves hreading).2 (hchoiceless rfl)⟩

theorem issues_nfa_iff_permits (hmoves : g.transitions = moves.map (·.move)) :
    (nfa g).issues = [] ↔ Kind.nfa.Permits g.states moves := by
  simp only [issues, List.append_eq_nil_iff, Graph.structuralIssues_eq_nil_iff_connected hmoves,
    Graph.epsilonIssues_eq_nil_iff_reading hmoves, Graph.stackIssues_eq_nil_iff_stackless hmoves]
  constructor
  · rintro ⟨⟨hconnected, hreading⟩, hstackless⟩
    exact { hconnected with
      reading := fun _ => hreading
      stackless := fun _ => hstackless
      choiceless := fun hkind => absurd hkind (by decide)
      stack_choiceless := fun hkind => absurd hkind (by decide) }
  · rintro ⟨hconnected, hreading, hstackless, _, _⟩
    exact ⟨⟨hconnected, hreading (.inr rfl)⟩, hstackless (by decide)⟩

theorem issues_epsilonNfa_iff_permits (hmoves : g.transitions = moves.map (·.move)) :
    (epsilonNfa g).issues = [] ↔ Kind.epsilonNfa.Permits g.states moves := by
  simp only [issues, List.append_eq_nil_iff, Graph.structuralIssues_eq_nil_iff_connected hmoves,
    Graph.stackIssues_eq_nil_iff_stackless hmoves]
  constructor
  · rintro ⟨hconnected, hstackless⟩
    exact { hconnected with
      reading := fun hkind => absurd hkind (by decide)
      stackless := fun _ => hstackless
      choiceless := fun hkind => absurd hkind (by decide)
      stack_choiceless := fun hkind => absurd hkind (by decide) }
  · rintro ⟨hconnected, _, hstackless, _, _⟩
    exact ⟨hconnected, hstackless (by decide)⟩

theorem issues_pda_iff_permits {limits : Limits} (hmoves : g.transitions = moves.map (·.move)) :
    (pda g limits).issues = [] ↔ Kind.pda.Permits g.states moves := by
  simp only [issues, List.append_eq_nil_iff, Graph.structuralIssues_eq_nil_iff_connected hmoves,
    Graph.stackChoiceIssues_eq_nil_iff_choiceless hmoves]
  constructor
  · rintro ⟨hconnected, hchoiceless⟩
    exact { hconnected with
      reading := fun hkind => absurd hkind (by decide)
      stackless := fun hkind => absurd rfl hkind
      choiceless := fun hkind => absurd hkind (by decide)
      stack_choiceless := fun _ => hchoiceless }
  · rintro ⟨hconnected, _, _, _, hchoiceless⟩
    exact ⟨hconnected, hchoiceless rfl⟩

end Kinds

/-- However its moves are written, an automaton has no findings exactly if it
keeps the rules for its kind. -/
theorem issues_eq_nil_iff_of_written {a : Automaton} {moves : List MoveRecord}
    (hmoves : a.graph.transitions = moves.map (·.move)) :
    a.issues = [] ↔ a.kind.Permits a.graph.states moves := by
  cases a with
  | dfa g => exact issues_dfa_iff_permits hmoves
  | nfa g => exact issues_nfa_iff_permits hmoves
  | epsilonNfa g => exact issues_epsilonNfa_iff_permits hmoves
  | pda g limits => exact issues_pda_iff_permits hmoves

/-- Nothing is found wrong with an automaton exactly if it keeps the rules for its
kind, in the form in which its moves are stored, and in any other form in which
they may have been written before. -/
theorem issues_eq_nil_iff_permits (a : Automaton) :
    (a.issues = [] ↔ a.kind.Permits a.graph.states (a.graph.transitions.map (·.record))) ∧
      ∀ moves : List MoveRecord, a.graph.transitions = moves.map (·.move) →
        (a.issues = [] ↔ a.kind.Permits a.graph.states moves) := by
  refine ⟨issues_eq_nil_iff_of_written ?_, fun moves => issues_eq_nil_iff_of_written⟩
  rw [List.map_map]
  exact (List.map_id _).symm.trans (List.map_congr_left fun t _ => (MoveRecord.move_record t).symm)

/-- A demand of epsilon and a missing one make two moves of a pushdown automaton
compete. -/
example :
    let moves : List MoveRecord :=
      [{ source := 0, target := 0, symbol := 'a', pop := some epsilon },
        { source := 0, target := 1, symbol := 'a' }]
    (pda { states := [{ id := 0, isStart := true }, { id := 1 }],
           transitions := moves.map (·.move) }).issues = [.stackChoice 0 'a' none 2] := by
  decide

end Automaton

end Automata
