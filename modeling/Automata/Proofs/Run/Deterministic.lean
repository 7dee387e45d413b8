import Automata.Proofs.Run.Machine
import Automata.Run.Deterministic

namespace Automata

theorem Transition.reads_iff {t : Transition} {c : Char} :
    t.reads c = true ↔ t.isEpsilon = false ∧ t.symbol = c := by
  simp [reads]

namespace Deterministic

variable {g : Graph}

/-- There is no successor exactly if no move from the state reads the symbol. -/
theorem successor_eq_none_iff {p : StateId} {c : Char} :
    successor g p c = none ↔ ∀ t ∈ g.transitions, t.source = p → t.reads c = false := by
  simp only [successor, Graph.movesFrom, Option.map_eq_none_iff, List.find?_eq_none,
    List.mem_filter, decide_eq_true_eq, Bool.not_eq_true]
  constructor
  · intro h t ht hsource
    exact h t ⟨ht, hsource⟩
  · rintro h t ⟨ht, hsource⟩
    exact h t ht hsource

/-- A successor is the target of some move that reads the symbol. -/
theorem exists_move_of_successor {p q : StateId} {c : Char} (hsuccessor : successor g p c = some q) :
    ∃ t ∈ g.transitions, t.source = p ∧ t.reads c = true ∧ t.target = q := by
  obtain ⟨t, hfound, rfl⟩ := Option.map_eq_some_iff.1 hsuccessor
  obtain ⟨hmem, hsource⟩ := List.mem_filter.1 (List.mem_of_find?_eq_some hfound)
  have hreads : t.reads c = true := by simpa using List.find?_some hfound
  exact ⟨t, hmem, of_decide_eq_true hsource, hreads, rfl⟩

/-- Where all moves on a symbol agree, their order does not matter. -/
theorem successor_eq_some_of_agree {q : StateId} {c : Char} {t : Transition}
    (ht : t ∈ g.transitions) (hreads : t.reads c = true)
    (hagree : ∀ u ∈ g.transitions, u.source = t.source → u.reads c = true → u.target = q) :
    successor g t.source c = some q := by
  cases hsuccessor : successor g t.source c with
  | none =>
    have hnone := successor_eq_none_iff.1 hsuccessor t ht rfl
    rw [hreads] at hnone
    cases hnone
  | some r =>
    obtain ⟨u, hu, hsource, hureads, rfl⟩ := exists_move_of_successor hsuccessor
    rw [hagree u hu hsource hureads]

/-- The run stops at the end of the input and stays as it is before. -/
theorem settle_cases (g : Graph) (r : Run StateId) :
    (r.atEnd = true ∧ settle g r = r.finish .endOfInput (g.isAccepting r.current)) ∨
      (r.atEnd = false ∧ settle g r = r) := by
  cases hend : r.atEnd with
  | true => exact .inl ⟨rfl, if_pos hend⟩
  | false => exact .inr ⟨rfl, if_neg (by simp [hend])⟩

theorem step_of_isFinished {r : Run StateId} (hfinished : r.isFinished = true) : step g r = r :=
  if_pos hfinished

/-- At the end of the input a step settles, and reads nothing. -/
theorem step_of_symbol?_eq_none {r : Run StateId} (hopen : r.isFinished = false)
    (hsymbol : r.symbol? = none) : step g r = settle g r := by
  unfold step
  rw [hopen, if_neg Bool.false_ne_true, hsymbol]

/-- A step follows the first move that reads the next symbol, or stops without
one. -/
theorem step_of_symbol?_eq_some {r : Run StateId} (hopen : r.isFinished = false) {c : Char}
    (hsymbol : r.symbol? = some c) :
    step g r = (successor g r.current c).elim (r.finish .noTransition false)
      fun q => settle g (r.advance q) := by
  unfold step
  rw [hopen, if_neg Bool.false_ne_true, hsymbol]
  dsimp only
  cases successor g r.current c with
  | none => rfl
  | some q => rfl

/-- All that a step of an unfinished run can do. -/
theorem step_cases (g : Graph) {r : Run StateId} (hopen : r.isFinished = false) :
    (r.atEnd = true ∧ step g r = r.finish .endOfInput (g.isAccepting r.current)) ∨
    ∃ c, r.symbol? = some c ∧
      ((successor g r.current c = none ∧ step g r = r.finish .noTransition false) ∨
        ∃ q, successor g r.current c = some q ∧ step g r = settle g (r.advance q)) := by
  cases hsymbol : r.symbol? with
  | none =>
    have hend := Run.symbol?_eq_none_iff.1 hsymbol
    rw [step_of_symbol?_eq_none hopen hsymbol]
    exact .inl ⟨hend, if_pos hend⟩
  | some c =>
    refine .inr ⟨c, rfl, ?_⟩
    rw [step_of_symbol?_eq_some hopen hsymbol]
    cases successor g r.current c with
    | none => exact .inl ⟨rfl, rfl⟩
    | some q => exact .inr ⟨q, rfl, rfl⟩

/-- Every step stops the run or reads a symbol. -/
theorem progresses_machine (g : Graph) : (machine g).Progresses := by
  refine ⟨fun r hfinished => step_of_isFinished hfinished, fun r hopen => ?_⟩
  change (step g r).isFinished = true ∨ (step g r).remaining.length < _
  obtain ⟨_, hstep⟩ | ⟨c, hsymbol, ⟨_, hstep⟩ | ⟨q, _, hstep⟩⟩ := step_cases g hopen
  · exact .inl (by rw [hstep]; rfl)
  · exact .inl (by rw [hstep]; rfl)
  · rw [hstep]
    obtain ⟨_, hsettle⟩ | ⟨_, hsettle⟩ := settle_cases g (r.advance q)
    · exact .inl (by rw [hsettle]; rfl)
    · right
      rw [hsettle]
      exact Run.length_remaining_advance_lt hsymbol q

end Deterministic

end Automata
