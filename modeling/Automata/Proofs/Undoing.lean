import Automata.Proofs.SafeStepping

namespace Automata

namespace Run

variable {C : Type} {r s : Run C}

/-- Two runs are at the same place: whether they stopped, and with which verdict,
is not asked. -/
structure SamePlace (r s : Run C) : Prop where
  position_eq : r.position = s.position
  current_eq : r.current = s.current
  history_eq : r.history = s.history

theorem atEnd_eq_false_of_symbol? {a : Char} (hsymbol : r.symbol? = some a) : r.atEnd = false := by
  have hposition := position_lt_of_symbol? hsymbol
  simpa [atEnd] using hposition

/-- With nothing in the history there is nothing to give up. -/
theorem stepBack_of_history_eq_nil (hunstuck : r.isStuck = false) (hhistory : r.history = []) :
    r.stepBack = r := by
  rw [stepBack, hunstuck, hhistory]
  rfl

/-- Stepping back takes back one position, unless the run is stuck. -/
theorem position_stepBack_of_history_eq_cons (hunstuck : r.isStuck = false) {previous : C}
    {earlier : List C} (hhistory : r.history = previous :: earlier) :
    r.stepBack.position = r.position - 1 := by
  rw [stepBack, hunstuck, hhistory]
  rfl

/-- A step on a symbol is undone by a step back. Of the steps that find nothing
to read, a step back undoes only those that change nothing, and only before any
symbol was read. -/
theorem StepsTo.samePlace_stepBack_iff (hr : r.WellFormed) (hopen : r.isFinished = false)
    (hstep : r.StepsTo s) :
    s.stepBack.SamePlace r ↔ r.atEnd = false ∨ (r.position = 0 ∧ s.SamePlace r) := by
  have hhalt : r.halt = none := isFinished_eq_false_iff.1 hopen
  cases hstep with
  | stuck hsymbol => exact iff_of_true ⟨rfl, rfl, rfl⟩ (.inl (atEnd_eq_false_of_symbol? hsymbol))
  | stops hsymbol next hadvanced verdict =>
    refine iff_of_true ?_ (.inl (atEnd_eq_false_of_symbol? hsymbol))
    rw [stepBack, isStuck_finish hadvanced]
    exact ⟨rfl, rfl, rfl⟩
  | goesOn hsymbol next _ =>
    refine iff_of_true ?_ (.inl (atEnd_eq_false_of_symbol? hsymbol))
    have hunstuck : (r.advance next).isStuck = false := by simp [isStuck, advance, hhalt]
    rw [stepBack, hunstuck]
    exact ⟨rfl, rfl, rfl⟩
  | decided hend last hadvanced verdict =>
    have hunstuck := isStuck_finish (r := { r with current := last }) hadvanced verdict
    by_cases hhistory : r.history = []
    · have hposition : r.position = 0 := by rw [← hr.1, hhistory, List.length_nil]
      rw [stepBack_of_history_eq_nil hunstuck hhistory]
      simp [hend, hposition]
    · obtain ⟨previous, earlier, hhistory⟩ := List.exists_cons_of_ne_nil hhistory
      have hposition : r.position = earlier.length + 1 := by rw [← hr.1, hhistory, List.length_cons]
      refine iff_of_false (fun hplace => ?_) ?_
      · have hback := hplace.position_eq
        rw [position_stepBack_of_history_eq_cons hunstuck hhistory] at hback
        change r.position - 1 = r.position at hback
        omega
      · rw [hend]
        rintro (hmore | ⟨hzero, _⟩)
        · cases hmore
        · omega

end Run

/-- Stepping back undoes a step that read a symbol. A step at the end read none,
and is undone only where there is no history to take back. -/
theorem Machine.Lawful.samePlace_stepBack_step_iff {C : Type} {m : Machine C} (hm : m.Lawful)
    {r : Run C} (hr : r.WellFormed) (hopen : r.isFinished = false) :
    (m.step r).stepBack.SamePlace r ↔
      r.atEnd = false ∨ (r.position = 0 ∧ (m.step r).SamePlace r) :=
  (hm.stepsTo r hopen).samePlace_stepBack_iff hr hopen

/-- A machine without silent moves stays where it is when nothing is left to read. -/
theorem Deterministic.samePlace_step_of_atEnd (g : Graph) {r : Run StateId}
    (hopen : r.isFinished = false) (hend : r.atEnd = true) : (step g r).SamePlace r := by
  rw [step_of_symbol?_eq_none hopen (Run.symbol?_eq_none_iff.2 hend), settle, hend]
  exact ⟨rfl, rfl, rfl⟩

/-- The silent moves of a set of states were taken when the set was made. -/
theorem Frontier.samePlace_step_of_atEnd (silence : Silence) (g : Graph) {r : Run Frontier}
    (hopen : r.isFinished = false) (hend : r.atEnd = true) : (step silence g r).SamePlace r := by
  rw [step_of_symbol?_eq_none hopen (Run.symbol?_eq_none_iff.2 hend), settle, hend]
  exact ⟨rfl, rfl, rfl⟩

/-- Runs of one shape that are at the same place. -/
def Execution.SamePlace : Execution → Execution → Prop
  | .deterministic r, .deterministic s => r.SamePlace s
  | .frontier r, .frontier s => r.SamePlace s
  | .stack r, .stack s => r.SamePlace s
  | _, _ => False

namespace Automaton

/-- A step that is taken in an open run, and then taken back, restores the run
that was read exactly if something was left to read, or nothing had ever been
read and the step left the run in place. Only the silent moves of a pushdown
automaton can take a run elsewhere when nothing is left to read. -/
theorem stepBack_undoes_step_iff (a : Automaton) {j : Json} {e : Execution}
    (hread : Execution.ofJson j = .ok e) (hbelongs : e.BelongsTo a)
    (hopen : e.isFinished = false) :
    ∃ next, a.step e = .ok next ∧
      (next.stepBack.SamePlace e ↔ e.atEnd = false ∨ (e.position = 0 ∧ next.SamePlace e)) ∧
      (a.kind ≠ .pda → e.atEnd = true → next.SamePlace e) := by
  have hwell : e.WellFormed := (Execution.ofJson_eq_ok_iff.1 hread).2
  cases hbelongs with
  | dfa g r =>
    exact ⟨_, rfl, (Deterministic.lawful_machine g).samePlace_stepBack_step_iff hwell hopen,
      fun _ hend => Deterministic.samePlace_step_of_atEnd g hopen hend⟩
  | nfa g r =>
    exact ⟨_, rfl, (Frontier.lawful_machine .ignored g).samePlace_stepBack_step_iff hwell hopen,
      fun _ hend => Frontier.samePlace_step_of_atEnd .ignored g hopen hend⟩
  | epsilonNfa g r =>
    exact ⟨_, rfl, (Frontier.lawful_machine .followed g).samePlace_stepBack_step_iff hwell hopen,
      fun _ hend => Frontier.samePlace_step_of_atEnd .followed g hopen hend⟩
  | pda g limits r =>
    exact ⟨_, rfl, (Pushdown.lawful_machine g limits).samePlace_stepBack_step_iff hwell hopen,
      fun hkind => absurd rfl hkind⟩

/-- A pushdown automaton in the middle of an input, in a configuration that its
own runs do not come through: the step reads a symbol and takes silent moves up
to a bound. -/
theorem stepBack_undoes_step_iff_of_pushdown :
    let a : Automaton := .pda
      { states := [{ id := 0, isStart := true }]
        transitions := [.pushdown 0 0 'b' none [], .pushdown 0 0 epsilon none ['X']] }
      { epsilonIterations := 2, stackGrowth := 3 }
    let j : Json := .obj [("kind", "stack"), ("state", .obj [
      ("input", "ab"), ("position", .int 1),
      ("current", .obj [("state", .int 0), ("stack", .arr [])]),
      ("history", .arr [.obj [("state", .int 7), ("stack", .arr ["#", "Y"])]])])]
    let e : Execution := .stack {
      input := ['a', 'b'], position := 1, current := ⟨0, []⟩, history := [⟨7, ['Y', '#']⟩] }
    Execution.ofJson j = .ok e ∧ e.BelongsTo a ∧ e.isFinished = false ∧
      ∃ next, a.step e = .ok next ∧
        (next.stepBack.SamePlace e ↔ e.atEnd = false ∨ (e.position = 0 ∧ next.SamePlace e)) ∧
        (a.kind ≠ .pda → e.atEnd = true → next.SamePlace e) := by
  intro a j e
  have hread : Execution.ofJson j = .ok e := rfl
  have hbelongs : e.BelongsTo a := .pda _ _ _
  exact ⟨hread, hbelongs, rfl, stepBack_undoes_step_iff a hread hbelongs rfl⟩

/-- An open run that has read its whole input: the step only decides it, and the
step back gives up the symbol before. -/
theorem stepBack_overshoots_at_end :
    let a : Automaton := .dfa
      { states := [{ id := 0, isStart := true }]
        transitions := [{ source := 0, target := 0, symbol := 'a' }] }
    let j : Json := .obj [("kind", "deterministic"), ("state", .obj [
      ("input", "a"), ("position", .int 1), ("isAccepted", .null), ("halt", .null),
      ("current", .int 0), ("history", .arr [.int 0])])]
    let e : Execution := .deterministic {
      input := ['a'], position := 1, current := 0, history := [0] }
    Execution.ofJson j = .ok e ∧ e.BelongsTo a ∧ e.isFinished = false ∧
      ∃ next, a.step e = .ok next ∧ next.stepBack.position = 0 ∧ ¬ next.stepBack.SamePlace e := by
  intro a j e
  refine ⟨rfl, .dfa _ _, rfl, _, rfl, rfl, fun hplace => ?_⟩
  cases hplace.position_eq

end Automaton

end Automata
