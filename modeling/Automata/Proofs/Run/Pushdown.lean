import Automata.Proofs.Run.Machine
import Automata.Run.Pushdown

namespace Automata

namespace Pushdown

variable {g : Graph} {limits : Limits} {r : Run Configuration} {c : Configuration}

/-- A configuration accepts in an accepting state, with nothing but the bottom
marker on its stack. -/
theorem isAccepting_iff : c.isAccepting g = true ↔
    g.isAccepting c.state = true ∧ c.stack = [bottomMarker] := by
  simp [Configuration.isAccepting, Configuration.hasEmptyStack]

section Pass

variable {next : Option Char} {maxHeight : Nat} {t : Transition}

/-- A closing pass ends where no silent move applies. -/
theorem pass_of_silentMove_eq_none (hnone : silentMove g next c = none) (budget : Nat) :
    pass g next maxHeight budget c = (c, none) := by
  unfold pass
  rw [hnone]

/-- A closing pass that has used up its moves stops at the bound. -/
theorem pass_zero (hsilent : silentMove g next c = some t) :
    pass g next maxHeight 0 c = (c, some .epsilonIterations) := by
  unfold pass
  rw [hsilent]

/-- A closing pass makes the next silent move, unless the stack would grow too
high. -/
theorem pass_succ (hsilent : silentMove g next c = some t) (budget : Nat) :
    pass g next maxHeight (budget + 1) c =
      if maxHeight < c.heightAfter t then (c, some .stackGrowth)
      else pass g next maxHeight budget (c.fire t) := by
  conv => lhs; unfold pass
  rw [hsilent]

end Pass

/-- A pass of epsilon moves under the bounds of an automaton. -/
def closingPass (g : Graph) (limits : Limits) (next : Option Char) (c : Configuration) :
    Configuration × Option Limit :=
  pass g next (limits.stackGrowth + 1) limits.epsilonIterations c

/-- A closing pass that reaches a bound rejects. -/
theorem settle_of_limit {limit : Limit}
    (hpass : closingPass g limits r.symbol? r.current = (c, some limit)) :
    settle g limits r = ({ r with current := c } : Run Configuration).finish
      (.limitExceeded limit) false := by
  rw [closingPass] at hpass
  rw [settle, hpass]

/-- A closing pass at the end of the input decides. -/
theorem settle_of_atEnd (hpass : closingPass g limits r.symbol? r.current = (c, none))
    (hend : r.atEnd = true) :
    settle g limits r = ({ r with current := c } : Run Configuration).finish .endOfInput
      (c.isAccepting g) := by
  rw [closingPass] at hpass
  rw [settle, hpass]
  exact if_pos hend

/-- Before the end of the input a closing pass leaves the run undecided. -/
theorem settle_of_not_atEnd (hpass : closingPass g limits r.symbol? r.current = (c, none))
    (hmore : r.atEnd = false) : settle g limits r = { r with current := c } := by
  rw [closingPass] at hpass
  rw [settle, hpass]
  exact if_neg (by simpa [Run.atEnd] using hmore)

/-- Settling is a pass, after which the run may stop. -/
theorem settle_cases (g : Graph) (limits : Limits) (r : Run Configuration) :
    ∃ c limit?, closingPass g limits r.symbol? r.current = (c, limit?) ∧
      ((∃ limit, limit? = some limit ∧ settle g limits r =
          ({ r with current := c } : Run Configuration).finish (.limitExceeded limit) false) ∨
        (limit? = none ∧ r.atEnd = true ∧ settle g limits r =
          ({ r with current := c } : Run Configuration).finish .endOfInput (c.isAccepting g)) ∨
        (limit? = none ∧ r.atEnd = false ∧ settle g limits r = { r with current := c })) := by
  obtain ⟨c, limit?, hpass⟩ : ∃ c limit?,
    closingPass g limits r.symbol? r.current = (c, limit?) := ⟨_, _, rfl⟩
  refine ⟨c, limit?, hpass, ?_⟩
  cases limit? with
  | some limit => exact .inl ⟨limit, rfl, settle_of_limit hpass⟩
  | none =>
    cases hend : r.atEnd with
    | true => exact .inr (.inl ⟨rfl, rfl, settle_of_atEnd hpass hend⟩)
    | false => exact .inr (.inr ⟨rfl, rfl, settle_of_not_atEnd hpass hend⟩)

theorem step_of_isFinished (hfinished : r.isFinished = true) : step g limits r = r :=
  if_pos hfinished

/-- At the end of the input a step is another closing pass. -/
theorem step_of_symbol?_eq_none (hopen : r.isFinished = false) (hsymbol : r.symbol? = none) :
    step g limits r = settle g limits r := by
  unfold step
  rw [hopen, if_neg Bool.false_ne_true, hsymbol]

/-- A step makes the move that is selected, with a closing pass behind it, or
stops without one. -/
theorem step_of_symbol?_eq_some (hopen : r.isFinished = false) {a : Char}
    (hsymbol : r.symbol? = some a) :
    step g limits r = (r.current.select g a).elim (r.finish .noTransition false)
      fun t => settle g limits (r.advance (r.current.fire t)) := by
  unfold step
  rw [hopen, if_neg Bool.false_ne_true, hsymbol]
  dsimp only
  cases r.current.select g a with
  | none => rfl
  | some t => rfl

end Pushdown

end Automata
