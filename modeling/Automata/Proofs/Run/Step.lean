import Automata.Proofs.Run.Deterministic
import Automata.Proofs.Run.Frontier
import Automata.Proofs.Run.Pushdown

namespace Automata

namespace Run

variable {C : Type}

/-- How a run on an input can begin. -/
inductive Begins (input : List Char) : Run C → Prop where
  | decided (current : C) {halt : Halt} (hadvanced : halt.advanced = true) (verdict : Bool) :
    Begins input (({ input, current } : Run C).finish halt verdict)
  | opened (current : C) (hmore : input ≠ []) : Begins input { input, current }

/-- What a step can make of an unfinished run. Only a run that cannot read its
next symbol stops where it is; every other step on a symbol reads it. -/
inductive StepsTo (r : Run C) : Run C → Prop where
  | stuck {a : Char} (hsymbol : r.symbol? = some a) : StepsTo r (r.finish .noTransition false)
  | stops {a : Char} (hsymbol : r.symbol? = some a) (next : C) {halt : Halt}
    (hadvanced : halt.advanced = true) (verdict : Bool) :
    StepsTo r ((r.advance next).finish halt verdict)
  | goesOn {a : Char} (hsymbol : r.symbol? = some a) (next : C)
    (hmore : (r.advance next).atEnd = false) : StepsTo r (r.advance next)
  | decided (hend : r.atEnd = true) (last : C) {halt : Halt} (hadvanced : halt.advanced = true)
    (verdict : Bool) : StepsTo r (({ r with current := last } : Run C).finish halt verdict)

/-- What settling makes of a run, whatever silent moves belong to it: the run is
stopped, or something is left to read. -/
inductive Settles (r : Run C) : Run C → Prop where
  | decided (last : C) {halt : Halt} (hadvanced : halt.advanced = true) (verdict : Bool) :
    Settles r (({ r with current := last } : Run C).finish halt verdict)
  | opened (next : C) (hmore : r.atEnd = false) : Settles r { r with current := next }

namespace Settles

variable {r s : Run C}

/-- A run that was only settled has read nothing. -/
theorem begins {input : List Char} {current : C} (hsettles : Settles { input, current } s) :
    Begins input s := by
  cases hsettles with
  | decided last hadvanced verdict => exact .decided last hadvanced verdict
  | opened next hmore => exact .opened next (by simpa [atEnd] using hmore)

/-- The silent moves after a symbol belong to the step that reads it. -/
theorem stepsTo_of_symbol {a : Char} (hsymbol : r.symbol? = some a) {next : C}
    (hsettles : (r.advance next).Settles s) : r.StepsTo s := by
  cases hsettles with
  | decided last hadvanced verdict => exact .stops hsymbol last hadvanced verdict
  | opened next hmore => exact .goesOn hsymbol next hmore

/-- At the end of the input a step is a settling. -/
theorem stepsTo_of_atEnd (hend : r.atEnd = true) (hsettles : r.Settles s) : r.StepsTo s := by
  cases hsettles with
  | decided last hadvanced verdict => exact .decided hend last hadvanced verdict
  | opened next hmore =>
    rw [hend] at hmore
    cases hmore

end Settles

end Run

namespace Machine

variable {C : Type}

/-- The machine begins, steps and stops the way all machines do. -/
structure Lawful (m : Machine C) : Prop where
  begins : ∀ origin input, Run.Begins input (m.start origin input)
  step_of_isFinished : ∀ r : Run C, r.isFinished = true → m.step r = r
  stepsTo : ∀ r : Run C, r.isFinished = false → r.StepsTo (m.step r)

/-- A lawful machine stops or reads a symbol with every step. -/
theorem Lawful.progresses {m : Machine C} (hm : m.Lawful) : m.Progresses := by
  refine ⟨hm.step_of_isFinished, fun r hopen => ?_⟩
  have hstep := hm.stepsTo r hopen
  generalize m.step r = s at hstep ⊢
  cases hstep with
  | stuck _ => exact .inl rfl
  | stops _ _ _ _ => exact .inl rfl
  | goesOn hsymbol next _ => exact .inr (Run.length_remaining_advance_lt hsymbol next)
  | decided _ _ _ _ => exact .inl rfl

namespace Lawful

variable {m : Machine C} {r : Run C}

/-- A run that is finished stays as it is. -/
theorem repeat_step_of_isFinished (hm : m.Lawful) (hfinished : r.isFinished = true) (k : Nat) :
    Nat.repeat m.step k r = r := by
  induction k with
  | zero => rfl
  | succ k ih => rw [Nat.repeat, ih, hm.step_of_isFinished r hfinished]

/-- Once a run is finished, further steps change nothing. -/
theorem repeat_step_of_le (hm : m.Lawful) {k j : Nat} (hkj : k ≤ j)
    (hfinished : (Nat.repeat m.step k r).isFinished = true) :
    Nat.repeat m.step j r = Nat.repeat m.step k r := by
  rw [← Nat.add_sub_cancel' hkj, ← repeat_add, hm.repeat_step_of_isFinished hfinished]

/-- All numbers of steps that finish a run leave it the same. -/
theorem repeat_step_eq_complete (hm : m.Lawful) {k : Nat}
    (hfinished : (Nat.repeat m.step k r).isFinished = true) :
    Nat.repeat m.step k r = m.complete r := by
  have hcomplete := hm.progresses.isFinished_complete r
  obtain hle | hle := Nat.le_total k (r.remaining.length + 1)
  · exact (hm.repeat_step_of_le hle hfinished).symm
  · exact hm.repeat_step_of_le hle hcomplete

theorem complete_of_isFinished (hm : m.Lawful) (hfinished : r.isFinished = true) :
    m.complete r = r :=
  hm.repeat_step_of_isFinished hfinished _

/-- The runs that follow one another begin with the given one, and after so many
steps they are at the last. -/
theorem exists_trailWithin (hm : m.Lawful) (n : Nat) (r : Run C) :
    ∃ rest, m.trailWithin n r = r :: rest ∧ rest.getLast?.getD r = Nat.repeat m.step n r := by
  induction n generalizing r with
  | zero => exact ⟨[], rfl, rfl⟩
  | succ n ih =>
    rw [Machine.trailWithin]
    cases hfinished : r.isFinished with
    | true => exact ⟨[], rfl, (hm.repeat_step_of_isFinished hfinished _).symm⟩
    | false =>
      obtain ⟨rest, hrest, hlast⟩ := ih (m.step r)
      refine ⟨m.step r :: rest, congrArg (r :: ·) hrest, ?_⟩
      rw [List.getLast?_cons, Option.getD_some, hlast, Nat.add_comm n 1]
      exact repeat_add m.step r 1 n

/-- Completing a run does not depend on how far it already is. -/
theorem complete_step (hm : m.Lawful) (r : Run C) : m.complete (m.step r) = m.complete r := by
  have hfinished := hm.progresses.isFinished_complete (m.step r)
  have hshift := repeat_add m.step r 1 ((m.step r).remaining.length + 1)
  change m.complete (m.step r) = _ at hshift
  rw [hshift] at hfinished ⊢
  exact hm.repeat_step_eq_complete hfinished

end Lawful

end Machine

namespace Deterministic

/-- Settling decides a run at the end of its input, and otherwise leaves it
open. -/
theorem settles_settle (g : Graph) (r : Run StateId) : r.Settles (settle g r) := by
  obtain ⟨_, hsettle⟩ | ⟨hmore, hsettle⟩ := settle_cases g r
  · rw [hsettle]
    exact .decided r.current rfl _
  · rw [hsettle]
    exact .opened r.current hmore

/-- Every step reads a symbol, stops for want of a move, or decides at the end
of the input. -/
theorem lawful_machine (g : Graph) : (machine g).Lawful where
  begins _ _ := (settles_settle g _).begins
  step_of_isFinished _ hfinished := step_of_isFinished hfinished
  stepsTo r hopen := by
    change r.StepsTo (step g r)
    obtain ⟨hend, hstep⟩ | ⟨a, hsymbol, ⟨_, hstep⟩ | ⟨q, _, hstep⟩⟩ := step_cases g hopen
    · rw [hstep]
      exact .decided hend r.current rfl _
    · rw [hstep]
      exact .stuck hsymbol
    · rw [hstep]
      exact (settles_settle g _).stepsTo_of_symbol hsymbol

end Deterministic

namespace Frontier

/-- Settling decides a run at the end of its input, and otherwise leaves it
open. -/
theorem settles_settle (g : Graph) (r : Run Frontier) : r.Settles (settle g r) := by
  obtain ⟨_, hsettle⟩ | ⟨hmore, hsettle⟩ := settle_cases g r
  · rw [hsettle]
    exact .decided r.current rfl _
  · rw [hsettle]
    exact .opened r.current hmore

/-- Every step reads a symbol, even the one that leaves no state, or decides at
the end of the input. -/
theorem lawful_machine (silence : Silence) (g : Graph) : (machine silence g).Lawful where
  begins _ _ := (settles_settle g _).begins
  step_of_isFinished _ hfinished := step_of_isFinished hfinished
  stepsTo r hopen := by
    change r.StepsTo (step silence g r)
    obtain ⟨hend, hstep⟩ | ⟨a, hsymbol, ⟨_, hstep⟩ | ⟨_, hstep⟩⟩ := step_cases silence g hopen
    · rw [hstep]
      exact .decided hend r.current rfl _
    · rw [hstep]
      exact .stops hsymbol ∅ rfl _
    · rw [hstep]
      exact (settles_settle g _).stepsTo_of_symbol hsymbol

end Frontier

namespace Pushdown

/-- Settling decides a run at the end of its input or at a bound, and otherwise
leaves it open. -/
theorem settles_settle (g : Graph) (limits : Limits) (r : Run Configuration) :
    r.Settles (settle g limits r) := by
  obtain ⟨c, _, _, ⟨limit, _, hsettle⟩ | ⟨_, _, hsettle⟩ | ⟨_, hmore, hsettle⟩⟩ :=
    settle_cases g limits r
  · rw [hsettle]
    exact .decided c rfl _
  · rw [hsettle]
    exact .decided c rfl _
  · rw [hsettle]
    exact .opened c hmore

/-- Every step reads a symbol before its silent moves, stops for want of a move,
or decides at the end of the input. -/
theorem lawful_machine (g : Graph) (limits : Limits) : (machine g limits).Lawful where
  begins _ _ := (settles_settle g limits _).begins
  step_of_isFinished _ hfinished := step_of_isFinished hfinished
  stepsTo r hopen := by
    change r.StepsTo (step g limits r)
    cases hsymbol : r.symbol? with
    | none =>
      rw [step_of_symbol?_eq_none hopen hsymbol]
      exact (settles_settle g limits r).stepsTo_of_atEnd (Run.symbol?_eq_none_iff.1 hsymbol)
    | some a =>
      rw [step_of_symbol?_eq_some hopen hsymbol]
      cases r.current.select g a with
      | none => exact .stuck hsymbol
      | some t => exact (settles_settle g limits _).stepsTo_of_symbol hsymbol

end Pushdown

end Automata
