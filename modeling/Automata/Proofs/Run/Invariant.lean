import Automata.Proofs.Run.Trace

namespace Automata

/-- What one application keeps, any number of applications keeps. -/
theorem repeat_keeps {α : Type} {f : α → α} {I : α → Prop} (hf : ∀ a, I a → I (f a)) (k : Nat)
    {a : α} (ha : I a) : I (Nat.repeat f k a) := by
  induction k with
  | zero => exact ha
  | succ k ih => exact hf _ ih

namespace Run

variable {C : Type} {r s : Run C}

/-- All that stepping back can do. -/
theorem stepBack_cases (r : Run C) :
    r.stepBack = r ∨ r.stepBack = r.reopen ∨
      ∃ previous earlier, r.history = previous :: earlier ∧
        r.stepBack = { r.reopen with
          current := previous, history := earlier, position := r.position - 1 } := by
  unfold stepBack
  split
  · exact .inr (.inl rfl)
  · split
    · exact .inl rfl
    · rename_i previous earlier hhistory
      exact .inr (.inr ⟨previous, earlier, hhistory, rfl⟩)

@[simp] theorem input_stepBack (r : Run C) : r.stepBack.input = r.input := by
  obtain hback | hback | ⟨previous, earlier, _, hback⟩ := stepBack_cases r
  · rw [hback]
  · rw [hback]
    rfl
  · rw [hback]
    rfl

/-- Stepping back never adds to the history. -/
theorem length_history_stepBack_le (r : Run C) :
    r.stepBack.history.length ≤ r.history.length := by
  obtain hback | hback | ⟨previous, earlier, hhistory, hback⟩ := stepBack_cases r
  · rw [hback]
  · rw [hback]
    exact Nat.le_refl _
  · rw [hback, hhistory]
    exact Nat.le_succ _

/-- A run is rewound by stepping back, at most once more than there are
configurations to go back to. -/
theorem rewindTo_eq_repeat (r : Run C) (target : Nat) :
    ∃ k ≤ r.history.length + 1, r.rewindTo target = Nat.repeat stepBack k r := by
  unfold rewindTo
  split
  · refine ⟨_, ?_, repeat_add stepBack r 1 _⟩
    have hless := length_history_stepBack_le r
    omega
  · refine ⟨_, ?_, rfl⟩
    omega

namespace WellFormed

/-- The position and the history stay as they are, or both give up exactly one
symbol. There is no symbol to give up at the start. -/
theorem position_stepBack (hr : r.WellFormed) :
    (r.stepBack.position = r.position ∧ r.stepBack.history.length = r.history.length) ∨
      (r.stepBack.position + 1 = r.position ∧
        r.stepBack.history.length + 1 = r.history.length) := by
  obtain hback | hback | ⟨previous, earlier, hhistory, hback⟩ := stepBack_cases r
  · rw [hback]
    exact .inl ⟨rfl, rfl⟩
  · rw [hback]
    exact .inl ⟨rfl, rfl⟩
  · have hlength : r.history.length = earlier.length + 1 := by rw [hhistory, List.length_cons]
    have hposition : 0 < r.position := by
      rw [← hr.1, hlength]
      exact Nat.succ_pos _
    rw [hback]
    exact .inr ⟨Nat.sub_add_cancel hposition, hlength.symm⟩

theorem stepBack (hr : r.WellFormed) : r.stepBack.WellFormed := by
  obtain ⟨hhistory, hposition⟩ := hr
  rw [WellFormed, input_stepBack]
  obtain ⟨hsame, hlength⟩ | ⟨hless, hlength⟩ := position_stepBack ⟨hhistory, hposition⟩
  · omega
  · omega

theorem remaining (hr : r.WellFormed) : r.remaining.length + r.position = r.input.length := by
  rw [length_remaining, Nat.sub_add_cancel hr.2]

end WellFormed

theorem Begins.input_eq {input : List Char} (hr : Begins input r) : r.input = input := by
  cases hr <;> rfl

theorem Begins.wellFormed {input : List Char} (hr : Begins input r) : r.WellFormed := by
  cases hr with
  | decided _ _ _ => exact ⟨rfl, Nat.zero_le _⟩
  | opened _ _ => exact ⟨rfl, Nat.zero_le _⟩

theorem StepsTo.input_eq (hstep : r.StepsTo s) : s.input = r.input := by
  cases hstep <;> rfl

theorem StepsTo.wellFormed (hr : r.WellFormed) (hstep : r.StepsTo s) : s.WellFormed := by
  cases hstep with
  | stuck _ => exact hr
  | stops hsymbol next _ _ =>
    exact ⟨congrArg (· + 1) hr.1, position_lt_of_symbol? hsymbol⟩
  | goesOn hsymbol next _ => exact ⟨congrArg (· + 1) hr.1, position_lt_of_symbol? hsymbol⟩
  | decided _ _ _ _ => exact hr

end Run

namespace Machine

variable {C : Type} {m : Machine C} {I : Run C → Prop} {r : Run C}

/-- A property of runs that a step keeps in either direction. -/
structure Keeps (m : Machine C) (I : Run C → Prop) : Prop where
  step : ∀ r, I r → I (m.step r)
  stepBack : ∀ r, I r → I r.stepBack

namespace Keeps

/-- What every step keeps, any number of steps keep. -/
theorem repeat_step (hkeeps : m.Keeps I) (hr : I r) (k : Nat) : I (Nat.repeat m.step k r) :=
  repeat_keeps hkeeps.step k hr

/-- What stepping back keeps, rewinding keeps. -/
theorem rewindTo (hkeeps : m.Keeps I) (hr : I r) (target : Nat) : I (r.rewindTo target) := by
  obtain ⟨k, _, hrewind⟩ := r.rewindTo_eq_repeat target
  rw [hrewind]
  exact repeat_keeps hkeeps.stepBack k hr

theorem and {J : Run C → Prop} (hI : m.Keeps I) (hJ : m.Keeps J) :
    m.Keeps fun r => I r ∧ J r where
  step r hr := ⟨hI.step r hr.1, hJ.step r hr.2⟩
  stepBack r hr := ⟨hI.stepBack r hr.1, hJ.stepBack r hr.2⟩

end Keeps

namespace Lawful

/-- A run stays well formed whatever is done with it. -/
theorem keeps_wellFormed (hm : m.Lawful) : m.Keeps Run.WellFormed where
  step r hr := by
    cases hopen : r.isFinished with
    | true => rwa [hm.step_of_isFinished r hopen]
    | false => exact (hm.stepsTo r hopen).wellFormed hr
  stepBack _ hr := hr.stepBack

/-- No action changes the input. -/
theorem keeps_input (hm : m.Lawful) (input : List Char) : m.Keeps fun r => r.input = input where
  step r hr := by
    cases hopen : r.isFinished with
    | true => rwa [hm.step_of_isFinished r hopen]
    | false => rw [(hm.stepsTo r hopen).input_eq, hr]
  stepBack r hr := by rw [Run.input_stepBack, hr]

end Lawful

end Machine

end Automata
