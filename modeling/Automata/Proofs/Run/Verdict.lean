import Automata.Proofs.Run.Invariant

namespace Automata

namespace Run

variable {C : Type}

/-- On which grounds a machine stops a run, and what the runs that it keeps open can
be in. -/
structure Grounds (C : Type) where
  /-- A configuration in which a run can go on. -/
  viable : C → Prop
  /-- The verdict at the end of the input. -/
  accepts : C → Bool
  /-- No move reads the symbol. -/
  stuck : C → Char → Prop
  /-- Nothing is left to be in. -/
  lost : C → Prop
  /-- Whether there are bounds that a run can reach. -/
  bounded : Prop

variable {grounds : Grounds C} {r : Run C}

/-- Nothing has been decided, and the run could go on wherever it was before. -/
structure Undecided (grounds : Grounds C) (r : Run C) : Prop where
  wellFormed : r.WellFormed
  halt_eq : r.halt = none
  verdict_eq : r.verdict = none
  viable_history : ∀ c ∈ r.history, grounds.viable c

/-- The run can go on, and has something to read. -/
structure Open (grounds : Grounds C) (r : Run C) : Prop extends r.Undecided grounds where
  more : r.atEnd = false
  viable_current : grounds.viable r.current

/-- The run is open, or it was stopped on one of the grounds. -/
inductive Justified (grounds : Grounds C) : Run C → Prop where
  | opened {r : Run C} (hr : r.Open grounds) : Justified grounds r
  | decided {r : Run C} (hr : r.Undecided grounds) (hend : r.atEnd = true) :
    Justified grounds (r.finish .endOfInput (grounds.accepts r.current))
  | stuck {r : Run C} (hr : r.Open grounds) {a : Char} (hsymbol : r.symbol? = some a)
    (hstuck : grounds.stuck r.current a) : Justified grounds (r.finish .noTransition false)
  | lost {r : Run C} (hr : r.Undecided grounds) (hlost : grounds.lost r.current) :
    Justified grounds (r.finish .emptyFrontier false)
  | bounded {r : Run C} (hr : r.Undecided grounds) (hbounded : grounds.bounded) (limit : Limit) :
    Justified grounds (r.finish (.limitExceeded limit) false)

theorem undecided_begin (grounds : Grounds C) (input : List Char) (current : C) :
    Undecided grounds { input, current } :=
  ⟨⟨rfl, Nat.zero_le _⟩, rfl, rfl, nofun⟩

namespace Undecided

/-- Where the run is now does not count among the places it was in before. -/
theorem withCurrent (hr : r.Undecided grounds) (c : C) :
    Undecided grounds { r with current := c } :=
  ⟨hr.wellFormed, hr.halt_eq, hr.verdict_eq, hr.viable_history⟩

theorem reopen_eq (hr : r.Undecided grounds) : r.reopen = r := by
  obtain ⟨input, position, verdict, halt, current, history⟩ := r
  obtain rfl : halt = none := hr.halt_eq
  obtain rfl : verdict = none := hr.verdict_eq
  rfl

theorem reopen_finish (hr : r.Undecided grounds) (halt : Halt) (verdict : Bool) :
    (r.finish halt verdict).reopen = r :=
  hr.reopen_eq

/-- Without the last symbol that was read there is something to read. -/
theorem open_previous (hr : r.Undecided grounds) {previous : C} {earlier : List C}
    (hhistory : r.history = previous :: earlier) :
    Open grounds { r with
      current := previous, history := earlier, position := r.position - 1 } := by
  obtain ⟨hlength, hposition⟩ := hr.wellFormed
  have hviable := hr.viable_history
  rw [hhistory] at hlength hviable
  rw [List.length_cons] at hlength
  obtain ⟨hprevious, hearlier⟩ := List.forall_mem_cons.1 hviable
  refine ⟨⟨⟨?_, ?_⟩, hr.halt_eq, hr.verdict_eq, hearlier⟩, ?_, hprevious⟩
  · exact Nat.eq_sub_of_add_eq hlength
  · exact Nat.le_trans (Nat.sub_le _ _) hposition
  · simp only [atEnd, decide_eq_false_iff_not]
    omega

end Undecided

namespace Open

theorem isFinished_eq (hr : r.Open grounds) : r.isFinished = false :=
  isFinished_eq_false_iff.2 hr.halt_eq

theorem position_lt (hr : r.Open grounds) : r.position < r.input.length := by
  simpa [atEnd] using hr.more

theorem exists_symbol (hr : r.Open grounds) : ∃ a, r.symbol? = some a :=
  ⟨_, List.getElem?_eq_getElem hr.position_lt⟩

/-- Reading a symbol leaves a run undecided. -/
theorem advance (hr : r.Open grounds) {a : Char} (hsymbol : r.symbol? = some a) (next : C) :
    (r.advance next).Undecided grounds where
  wellFormed := ⟨congrArg (· + 1) hr.wellFormed.1, position_lt_of_symbol? hsymbol⟩
  halt_eq := hr.halt_eq
  verdict_eq := hr.verdict_eq
  viable_history := List.forall_mem_cons.2 ⟨hr.viable_current, hr.viable_history⟩

end Open

namespace Justified

theorem open_of_halt_eq (hr : r.Justified grounds) (hhalt : r.halt = none) : r.Open grounds := by
  cases hr with
  | opened hr => exact hr
  | decided | stuck | lost | bounded => cases hhalt

/-- A run has a verdict exactly if it has stopped. -/
theorem verdict_eq_none_iff (hr : r.Justified grounds) : r.verdict = none ↔ r.halt = none := by
  cases hr with
  | opened hr => exact iff_of_true hr.verdict_eq hr.halt_eq
  | decided | stuck | lost | bounded => exact iff_of_false nofun nofun

/-- A run could go on from each of the configurations in its history. -/
theorem viable_history (hr : r.Justified grounds) : ∀ c ∈ r.history, grounds.viable c := by
  cases hr with
  | opened hr | decided hr | stuck hr | lost hr | bounded hr => exact hr.viable_history

/-- A run that stops at the end of its input has the verdict of its
configuration. -/
theorem of_endOfInput (hr : r.Justified grounds) (hhalt : r.halt = some .endOfInput) :
    r.position = r.input.length ∧ r.verdict = some (grounds.accepts r.current) := by
  cases hr with
  | opened hr => cases hr.halt_eq.symm.trans hhalt
  | decided hr hend => exact ⟨Nat.le_antisymm hr.wellFormed.2 (of_decide_eq_true hend), rfl⟩
  | stuck | lost | bounded => cases hhalt

/-- A run that stops for any other reason rejects. -/
theorem verdict_of_halt (hr : r.Justified grounds) {halt : Halt} (hhalt : r.halt = some halt)
    (hearly : halt ≠ .endOfInput) : r.verdict = some false := by
  cases hr with
  | opened hr => cases hr.halt_eq.symm.trans hhalt
  | decided =>
    cases hhalt
    exact absurd rfl hearly
  | stuck | lost | bounded => rfl

/-- A run that stops for want of a move has a symbol to read, and no move for
it. -/
theorem of_noTransition (hr : r.Justified grounds) (hhalt : r.halt = some .noTransition) :
    ∃ a, r.symbol? = some a ∧ grounds.stuck r.current a := by
  cases hr with
  | opened hr => cases hr.halt_eq.symm.trans hhalt
  | stuck _ hsymbol hstuck => exact ⟨_, hsymbol, hstuck⟩
  | decided | lost | bounded => cases hhalt

/-- A run that stops on an empty frontier has no state left. -/
theorem of_emptyFrontier (hr : r.Justified grounds) (hhalt : r.halt = some .emptyFrontier) :
    grounds.lost r.current := by
  cases hr with
  | opened hr => cases hr.halt_eq.symm.trans hhalt
  | lost _ hlost => exact hlost
  | decided | stuck | bounded => cases hhalt

/-- Only a machine with bounds can reach one. -/
theorem of_limitExceeded (hr : r.Justified grounds) {limit : Limit}
    (hhalt : r.halt = some (.limitExceeded limit)) : grounds.bounded := by
  cases hr with
  | opened hr => cases hr.halt_eq.symm.trans hhalt
  | bounded _ hbounded _ => exact hbounded
  | decided | stuck | lost => cases hhalt

/-- A step back from a run that is not stuck gives up its last symbol, if there is
one, and with it the halt. -/
theorem stepBack_of_isStuck_eq_false (hr : r.Justified grounds)
    (hreopen : r.reopen.Undecided grounds) (hunstuck : r.isStuck = false) :
    r.stepBack.Justified grounds := by
  rw [Run.stepBack, hunstuck, if_neg Bool.false_ne_true]
  split
  · exact hr
  · rename_i previous earlier hhistory
    exact .opened (hreopen.open_previous hhistory)

/-- Stepping back withdraws a halt together with its grounds. -/
theorem stepBack (hr : r.Justified grounds) : r.stepBack.Justified grounds := by
  cases hr with
  | opened hopen =>
    refine (opened hopen).stepBack_of_isStuck_eq_false ?_ (by simp [isStuck, hopen.halt_eq])
    rw [hopen.reopen_eq]
    exact hopen.toUndecided
  | stuck hopen _ _ =>
    -- the step read nothing, so that only its halt is withdrawn
    change (Run.reopen _).Justified grounds
    rw [hopen.reopen_finish]
    exact .opened hopen
  | decided hr hend =>
    refine (decided hr hend).stepBack_of_isStuck_eq_false ?_ rfl
    rwa [hr.reopen_finish]
  | lost hr hlost =>
    refine (lost hr hlost).stepBack_of_isStuck_eq_false ?_ rfl
    rwa [hr.reopen_finish]
  | bounded hr hbounded limit =>
    refine (bounded hr hbounded limit).stepBack_of_isStuck_eq_false ?_ rfl
    rwa [hr.reopen_finish]

end Justified

/-- A run is settled by deciding it at the end of its input, and leaving it open
before. -/
theorem Undecided.justified_of_settled (hr : r.Undecided grounds)
    (hviable : grounds.viable r.current) {s : Run C}
    (hsettled : (r.atEnd = true ∧ s = r.finish .endOfInput (grounds.accepts r.current)) ∨
      (r.atEnd = false ∧ s = r)) : s.Justified grounds := by
  obtain ⟨hend, rfl⟩ | ⟨hmore, rfl⟩ := hsettled
  · exact .decided hr hend
  · exact .opened ⟨hr, hmore, hviable⟩

end Run

/-- A machine that leaves finished runs alone, and whose steps from open runs are
justified, keeps every run justified. -/
theorem Machine.keeps_justified {C : Type} {m : Machine C} {grounds : Run.Grounds C}
    (hfinished : ∀ r : Run C, r.isFinished = true → m.step r = r)
    (hstep : ∀ r : Run C, r.Open grounds → (m.step r).Justified grounds) :
    m.Keeps (Run.Justified grounds) where
  step r hr := by
    cases hopen : r.isFinished with
    | true => rwa [hfinished r hopen]
    | false => exact hstep r (hr.open_of_halt_eq (Run.isFinished_eq_false_iff.1 hopen))
  stepBack _ hr := hr.stepBack

namespace Deterministic

variable {g : Graph} {r : Run StateId}

/-- A machine in one state gets stuck where that state has no successor. -/
def grounds (g : Graph) : Run.Grounds StateId where
  viable _ := True
  accepts := g.isAccepting
  stuck p a := successor g p a = none
  lost _ := False
  bounded := False

/-- The verdict at the end of the input is that of the state. -/
theorem justified_settle (hr : r.Undecided (grounds g)) :
    (settle g r).Justified (grounds g) :=
  hr.justified_of_settled trivial (settle_cases g r)

theorem justified_start (g : Graph) (origin : StateId) (input : List Char) :
    ((machine g).start origin input).Justified (grounds g) :=
  justified_settle (Run.undecided_begin _ input origin)

/-- Whatever is done with a run, its verdict follows from how it stopped. -/
theorem keeps_justified (g : Graph) : (machine g).Keeps (Run.Justified (grounds g)) := by
  refine Machine.keeps_justified (fun _ => step_of_isFinished) fun r hr => ?_
  change (step g r).Justified _
  obtain ⟨hend, _⟩ | ⟨a, hsymbol, ⟨hstuck, hstep⟩ | ⟨q, _, hstep⟩⟩ := step_cases g hr.isFinished_eq
  · rw [hr.more] at hend
    cases hend
  · rw [hstep]
    exact .stuck hr hsymbol hstuck
  · rw [hstep]
    exact justified_settle (hr.advance hsymbol q)

end Deterministic

namespace Frontier

variable {g : Graph} {r : Run Frontier}

/-- A machine in a set of states is lost once the set is empty. -/
def grounds (g : Graph) : Run.Grounds Frontier where
  viable f := f ≠ ∅
  accepts := isAccepting g
  stuck _ _ := False
  lost f := f = ∅
  bounded := False

/-- The verdict at the end of the input is that of the frontier. -/
theorem justified_settle (hr : r.Undecided (grounds g)) (hcurrent : r.current ≠ ∅) :
    (settle g r).Justified (grounds g) :=
  hr.justified_of_settled hcurrent (settle_cases g r)

theorem justified_start (silence : Silence) (g : Graph) (origin : StateId) (input : List Char) :
    ((machine silence g).start origin input).Justified (grounds g) :=
  justified_settle (Run.undecided_begin _ input _) (initial_ne_empty silence g origin)

/-- Whatever is done with a run, its verdict follows from how it stopped. -/
theorem keeps_justified (silence : Silence) (g : Graph) :
    (machine silence g).Keeps (Run.Justified (grounds g)) := by
  refine Machine.keeps_justified (fun _ => step_of_isFinished) fun r hr => ?_
  change (step silence g r).Justified _
  obtain ⟨hend, _⟩ | ⟨a, hsymbol, ⟨_, hstep⟩ | ⟨hmove, hstep⟩⟩ :=
    step_cases silence g hr.isFinished_eq
  · rw [hr.more] at hend
    cases hend
  · rw [hstep]
    exact .lost (hr.advance hsymbol ∅) rfl
  · rw [hstep]
    exact justified_settle (hr.advance hsymbol _) hmove

end Frontier

namespace Pushdown

variable {g : Graph} {limits : Limits} {r : Run Configuration}

/-- A machine with a stack gets stuck where no move is selected, and its silent moves
can reach a bound. -/
def grounds (g : Graph) : Run.Grounds Configuration where
  viable _ := True
  accepts := Configuration.isAccepting g
  stuck c a := c.select g a = none
  lost _ := False
  bounded := True

/-- The verdict is that of the closing pass, which rejects at a bound. -/
theorem justified_settle (hr : r.Undecided (grounds g)) :
    (settle g limits r).Justified (grounds g) := by
  obtain ⟨c, _, _, ⟨limit, _, hsettle⟩ | ⟨_, hend, hsettle⟩ | ⟨_, hmore, hsettle⟩⟩ :=
    settle_cases g limits r
  · rw [hsettle]
    exact .bounded (hr.withCurrent c) trivial limit
  · exact (hr.withCurrent c).justified_of_settled trivial (.inl ⟨hend, hsettle⟩)
  · exact (hr.withCurrent c).justified_of_settled trivial (.inr ⟨hmore, hsettle⟩)

theorem justified_start (g : Graph) (limits : Limits) (origin : StateId) (input : List Char) :
    ((machine g limits).start origin input).Justified (grounds g) :=
  justified_settle (Run.undecided_begin _ input _)

/-- Whatever is done with a run, its verdict follows from how it stopped. -/
theorem keeps_justified (g : Graph) (limits : Limits) :
    (machine g limits).Keeps (Run.Justified (grounds g)) := by
  refine Machine.keeps_justified (fun _ => step_of_isFinished) fun r hr => ?_
  change (step g limits r).Justified _
  obtain ⟨a, hsymbol⟩ := hr.exists_symbol
  rw [step_of_symbol?_eq_some hr.isFinished_eq hsymbol]
  cases hselect : r.current.select g a with
  | none => exact .stuck hr hsymbol hselect
  | some t => exact justified_settle (hr.advance hsymbol _)

end Pushdown

end Automata
