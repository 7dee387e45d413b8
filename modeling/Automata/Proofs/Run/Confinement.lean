import Automata.Proofs.Pushdown.Moves
import Automata.Proofs.Run.Invariant

namespace Automata

namespace Run

variable {C : Type} {Q : C → Prop} {r : Run C}

/-- A property of the configuration that the run is in and of all that it was in
before. -/
def Throughout (Q : C → Prop) (r : Run C) : Prop := Q r.current ∧ ∀ c ∈ r.history, Q c

namespace Throughout

theorem advance (hr : r.Throughout Q) {next : C} (hnext : Q next) :
    (r.advance next).Throughout Q :=
  ⟨hnext, List.forall_mem_cons.2 hr⟩

theorem finish (hr : r.Throughout Q) (halt : Halt) (verdict : Bool) :
    (r.finish halt verdict).Throughout Q :=
  hr

theorem stepBack (hr : r.Throughout Q) : r.stepBack.Throughout Q := by
  obtain hback | hback | ⟨previous, earlier, hhistory, hback⟩ := stepBack_cases r
  · rwa [hback]
  · rw [hback]
    exact hr
  · rw [hback]
    have hbefore := hr.2
    rw [hhistory] at hbefore
    exact List.forall_mem_cons.1 hbefore

end Throughout

end Run

variable {g : Graph} {origin : StateId} {P : StateId → Prop}

namespace Deterministic

/-- Settling moves nowhere. -/
theorem throughout_settle {r : Run StateId} (hr : r.Throughout P) : (settle g r).Throughout P := by
  obtain ⟨_, hsettle⟩ | ⟨_, hsettle⟩ := settle_cases g r
  · rw [hsettle]
    exact hr.finish _ _
  · rwa [hsettle]

theorem throughout_start (horigin : P origin) (input : List Char) :
    ((machine g).start origin input).Throughout P :=
  throughout_settle ⟨horigin, nofun⟩

/-- What holds at the target of every move holds all along a run. -/
theorem keeps_throughout (htargets : ∀ t ∈ g.transitions, P t.target) :
    (machine g).Keeps (Run.Throughout P) where
  step r hr := by
    change (step g r).Throughout P
    cases hopen : r.isFinished with
    | true => rwa [step_of_isFinished hopen]
    | false =>
      obtain ⟨_, hstep⟩ | ⟨c, _, ⟨_, hstep⟩ | ⟨q, hsuccessor, hstep⟩⟩ := step_cases g hopen
      · rw [hstep]
        exact hr.finish _ _
      · rw [hstep]
        exact hr.finish _ _
      · rw [hstep]
        obtain ⟨t, ht, _, _, rfl⟩ := exists_move_of_successor hsuccessor
        exact throughout_settle (hr.advance (htargets t ht))
  stepBack _ hr := hr.stepBack

end Deterministic

namespace Frontier

variable {silence : Silence} {f : Frontier} {r : Run Frontier}

/-- Closing the start under silent moves adds targets of moves only. -/
theorem forall_mem_initial (htargets : ∀ t ∈ g.transitions, P t.target) (horigin : P origin) :
    ∀ q ∈ initial silence g origin, P q := by
  intro q hq
  exact (mem_initial_iff.1 hq).end_of_targets htargets horigin

/-- A frontier after a symbol consists of targets of moves. -/
theorem forall_mem_move (htargets : ∀ t ∈ g.transitions, P t.target) (f : Frontier) (c : Char) :
    ∀ q ∈ move silence g f c, P q := by
  intro q hq
  obtain ⟨t, ht, _, _, hpath⟩ := mem_move_iff.1 hq
  exact hpath.end_of_targets htargets (htargets t ht)

/-- Settling leaves the frontier as it is. -/
theorem throughout_settle {Q : Frontier → Prop} (hr : r.Throughout Q) :
    (settle g r).Throughout Q := by
  obtain ⟨_, hsettle⟩ | ⟨_, hsettle⟩ := settle_cases g r
  · rw [hsettle]
    exact hr.finish _ _
  · rwa [hsettle]

theorem throughout_start (htargets : ∀ t ∈ g.transitions, P t.target) (horigin : P origin)
    (input : List Char) :
    ((machine silence g).start origin input).Throughout fun f => ∀ q ∈ f, P q :=
  throughout_settle ⟨forall_mem_initial htargets horigin, nofun⟩

/-- What holds at the target of every move holds of every member of every
frontier. -/
theorem keeps_throughout (htargets : ∀ t ∈ g.transitions, P t.target) :
    (machine silence g).Keeps (Run.Throughout fun f => ∀ q ∈ f, P q) where
  step r hr := by
    change (step silence g r).Throughout _
    cases hopen : r.isFinished with
    | true => rwa [step_of_isFinished hopen]
    | false =>
      obtain ⟨_, hstep⟩ | ⟨c, _, ⟨_, hstep⟩ | ⟨_, hstep⟩⟩ := step_cases silence g hopen
      · rw [hstep]
        exact hr.finish _ _
      · rw [hstep]
        exact (hr.advance fun q hq => absurd hq SortedSet.notMem_empty).finish _ _
      · rw [hstep]
        exact throughout_settle (hr.advance (forall_mem_move htargets r.current c))
  stepBack _ hr := hr.stepBack

end Frontier

namespace Pushdown

variable {limits : Limits} {c : Configuration}

theorem mem_transitions_of_select {symbol : Char} {t : Transition}
    (hselect : c.select g symbol = some t) : t ∈ g.transitions :=
  (select_eq_some_iff.1 hselect).mem

/-- A silent move that is made is a move of the graph. -/
theorem mem_transitions_of_silentMove {next : Option Char} {t : Transition}
    (hsilent : silentMove g next c = some t) : t ∈ g.transitions := by
  unfold silentMove at hsilent
  split at hsilent
  · cases hsilent
  · exact mem_transitions_of_select hsilent

/-- A closing pass ends at the target of a move, or where it began. -/
theorem state_pass (htargets : ∀ t ∈ g.transitions, P t.target) (next : Option Char)
    (maxHeight budget : Nat) {c : Configuration} (hc : P c.state) :
    P (pass g next maxHeight budget c).1.state := by
  induction budget generalizing c with
  | zero =>
    cases hsilent : silentMove g next c with
    | none => rwa [pass_of_silentMove_eq_none hsilent]
    | some t => rwa [pass_zero hsilent]
  | succ budget ih =>
    cases hsilent : silentMove g next c with
    | none => rwa [pass_of_silentMove_eq_none hsilent]
    | some t =>
      rw [pass_succ hsilent]
      split
      · exact hc
      · exact ih (htargets t (mem_transitions_of_silentMove hsilent))

theorem throughout_settle (htargets : ∀ t ∈ g.transitions, P t.target) {r : Run Configuration}
    (hr : r.Throughout fun c => P c.state) :
    (settle g limits r).Throughout fun c => P c.state := by
  obtain ⟨c, limit?, hpass, hcases⟩ := settle_cases g limits r
  have hc : P c.state := by
    have hpassed := state_pass htargets r.symbol? (limits.stackGrowth + 1)
      limits.epsilonIterations hr.1
    rw [closingPass] at hpass
    rwa [hpass] at hpassed
  obtain ⟨_, _, hsettle⟩ | ⟨_, _, hsettle⟩ | ⟨_, _, hsettle⟩ := hcases
  · rw [hsettle]
    exact ⟨hc, hr.2⟩
  · rw [hsettle]
    exact ⟨hc, hr.2⟩
  · rw [hsettle]
    exact ⟨hc, hr.2⟩

theorem throughout_start (htargets : ∀ t ∈ g.transitions, P t.target) (horigin : P origin)
    (input : List Char) :
    ((machine g limits).start origin input).Throughout fun c => P c.state :=
  throughout_settle htargets ⟨horigin, nofun⟩

/-- What holds at the target of every move holds of the state of every
configuration. -/
theorem keeps_throughout (htargets : ∀ t ∈ g.transitions, P t.target) :
    (machine g limits).Keeps (Run.Throughout fun c => P c.state) where
  step r hr := by
    change (step g limits r).Throughout _
    cases hopen : r.isFinished with
    | true => rwa [step_of_isFinished hopen]
    | false =>
      cases hsymbol : r.symbol? with
      | none =>
        rw [step_of_symbol?_eq_none hopen hsymbol]
        exact throughout_settle htargets hr
      | some a =>
        rw [step_of_symbol?_eq_some hopen hsymbol]
        cases hselect : r.current.select g a with
        | none => exact hr.finish _ _
        | some t =>
          have hnext : P (r.current.fire t).state := htargets t (mem_transitions_of_select hselect)
          exact throughout_settle htargets (hr.advance hnext)
  stepBack _ hr := hr.stepBack

end Pushdown

end Automata
