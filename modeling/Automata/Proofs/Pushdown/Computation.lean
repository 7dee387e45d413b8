import Automata.Proofs.Pushdown.Moves
import Automata.Proofs.Run.Pushdown

namespace Automata

namespace Pushdown

/-- What a move did: it read a symbol, or it read nothing and led to a
configuration. -/
inductive Event where
  | read (symbol : Char)
  | silent (reached : Configuration)

/-- One move of the machine, with the unread input before and after it. A silent
move is taken only if no move on the next symbol is enabled. -/
inductive Moves (g : Graph) : Configuration → List Char → Event → Configuration → List Char →
    Prop where
  | read {c c' : Configuration} {symbol : Char} {rest : List Char} {t : Transition}
    (hchooses : Chooses g c symbol t) (hfires : Fires t c c') :
    Moves g c (symbol :: rest) (.read symbol) c' rest
  | silent {c c' : Configuration} {rest : List Char} {t : Transition}
    (hunread : ∀ symbol ∈ rest.head?, ∀ u ∈ g.transitions, ¬ Enabled c symbol u)
    (hchooses : Chooses g c epsilon t) (hfires : Fires t c c') :
    Moves g c rest (.silent c') c' rest

/-- No move is possible. -/
def Stuck (g : Graph) (c : Configuration) (rest : List Char) : Prop :=
  ∀ event c' rest', ¬ Moves g c rest event c' rest'

/-- A number of moves, with what each of them did. -/
inductive Computes (g : Graph) : Configuration → List Char → List Event → Configuration →
    List Char → Prop where
  | refl (c : Configuration) (rest : List Char) : Computes g c rest [] c rest
  | step {c c' c'' : Configuration} {rest rest' rest'' : List Char} {event : Event}
    {events : List Event} (hmove : Moves g c rest event c' rest')
    (hcomputes : Computes g c' rest' events c'' rest'') :
    Computes g c rest (event :: events) c'' rest''

/-- The silent moves keep to the bounds: no uninterrupted series of them is too
long, and none leaves the stack too high above its bottom marker. -/
structure Within (limits : Limits) (events : List Event) : Prop where
  length_le : ∀ series : List Configuration, series.map .silent <:+: events →
    series.length ≤ limits.epsilonIterations
  height_le : ∀ c, .silent c ∈ events → c.stack.length ≤ limits.stackGrowth + 1

variable {g : Graph} {limits : Limits} {c c' : Configuration} {rest rest' : List Char}
  {event : Event} {events : List Event}

/-- A silent move is made if no move reads the next symbol, and then it is the
one that is chosen among the silent ones. -/
theorem silentMove_eq_some_iff {next : Option Char} {t : Transition} :
    silentMove g next c = some t ↔
      (∀ symbol ∈ next, ∀ u ∈ g.transitions, ¬ Enabled c symbol u) ∧ Chooses g c epsilon t := by
  rw [← select_eq_some_iff]
  cases next with
  | none => simp [silentMove]
  | some symbol =>
    simp only [Option.mem_some, forall_eq', ← select_eq_none_iff]
    cases hselect : c.select g symbol <;> simp [silentMove, hselect]

/-- All that a move can do, in terms of the moves that are selected. -/
theorem moves_iff : Moves g c rest event c' rest' ↔
    (∃ symbol t, rest = symbol :: rest' ∧ c.select g symbol = some t ∧ event = .read symbol ∧
      c' = c.fire t) ∨
    ∃ t, rest' = rest ∧ silentMove g rest.head? c = some t ∧ event = .silent (c.fire t) ∧
      c' = c.fire t := by
  constructor
  · intro hmove
    cases hmove with
    | read hchooses hfires =>
      exact .inl ⟨_, _, rfl, select_eq_some_iff.2 hchooses, rfl, hfires.eq_fire⟩
    | silent hunread hchooses hfires =>
      obtain rfl := hfires.eq_fire
      exact .inr ⟨_, rfl, silentMove_eq_some_iff.2 ⟨hunread, hchooses⟩, rfl, rfl⟩
  · rintro (⟨symbol, t, rfl, hselect, rfl, rfl⟩ | ⟨t, rfl, hsilent, rfl, rfl⟩)
    · have hchooses := select_eq_some_iff.1 hselect
      exact .read hchooses hchooses.enabled.fires
    · obtain ⟨hunread, hchooses⟩ := silentMove_eq_some_iff.1 hsilent
      exact .silent hunread hchooses hchooses.enabled.fires

/-- The machine is deterministic: there is at most one move. -/
theorem Moves.unique {event' : Event} {d : Configuration} {rest'' : List Char}
    (hmove : Moves g c rest event c' rest') (hother : Moves g c rest event' d rest'') :
    event' = event ∧ d = c' ∧ rest'' = rest' := by
  have hexclusive {symbol : Char} {rest : List Char} {t u : Transition}
      (hselect : c.select g symbol = some t)
      (hsilent : silentMove g (symbol :: rest).head? c = some u) : False := by
    have hnone := (silentMove_eq_some_iff.1 hsilent).1 symbol rfl
    rw [select_eq_none_iff.2 hnone] at hselect
    cases hselect
  obtain ⟨symbol, t, rfl, hselect, rfl, rfl⟩ | ⟨t, rfl, hsilent, rfl, rfl⟩ := moves_iff.1 hmove
  · obtain ⟨symbol', u, hrest, hselect', rfl, rfl⟩ | ⟨u, _, hsilent, _⟩ := moves_iff.1 hother
    · cases hrest
      rw [hselect] at hselect'
      cases hselect'
      exact ⟨rfl, rfl, rfl⟩
    · exact (hexclusive hselect hsilent).elim
  · obtain ⟨symbol, u, rfl, hselect, _⟩ | ⟨u, rfl, hsilent', rfl, rfl⟩ := moves_iff.1 hother
    · exact (hexclusive hselect hsilent).elim
    · rw [hsilent] at hsilent'
      cases hsilent'
      exact ⟨rfl, rfl, rfl⟩

/-- At the end of the input a configuration is stuck if it makes no silent
move. -/
theorem stuck_nil_iff : Stuck g c [] ↔ silentMove g none c = none := by
  constructor
  · intro hstuck
    cases hsilent : silentMove g none c with
    | none => rfl
    | some t => exact (hstuck _ _ _ (moves_iff.2 (.inr ⟨t, rfl, hsilent, rfl, rfl⟩))).elim
  · intro hnone event c' rest' hmove
    obtain ⟨symbol, t, hrest, _⟩ | ⟨t, _, hsilent, _⟩ := moves_iff.1 hmove
    · cases hrest
    · rw [List.head?_nil, hnone] at hsilent
      cases hsilent

/-- Computations can be joined. -/
theorem Computes.append {events' : List Event} {c'' : Configuration} {rest'' : List Char}
    (hfirst : Computes g c rest events c' rest')
    (hsecond : Computes g c' rest' events' c'' rest'') :
    Computes g c rest (events ++ events') c'' rest'' := by
  induction hfirst with
  | refl => exact hsecond
  | step hmove _ ih => exact .step hmove (ih hsecond)

/-- A computation that reads all of its input begins with a series of silent
moves, and either ends with it or reads the next symbol after it. -/
theorem Computes.exists_series (hcomputes : Computes g c rest events c' []) :
    ∃ (series : List Configuration) (d : Configuration),
      Computes g c rest (series.map .silent) d rest ∧
        ((rest = [] ∧ events = series.map .silent ∧ d = c') ∨
          ∃ symbol rest' t events', rest = symbol :: rest' ∧ d.select g symbol = some t ∧
            events = series.map .silent ++ .read symbol :: events' ∧
            Computes g (d.fire t) rest' events' c' []) := by
  generalize hempty : ([] : List Char) = final at hcomputes
  induction hcomputes with
  | refl c rest => exact ⟨[], c, .refl c rest, .inl ⟨rfl, rfl, rfl⟩⟩
  | @step c c₁ c' rest rest₁ final event events hmove hcomputes ih =>
    subst hempty
    obtain ⟨symbol, t, rfl, hselect, rfl, rfl⟩ | ⟨t, rfl, hsilent, rfl, rfl⟩ := moves_iff.1 hmove
    · exact ⟨[], c, .refl _ _, .inr ⟨symbol, rest₁, t, events, rfl, hselect, rfl, hcomputes⟩⟩
    · obtain ⟨series, d, hseries, hlater⟩ := ih rfl
      refine ⟨c.fire t :: series, d, .step hmove hseries, ?_⟩
      obtain ⟨hnil, rfl, rfl⟩ | ⟨symbol, rest', u, events', hrest, hselect, rfl, hafter⟩ := hlater
      · exact .inl ⟨hnil, rfl, rfl⟩
      · exact .inr ⟨symbol, rest', u, events', hrest, hselect, rfl, hafter⟩

/-- A pass that is not stopped is a series of silent moves within its bounds
that leads to where no silent move is left. -/
theorem exists_series_of_pass {maxHeight budget : Nat}
    (hpass : pass g rest.head? maxHeight budget c = (c', none)) :
    silentMove g rest.head? c' = none ∧ ∃ series : List Configuration,
      Computes g c rest (series.map .silent) c' rest ∧ series.length ≤ budget ∧
        ∀ d ∈ series, d.stack.length ≤ maxHeight := by
  induction budget generalizing c with
  | zero =>
    cases hsilent : silentMove g rest.head? c with
    | some t =>
      rw [pass_zero hsilent] at hpass
      cases hpass
    | none =>
      rw [pass_of_silentMove_eq_none hsilent] at hpass
      cases hpass
      exact ⟨hsilent, [], .refl _ _, Nat.le_refl _, nofun⟩
  | succ budget ih =>
    cases hsilent : silentMove g rest.head? c with
    | none =>
      rw [pass_of_silentMove_eq_none hsilent] at hpass
      cases hpass
      exact ⟨hsilent, [], .refl _ _, Nat.zero_le _, nofun⟩
    | some t =>
      rw [pass_succ hsilent, heightAfter_eq] at hpass
      split at hpass
      · cases hpass
      · rename_i hheight
        obtain ⟨hend, series, hcomputes, hlength, hheights⟩ := ih hpass
        have hmove : Moves g c rest (.silent (c.fire t)) (c.fire t) rest :=
          moves_iff.2 (.inr ⟨t, rfl, hsilent, rfl, rfl⟩)
        refine ⟨hend, c.fire t :: series, .step hmove hcomputes, Nat.succ_le_succ hlength, ?_⟩
        intro d hd
        obtain rfl | hd := List.mem_cons.1 hd
        · exact Nat.le_of_not_lt hheight
        · exact hheights d hd

/-- A pass takes any series of silent moves that keeps to its bounds and leads
to where no silent move is left. -/
theorem pass_of_series {maxHeight budget : Nat} {series : List Configuration}
    (hcomputes : Computes g c rest (series.map .silent) c' rest) (hlength : series.length ≤ budget)
    (hheights : ∀ d ∈ series, d.stack.length ≤ maxHeight)
    (hend : silentMove g rest.head? c' = none) :
    pass g rest.head? maxHeight budget c = (c', none) := by
  induction series generalizing c budget with
  | nil =>
    cases hcomputes
    exact pass_of_silentMove_eq_none hend budget
  | cons d series ih =>
    obtain ⟨budget, rfl⟩ : ∃ n, budget = n + 1 :=
      ⟨budget - 1, by rw [List.length_cons] at hlength; omega⟩
    cases hcomputes with
    | step hmove hcomputes =>
      obtain ⟨_, _, _, _, hevent, _⟩ | ⟨t, rfl, hsilent, hevent, rfl⟩ := moves_iff.1 hmove
      · cases hevent
      · cases hevent
        have hheight := hheights _ List.mem_cons_self
        rw [pass_succ hsilent, heightAfter_eq, if_neg (Nat.not_lt_of_le hheight)]
        exact ih hcomputes (Nat.le_of_succ_le_succ hlength)
          fun e he => hheights e (List.mem_cons_of_mem _ he)

/-- Without silent moves there is nothing that a pass could do. -/
theorem closingPass_of_loud (hloud : ∀ t ∈ g.transitions, t.isEpsilon = false)
    (next : Option Char) (c : Configuration) : closingPass g limits next c = (c, none) := by
  refine pass_of_silentMove_eq_none ?_ _
  have hnone : c.select g epsilon = none := by
    refine select_eq_none_iff.2 fun t ht henabled => ?_
    have hsilent : t.isEpsilon = true := decide_eq_true henabled.1
    rw [hloud t ht] at hsilent
    cases hsilent
  unfold silentMove
  split
  · rfl
  · exact hnone

end Pushdown

end Automata
