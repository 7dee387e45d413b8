import Automata.Proofs.Run.Deterministic

namespace Automata

namespace Deterministic

variable {g : Graph} {origin : StateId} {input : List Char} {r : Run StateId}

/-- The state that a word leads to, unless some symbol of it cannot be read. -/
def destination (g : Graph) : StateId → List Char → Option StateId
  | id, [] => some id
  | id, c :: word => (successor g id c).bind fun next => destination g next word

@[simp] theorem destination_nil (id : StateId) : destination g id [] = some id := rfl

@[simp] theorem destination_cons (id : StateId) (c : Char) (word : List Char) :
    destination g id (c :: word) =
      (successor g id c).bind fun next => destination g next word :=
  rfl

/-- A word leads where its parts lead, one after the other. -/
theorem destination_append (id : StateId) (u v : List Char) :
    destination g id (u ++ v) = (destination g id u).bind fun next => destination g next v := by
  induction u generalizing id with
  | nil => rfl
  | cons c u ih =>
    rw [List.cons_append, destination_cons, destination_cons, Option.bind_assoc]
    exact Option.bind_congr fun next _ => ih next

/-- What shows of the state that a word leads to: whether it accepts. Nothing
shows if the word cannot be read. -/
def outcome (g : Graph) (id : StateId) (word : List Char) : Option Bool :=
  (destination g id word).map g.isAccepting

/-- What a word decides is decided by the rest of it, from where its beginning
leads. -/
theorem outcome_of_destination {id next : StateId} {u : List Char}
    (hu : destination g id u = some next) (v : List Char) :
    outcome g id (u ++ v) = outcome g next v := by
  rw [outcome, destination_append, hu]
  rfl

theorem outcome_eq_some_iff {id : StateId} {word : List Char} {accepting : Bool} :
    outcome g id word = some accepting ↔
      ∃ q, destination g id word = some q ∧ g.isAccepting q = accepting :=
  Option.map_eq_some_iff

theorem outcome_eq_none_iff {id : StateId} {word : List Char} :
    outcome g id word = none ↔ destination g id word = none :=
  Option.map_eq_none_iff

/-- Why a run with an outcome stops. -/
def haltOf : Option Bool → Halt
  | none => .noTransition
  | some _ => .endOfInput

/-- What all runs on an input have in common at every step: they are in the
state that the symbols read so far lead to, and they stop as the outcome of the
whole input says. -/
structure Tracks (g : Graph) (origin : StateId) (input : List Char) (r : Run StateId) :
    Prop where
  input_eq : r.input = input
  current : destination g origin (input.take r.position) = some r.current
  decided : r.isFinished = true → r.halt = some (haltOf (outcome g origin input)) ∧
    r.verdict = some ((outcome g origin input).getD false)

namespace Tracks

theorem settle (hr : Tracks g origin input r) : Tracks g origin input (settle g r) := by
  obtain ⟨hend, hsettle⟩ | ⟨_, hsettle⟩ := settle_cases g r
  · have hposition : input.length ≤ r.position := hr.input_eq ▸ of_decide_eq_true hend
    have hcurrent := hr.current
    rw [List.take_of_length_le hposition] at hcurrent
    have houtcome : outcome g origin input = some (g.isAccepting r.current) :=
      outcome_eq_some_iff.2 ⟨r.current, hcurrent, rfl⟩
    rw [hsettle]
    refine ⟨hr.input_eq, hr.current, fun _ => ?_⟩
    rw [houtcome]
    exact ⟨rfl, rfl⟩
  · rw [hsettle]
    exact hr

/-- A symbol that no move reads leaves the whole input without an outcome. -/
theorem outcome_eq_none (hr : Tracks g origin input r) {c : Char} (hsymbol : r.symbol? = some c)
    (hsuccessor : successor g r.current c = none) : outcome g origin input = none := by
  have hread := hr.input_eq ▸ Run.take_succ_of_symbol? hsymbol
  rw [outcome_eq_none_iff, ← List.take_append_drop (r.position + 1) input, hread,
    List.append_assoc, destination_append, hr.current]
  simp [hsuccessor]

theorem advance (hr : Tracks g origin input r) (hopen : r.isFinished = false) {c : Char}
    (hsymbol : r.symbol? = some c) {q : StateId} (hsuccessor : successor g r.current c = some q) :
    Tracks g origin input (r.advance q) := by
  have hread := hr.input_eq ▸ Run.take_succ_of_symbol? hsymbol
  refine ⟨hr.input_eq, ?_, fun hfinished => ?_⟩
  · change destination g origin (input.take (r.position + 1)) = some q
    rw [hread, destination_append, hr.current]
    simp [hsuccessor]
  · change r.isFinished = true at hfinished
    rw [hopen] at hfinished
    cases hfinished

theorem step (hr : Tracks g origin input r) : Tracks g origin input (step g r) := by
  cases hopen : r.isFinished with
  | true =>
    rw [step_of_isFinished hopen]
    exact hr
  | false =>
    cases hsymbol : r.symbol? with
    | none =>
      rw [step_of_symbol?_eq_none hopen hsymbol]
      exact hr.settle
    | some c =>
      rw [step_of_symbol?_eq_some hopen hsymbol]
      cases hsuccessor : successor g r.current c with
      | none =>
        refine ⟨hr.input_eq, hr.current, fun _ => ?_⟩
        rw [hr.outcome_eq_none hsymbol hsuccessor]
        exact ⟨rfl, rfl⟩
      | some q => exact (hr.advance hopen hsymbol hsuccessor).settle

end Tracks

/-- A run begins at the start, which is where the empty word leads. -/
theorem tracks_start (g : Graph) (origin : StateId) (input : List Char) :
    Tracks g origin input (start g origin input) :=
  Tracks.settle ⟨rfl, by simp, nofun⟩

/-- Every configuration of a run is where the input read so far leads. -/
theorem tracks_repeat_step (g : Graph) (origin : StateId) (input : List Char) (k : Nat) :
    Tracks g origin input (Nat.repeat (Deterministic.step g) k (start g origin input)) := by
  induction k with
  | zero => exact tracks_start g origin input
  | succ k ih => exact ih.step

/-- A run that is driven to its end halts and decides as the outcome of the input
says. -/
theorem decided_complete (g : Graph) (origin : StateId) (input : List Char) :
    ((machine g).complete ((machine g).start origin input)).halt =
        some (haltOf (outcome g origin input)) ∧
      ((machine g).complete ((machine g).start origin input)).verdict =
        some ((outcome g origin input).getD false) :=
  (tracks_repeat_step g origin input _).decided
    ((progresses_machine g).isFinished_complete (start g origin input))

/-- The verdict is the outcome of the input, and a word that leads nowhere is
rejected. -/
theorem acceptsFrom_eq (g : Graph) (origin : StateId) (input : List Char) :
    (machine g).acceptsFrom origin input = (outcome g origin input).getD false := by
  rw [Machine.acceptsFrom, (decided_complete g origin input).2]
  rfl

theorem acceptsFrom_iff :
    (machine g).acceptsFrom origin input = true ↔ outcome g origin input = some true := by
  rw [acceptsFrom_eq]
  cases outcome g origin input <;> simp

/-- On every input the runs of two machines halt for the same reason and with the
same verdict. -/
def RunsAgree (g : Graph) (origin : StateId) (g' : Graph) (origin' : StateId) : Prop :=
  ∀ input,
    let run := (machine g).complete ((machine g).start origin input)
    let run' := (machine g').complete ((machine g').start origin' input)
    run'.halt = run.halt ∧ run'.verdict = run.verdict

/-- Halt and verdict together tell the outcome. -/
theorem runsAgree_iff {g' : Graph} {origin' : StateId} :
    RunsAgree g origin g' origin' ↔
      ∀ input, outcome g' origin' input = outcome g origin input := by
  refine forall_congr' fun input => ?_
  simp only [decided_complete]
  constructor
  · rintro ⟨hhalt, hverdict⟩
    cases houtcome : outcome g origin input with
    | none =>
      rw [houtcome] at hhalt
      cases houtcome' : outcome g' origin' input with
      | none => rfl
      | some _ => simp [houtcome', haltOf] at hhalt
    | some accepting =>
      rw [houtcome] at hhalt hverdict
      cases houtcome' : outcome g' origin' input with
      | none => simp [houtcome', haltOf] at hhalt
      | some _ => simpa [houtcome'] using hverdict
  · intro houtcome
    rw [houtcome]
    exact ⟨rfl, rfl⟩

end Deterministic

end Automata
