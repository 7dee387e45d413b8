import Automata.Proofs.Run.Destination
import Automata.Proofs.Run.Trace

namespace Automata

/-- A run with every configuration replaced, those left behind included. -/
def Run.map {C D : Type} (h : C → D) (r : Run C) : Run D :=
  { r with current := h r.current, history := r.history.map h }

namespace Deterministic

/-- Replacing states by others leads from one graph into the other: on a set of
states that no symbol leaves, moves and verdicts are kept. -/
structure Morphism (g g' : Graph) (Inside : StateId → Prop) (h : StateId → StateId) : Prop where
  closed : ∀ {p q : StateId} {c : Char}, Inside p → successor g p c = some q → Inside q
  successor_eq : ∀ {p : StateId} (c : Char), Inside p →
    successor g' (h p) c = (successor g p c).map h
  accepting_eq : ∀ {p : StateId}, Inside p → g'.isAccepting (h p) = g.isAccepting p

namespace Morphism

variable {g g' : Graph} {Inside : StateId → Prop} {h : StateId → StateId} {r : Run StateId}

theorem settle_map (hm : Morphism g g' Inside h) (hr : Inside r.current) :
    settle g' (r.map h) = (settle g r).map h := by
  have hend : (r.map h).atEnd = r.atEnd := rfl
  have haccepting : g'.isAccepting (r.map h).current = g.isAccepting r.current :=
    hm.accepting_eq hr
  rw [settle, settle, hend, haccepting]
  split <;> rfl

theorem settle_inside (hr : Inside r.current) : Inside (settle g r).current := by
  obtain ⟨_, hsettle⟩ | ⟨_, hsettle⟩ := settle_cases g r
  · rw [hsettle]
    exact hr
  · rw [hsettle]
    exact hr

/-- A step of the image is the image of a step. -/
theorem step_map (hm : Morphism g g' Inside h) (hr : Inside r.current) :
    step g' (r.map h) = (step g r).map h := by
  cases hopen : r.isFinished with
  | true => rw [step_of_isFinished hopen, step_of_isFinished (r := r.map h) hopen]
  | false =>
    cases hsymbol : r.symbol? with
    | none =>
      rw [step_of_symbol?_eq_none hopen hsymbol,
        step_of_symbol?_eq_none (r := r.map h) hopen hsymbol]
      exact hm.settle_map hr
    | some c =>
      have hsuccessor : successor g' (r.map h).current c = (successor g r.current c).map h :=
        hm.successor_eq c hr
      rw [step_of_symbol?_eq_some hopen hsymbol,
        step_of_symbol?_eq_some (r := r.map h) hopen hsymbol, hsuccessor]
      cases hnext : successor g r.current c with
      | none => rfl
      | some q => exact hm.settle_map (r := r.advance q) (hm.closed hr hnext)

/-- Steps do not leave the part of the graph on which the mapping is given. -/
theorem step_inside (hm : Morphism g g' Inside h) (hr : Inside r.current) :
    Inside (step g r).current := by
  cases hopen : r.isFinished with
  | true => rwa [step_of_isFinished hopen]
  | false =>
    obtain ⟨_, hstep⟩ | ⟨c, _, ⟨_, hstep⟩ | ⟨q, hnext, hstep⟩⟩ := step_cases g hopen
    · rw [hstep]
      exact hr
    · rw [hstep]
      exact hr
    · rw [hstep]
      exact settle_inside (hm.closed hr hnext)

/-- A run from the image of a state is the image of the run from the state, step
by step. -/
theorem repeat_step_map (hm : Morphism g g' Inside h) {origin : StateId} (horigin : Inside origin)
    (input : List Char) (k : Nat) :
    Inside (Nat.repeat (step g) k (start g origin input)).current ∧
      Nat.repeat (step g') k (start g' (h origin) input) =
        (Nat.repeat (step g) k (start g origin input)).map h := by
  induction k with
  | zero =>
    refine ⟨settle_inside (r := { input := input, current := origin }) horigin, ?_⟩
    exact hm.settle_map (r := { input := input, current := origin }) horigin
  | succ k ih =>
    refine ⟨hm.step_inside ih.1, ?_⟩
    rw [Nat.repeat, ih.2]
    exact hm.step_map ih.1

/-- The image accepts the same inputs. -/
theorem acceptsFrom_eq (hm : Morphism g g' Inside h) {origin : StateId} (horigin : Inside origin)
    (input : List Char) :
    (machine g').acceptsFrom (h origin) input = (machine g).acceptsFrom origin input := by
  have hcomplete := (lawful_machine g).complete_eq_of_trace_eq (f := Run.map h) (lawful_machine g')
    (fun _ => rfl) fun k => (hm.repeat_step_map horigin input k).2
  rw [Machine.acceptsFrom, hcomplete]
  rfl

/-- Words lead from the image of a state to the image of where they lead from
the state. -/
theorem destination_map (hm : Morphism g g' Inside h) {p : StateId} (hp : Inside p)
    (word : List Char) : destination g' (h p) word = (destination g p word).map h := by
  induction word generalizing p with
  | nil => rfl
  | cons c word ih =>
    rw [destination_cons, destination_cons, hm.successor_eq c hp]
    cases hnext : successor g p c with
    | none => rfl
    | some q => exact ih (hm.closed hp hnext)

theorem destination_inside (hm : Morphism g g' Inside h) {p q : StateId} (hp : Inside p)
    {word : List Char} (hdestination : destination g p word = some q) : Inside q := by
  induction word generalizing p with
  | nil =>
    cases hdestination
    exact hp
  | cons c word ih =>
    rw [destination_cons] at hdestination
    obtain ⟨next, hnext, hrest⟩ := Option.bind_eq_some_iff.1 hdestination
    exact ih (hm.closed hp hnext) hrest

/-- Every word has the same outcome from the image of a state. -/
theorem outcome_map (hm : Morphism g g' Inside h) {p : StateId} (hp : Inside p)
    (word : List Char) : outcome g' (h p) word = outcome g p word := by
  rw [outcome, outcome, hm.destination_map hp, Option.map_map]
  cases hdestination : destination g p word with
  | none => rfl
  | some q => exact congrArg some (hm.accepting_eq (hm.destination_inside hp hdestination))

end Morphism

end Deterministic

end Automata
