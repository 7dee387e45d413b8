import Automata.Proofs.Path
import Mathlib.Computability.Language

namespace Automata

/-- The words along the paths between two states. -/
def wordsBetween (moves : List Transition) (p q : StateId) : Language Char :=
  {word | Path .followed moves p word q}

variable {moves more : List Transition} {p q : StateId} {t : Transition} {word : List Char}
  {L : Language Char}

/-- The words between two states are those of the paths between them. -/
theorem mem_wordsBetween_iff : word ∈ wordsBetween moves p q ↔ Path .followed moves p word q :=
  Iff.rfl

theorem nil_mem_wordsBetween : [] ∈ wordsBetween moves q q :=
  Path.nil q

theorem wordsBetween_mono (hsub : moves ⊆ more) (hword : word ∈ wordsBetween moves p q) :
    word ∈ wordsBetween more p q :=
  Path.mono hsub hword

theorem append_mem_wordsBetween {r : StateId} {u v : List Char} (hu : u ∈ wordsBetween moves p q)
    (hv : v ∈ wordsBetween moves q r) : u ++ v ∈ wordsBetween moves p r :=
  Path.append hu hv

theorem label_append_mem_wordsBetween (ht : t ∈ moves)
    (hword : word ∈ wordsBetween moves t.target q) :
    t.label ++ word ∈ wordsBetween moves t.source q :=
  Path.cons ht (Silence.takes_followed t) hword

theorem label_append_mem_wordsBetween_mul (ht : t ∈ moves)
    (hword : word ∈ wordsBetween moves t.target q * L) :
    t.label ++ word ∈ wordsBetween moves t.source q * L := by
  obtain ⟨u, hu, v, hv, rfl⟩ := Language.mem_mul.1 hword
  rw [← List.append_assoc]
  exact Language.append_mem_mul (label_append_mem_wordsBetween ht hu) hv

/-- Languages for all states, of which that of the last state has the empty word
    and a move in front leads from that of its target to that of its source,
    contain the words of all paths. -/
theorem mem_of_mem_wordsBetween {rest : StateId → Language Char} (hend : [] ∈ rest q)
    (hstep : ∀ t ∈ moves, ∀ word ∈ rest t.target, t.label ++ word ∈ rest t.source)
    (hword : word ∈ wordsBetween moves p q) : word ∈ rest p := by
  change Path .followed moves p word q at hword
  induction hword with
  | nil => exact hend
  | cons hmove _ _ ih => exact hstep _ hmove _ (ih hend)

end Automata
