import Mathlib.Data.List.Nodup
import Mathlib.Data.List.Perm.Subperm
import Mathlib.Logic.Relation
import Mathlib.Tactic.Tauto

namespace Automata

/-- A search among values that follow one another. A turn takes the first waiting value away; those
values that follow it and are not known become known and wait, each once. -/
structure Search {α : Type} (follows : α → α → Prop) (σ : Type) where
  turn : σ → σ
  waiting : σ → List α
  known : σ → α → Prop
  turn_eq : ∀ s, waiting s = [] → turn s = s
  known_turn_iff : ∀ s a rest, waiting s = a :: rest →
    ∀ b, known (turn s) b ↔ known s b ∨ follows a b
  mem_waiting_turn_iff : ∀ s a rest, waiting s = a :: rest →
    ∀ b, b ∈ waiting (turn s) ↔ b ∈ rest ∨ follows a b ∧ ¬ known s b
  nodup_waiting_turn : ∀ s a rest, waiting s = a :: rest → rest.Nodup →
    (∀ b ∈ rest, known s b) → (waiting (turn s)).Nodup

namespace Search

variable {α σ : Type} {follows : α → α → Prop} {search : Search follows σ} {s : σ}
  {seeds done rest : List α} {a b : α}

/-- How far a search has come: which values it has expanded. It knows these and those that wait, and
nothing that cannot be reached from the seeds. -/
structure Stage (search : Search follows σ) (seeds done : List α) (s : σ) : Prop where
  nodup : (done ++ search.waiting s).Nodup
  known_iff : ∀ a, search.known s a ↔ a ∈ done ∨ a ∈ search.waiting s
  known_of_seed : ∀ a ∈ seeds, search.known s a
  known_of_follows : ∀ a ∈ done, ∀ b, follows a b → search.known s b
  reached : ∀ a, search.known s a → ∃ seed ∈ seeds, Relation.ReflTransGen follows seed a

/-- A search begins with nothing expanded, if all that it knows waits, each value once. -/
theorem stage_nil (hwaiting : search.waiting s = seeds) (hnodup : seeds.Nodup)
    (hknown : ∀ a, search.known s a ↔ a ∈ seeds) : search.Stage seeds [] s where
  nodup := by rwa [hwaiting]
  known_iff a := by rw [hknown, hwaiting, or_iff_right List.not_mem_nil]
  known_of_seed a := (hknown a).2
  known_of_follows _ hnone := absurd hnone List.not_mem_nil
  reached a ha := ⟨a, (hknown a).1 ha, .refl⟩

/-- What waits after a turn has not been expanded: it waited before, or it was unknown. -/
theorem Stage.notMem_of_mem_waiting_turn (hstage : search.Stage seeds done s)
    (hwaiting : search.waiting s = a :: rest) (hb : b ∈ search.waiting (search.turn s)) :
    b ∉ a :: done := by
  have hnodup := hstage.nodup
  rw [hwaiting] at hnodup
  obtain ⟨-, hqueue, hapart⟩ := List.nodup_append.1 hnodup
  intro hexpanded
  obtain hrest | ⟨-, hunknown⟩ := (search.mem_waiting_turn_iff s a rest hwaiting b).1 hb
  · obtain rfl | hdone := List.mem_cons.1 hexpanded
    · exact (List.nodup_cons.1 hqueue).1 hrest
    · exact hapart b hdone b (List.mem_cons_of_mem a hrest) rfl
  · rw [hstage.known_iff, hwaiting] at hunknown
    obtain rfl | hdone := List.mem_cons.1 hexpanded
    · exact hunknown (.inr List.mem_cons_self)
    · exact hunknown (.inl hdone)

/-- A turn enters no value that is known already. -/
theorem Stage.nodup_turn (hstage : search.Stage seeds done s)
    (hwaiting : search.waiting s = a :: rest) :
    (a :: done ++ search.waiting (search.turn s)).Nodup := by
  have hnodup := hstage.nodup
  rw [hwaiting] at hnodup
  obtain ⟨hdone, hqueue, hapart⟩ := List.nodup_append.1 hnodup
  have ha : a ∉ done := fun hexpanded => hapart a hexpanded a List.mem_cons_self rfl
  refine List.nodup_append.2 ⟨List.nodup_cons.2 ⟨ha, hdone⟩, ?_, ?_⟩
  · refine search.nodup_waiting_turn s a rest hwaiting (List.nodup_cons.1 hqueue).2 fun b hb => ?_
    rw [hstage.known_iff, hwaiting]
    exact .inr (List.mem_cons_of_mem a hb)
  · rintro b hb _ hb' rfl
    exact hstage.notMem_of_mem_waiting_turn hwaiting hb' hb

/-- A turn expands the first of the waiting values. -/
theorem Stage.turn (hstage : search.Stage seeds done s) (hwaiting : search.waiting s = a :: rest) :
    search.Stage seeds (a :: done) (search.turn s) := by
  have hknown := hstage.known_iff
  simp only [hwaiting, List.mem_cons] at hknown
  have hgrow := search.known_turn_iff s a rest hwaiting
  refine ⟨hstage.nodup_turn hwaiting, fun b => ?_, fun b hb => ?_, fun b hb c hc => ?_,
    fun b hb => ?_⟩
  · rw [hgrow, search.mem_waiting_turn_iff s a rest hwaiting, List.mem_cons]
    have := hknown b
    tauto
  · exact (hgrow b).2 (.inl (hstage.known_of_seed b hb))
  · obtain rfl | hb := List.mem_cons.1 hb
    · exact (hgrow c).2 (.inr hc)
    · exact (hgrow c).2 (.inl (hstage.known_of_follows b hb c hc))
  · obtain hb | hfollows := (hgrow b).1 hb
    · exact hstage.reached b hb
    · obtain ⟨seed, hseed, hpath⟩ := hstage.reached a ((hknown a).2 (.inr (.inl rfl)))
      exact ⟨seed, hseed, hpath.tail hfollows⟩

/-- Once nothing waits, everything that can be reached was expanded. -/
theorem Stage.mem_done_iff (hstage : search.Stage seeds done s) (hwaiting : search.waiting s = []) :
    a ∈ done ↔ ∃ seed ∈ seeds, Relation.ReflTransGen follows seed a := by
  have hknown : ∀ b, search.known s b ↔ b ∈ done := by
    simpa [hwaiting] using hstage.known_iff
  constructor
  · exact fun ha => hstage.reached a ((hknown a).2 ha)
  · rintro ⟨seed, hseed, hpath⟩
    induction hpath with
    | refl => exact (hknown seed).1 (hstage.known_of_seed seed hseed)
    | tail _ hfollows ih => exact (hknown _).1 (hstage.known_of_follows _ ih _ hfollows)

/-- The list holds what can be reached from the seeds, each value once. -/
structure ReachedFrom (follows : α → α → Prop) (seeds all : List α) : Prop where
  nodup : all.Nodup
  mem_iff : ∀ a, a ∈ all ↔ ∃ seed ∈ seeds, Relation.ReflTransGen follows seed a

variable {all : List α}

/-- No more values are expanded and waiting than can be reached. -/
theorem Stage.length_le (hstage : search.Stage seeds done s)
    (hall : ReachedFrom follows seeds all) :
    done.length + (search.waiting s).length ≤ all.length := by
  have hsubset : done ++ search.waiting s ⊆ all := fun a ha =>
    (hall.mem_iff a).2 (hstage.reached a ((hstage.known_iff a).2 (List.mem_append.1 ha)))
  have hle := (hstage.nodup.subperm hsubset).length_le
  rwa [List.length_append] at hle

/-- Once nothing waits, every value that can be reached has had its turn. -/
theorem Stage.length_eq (hstage : search.Stage seeds done s) (hall : ReachedFrom follows seeds all)
    (hwaiting : search.waiting s = []) : done.length = all.length := by
  have hdone : done.Nodup := by simpa [hwaiting] using hstage.nodup
  refine ((List.perm_ext_iff_of_nodup hdone hall.nodup).2 fun a => ?_).length_eq
  rw [hstage.mem_done_iff hwaiting, hall.mem_iff]

/-- After some turns as many values are expanded, or else all that can be reached. -/
theorem Stage.exists_repeat (hstage : search.Stage seeds [] s)
    (hall : ReachedFrom follows seeds all) (n : Nat) :
    ∃ done, search.Stage seeds done (Nat.repeat search.turn n s) ∧
      done.length = min n all.length := by
  induction n with
  | zero => exact ⟨[], hstage, (Nat.zero_min _).symm⟩
  | succ n ih =>
    obtain ⟨done, hdone, hlength⟩ := ih
    cases hwaiting : search.waiting (Nat.repeat search.turn n s) with
    | nil =>
      -- all is expanded, and a further turn changes nothing
      have hfull := hdone.length_eq hall hwaiting
      refine ⟨done, ?_, by omega⟩
      rw [Nat.repeat, search.turn_eq _ hwaiting]
      exact hdone
    | cons a rest =>
      -- one value still waits, so the turns so far cannot have expanded all
      have hle := hdone.length_le hall
      rw [hwaiting, List.length_cons] at hle
      exact ⟨a :: done, hdone.turn hwaiting, by rw [List.length_cons]; omega⟩

/-- A search is at its end exactly after as many turns as there are values to be reached. -/
theorem Stage.waiting_repeat_eq_nil_iff (hstage : search.Stage seeds [] s)
    (hall : ReachedFrom follows seeds all) (n : Nat) :
    search.waiting (Nat.repeat search.turn n s) = [] ↔ all.length ≤ n := by
  obtain ⟨done, hdone, hlength⟩ := hstage.exists_repeat hall n
  constructor
  · intro hwaiting
    have hfull := hdone.length_eq hall hwaiting
    omega
  · intro hn
    have hle := hdone.length_le hall
    rw [← List.length_eq_zero_iff]
    omega

/-- At its end a search knows exactly the values to be reached. -/
theorem Stage.known_repeat_iff (hstage : search.Stage seeds [] s)
    (hall : ReachedFrom follows seeds all) {n : Nat}
    (hwaiting : search.waiting (Nat.repeat search.turn n s) = []) (a : α) :
    search.known (Nat.repeat search.turn n s) a ↔ a ∈ all := by
  obtain ⟨done, hdone, -⟩ := hstage.exists_repeat hall n
  rw [hdone.known_iff, hdone.mem_done_iff hwaiting, hwaiting, hall.mem_iff]
  exact or_iff_left List.not_mem_nil

end Search

end Automata
