import Automata.Exploration
import Mathlib.Data.List.Nodup
import Mathlib.Logic.Relation
import Mathlib.Tactic.Tauto

namespace Automata

variable {α : Type} [DecidableEq α]

/-- Which candidates are fresh depends on what is known, in whatever order it is
listed. -/
theorem fresh_congr {known known' : List α} (hsame : ∀ a, a ∈ known ↔ a ∈ known') (as : List α) :
    fresh known as = fresh known' as := by
  induction as generalizing known known' with
  | nil => rfl
  | cons a as ih =>
    have hcons (b : α) : b ∈ a :: known ↔ b ∈ a :: known' := by
      rw [List.mem_cons, List.mem_cons, hsame]
    simp only [fresh, hsame a, ih hsame, ih hcons]

/-- Of two lists of candidates, the second is looked at once the first has
become known. -/
theorem fresh_append (known as bs : List α) :
    fresh known (as ++ bs) = fresh known as ++ fresh (known ++ fresh known as) bs := by
  induction as generalizing known with
  | nil => rw [List.nil_append, fresh, List.nil_append, List.append_nil]
  | cons a as ih =>
    rw [List.cons_append, fresh, fresh]
    split
    · exact ih known
    · rw [ih, List.cons_append]
      refine congrArg (a :: _ ++ ·) (fresh_congr (fun b => ?_) bs)
      simp only [List.mem_append, List.mem_cons]
      tauto

namespace Expansion

/-- A search depends on nothing but what follows each value. -/
theorem eq_of_next_eq {β : Type} {e f : Expansion β} (hnext : e.next = f.next) : e = f := by
  cases e
  cases f
  cases hnext
  rfl

/-- One value is among those that follow another. -/
def Follows (expansion : Expansion α) (a b : α) : Prop := b ∈ expansion.next a

/-- The visited values and the queue keep their places in the outcome of a
search; everything else is found later. -/
theorem prefix_visit (expansion : Expansion α) (visited queue : List α) :
    visited.reverse ++ queue <+: expansion.visit visited queue := by
  fun_induction visit expansion visited queue with
  | case1 visited => simp
  | case2 visited a queue ih =>
    apply List.IsPrefix.trans ?_ ih
    rw [List.reverse_cons, List.append_assoc, List.singleton_append]
    rw [List.prefix_append_right_inj, ← List.cons_append]
    exact List.prefix_append _ _

/-- Visiting a value leaves no value twice among the visited and the queued. -/
theorem nodup_advance {visited queue : List α} {a : α} (hnodup : (visited ++ a :: queue).Nodup)
    (candidates : List α) :
    (a :: visited ++ (queue ++ fresh (a :: visited ++ queue) candidates)).Nodup := by
  rw [← List.append_assoc, List.nodup_append]
  refine ⟨?_, nodup_fresh, ?_⟩
  · exact List.perm_middle.nodup_iff.1 hnodup
  · intro x hx y hy hxy
    exact (mem_fresh.1 hy).2 (hxy ▸ hx)

/-- A search that has every value once, visited or queued, visits no value
twice. -/
theorem nodup_visit {expansion : Expansion α} {visited queue : List α}
    (hnodup : (visited ++ queue).Nodup) : (expansion.visit visited queue).Nodup := by
  fun_induction visit expansion visited queue with
  | case1 visited =>
    rw [List.append_nil] at hnodup
    exact List.nodup_reverse.2 hnodup
  | case2 visited a queue ih => exact ih (nodup_advance hnodup _)

/-- Once everything that follows a visited value is visited or queued, the
outcome is closed: no value that was found is left unexpanded. -/
theorem visit_closed {expansion : Expansion α} {visited queue : List α}
    (hvisited : ∀ a ∈ visited, ∀ b, expansion.Follows a b → b ∈ visited ++ queue) :
    ∀ a ∈ expansion.visit visited queue, ∀ b, expansion.Follows a b →
      b ∈ expansion.visit visited queue := by
  fun_induction visit expansion visited queue with
  | case1 visited => simpa using hvisited
  | case2 visited a queue ih =>
    apply ih
    intro x hx b hb
    obtain rfl | hx := List.mem_cons.1 hx
    · by_cases hknown : b ∈ x :: visited ++ queue
      · rw [← List.append_assoc]
        exact List.mem_append_left _ hknown
      · rw [← List.append_assoc]
        exact List.mem_append_right _ (mem_fresh.2 ⟨hb, hknown⟩)
    · have hold := hvisited x hx b hb
      simp only [List.mem_append, List.mem_cons] at hold ⊢
      obtain hold | hold | hold := hold
      · exact .inl (.inr hold)
      · exact .inl (.inl hold)
      · exact .inr (.inl hold)

/-- A search finds nothing but what can be reached from the queue. -/
theorem visit_sound {expansion : Expansion α} {visited queue : List α} {x : α}
    (hx : x ∈ expansion.visit visited queue) :
    x ∈ visited ∨ ∃ a ∈ queue, Relation.ReflTransGen expansion.Follows a x := by
  fun_induction visit expansion visited queue with
  | case1 visited => exact .inl (List.mem_reverse.1 hx)
  | case2 visited a queue ih =>
    obtain hvisited | ⟨b, hb, hpath⟩ := ih hx
    · obtain rfl | hvisited := List.mem_cons.1 hvisited
      · exact .inr ⟨x, List.mem_cons_self, .refl⟩
      · exact .inl hvisited
    · obtain hqueue | hnew := List.mem_append.1 hb
      · exact .inr ⟨b, List.mem_cons_of_mem _ hqueue, hpath⟩
      · have hfollows : expansion.Follows a b := (mem_fresh.1 hnew).1
        exact .inr ⟨a, List.mem_cons_self, .head hfollows hpath⟩

/-- No value is reached twice. -/
theorem nodup_reach (expansion : Expansion α) (seeds : List α) : (expansion.reach seeds).Nodup :=
  nodup_visit nodup_fresh

/-- The values that a search begins with are reached. -/
theorem subset_reach {expansion : Expansion α} {seeds : List α} {a : α} (ha : a ∈ seeds) :
    a ∈ expansion.reach seeds := by
  have hprefix := prefix_visit expansion [] (fresh [] seeds)
  exact hprefix.subset (by simpa using mem_fresh.2 ⟨ha, List.not_mem_nil⟩)

/-- What follows a reached value is reached. -/
theorem reach_closed {expansion : Expansion α} {seeds : List α} {a b : α}
    (ha : a ∈ expansion.reach seeds) (hb : expansion.Follows a b) : b ∈ expansion.reach seeds :=
  visit_closed (by simp) a ha b hb

/-- A search from some seeds finds exactly the values that can be reached from
one of them, cycles or not. -/
theorem mem_reach_iff {expansion : Expansion α} {seeds : List α} {x : α} :
    x ∈ expansion.reach seeds ↔ ∃ a ∈ seeds, Relation.ReflTransGen expansion.Follows a x := by
  constructor
  · intro hx
    obtain hnone | ⟨a, ha, hpath⟩ := visit_sound hx
    · exact absurd hnone List.not_mem_nil
    · exact ⟨a, (mem_fresh.1 ha).1, hpath⟩
  · rintro ⟨a, ha, hpath⟩
    induction hpath with
    | refl => exact subset_reach ha
    | tail _ hstep ih => exact reach_closed ih hstep

/-- A search from a single seed finds the seed first. -/
theorem head_reach_singleton (expansion : Expansion α) (a : α) :
    (expansion.reach [a]).head? = some a := by
  obtain ⟨rest, hrest⟩ := prefix_visit expansion [] (fresh [] [a])
  rw [reach, ← hrest]
  simp [fresh]

end Expansion

end Automata
