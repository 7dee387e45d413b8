namespace Automata

variable {α : Type} [DecidableEq α]

/-- The first occurrences of the candidates that are not known yet. -/
def fresh (known : List α) : List α → List α
  | [] => []
  | b :: bs => if b ∈ known then fresh known bs else b :: fresh (b :: known) bs

/-- Fresh values are the candidates that are not known. -/
theorem mem_fresh {known bs : List α} {x : α} : x ∈ fresh known bs ↔ x ∈ bs ∧ x ∉ known := by
  induction bs generalizing known with
  | nil => simp [fresh]
  | cons b bs ih =>
    unfold fresh
    split
    · rename_i hb
      rw [ih, List.mem_cons]
      constructor
      · rintro ⟨h, hk⟩
        exact ⟨.inr h, hk⟩
      · rintro ⟨rfl | h, hk⟩
        · exact absurd hb hk
        · exact ⟨h, hk⟩
    · rename_i hb
      rw [List.mem_cons, ih, List.mem_cons, List.mem_cons]
      constructor
      · rintro (rfl | ⟨h, hk⟩)
        · exact ⟨.inl rfl, hb⟩
        · exact ⟨.inr h, fun hx => hk (.inr hx)⟩
      · rintro ⟨h, hk⟩
        by_cases hx : x = b
        · exact .inl hx
        · exact .inr ⟨h.resolve_left hx, fun h' => h'.elim hx hk⟩

/-- No candidate is taken twice. -/
theorem nodup_fresh {known bs : List α} : (fresh known bs).Nodup := by
  induction bs generalizing known with
  | nil => simp [fresh]
  | cons b bs ih =>
    unfold fresh
    split
    · exact ih
    · exact List.nodup_cons.2 ⟨fun h => (mem_fresh.1 h).2 (by simp), ih⟩

/-- Which values follow each value, all of them taken from one finite list. The list itself is never
computed: it may be far longer than what a search visits. -/
structure Expansion (α : Type) where
  next : α → List α
  finite : ∃ bound : List α, ∀ a, ∀ b ∈ next a, b ∈ bound

namespace Expansion

/-- The values of a finite list that are still unknown become fewer by at least the number of
distinct new values taken from it. -/
theorem length_add_countP_le (bound known : List α) {new : List α} (nodup : new.Nodup)
    (subset : ∀ x ∈ new, x ∈ bound ∧ x ∉ known) :
    new.length + bound.countP (fun x => decide (x ∉ known ∧ x ∉ new)) ≤
      bound.countP (fun x => decide (x ∉ known)) := by
  induction new with
  | nil => simp
  | cons a new ih =>
    rw [List.nodup_cons] at nodup
    have hrest := ih nodup.2 fun x hx => subset x (List.mem_cons_of_mem a hx)
    have ha := subset a List.mem_cons_self
    have strict : ∀ l : List α, a ∈ l →
        l.countP (fun x => decide (x ∉ known ∧ x ∉ a :: new)) + 1 ≤
          l.countP (fun x => decide (x ∉ known ∧ x ∉ new)) := by
      intro l
      induction l with
      | nil => simp
      | cons b l ihl =>
        intro hmem
        rw [List.countP_cons, List.countP_cons]
        by_cases hab : a = b
        · subst hab
          have weak : l.countP (fun x => decide (x ∉ known ∧ x ∉ a :: new)) ≤
              l.countP (fun x => decide (x ∉ known ∧ x ∉ new)) := by
            refine List.countP_mono_left fun x _ hx => ?_
            simp only [List.mem_cons, not_or, decide_eq_true_eq] at hx ⊢
            exact ⟨hx.1, hx.2.2⟩
          simp [ha.2, nodup.1]
          simpa using weak
        · have hl := ihl ((List.mem_cons.1 hmem).resolve_left hab)
          have hb : b ∉ a :: new ↔ b ∉ new := by
            simp [List.mem_cons, Ne.symm hab]
          simp only [hb]
          omega
    have := strict bound ha.1
    simp only [List.length_cons]
    omega

/-- Visits the pending values in order and queues what follows them, unless it was visited or queued
before. The visited values, latest first, and the queue are given. -/
def visit (expansion : Expansion α) (visited : List α) : List α → List α
  | [] => visited.reverse
  | a :: queue =>
    visit expansion (a :: visited)
      (queue ++ fresh (a :: visited ++ queue) (expansion.next a))
termination_by queue =>
  expansion.finite.choose.countP (fun x => decide (x ∉ visited ++ queue)) + queue.length
decreasing_by
  have hbound := expansion.finite.choose_spec
  have hnodup : (fresh (a :: visited ++ queue) (expansion.next a)).Nodup := nodup_fresh
  have hdrop := length_add_countP_le expansion.finite.choose (a :: visited ++ queue) hnodup
    fun x hx => ⟨hbound a x (mem_fresh.1 hx).1, (mem_fresh.1 hx).2⟩
  have hafter : ∀ x, (x ∉ a :: visited ++ (queue ++ fresh (a :: visited ++ queue) (expansion.next a))) ↔
      (x ∉ a :: visited ++ queue ∧ x ∉ fresh (a :: visited ++ queue) (expansion.next a)) := by
    intro x
    simp only [List.mem_append, not_or, and_assoc]
  have hbefore : ∀ x, (x ∉ visited ++ a :: queue) ↔ (x ∉ a :: visited ++ queue) := by
    intro x
    simp only [List.mem_append, List.mem_cons, List.cons_append, not_or]
    grind
  simp only [hafter, hbefore, List.length_append, List.length_cons]
  omega

/-- A visited value was given, or it follows some value. -/
theorem mem_visit {expansion : Expansion α} {visited queue : List α} {x : α}
    (h : x ∈ expansion.visit visited queue) :
    x ∈ visited ∨ x ∈ queue ∨ ∃ a, x ∈ expansion.next a := by
  fun_induction visit expansion visited queue with
  | case1 visited => exact .inl (List.mem_reverse.1 h)
  | case2 visited a queue ih =>
    rcases ih h with h | h | h
    · rcases List.mem_cons.1 h with rfl | h
      · exact .inr (.inl List.mem_cons_self)
      · exact .inl h
    · rcases List.mem_append.1 h with h | h
      · exact .inr (.inl (List.mem_cons_of_mem _ h))
      · exact .inr (.inr ⟨a, (mem_fresh.1 h).1⟩)
    · exact .inr (.inr h)

/-- The seeds and all that can be reached from them, in the order of discovery. -/
def reach (expansion : Expansion α) (seeds : List α) : List α :=
  expansion.visit [] (fresh [] seeds)

/-- A value that is reached is a seed, or it follows some value. -/
theorem mem_reach {expansion : Expansion α} {seeds : List α} {x : α}
    (h : x ∈ expansion.reach seeds) : x ∈ seeds ∨ ∃ a, x ∈ expansion.next a := by
  rcases mem_visit h with h | h | h
  · exact absurd h List.not_mem_nil
  · exact .inl (mem_fresh.1 h).1
  · exact .inr h

end Expansion

end Automata
