import Mathlib.Data.List.Forall2

namespace Automata

variable {ε α β : Type}

/-- A mapped result comes from a result. -/
theorem exists_of_map_eq_ok {f : α → β} {result : Except ε α} {b : β}
    (hmap : result.map f = .ok b) : ∃ a, result = .ok a ∧ f a = b := by
  cases result with
  | error => cases hmap
  | ok a => exact ⟨a, rfl, Except.ok.inj hmap⟩

/-- A computation that succeeds is followed by the next one. -/
theorem bind_eq_ok {f : α → Except ε β} {result : Except ε α} {a : α} {b : β}
    (hresult : result = .ok a) (hf : f a = .ok b) : result >>= f = .ok b := by
  rw [hresult]
  exact hf

/-- A chain of two computations succeeds only if both do. -/
theorem exists_of_bind_eq_ok {f : α → Except ε β} {result : Except ε α} {b : β}
    (hbind : result >>= f = .ok b) : ∃ a, result = .ok a ∧ f a = .ok b := by
  cases result with
  | error => cases hbind
  | ok a => exact ⟨a, rfl, hbind⟩

/-- A chain of two computations fails as the first one does, or else as the second one does. -/
theorem bind_eq_error_iff {f : α → Except ε β} {result : Except ε α} {cause : ε} :
    result >>= f = .error cause ↔
      result = .error cause ∨ ∃ a, result = .ok a ∧ f a = .error cause := by
  cases result with
  | error first =>
    constructor
    · intro hcause
      cases hcause
      exact .inl rfl
    · rintro (hcause | ⟨_, hnone, _⟩)
      · cases hcause
        rfl
      · cases hnone
  | ok a =>
    constructor
    · intro hcause
      exact .inr ⟨a, rfl, hcause⟩
    · rintro (hnone | ⟨_, hsame, hcause⟩)
      · cases hnone
      · cases hsame
        exact hcause

/-- A computation on every member of a list succeeds if each of them does. -/
theorem mapM_eq_ok_of_forall {f : α → Except ε β} {h : α → β} {as : List α}
    (hf : ∀ a ∈ as, f a = .ok (h a)) : as.mapM f = .ok (as.map h) := by
  induction as with
  | nil => rfl
  | cons a as ih =>
    obtain ⟨hfirst, hrest⟩ := List.forall_mem_cons.1 hf
    rw [List.mapM_cons, hfirst, ih hrest]
    rfl

/-- Where each member of a list yields a result, so does the list, member by
member. -/
theorem exists_mapM_eq_ok {f : α → Except ε β} {R : α → β → Prop} {as : List α}
    (hf : ∀ a ∈ as, ∃ b, f a = .ok b ∧ R a b) :
    ∃ bs, as.mapM f = .ok bs ∧ List.Forall₂ R as bs := by
  induction as with
  | nil => exact ⟨[], rfl, .nil⟩
  | cons a as ih =>
    obtain ⟨⟨b, hb, hab⟩, hrest⟩ := List.forall_mem_cons.1 hf
    obtain ⟨bs, hbs, hall⟩ := ih hrest
    refine ⟨b :: bs, ?_, .cons hab hall⟩
    rw [List.mapM_cons, hb, hbs]
    rfl

/-- What a computation on a list yields comes from its members. -/
theorem exists_of_mem_of_mapM_eq_ok {f : α → Except ε β} {as : List α} {bs : List β}
    (hmap : as.mapM f = .ok bs) {b : β} (hb : b ∈ bs) : ∃ a ∈ as, f a = .ok b := by
  induction as generalizing bs with
  | nil =>
    cases hmap
    cases hb
  | cons a as ih =>
    rw [List.mapM_cons] at hmap
    obtain ⟨first, hfirst, hmap⟩ := exists_of_bind_eq_ok hmap
    obtain ⟨rest, hrest, hmap⟩ := exists_of_bind_eq_ok hmap
    cases hmap
    cases hb with
    | head => exact ⟨a, List.mem_cons_self, hfirst⟩
    | tail _ hb =>
      obtain ⟨a', ha', heq⟩ := ih hrest hb
      exact ⟨a', List.mem_cons_of_mem a ha', heq⟩

/-- A loop over a list is carried out as the same loop over what its members stand
for, with its errors reported differently. -/
theorem foldlM_eq_ok_of_map {ε' γ : Type} {f : β → α → Except ε' β} {h : α → γ}
    {step : β → γ → Except ε β} (report : ε → ε') {as : List α} {b c : β}
    (hf : ∀ a ∈ as, ∀ b, f b a = (step b (h a)).mapError report)
    (hsteps : (as.map h).foldlM step b = .ok c) : as.foldlM f b = .ok c := by
  induction as generalizing b with
  | nil =>
    cases hsteps
    rfl
  | cons a as ih =>
    obtain ⟨hfirst, hrest⟩ := List.forall_mem_cons.1 hf
    rw [List.map_cons, List.foldlM_cons] at hsteps
    obtain ⟨d, hd, hsteps⟩ := exists_of_bind_eq_ok hsteps
    rw [List.foldlM_cons, hfirst, hd]
    exact ih hrest hsteps

/-- A loop over a list fails with the error of the first member that is refused, once all members
before it have been taken. -/
theorem foldlM_eq_error_iff {f : β → α → Except ε β} {as : List α} {b : β} {cause : ε} :
    as.foldlM f b = .error cause ↔ ∃ before a after c, as = before ++ a :: after ∧
      before.foldlM f b = .ok c ∧ f c a = .error cause := by
  induction as generalizing b with
  | nil =>
    constructor
    · intro hnone
      cases hnone
    · rintro ⟨before, a, after, c, hsplit, _⟩
      simp at hsplit
  | cons a as ih =>
    rw [List.foldlM_cons]
    simp only [List.cons_eq_append_iff]
    cases hfirst : f b a with
    | error first =>
      constructor
      · intro hcause
        exact ⟨[], a, as, b, .inl ⟨rfl, rfl⟩, rfl, hfirst.trans hcause⟩
      · rintro ⟨_, x, after, c, ⟨rfl, hsplit⟩ | ⟨before, rfl, rfl⟩, hbefore, hx⟩
        · cases hsplit
          cases hbefore
          exact hfirst.symm.trans hx
        · rw [List.foldlM_cons, hfirst] at hbefore
          cases hbefore
    | ok d =>
      change as.foldlM f d = .error cause ↔ _
      rw [ih]
      constructor
      · rintro ⟨before, x, after, c, rfl, hbefore, hx⟩
        refine ⟨a :: before, x, after, c, .inr ⟨before, rfl, rfl⟩, ?_, hx⟩
        rw [List.foldlM_cons, hfirst]
        exact hbefore
      · rintro ⟨_, x, after, c, ⟨rfl, hsplit⟩ | ⟨before, rfl, rfl⟩, hbefore, hx⟩
        · cases hsplit
          cases hbefore
          rw [hfirst] at hx
          cases hx
        · rw [List.foldlM_cons, hfirst] at hbefore
          exact ⟨before, x, after, c, rfl, hbefore, hx⟩

end Automata
