import Automata.Proofs.Pattern.Operands

namespace Automata

namespace Token

/-- How many operands a token takes when it is evaluated. Parentheses cannot be
evaluated. -/
def arity? : Token → Option Nat
  | literal _ | oneOf _ => some 0
  | star | plus | question => some 1
  | concat | alternation => some 2
  | openGroup _ | closeGroup _ => none

/-- With some operands at hand, every token of the list finds the operands that
it takes and leaves one in their place, until some are left at the end. -/
inductive Leaves : Nat → List Token → Nat → Prop where
  | nil (n : Nat) : Leaves n [] n
  | cons {n k m : Nat} {t : Token} {ts : List Token} (harity : t.arity? = some k)
    (hrest : Leaves (n + 1) ts m) : Leaves (n + k) (t :: ts) m

/-- A token takes as many operands as it needs and leaves one. -/
theorem leaves_cons_iff {n m : Nat} {t : Token} {ts : List Token} :
    Leaves n (t :: ts) m ↔ ∃ k, t.arity? = some k ∧ k ≤ n ∧ Leaves (n - k + 1) ts m := by
  constructor
  · intro hleaves
    cases hleaves with
    | cons harity hrest => exact ⟨_, harity, Nat.le_add_left _ _, by rwa [Nat.add_sub_cancel]⟩
  · rintro ⟨k, harity, hk, hrest⟩
    rw [← Nat.sub_add_cancel hk]
    exact .cons harity hrest

/-- No tokens leave the operands at hand. -/
theorem leaves_nil_iff {n m : Nat} : Leaves n [] m ↔ n = m := by
  constructor
  · intro hleaves
    cases hleaves
    rfl
  · rintro rfl
    exact .nil n

instance decidableLeaves : (n : Nat) → (ts : List Token) → (m : Nat) → Decidable (Leaves n ts m)
  | n, [], m => decidable_of_iff (n = m) leaves_nil_iff.symm
  | n, t :: ts, m =>
    match harity : t.arity? with
    | none => isFalse fun hleaves => by
      obtain ⟨k, hk, _⟩ := leaves_cons_iff.1 hleaves
      simp [harity] at hk
    | some k =>
      have := decidableLeaves (n - k + 1) ts m
      decidable_of_iff (k ≤ n ∧ Leaves (n - k + 1) ts m) (by simp [leaves_cons_iff, harity])

theorem isParenthesis_of_arity? {t : Token} {k : Nat} (harity : t.arity? = some k) :
    t.isParenthesis = false := by
  cases t <;> first | rfl | cases harity

/-- No list with a parenthesis can be evaluated. -/
theorem Leaves.isParenthesis_eq_false {n m : Nat} {ts : List Token} (hleaves : Leaves n ts m) :
    ∀ t ∈ ts, t.isParenthesis = false := by
  induction hleaves with
  | nil => nofun
  | cons harity _ ih => exact List.forall_mem_cons.2 ⟨isParenthesis_of_arity? harity, ih⟩

/-- A token adds one operand and uses up as many as it takes. -/
theorem weight_of_arity? {t : Token} {k : Nat} (harity : t.arity? = some k) :
    t.weight = 1 - (k : Int) := by
  cases t <;> cases harity <;> rfl

end Token

namespace Assembly

variable {a b : Assembly} {t : Token} {ts : List Token}

/-- An operator behind an operand can be applied exactly if there is a
fragment. -/
theorem exists_unary_iff {operator : Char}
    {join : Fragment → List Fragment → Assembly → Assembly} :
    (∃ b, a.unary operator join = .ok b) ↔ 1 ≤ a.fragments.length := by
  constructor
  · rintro ⟨b, hread⟩
    obtain ⟨inner, waiting, hfragments, _⟩ := unary_eq_ok_iff.1 hread
    simp [hfragments]
  · intro hlength
    obtain ⟨inner, waiting, hfragments⟩ := List.exists_cons_of_length_pos hlength
    exact ⟨_, unary_eq_ok_iff.2 ⟨inner, waiting, hfragments, rfl⟩⟩

/-- An operator between two operands can be applied exactly if there are two
fragments. -/
theorem exists_binary_iff {operator : Char}
    {join : Fragment → Fragment → List Fragment → Assembly → Assembly} :
    (∃ b, a.binary operator join = .ok b) ↔ 2 ≤ a.fragments.length := by
  constructor
  · rintro ⟨b, hread⟩
    obtain ⟨left, right, waiting, hfragments, _⟩ := binary_eq_ok_iff.1 hread
    simp [hfragments]
  · intro hlength
    obtain ⟨right, rest, hfragments⟩ := List.exists_cons_of_length_pos (Nat.lt_of_succ_lt hlength)
    have hrest : 0 < rest.length := by
      rw [hfragments, List.length_cons] at hlength
      omega
    obtain ⟨left, waiting, rfl⟩ := List.exists_cons_of_length_pos hrest
    exact ⟨_, binary_eq_ok_iff.2 ⟨left, right, waiting, hfragments, rfl⟩⟩

/-- A token can be read exactly if the fragments that it joins are at hand. -/
theorem exists_read_iff :
    (∃ b, a.read t = .ok b) ↔ ∃ k, t.arity? = some k ∧ k ≤ a.fragments.length := by
  cases t with
  | literal | oneOf => simp [read, Token.arity?]
  | star | plus | question =>
    simp only [read, Token.arity?, Option.some.injEq, exists_eq_left']
    exact exists_unary_iff
  | concat | alternation =>
    simp only [read, Token.arity?, Option.some.injEq, exists_eq_left']
    exact exists_binary_iff
  | openGroup | closeGroup => simp [read, Token.arity?]

/-- What can be read, and how many fragments it leaves. -/
theorem exists_foldlM_read_iff {m : Nat} :
    (∃ b, ts.foldlM read a = .ok b ∧ b.fragments.length = m) ↔
      Token.Leaves a.fragments.length ts m := by
  induction ts generalizing a with
  | nil =>
    rw [Token.leaves_nil_iff]
    constructor
    · rintro ⟨b, hb, rfl⟩
      cases hb
      rfl
    · rintro rfl
      exact ⟨a, rfl, rfl⟩
  | cons t ts ih =>
    rw [Token.leaves_cons_iff]
    -- What the token leaves is what the rest of the tokens finds.
    have hlength {b : Assembly} {k : Nat} (hread : a.read t = .ok b) (harity : t.arity? = some k)
        (hk : k ≤ a.fragments.length) : b.fragments.length = a.fragments.length - k + 1 := by
      have hweight := length_read hread
      rw [Token.weight_of_arity? harity] at hweight
      omega
    constructor
    · rintro ⟨c, hc, hm⟩
      obtain ⟨b, hb, hrest⟩ := exists_of_bind_eq_ok hc
      obtain ⟨k, harity, hk⟩ := exists_read_iff.1 ⟨b, hb⟩
      refine ⟨k, harity, hk, ?_⟩
      rw [← hlength hb harity hk]
      exact ih.1 ⟨c, hrest, hm⟩
    · rintro ⟨k, harity, hk, hleaves⟩
      obtain ⟨b, hb⟩ := exists_read_iff.2 ⟨k, harity, hk⟩
      rw [← hlength hb harity hk] at hleaves
      obtain ⟨c, hrest, hm⟩ := ih.2 hleaves
      refine ⟨c, ?_, hm⟩
      rw [List.foldlM_cons]
      exact bind_eq_ok hb hrest

/-- A construction can be finished exactly if there is one fragment. -/
theorem exists_toGraph_iff : (∃ g, a.toGraph = .ok g) ↔ a.fragments.length = 1 := by
  simp only [toGraph_eq_ok_iff, List.length_eq_one_iff]
  exact ⟨fun ⟨_, f, hf, _⟩ => ⟨f, hf⟩, fun ⟨f, hf⟩ => ⟨_, f, hf, rfl⟩⟩

/-- Tokens make a graph exactly if they leave one operand. -/
theorem exists_build_iff : (∃ g, build ts = .ok g) ↔ Token.Leaves 0 ts 1 := by
  have hread : (∃ b, ts.foldlM read {} = .ok b ∧ b.fragments.length = 1) ↔ Token.Leaves 0 ts 1 :=
    exists_foldlM_read_iff
  rw [← hread]
  constructor
  · rintro ⟨g, hbuild⟩
    obtain ⟨b, hb, hgraph⟩ := exists_of_bind_eq_ok hbuild
    exact ⟨b, hb, exists_toGraph_iff.1 ⟨g, hgraph⟩⟩
  · rintro ⟨b, hb, hone⟩
    obtain ⟨g, hgraph⟩ := exists_toGraph_iff.2 hone
    exact ⟨g, bind_eq_ok hb hgraph⟩

end Assembly

end Automata
