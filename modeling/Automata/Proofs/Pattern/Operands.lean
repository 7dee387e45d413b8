import Automata.Proofs.Pattern.Construction
import Automata.Proofs.Pattern.Grammar
import Automata.Proofs.Pattern.Parentheses

namespace Automata

namespace Token

/-- What a token adds to the operands at hand when it is evaluated: an operand
    is one more, and a binary operator makes one out of two. -/
def weight (t : Token) : Int :=
  (if t.startsOperand then 1 else 0) + (if t.endsOperand then 1 else 0) - 1

def totalWeight : List Token → Int
  | [] => 0
  | t :: rest => t.weight + totalWeight rest

/-- The places where an operand is expected, starting with whether one is
    expected at first, and none begins. -/
def gaps (expected : Bool) : List Token → Nat
  | [] => if expected then 1 else 0
  | t :: rest => (if expected && !t.startsOperand then 1 else 0) + gaps (!t.endsOperand) rest

/-- Somewhere an operand is missing: nothing before the place ends an operand
    and nothing behind it begins one. The place is at either end of the tokens,
    next to a bar, behind an opening parenthesis, or in front of a closing one
    or an operator that needs an operand before it. -/
def MissingOperand (ts : List Token) : Prop :=
  ∃ us vs, ts = us ++ vs ∧ (∀ t ∈ us.getLast?, t.endsOperand = false) ∧
    ∀ t ∈ vs.head?, t.startsOperand = false

/-- The order of tokens plays no part in how many operands they leave over. -/
theorem totalWeight_perm {ts us : List Token} (hperm : ts.Perm us) :
    totalWeight ts = totalWeight us := by
  induction hperm with
  | nil => rfl
  | cons t _ ih => rw [totalWeight, totalWeight, ih]
  | swap t u rest =>
    simp only [totalWeight]
    omega
  | trans _ _ ihfirst ihsecond => rw [ihfirst, ihsecond]

/-- Parentheses add no operands. -/
theorem totalWeight_filter_isParenthesis (ts : List Token) :
    totalWeight (ts.filter (!·.isParenthesis)) = totalWeight ts := by
  induction ts with
  | nil => rfl
  | cons t ts ih =>
    by_cases hparenthesis : t.isParenthesis = true
    · have hweight : t.weight = 0 := by cases t <;> first | rfl | cases hparenthesis
      rw [List.filter_cons_of_neg (by simp [hparenthesis]), totalWeight, ih, hweight, Int.zero_add]
    · rw [List.filter_cons_of_pos (by simp [hparenthesis]), totalWeight, totalWeight, ih]

theorem weight_concat : concat.weight = -1 := rfl

/-- Every concatenation that is inserted takes an operand away, so the number of
    operands left over tells the number of gaps. -/
theorem totalWeight_insertConcat_cons (a : Token) (rest : List Token) :
    totalWeight (insertConcat (a :: rest)) =
      (if a.startsOperand then 1 else 0) - gaps (!a.endsOperand) rest := by
  induction rest generalizing a with
  | nil =>
    cases hends : a.endsOperand <;> simp [insertConcat, totalWeight, weight, gaps, hends]
  | cons b rest ih =>
    have hweight : a.weight =
        (if a.startsOperand then 1 else 0) + (if a.endsOperand then 1 else 0) - 1 := rfl
    rw [insertConcat, gaps]
    cases hends : a.endsOperand <;> cases hstarts : b.startsOperand <;>
      simp only [Bool.and_true, Bool.and_false, Bool.and_self, Bool.not_true, Bool.not_false,
        Bool.false_eq_true, if_true, if_false, totalWeight, weight_concat, hweight, ih,
        hstarts, hends] <;>
      omega

/-- Tokens with explicit concatenation leave one operand over for every gap
less, starting at one. -/
theorem totalWeight_insertConcat (ts : List Token) :
    totalWeight (insertConcat ts) = 1 - gaps true ts := by
  cases ts with
  | nil => rfl
  | cons a rest =>
    rw [totalWeight_insertConcat_cons, gaps]
    cases a.startsOperand with
    | true => simp
    | false =>
      simp only [Bool.false_eq_true, if_false, Bool.not_false, Bool.and_self, if_true]
      omega

/-- Where nothing ends an operand and nothing behind begins one, there is a
gap. -/
theorem gaps_pos_of_missing {us vs : List Token} {expected : Bool}
    (hfirst : us = [] → expected = true) (hbefore : ∀ t ∈ us.getLast?, t.endsOperand = false)
    (hbehind : ∀ t ∈ vs.head?, t.startsOperand = false) : 0 < gaps expected (us ++ vs) := by
  induction us generalizing expected with
  | nil =>
    cases vs with
    | nil => simp [gaps, hfirst rfl]
    | cons t vs =>
      rw [List.nil_append, gaps, hfirst rfl, hbehind t rfl]
      exact Nat.add_pos_left Nat.one_pos _
  | cons a us ih =>
    have hrest : 0 < gaps (!a.endsOperand) (us ++ vs) := by
      apply ih
      · rintro rfl
        simp [hbefore a rfl]
      · intro t ht
        cases us with
        | nil => cases ht
        | cons b us => exact hbefore t (by rwa [List.getLast?_cons_cons])
    rw [List.cons_append, gaps]
    omega

/-- A missing operand leaves a gap. -/
theorem MissingOperand.gaps_pos {ts : List Token} (hmissing : MissingOperand ts) :
    0 < gaps true ts := by
  obtain ⟨us, vs, rfl, hbefore, hbehind⟩ := hmissing
  exact gaps_pos_of_missing (fun _ => rfl) hbefore hbehind

end Token

namespace Assembly

variable {a b : Assembly}

theorem length_symbols (a : Assembly) (members : List Char) :
    (a.symbols members).fragments.length = a.fragments.length + 1 := by
  rw [symbols, foldl_move, List.length_cons]

/-- An operator behind an operand finds it exactly if a fragment waits. -/
theorem unary_eq_ok_iff {operator : Char}
    {join : Fragment → List Fragment → Assembly → Assembly} :
    a.unary operator join = .ok b ↔
      ∃ inner waiting, a.fragments = inner :: waiting ∧ join inner waiting a = b := by
  unfold unary
  split <;> rename_i hfragments <;> simp [hfragments]

/-- An operator between two operands finds them exactly if two fragments
wait. -/
theorem binary_eq_ok_iff {operator : Char}
    {join : Fragment → Fragment → List Fragment → Assembly → Assembly} :
    a.binary operator join = .ok b ↔
      ∃ left right waiting, a.fragments = right :: left :: waiting ∧
        join left right waiting a = b := by
  unfold binary
  split
  · rename_i hfragments
    simp [hfragments]
  · rename_i hfew
    refine iff_of_false nofun ?_
    rintro ⟨left, right, waiting, hfragments, _⟩
    exact hfew right left waiting hfragments

/-- An operator behind an operand leaves as many fragments as there were. -/
theorem length_unary {operator : Char} {join : Fragment → List Fragment → Assembly → Assembly}
    (hread : a.unary operator join = .ok b)
    (hjoin : ∀ inner waiting, (join inner waiting a).fragments.length = waiting.length + 1) :
    b.fragments.length = a.fragments.length := by
  obtain ⟨inner, waiting, hfragments, rfl⟩ := unary_eq_ok_iff.1 hread
  rw [hjoin, hfragments, List.length_cons]

/-- An operator between two operands leaves one fragment less. -/
theorem length_binary {operator : Char}
    {join : Fragment → Fragment → List Fragment → Assembly → Assembly}
    (hread : a.binary operator join = .ok b)
    (hjoin : ∀ left right waiting,
      (join left right waiting a).fragments.length = waiting.length + 1) :
    b.fragments.length + 1 = a.fragments.length := by
  obtain ⟨left, right, waiting, hfragments, rfl⟩ := binary_eq_ok_iff.1 hread
  rw [hjoin, hfragments, List.length_cons, List.length_cons]

/-- The weight of a token is what it does to the number of fragments. -/
theorem length_read {t : Token} (hread : a.read t = .ok b) :
    (b.fragments.length : Int) = a.fragments.length + t.weight := by
  cases t with
  | literal c =>
    have hweight : (Token.literal c).weight = 1 := rfl
    have hlength := a.length_symbols [c]
    cases hread
    omega
  | oneOf members =>
    have hweight : (Token.oneOf members).weight = 1 := rfl
    have hlength := a.length_symbols members
    cases hread
    omega
  | star =>
    have hweight : Token.star.weight = 0 := rfl
    rw [read] at hread
    have hlength := length_unary hread fun _ _ => rfl
    omega
  | plus =>
    have hweight : Token.plus.weight = 0 := rfl
    rw [read] at hread
    have hlength := length_unary hread fun _ _ => rfl
    omega
  | question =>
    have hweight : Token.question.weight = 0 := rfl
    rw [read] at hread
    have hlength := length_unary hread fun _ _ => rfl
    omega
  | concat =>
    have hweight : Token.concat.weight = -1 := rfl
    rw [read] at hread
    have hlength := length_binary hread fun _ _ _ => rfl
    omega
  | alternation =>
    have hweight : Token.alternation.weight = -1 := rfl
    rw [read] at hread
    have hlength := length_binary hread fun _ _ _ => rfl
    omega
  | openGroup | closeGroup => cases hread

/-- Tokens change the number of fragments by the operands they leave over. -/
theorem length_foldlM_read {ts : List Token} (hread : ts.foldlM read a = .ok b) :
    (b.fragments.length : Int) = a.fragments.length + Token.totalWeight ts := by
  induction ts generalizing a with
  | nil =>
    cases hread
    simp [Token.totalWeight]
  | cons t ts ih =>
    obtain ⟨c, hc, hrest⟩ := exists_of_bind_eq_ok hread
    rw [ih hrest, length_read hc, Token.totalWeight, Int.add_assoc]

/-- A graph is built from tokens that leave exactly one operand. -/
theorem totalWeight_of_build {ts : List Token} {g : Graph} (hbuild : build ts = .ok g) :
    Token.totalWeight ts = 1 := by
  obtain ⟨a, ha, hgraph⟩ := exists_of_bind_eq_ok hbuild
  obtain ⟨f, hone, _⟩ := toGraph_eq_ok_iff.1 hgraph
  have hlength := length_foldlM_read ha
  rw [hone, List.length_singleton] at hlength
  simpa using hlength.symm

end Assembly

end Automata
