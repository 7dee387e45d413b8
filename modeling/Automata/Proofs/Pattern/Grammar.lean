import Automata.Proofs.Pattern.Expression

namespace Automata

/-- The phrases of the grammar, from the tightest to the loosest. -/
inductive Phrase where
  | atom
  | repetition
  | sequence
  | choice
deriving DecidableEq

/-- The grammar of patterns, with the expression that a derivation settles on.
    The joint stands between the parts of a sequence: nothing in a pattern as
    it is written, the concatenation token once that is explicit. -/
inductive Derives (joint : List Token) : Phrase → List Token → Expression → Prop where
  | literal (c : Char) : Derives joint .atom [.literal c] (.literal c)
  | oneOf (members : List Char) : Derives joint .atom [.oneOf members] (.oneOf members)
  | group {ts : List Token} {e : Expression} (opening closing : Nat)
      (hinner : Derives joint .choice ts e) :
      Derives joint .atom ([.openGroup opening] ++ ts ++ [.closeGroup closing]) e
  | ofAtom {ts : List Token} {e : Expression} (hatom : Derives joint .atom ts e) :
      Derives joint .repetition ts e
  | star {ts : List Token} {e : Expression} (hinner : Derives joint .repetition ts e) :
      Derives joint .repetition (ts ++ [.star]) e.star
  | plus {ts : List Token} {e : Expression} (hinner : Derives joint .repetition ts e) :
      Derives joint .repetition (ts ++ [.plus]) e.plus
  | question {ts : List Token} {e : Expression} (hinner : Derives joint .repetition ts e) :
      Derives joint .repetition (ts ++ [.question]) e.question
  | ofRepetition {ts : List Token} {e : Expression} (hrep : Derives joint .repetition ts e) :
      Derives joint .sequence ts e
  | concat {ts us : List Token} {left right : Expression}
      (hleft : Derives joint .sequence ts left) (hright : Derives joint .repetition us right) :
      Derives joint .sequence (ts ++ joint ++ us) (left.concat right)
  | ofSequence {ts : List Token} {e : Expression} (hseq : Derives joint .sequence ts e) :
      Derives joint .choice ts e
  | alternation {ts us : List Token} {left right : Expression}
      (hleft : Derives joint .choice ts left) (hright : Derives joint .sequence us right) :
      Derives joint .choice (ts ++ [.alternation] ++ us) (left.alternation right)

namespace Token

/-- The concatenation token, where the end of an operand meets the start of
    one. -/
def jointBetween (ts us : List Token) : List Token :=
  if ts.getLast?.any (·.endsOperand) && us.head?.any (·.startsOperand) then [.concat] else []

/-- Concatenation is made explicit in both parts of a text, and between them
where operands meet. -/
theorem insertConcat_append (ts us : List Token) :
    insertConcat (ts ++ us) = insertConcat ts ++ jointBetween ts us ++ insertConcat us := by
  induction ts with
  | nil => simp [insertConcat, jointBetween]
  | cons a rest ih =>
    cases rest with
    | nil =>
      cases us with
      | nil => simp [insertConcat, jointBetween]
      | cons b us =>
        by_cases hmeet : (a.endsOperand && b.startsOperand) = true
        · simp [insertConcat, jointBetween, hmeet]
        · simp [insertConcat, jointBetween, hmeet]
    | cons b rest =>
      have hjoint : jointBetween (a :: b :: rest) us = jointBetween (b :: rest) us := by
        simp [jointBetween, List.getLast?_cons_cons]
      simp only [List.cons_append] at ih
      simp only [List.cons_append, insertConcat, ih, hjoint]
      split <;> simp

theorem jointBetween_of_not_endsOperand {ts us : List Token} {a : Token}
    (hlast : ts.getLast? = some a) (hends : a.endsOperand = false) : jointBetween ts us = [] := by
  simp [jointBetween, hlast, hends]

theorem jointBetween_of_not_startsOperand {ts us : List Token} {b : Token}
    (hhead : us.head? = some b) (hstarts : b.startsOperand = false) : jointBetween ts us = [] := by
  simp [jointBetween, hhead, hstarts]

/-- A single token that starts no operand attaches to what comes before it. -/
theorem insertConcat_append_singleton (ts : List Token) {b : Token}
    (hstarts : b.startsOperand = false) : insertConcat (ts ++ [b]) = insertConcat ts ++ [b] := by
  rw [insertConcat_append, jointBetween_of_not_startsOperand rfl hstarts, List.append_nil]
  rfl

/-- A single token that ends no operand attaches to what comes after it. -/
theorem insertConcat_cons {a : Token} (hends : a.endsOperand = false) (us : List Token) :
    insertConcat (a :: us) = a :: insertConcat us := by
  have hsplit := insertConcat_append [a] us
  rwa [jointBetween_of_not_endsOperand rfl hends] at hsplit

end Token

namespace Derives

variable {joint : List Token} {phrase : Phrase} {ts : List Token} {e : Expression}

/-- A phrase begins with the start of an operand. -/
theorem exists_startsOperand (hderives : Derives joint phrase ts e) :
    ∃ a rest, ts = a :: rest ∧ a.startsOperand = true := by
  induction hderives with
  | literal | oneOf | group => exact ⟨_, _, rfl, rfl⟩
  | ofAtom _ ih | ofRepetition _ ih | ofSequence _ ih => exact ih
  | star _ ih | plus _ ih | question _ ih | concat _ _ ih | alternation _ _ ih =>
    obtain ⟨a, rest, rfl, hstarts⟩ := ih
    exact ⟨a, _, rfl, hstarts⟩

/-- A phrase ends with the end of an operand. -/
theorem exists_endsOperand (hderives : Derives joint phrase ts e) :
    ∃ front a, ts = front ++ [a] ∧ a.endsOperand = true := by
  induction hderives with
  | literal | oneOf => exact ⟨[], _, rfl, rfl⟩
  | group | star | plus | question => exact ⟨_, _, rfl, rfl⟩
  | ofAtom _ ih | ofRepetition _ ih | ofSequence _ ih => exact ih
  | concat _ _ _ ih | alternation _ _ _ ih =>
    obtain ⟨front, a, rfl, hends⟩ := ih
    exact ⟨_, a, (List.append_assoc _ _ _).symm, hends⟩

/-- Concatenation becomes explicit between the parts of every sequence and
    nowhere else. -/
theorem insertConcat (hderives : Derives [] phrase ts e) :
    Derives [.concat] phrase (Token.insertConcat ts) e := by
  induction hderives with
  | literal c => exact .literal c
  | oneOf members => exact .oneOf members
  | ofAtom _ ih => exact .ofAtom ih
  | ofRepetition _ ih => exact .ofRepetition ih
  | ofSequence _ ih => exact .ofSequence ih
  | group opening closing _ ih =>
    rw [Token.insertConcat_append_singleton _ rfl, List.singleton_append,
      Token.insertConcat_cons rfl]
    exact .group opening closing ih
  | star _ ih =>
    rw [Token.insertConcat_append_singleton _ rfl]
    exact .star ih
  | plus _ ih =>
    rw [Token.insertConcat_append_singleton _ rfl]
    exact .plus ih
  | question _ ih =>
    rw [Token.insertConcat_append_singleton _ rfl]
    exact .question ih
  | concat hleft hright ihleft ihright =>
    obtain ⟨front, a, rfl, hends⟩ := hleft.exists_endsOperand
    obtain ⟨b, rest, rfl, hstarts⟩ := hright.exists_startsOperand
    have hjoint : Token.jointBetween (front ++ [a]) (b :: rest) = [.concat] := by
      simp [Token.jointBetween, hends, hstarts]
    rw [List.append_nil, Token.insertConcat_append, hjoint]
    exact .concat ihleft ihright
  | alternation _ _ ihleft ihright =>
    rw [List.append_assoc, Token.insertConcat_append,
      Token.jointBetween_of_not_startsOperand rfl rfl, List.append_nil, List.singleton_append,
      Token.insertConcat_cons rfl]
    simpa using Derives.alternation ihleft ihright

end Derives

end Automata
