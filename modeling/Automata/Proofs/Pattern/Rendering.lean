import Automata.Proofs.Pattern.Evaluation

namespace Automata

namespace Expression

/-- Tokens that write an expression in a place where operators that bind less
tightly than a certain strength need parentheses. The strength of a bar is 0, of
a concatenation 1, and of an operator behind its operand 2. On its left an
operator takes operands of its own strength, on its right only stronger ones. In
any place any number of parentheses may stand around an expression. -/
inductive Renders : Nat → Expression → List Token → Prop where
  | literal (least : Nat) (c : Char) : Renders least (.literal c) [.literal c]
  | oneOf (least : Nat) (members : List Char) : Renders least (.oneOf members) [.oneOf members]
  | alternation {left right : Expression} {ts us : List Token} (hleft : Renders 0 left ts)
    (hright : Renders 1 right us) :
    Renders 0 (left.alternation right) (ts ++ [.alternation] ++ us)
  | concat {least : Nat} {left right : Expression} {ts us : List Token} (hleast : least ≤ 1)
    (hleft : Renders 1 left ts) (hright : Renders 2 right us) :
    Renders least (left.concat right) (ts ++ [.concat] ++ us)
  | star {least : Nat} {inner : Expression} {ts : List Token} (hleast : least ≤ 2)
    (hinner : Renders 2 inner ts) : Renders least inner.star (ts ++ [.star])
  | plus {least : Nat} {inner : Expression} {ts : List Token} (hleast : least ≤ 2)
    (hinner : Renders 2 inner ts) : Renders least inner.plus (ts ++ [.plus])
  | question {least : Nat} {inner : Expression} {ts : List Token} (hleast : least ≤ 2)
    (hinner : Renders 2 inner ts) : Renders least inner.question (ts ++ [.question])
  | group (least opening closing : Nat) {e : Expression} {ts : List Token}
    (hinner : Renders 0 e ts) :
    Renders least e ([.openGroup opening] ++ ts ++ [.closeGroup closing])

/-- Takes tokens in the order of evaluation apart, given the expressions at hand,
the latest first. -/
def regroup : List Expression → List Token → Option (List Expression)
  | es, [] => some es
  | es, .literal c :: ts => regroup (.literal c :: es) ts
  | es, .oneOf members :: ts => regroup (.oneOf members :: es) ts
  | right :: left :: es, .concat :: ts => regroup (left.concat right :: es) ts
  | right :: left :: es, .alternation :: ts => regroup (left.alternation right :: es) ts
  | e :: es, .star :: ts => regroup (e.star :: es) ts
  | e :: es, .plus :: ts => regroup (e.plus :: es) ts
  | e :: es, .question :: ts => regroup (e.question :: es) ts
  | _, _ => none

/-- Reading the tokens of an expression puts it on top of the expressions at
hand. -/
theorem regroup_evaluation (e : Expression) (es : List Expression) (ts : List Token) :
    regroup es (e.evaluation ++ ts) = regroup (e :: es) ts := by
  induction e generalizing es ts with
  | literal | oneOf => rfl
  | concat left right ihleft ihright | alternation left right ihleft ihright =>
    rw [evaluation, List.append_assoc, List.append_assoc, ihleft, ihright]
    rfl
  | star inner ih | plus inner ih | question inner ih =>
    rw [evaluation, List.append_assoc, ih]
    rfl

/-- No two expressions have the same order of evaluation. -/
theorem evaluation_injective : Function.Injective evaluation := by
  intro e f hsame
  have he := regroup_evaluation e [] []
  have hf := regroup_evaluation f [] []
  rw [hsame, hf] at he
  exact (List.cons.inj (Option.some.inj he)).1.symm

end Expression

/-- The loosest phrase of the grammar that a strength allows. -/
def Phrase.fitting : Nat → Phrase
  | 0 => .choice
  | 1 => .sequence
  | 2 => .repetition
  | _ => .atom

/-- What one strength allows, every lower one allows. -/
theorem Derives.loosen {joint ts : List Token} {e : Expression} {least most : Nat}
    (hle : least ≤ most) (hderives : Derives joint (.fitting most) ts e) :
    Derives joint (.fitting least) ts e := by
  induction most, hle using Nat.le_induction with
  | base => exact hderives
  | succ most _ ih =>
    apply ih
    match most with
    | 0 => exact .ofSequence hderives
    | 1 => exact .ofRepetition hderives
    | 2 => exact .ofAtom hderives
    | _ + 3 => exact hderives

/-- An expression derives from the grammar however it is written. -/
theorem Expression.Renders.derives {least : Nat} {e : Expression} {ts : List Token}
    (hrenders : e.Renders least ts) : Derives [.concat] (.fitting least) ts e := by
  have hatom {least : Nat} {e : Expression} {ts : List Token}
      (h : Derives [.concat] .atom ts e) : Derives [.concat] (.fitting least) ts e :=
    Derives.loosen (Nat.le_add_right least 3) h
  have hrepetition {least : Nat} {e : Expression} {ts : List Token} (hleast : least ≤ 2)
      (h : Derives [.concat] .repetition ts e) : Derives [.concat] (.fitting least) ts e :=
    Derives.loosen hleast h
  have hsequence {least : Nat} {e : Expression} {ts : List Token} (hleast : least ≤ 1)
      (h : Derives [.concat] .sequence ts e) : Derives [.concat] (.fitting least) ts e :=
    Derives.loosen hleast h
  induction hrenders with
  | literal least c => exact hatom (.literal c)
  | oneOf least members => exact hatom (.oneOf members)
  | alternation _ _ ihleft ihright => exact .alternation ihleft ihright
  | concat hleast _ _ ihleft ihright => exact hsequence hleast (.concat ihleft ihright)
  | star hleast _ ih => exact hrepetition hleast (.star ih)
  | plus hleast _ ih => exact hrepetition hleast (.plus ih)
  | question hleast _ ih => exact hrepetition hleast (.question ih)
  | group least opening closing _ ih => exact hatom (.group opening closing ih)

/-- However an expression is written, bringing its tokens into order yields its
order of evaluation. That belongs to no other expression, so the tree is
recovered. Three operands in a row group to the left, with bars between them as
with concatenations. -/
theorem Token.toPostfix_recovers_expression :
    (∀ (e : Expression) (ts : List Token), e.Renders 0 ts →
      toPostfix ts = .ok e.evaluation ∧ ∀ f : Expression, f.evaluation = e.evaluation → f = e) ∧
    (∀ (x y z : Expression) (ts us vs : List Token), x.Renders 0 ts → y.Renders 1 us →
      z.Renders 1 vs → toPostfix (ts ++ [.alternation] ++ us ++ [.alternation] ++ vs) =
        .ok ((x.alternation y).alternation z).evaluation) ∧
    ∀ (x y z : Expression) (ts us vs : List Token), x.Renders 1 ts → y.Renders 2 us →
      z.Renders 2 vs → toPostfix (ts ++ [.concat] ++ us ++ [.concat] ++ vs) =
        .ok ((x.concat y).concat z).evaluation := by
  refine ⟨fun e ts hrenders => ?_, fun x y z ts us vs hx hy hz => ?_,
    fun x y z ts us vs hx hy hz => ?_⟩
  · exact ⟨hrenders.derives.toPostfix, fun f hsame => Expression.evaluation_injective hsame⟩
  · exact (Expression.Renders.alternation (.alternation hx hy) hz).derives.toPostfix
  · have hleft : (x.concat y).Renders 1 (ts ++ [.concat] ++ us) := .concat le_rfl hx hy
    have hboth : ((x.concat y).concat z).Renders 0 (ts ++ [.concat] ++ us ++ [.concat] ++ vs) :=
      .concat (Nat.zero_le 1) hleft hz
    exact hboth.derives.toPostfix

/-- A choice in double parentheses, of which one pair is needed, in front of a
repeated class, and three operands in a row with either operator between them. -/
theorem Token.toPostfix_recovers_expression_of_nested :
    let e : Expression :=
      ((Expression.literal 'a').alternation (.literal 'b')).concat (.star (.oneOf ['c', 'd']))
    let ts : List Token := [.openGroup 0, .openGroup 1, .literal 'a', .alternation, .literal 'b',
      .closeGroup 5, .closeGroup 6, .concat, .oneOf ['c', 'd'], .star]
    e.Renders 0 ts ∧ toPostfix ts = .ok e.evaluation ∧
      (∀ f : Expression, f.evaluation = e.evaluation → f = e) ∧
      toPostfix [.literal 'a', .alternation, .literal 'b', .alternation, .literal 'c'] =
        .ok (((Expression.literal 'a').alternation (.literal 'b')).alternation
          (.literal 'c')).evaluation ∧
      toPostfix [.literal 'a', .concat, .literal 'b', .concat, .literal 'c'] =
        .ok (((Expression.literal 'a').concat (.literal 'b')).concat
          (.literal 'c')).evaluation := by
  intro e ts
  have hchoice : ((Expression.literal 'a').alternation (.literal 'b')).Renders 0
      [.literal 'a', .alternation, .literal 'b'] := .alternation (.literal 0 'a') (.literal 1 'b')
  have hgroup := Expression.Renders.group 1 0 6 (.group 0 1 5 hchoice)
  have hrenders : e.Renders 0 ts := .concat (Nat.zero_le 1) hgroup (.star le_rfl (.oneOf 2 _))
  obtain ⟨hrecovers, hbars, hjoined⟩ := toPostfix_recovers_expression
  exact ⟨hrenders, (hrecovers e ts hrenders).1, (hrecovers e ts hrenders).2,
    hbars _ _ _ _ _ _ (.literal 0 'a') (.literal 1 'b') (.literal 1 'c'),
    hjoined _ _ _ _ _ _ (.literal 1 'a') (.literal 2 'b') (.literal 2 'c')⟩

end Automata
