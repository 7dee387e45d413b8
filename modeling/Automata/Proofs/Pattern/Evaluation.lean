import Automata.Pattern.Postfix
import Automata.Proofs.Pattern.Grammar

namespace Automata

/-- The binary operators that can still wait after a phrase has been read. -/
def Phrase.operators : Phrase → List Token
  | atom | repetition => []
  | sequence => [.concat]
  | choice => [.concat, .alternation]

/-- The operator that waits on top leaves all operators of the phrase to the
    phrase. -/
def Phrase.Admits (phrase : Phrase) (waiting : List Token) : Prop :=
  ∀ t ∈ waiting.head?, ∀ op ∈ phrase.operators, t.appliesBefore op = false

namespace Phrase

/-- What leaves all operators of a phrase alone leaves fewer operators alone. -/
theorem Admits.mono {inner outer : Phrase} (hsub : inner.operators ⊆ outer.operators)
    {waiting : List Token} (hadmits : outer.Admits waiting) : inner.Admits waiting := by
  intro t ht op hop
  exact hadmits t ht op (hsub hop)

/-- An open group shields what waits below it. -/
theorem admits_openGroup (phrase : Phrase) (position : Nat) (waiting : List Token) :
    phrase.Admits (.openGroup position :: waiting) := by
  intro t ht op _
  obtain rfl : .openGroup position = t := Option.some.inj ht
  rfl

/-- A bar leaves the operators of a sequence to it. -/
theorem sequence_admits_alternation (waiting : List Token) :
    sequence.Admits (.alternation :: waiting) := by
  intro t ht op hop
  obtain rfl : .alternation = t := Option.some.inj ht
  rw [List.mem_singleton.1 hop]
  rfl

theorem repetition_admits (waiting : List Token) : repetition.Admits waiting :=
  fun _ _ _ hop => absurd hop List.not_mem_nil

theorem operators_subset_choice (phrase : Phrase) : phrase.operators ⊆ choice.operators := by
  cases phrase <;> decide

/-- No operator opens a group. -/
theorem not_isOpen_of_mem_operators {phrase : Phrase} {t : Token}
    (ht : t ∈ phrase.operators) : t.isOpen = false := by
  have hall : ∀ t ∈ choice.operators, t.isOpen = false := by decide
  exact hall t (operators_subset_choice phrase ht)

end Phrase

namespace Token

variable {waiting ops : List Token}

/-- What is already in order stays in front of what follows. -/
theorem map_append_map_append (result : Except PatternError (List Token)) (us vs : List Token) :
    (result.map (vs ++ ·)).map (us ++ ·) = result.map (us ++ vs ++ ·) := by
  cases result with
  | error => rfl
  | ok ts => simp [Except.map]

/-- A closing parenthesis applies what waits since its group was opened. -/
theorem toPostfixFrom_closeGroup (opening closing : Nat) (rest : List Token)
    (hops : ∀ t ∈ ops, t.isOpen = false) :
    toPostfixFrom (ops ++ .openGroup opening :: waiting) (.closeGroup closing :: rest) =
      (toPostfixFrom waiting rest).map (ops ++ ·) := by
  have hall : ∀ t ∈ ops, (!t.isOpen) = true := by simpa using hops
  have hopen : (!(openGroup opening).isOpen) = false := rfl
  rw [toPostfixFrom, List.dropWhile_append_of_pos hall, List.takeWhile_append_of_pos hall]
  simp [hopen]

/-- A binary operator applies what binds at least as tightly and waits. -/
theorem toPostfixFrom_binary {phrase : Phrase} {op : Token} (hop : op ∈ phrase.operators)
    (hops : ∀ t ∈ ops, t.appliesBefore op = true)
    (hwaiting : ∀ t ∈ waiting.head?, t.appliesBefore op = false) (rest : List Token) :
    toPostfixFrom (ops ++ waiting) (op :: rest) =
      (toPostfixFrom (op :: waiting) rest).map (ops ++ ·) := by
  have hdrop : (ops ++ waiting).dropWhile (·.appliesBefore op) = waiting := by
    rw [List.dropWhile_append_of_pos hops]
    cases waiting with
    | nil => rfl
    | cons t _ => simp [hwaiting t rfl]
  have htake : (ops ++ waiting).takeWhile (·.appliesBefore op) = ops := by
    rw [List.takeWhile_append_of_pos hops]
    cases waiting with
    | nil => simp
    | cons t _ => simp [hwaiting t rfl]
  have hbinary := Phrase.operators_subset_choice phrase hop
  simp only [Phrase.operators, List.mem_cons, List.not_mem_nil, or_false] at hbinary
  obtain rfl | rfl := hbinary <;> rw [toPostfixFrom, hdrop, htake]

/-- Reading the tokens of a phrase puts a part of an evaluation order out and
    leaves the rest to wait, above whatever waited before. -/
def Settles (phrase : Phrase) (ts order : List Token) : Prop :=
  ∀ waiting rest, phrase.Admits waiting →
    ∃ out ops, out ++ ops = order ∧ (∀ t ∈ ops, t ∈ phrase.operators) ∧
      toPostfixFrom waiting (ts ++ rest) = (toPostfixFrom (ops ++ waiting) rest).map (out ++ ·)

namespace Settles

variable {inner outer : Phrase} {ts us left right : List Token}

/-- What settles for a narrow phrase settles for a wider one. -/
theorem mono (hsub : inner.operators ⊆ outer.operators) (hsettles : Settles inner ts left) :
    Settles outer ts left := by
  intro waiting rest hadmits
  obtain ⟨out, ops, horder, hops, heq⟩ := hsettles waiting rest (hadmits.mono hsub)
  exact ⟨out, ops, horder, fun t ht => hsub (hops t ht), heq⟩

/-- A group settles as a whole, whatever waits around it. -/
theorem group (opening closing : Nat) (hsettles : Settles .choice ts left) :
    Settles .atom ([.openGroup opening] ++ ts ++ [.closeGroup closing]) left := by
  intro waiting rest _
  obtain ⟨out, ops, horder, hops, heq⟩ := hsettles (.openGroup opening :: waiting)
    (.closeGroup closing :: rest) (Phrase.admits_openGroup .choice opening waiting)
  refine ⟨out ++ ops, [], by rw [List.append_nil, horder], nofun, ?_⟩
  rw [toPostfixFrom_closeGroup opening closing rest
    fun t ht => Phrase.not_isOpen_of_mem_operators (hops t ht), map_append_map_append] at heq
  simpa [toPostfixFrom] using heq

/-- An operator behind its operand is put out at once. -/
theorem unary {op : Token} (hop : ∀ waiting rest,
      toPostfixFrom waiting (op :: rest) = (toPostfixFrom waiting rest).map (op :: ·))
    (hsettles : Settles .repetition ts left) :
    Settles .repetition (ts ++ [op]) (left ++ [op]) := by
  intro waiting rest hadmits
  obtain ⟨out, ops, horder, hops, heq⟩ := hsettles waiting (op :: rest) hadmits
  obtain rfl : ops = [] := List.eq_nil_iff_forall_not_mem.2 fun t ht =>
    absurd (hops t ht) List.not_mem_nil
  have hput := map_append_map_append (toPostfixFrom waiting rest) out [op]
  refine ⟨out ++ [op], [], by simpa using horder, nofun, ?_⟩
  rw [List.append_assoc, List.singleton_append, heq, List.nil_append, hop]
  exact hput

/-- An operator between its operands applies what waits since the left one and
    waits itself below what the right one leaves. -/
theorem binary {op : Token} (hop : op ∈ outer.operators)
    (hsub : inner.operators ⊆ outer.operators)
    (hgroups : ∀ t ∈ outer.operators, t.appliesBefore op = true)
    (hbinds : ∀ waiting, inner.Admits (op :: waiting)) (hleft : Settles outer ts left)
    (hright : Settles inner us right) :
    Settles outer (ts ++ [op] ++ us) (left ++ right ++ [op]) := by
  intro waiting rest hadmits
  obtain ⟨outl, opsl, horderl, hopsl, heql⟩ := hleft waiting (op :: (us ++ rest)) hadmits
  obtain ⟨outr, opsr, horderr, hopsr, heqr⟩ := hright (op :: waiting) rest (hbinds waiting)
  have happly := toPostfixFrom_binary hop (fun t ht => hgroups t (hopsl t ht))
    (fun t ht => hadmits t ht op hop) (us ++ rest)
  refine ⟨left ++ outr, opsr ++ [op], ?_, ?_, ?_⟩
  · rw [List.append_assoc, List.append_assoc, ← horderr, List.append_assoc]
  · intro t ht
    obtain ht | ht := List.mem_append.1 ht
    · exact hsub (hopsr t ht)
    · rw [List.mem_singleton.1 ht]
      exact hop
  · rw [happly, heqr, map_append_map_append, map_append_map_append, horderl] at heql
    simpa using heql

end Settles

end Token

/-- Reading a phrase puts part of its evaluation order out and leaves the rest
    to wait, above whatever waited before. -/
theorem Derives.settles {phrase : Phrase} {ts : List Token} {e : Expression}
    (hderives : Derives [.concat] phrase ts e) : Token.Settles phrase ts e.evaluation := by
  induction hderives with
  | literal c => exact fun _ _ _ => ⟨[.literal c], [], rfl, nofun, rfl⟩
  | oneOf members => exact fun _ _ _ => ⟨[.oneOf members], [], rfl, nofun, rfl⟩
  | group opening closing _ ih => exact ih.group opening closing
  | ofAtom _ ih => exact ih.mono (List.nil_subset _)
  | ofRepetition _ ih => exact ih.mono (List.nil_subset _)
  | ofSequence _ ih => exact ih.mono (by decide)
  | star _ ih => exact ih.unary fun _ _ => rfl
  | plus _ ih => exact ih.unary fun _ _ => rfl
  | question _ ih => exact ih.unary fun _ _ => rfl
  | concat _ _ ihleft ihright =>
    exact ihleft.binary (by decide) (List.nil_subset _) (by decide)
      (fun _ => Phrase.repetition_admits _) ihright
  | alternation _ _ ihleft ihright =>
    exact ihleft.binary (by decide) (by decide) (by decide) Phrase.sequence_admits_alternation
      ihright

/-- The evaluation order of a pattern with explicit concatenation is that of
    the expression it derives. -/
theorem Derives.toPostfix {ts : List Token} {e : Expression}
    (hderives : Derives [.concat] .choice ts e) : Token.toPostfix ts = .ok e.evaluation := by
  have hadmits : Phrase.choice.Admits [] := nofun
  obtain ⟨out, ops, horder, hops, heq⟩ := hderives.settles [] [] hadmits
  have hend : Token.toPostfixFrom ops [] = .ok ops := by
    have hopen : ops.findSome? (fun t => if t.isOpen then t.position? else none) = none := by
      rw [List.findSome?_eq_none_iff]
      intro t ht
      rw [Phrase.not_isOpen_of_mem_operators (hops t ht)]
      rfl
    rw [Token.toPostfixFrom, Token.applyWaiting, hopen]
  rw [List.append_nil, List.append_nil, hend] at heq
  rw [Token.toPostfix, heq, Except.map, horder]

end Automata
