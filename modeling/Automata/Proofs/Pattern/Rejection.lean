import Automata.Proofs.Pattern.Meaning
import Automata.Proofs.Pattern.Parsing

namespace Automata

namespace Token

/-- The tokens without the concatenation that was made explicit. -/
def raw (ts : List Token) : List Token :=
  ts.filter (· ≠ .concat)

theorem raw_cons_congr (t : Token) {ts us : List Token} (hsame : raw ts = raw us) :
    raw (t :: ts) = raw (t :: us) := by
  simp only [raw, List.filter_cons] at *
  rw [hsame]

/-- Making concatenation explicit adds nothing but concatenation. -/
theorem raw_insertConcat (ts : List Token) : raw (insertConcat ts) = raw ts := by
  fun_induction insertConcat ts with
  | case1 a b rest _ ih => exact raw_cons_congr a ih
  | case2 a b rest _ ih => exact raw_cons_congr a ih
  | case3 => rfl

/-- Tokens that were read from a pattern have no concatenation to drop. -/
theorem raw_eq_self {ts : List Token} (hconcat : .concat ∉ ts) : raw ts = ts :=
  List.filter_eq_self.2 fun _ ht => decide_eq_true fun heq => hconcat (heq ▸ ht)

/-- Concatenation plays no part in which groups are closed. -/
theorem closes_raw_iff {depth : Nat} {ts : List Token} : Closes depth (raw ts) ↔ Closes depth ts := by
  induction ts generalizing depth with
  | nil => rfl
  | cons t ts ih =>
    cases t with
    | concat => exact ih.trans (closes_cons_iff rfl).symm
    | openGroup position => exact closes_openGroup_iff.trans (ih.trans closes_openGroup_iff.symm)
    | closeGroup position =>
      rw [closes_closeGroup_iff]
      exact closes_closeGroup_iff.trans (exists_congr fun outer => and_congr_right fun _ => ih)
    | _ => exact (closes_cons_iff rfl).trans (ih.trans (closes_cons_iff rfl).symm)

end Token

namespace Pattern

/-- No pattern spells out the concatenation token. -/
theorem Spells.concat_notMem {position : Nat} {cs : List Char} {ts : List Token}
    (hspells : Spells position cs ts) : .concat ∉ ts := by
  induction hspells with
  | nil => exact List.not_mem_nil
  | escaped _ ih | oneOf _ _ ih => simpa using ih
  | plain hplain _ ih => cases hplain <;> simpa using ih

/-- No pattern spells a concatenation. -/
theorem Lexes.concat_notMem {pattern : List Char} {ts : List Token} (hlexes : Lexes pattern ts) :
    .concat ∉ ts := by
  cases hlexes with
  | anchored _ hspells | plain _ _ hspells => exact hspells.concat_notMem

variable {pattern : List Char} {ts : List Token} {g : Graph}

/-- Behind an automaton for a pattern stand tokens without gaps whose groups
    all close. -/
theorem exists_lexes_of_compile_eq_ok (hcompile : compile pattern = .ok g) :
    ∃ ts, Lexes pattern ts ∧ Token.gaps true ts = 0 ∧ Token.Closes 0 ts := by
  obtain ⟨all, htokens, hrest⟩ := exists_of_bind_eq_ok hcompile
  obtain ⟨out, horder, hbuild⟩ := exists_of_bind_eq_ok hrest
  obtain ⟨ts, hlexemes, rfl⟩ := exists_of_map_eq_ok htokens
  have hlexes := lexemes_eq_ok_iff.1 hlexemes
  have hweight : Token.totalWeight (Token.insertConcat ts) = 1 := by
    have hperm := Token.perm_of_toPostfixFrom horder
    rw [← Token.totalWeight_filter_isParenthesis, ← Assembly.totalWeight_of_build hbuild]
    exact (Token.totalWeight_perm hperm).symm
  rw [Token.totalWeight_insertConcat] at hweight
  have hcloses := Token.closes_of_toPostfixFrom horder
  rw [← Token.closes_raw_iff, Token.raw_insertConcat, Token.closes_raw_iff] at hcloses
  exact ⟨ts, hlexes, by omega, hcloses⟩

/-- Nothing outside the grammar compiles: the tokens of a pattern that does
    derive an expression, of which the automaton then has the language, and a
    missing operand or an unbalanced parenthesis anywhere is an error. So no
    operator takes an operand from outside its group. -/
theorem compile_rejects_outside_grammar (pattern : List Char) :
    (∀ g, compile pattern = .ok g → ∃ all e, tokens pattern = .ok all ∧
      Derives [] .choice (Token.raw all) e ∧ (Automaton.epsilonNfa g).Recognizes e.language) ∧
    (∀ all, tokens pattern = .ok all →
      Token.MissingOperand (Token.raw all) ∨ ¬ Token.Closes 0 (Token.raw all) →
      ∃ cause, compile pattern = .error cause) := by
  constructor
  · intro g hcompile
    obtain ⟨ts, hlexes, hgaps, hcloses⟩ := exists_lexes_of_compile_eq_ok hcompile
    obtain ⟨e, hderives⟩ := exists_derives hlexes.concat_notMem hgaps hcloses
    obtain ⟨g', hbuild, hrecognizes⟩ := Assembly.exists_build_evaluation e
    rw [compile_eq_build hlexes hderives, hbuild] at hcompile
    obtain rfl : g' = g := Except.ok.inj hcompile
    refine ⟨_, e, tokens_eq_of_lexes hlexes, ?_, hrecognizes⟩
    rwa [Token.raw_insertConcat, Token.raw_eq_self hlexes.concat_notMem]
  · intro all htokens hwrong
    cases hcompile : compile pattern with
    | error cause => exact ⟨cause, rfl⟩
    | ok g =>
      obtain ⟨ts, hlexes, hgaps, hcloses⟩ := exists_lexes_of_compile_eq_ok hcompile
      obtain rfl : all = Token.insertConcat ts :=
        Except.ok.inj (htokens.symm.trans (tokens_eq_of_lexes hlexes))
      rw [Token.raw_insertConcat, Token.raw_eq_self hlexes.concat_notMem] at hwrong
      obtain hmissing | hopen := hwrong
      · exact absurd hmissing.gaps_pos (by omega)
      · exact absurd hcloses hopen

/-- An operator at the start of a group does not take the operand in front of
    the group, while a group with an operand of its own is accepted. -/
theorem compile_rejects_borrowed_operand :
    (∃ g all e, compile "a(b)".toList = .ok g ∧ tokens "a(b)".toList = .ok all ∧
      Derives [] .choice (Token.raw all) e ∧ (Automaton.epsilonNfa g).Recognizes e.language) ∧
    ∃ cause, compile "a(*b)".toList = .error cause := by
  constructor
  · have hlexes : Lexes "a(b)".toList
        [.literal 'a', .openGroup 1, .literal 'b', .closeGroup 3] :=
      .plain (by decide) (.of_getLast?_ne (by decide))
        (.plain (.literal (by decide)) (.plain .openGroup (.plain (.literal (by decide))
          (.plain .closeGroup (.nil 4)))))
    have hderives : Derives [] .choice [.literal 'a', .openGroup 1, .literal 'b', .closeGroup 3]
        ((Expression.literal 'a').concat (.literal 'b')) :=
      .ofSequence (.concat (.ofRepetition (.ofAtom (.literal 'a')))
        (.ofAtom (.group 1 3 (.ofSequence (.ofRepetition (.ofAtom (.literal 'b')))))))
    obtain ⟨g, hbuild, _⟩ := Assembly.exists_build_evaluation
      ((Expression.literal 'a').concat (.literal 'b'))
    have hcompile := (compile_eq_build hlexes hderives).trans hbuild
    obtain ⟨all, e, hall⟩ := (compile_rejects_outside_grammar "a(b)".toList).1 g hcompile
    exact ⟨g, all, e, hcompile, hall⟩
  · have hlexes : Lexes "a(*b)".toList
        [.literal 'a', .openGroup 1, .star, .literal 'b', .closeGroup 4] :=
      .plain (by decide) (.of_getLast?_ne (by decide))
        (.plain (.literal (by decide)) (.plain .openGroup (.plain .star
          (.plain (.literal (by decide)) (.plain .closeGroup (.nil 5))))))
    have hmissing : Token.MissingOperand
        [.literal 'a', .openGroup 1, .star, .literal 'b', .closeGroup 4] :=
      ⟨[.literal 'a', .openGroup 1], [.star, .literal 'b', .closeGroup 4], rfl, by decide,
        by decide⟩
    exact (compile_rejects_outside_grammar "a(*b)".toList).2 _ (tokens_eq_of_lexes hlexes)
      (.inl hmissing)

end Pattern

end Automata
