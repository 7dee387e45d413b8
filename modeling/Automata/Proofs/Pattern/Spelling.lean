import Automata.Proofs.Pattern.Class

namespace Automata

namespace Pattern

/-- A character that stands by itself: an operator, a parenthesis, or anything
    without a meaning of its own as a literal. -/
inductive SpellsPlain (position : Nat) : Char → Token → Prop where
  | star : SpellsPlain position '*' .star
  | plus : SpellsPlain position '+' .plus
  | question : SpellsPlain position '?' .question
  | alternation : SpellsPlain position '|' .alternation
  | openGroup : SpellsPlain position '(' (.openGroup position)
  | closeGroup : SpellsPlain position ')' (.closeGroup position)
  | literal {c : Char} (hplain : c ∉ ['\\', '[', '*', '+', '?', '|', '(', ')']) :
      SpellsPlain position c (.literal c)

/-- The tokens that a text spells out from a position on. -/
inductive Spells : Nat → List Char → List Token → Prop where
  | nil (position : Nat) : Spells position [] []
  | escaped {position : Nat} {c : Char} {rest : List Char} {ts : List Token}
      (hrest : Spells (position + 2) rest ts) :
      Spells position ('\\' :: c :: rest) (.literal c :: ts)
  | oneOf {position : Nat} {text members rest : List Char} {ts : List Token}
      (hclass : SpellsClass text members) (hrest : Spells (position + 1 + text.length) rest ts) :
      Spells position ('[' :: (text ++ rest)) (.oneOf members :: ts)
  | plain {position : Nat} {c : Char} {t : Token} {rest : List Char} {ts : List Token}
      (hplain : SpellsPlain position c t) (hrest : Spells (position + 1) rest ts) :
      Spells position (c :: rest) (t :: ts)

/-- A character that begins neither an escape nor a class stands for its plain
token. -/
theorem spellsPlain_iff {position : Nat} {c : Char} {t : Token} :
    SpellsPlain position c t ↔ c ≠ '\\' ∧ c ≠ '[' ∧ plainToken position c = t := by
  constructor
  · intro hplain
    cases hplain with
    | literal hplain =>
      simp only [List.mem_cons, not_or] at hplain
      unfold plainToken
      split <;> simp_all
    | _ => exact ⟨by decide, by decide, rfl⟩
  · rintro ⟨hescape, hclass, rfl⟩
    unfold plainToken
    split
    · exact .star
    · exact .plus
    · exact .question
    · exact .alternation
    · exact .openGroup
    · exact .closeGroup
    · exact .literal (by simp_all)

/-- A backslash makes a literal of the next character, which takes two
positions. -/
theorem lexFrom_escaped (position : Nat) (c : Char) (rest : List Char) :
    lexFrom position ('\\' :: c :: rest) =
      (lexFrom (position + 2) rest).map (.literal c :: ·) := by
  rw [lexFrom]

/-- A class that is spelled is read as a whole. -/
theorem lexFrom_oneOf (position : Nat) {text members : List Char}
    (hclass : SpellsClass text members) (rest : List Char) :
    lexFrom position ('[' :: (text ++ rest)) =
      (lexFrom (position + 1 + text.length) rest).map (.oneOf members :: ·) := by
  have hread : readClass position (text ++ rest) = .ok (members, rest) :=
    readClass_eq_ok_iff.2 ⟨text, hclass, rfl⟩
  rw [lexFrom]
  split
  · rename_i hok
    rw [hread] at hok
    cases hok
  · rename_i hok
    rw [hread] at hok
    cases hok
    rw [List.length_append, Nat.add_sub_cancel]

/-- Any other character is read by itself. -/
theorem lexFrom_plain {position : Nat} {c : Char} {t : Token} (hplain : SpellsPlain position c t)
    (rest : List Char) :
    lexFrom position (c :: rest) = (lexFrom (position + 1) rest).map (t :: ·) := by
  obtain ⟨hescape, hclass, rfl⟩ := spellsPlain_iff.1 hplain
  rw [lexFrom]
  · rintro rfl
    exact absurd rfl hescape
  · rintro d tail rfl
    exact absurd rfl hescape
  · rintro rfl
    exact absurd rfl hclass

/-- The tokens that are read are exactly those that are spelled out. -/
theorem lexFrom_eq_ok_iff {position : Nat} {cs : List Char} {ts : List Token} :
    lexFrom position cs = .ok ts ↔ Spells position cs ts := by
  constructor
  · intro hlex
    fun_induction lexFrom position cs generalizing ts with
    | case1 position =>
      cases hlex
      exact .nil position
    | case2 => cases hlex
    | case3 position c rest ih =>
      obtain ⟨us, hus, rfl⟩ := exists_of_map_eq_ok hlex
      exact .escaped (ih hus)
    | case4 => cases hlex
    | case5 position rest members after hread ih =>
      obtain ⟨text, hclass, rfl⟩ := readClass_eq_ok_iff.1 hread
      obtain ⟨us, hus, rfl⟩ := exists_of_map_eq_ok hlex
      rw [List.length_append, Nat.add_sub_cancel] at ih hus
      exact .oneOf hclass (ih hus)
    | case6 position c rest hescape hescaped hclass ih =>
      obtain ⟨us, hus, rfl⟩ := exists_of_map_eq_ok hlex
      refine .plain (spellsPlain_iff.2 ⟨?_, hclass, rfl⟩) (ih hus)
      rintro rfl
      cases rest with
      | nil => exact hescape rfl rfl
      | cons d tail => exact hescaped d tail rfl rfl
  · intro hspells
    induction hspells with
    | nil => rw [lexFrom]
    | escaped _ ih =>
      rw [lexFrom_escaped, ih]
      rfl
    | oneOf hclass _ ih =>
      rw [lexFrom_oneOf _ hclass, ih]
      rfl
    | plain hplain _ ih =>
      rw [lexFrom_plain hplain, ih]
      rfl

end Pattern

end Automata
