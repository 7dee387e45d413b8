import Automata.Proofs.Pattern.Anchors
import Mathlib.Data.List.Induction

namespace Automata

namespace Pattern

variable {position : Nat} {cs front body text members : List Char} {ts : List Token} {c : Char}

theorem not_endsEscaping_nil : ¬ EndsEscaping [] := by
  rw [endsEscaping_iff]
  decide

/-- A backslash is an escape unless it is escaped itself. -/
theorem endsEscaping_concat_iff (cs : List Char) (c : Char) :
    EndsEscaping (cs ++ [c]) ↔ c = '\\' ∧ ¬ EndsEscaping cs := by
  rw [endsEscaping_iff, endsEscaping_iff, List.reverse_append, List.reverse_singleton,
    List.singleton_append]
  by_cases hescape : c = '\\'
  · rw [List.takeWhile_cons_of_pos (by simpa using hescape), List.length_cons,
      and_iff_right hescape]
    omega
  · rw [List.takeWhile_cons_of_neg (by simpa using hescape)]
    simp [hescape]

/-- What comes before the last complete token has no say in whether the text ends
in an escape. -/
theorem endsEscaping_append_iff (hfront : ¬ EndsEscaping front) :
    EndsEscaping (front ++ cs) ↔ EndsEscaping cs := by
  induction cs using List.reverseRecOn with
  | nil =>
    rw [List.append_nil]
    exact iff_of_false hfront not_endsEscaping_nil
  | append_singleton cs c ih =>
    rw [← List.append_assoc, endsEscaping_concat_iff, endsEscaping_concat_iff, ih]

/-- A character other than a backslash escapes nothing behind it. -/
theorem not_endsEscaping_singleton (hescape : c ≠ '\\') : ¬ EndsEscaping [c] := by
  intro hescapes
  exact hescape ((endsEscaping_concat_iff [] c).1 hescapes).1

theorem endsEscaping_backslash : EndsEscaping ['\\'] :=
  (endsEscaping_concat_iff [] '\\').2 ⟨rfl, not_endsEscaping_nil⟩

/-- An escape is over with the character that it takes. -/
theorem not_endsEscaping_escape (c : Char) : ¬ EndsEscaping ['\\', c] := by
  intro hescapes
  exact ((endsEscaping_concat_iff ['\\'] c).1 hescapes).2 endsEscaping_backslash

/-- A class ends with its bracket. -/
theorem SpellsClass.exists_getLast (hclass : SpellsClass text members) :
    ∃ front, text = front ++ [']'] := by
  obtain ⟨hitems, _, _, _, _⟩ := hclass
  exact hitems.exists_getLast

/-- So no class ends in an escape. -/
theorem SpellsClass.not_endsEscaping (hclass : SpellsClass text members) :
    ¬ EndsEscaping ('[' :: text) := by
  obtain ⟨front, rfl⟩ := hclass.exists_getLast
  intro hescapes
  exact absurd ((endsEscaping_concat_iff ('[' :: front) ']').1 hescapes).1 (by decide)

theorem SpellsPlain.ne_backslash {t : Token} (hplain : SpellsPlain position c t) : c ≠ '\\' :=
  (spellsPlain_iff.1 hplain).1

/-- A text that was read to its end does not end in an escape. -/
theorem Spells.not_endsEscaping (hspells : Spells position cs ts) : ¬ EndsEscaping cs := by
  induction hspells with
  | nil => exact not_endsEscaping_nil
  | @escaped _ c rest _ _ ih =>
    exact mt (endsEscaping_append_iff (not_endsEscaping_escape c)).1 ih
  | @oneOf _ text _ rest _ hclass _ ih =>
    exact mt (endsEscaping_append_iff hclass.not_endsEscaping).1 ih
  | @plain _ c _ rest _ hplain _ ih =>
    exact mt (endsEscaping_append_iff (not_endsEscaping_singleton hplain.ne_backslash)).1 ih

/-- How the tokens of a text end that has an anchor at its end, read as a symbol
like any other: it stands by itself, or a backslash before it takes it. -/
def ReadsAnchor (position : Nat) (body : List Char) (ts : List Token) : Prop :=
  ∃ us, ts = us ++ [.literal '$'] ∧
    (Spells position body us ∨ ∃ front, body = front ++ ['\\'] ∧ Spells position front us)

/-- Tokens in front do not change how an anchor at the end is read. -/
theorem ReadsAnchor.cons {next : Nat} {t : Token} (chunk : List Char)
    (hread : ∀ {rest us}, Spells next rest us → Spells position (chunk ++ rest) (t :: us))
    (hanchor : ReadsAnchor next body ts) : ReadsAnchor position (chunk ++ body) (t :: ts) := by
  obtain ⟨us, rfl, hus | ⟨front, rfl, hus⟩⟩ := hanchor
  · exact ⟨t :: us, rfl, .inl (hread hus)⟩
  · exact ⟨t :: us, rfl, .inr ⟨chunk ++ front, by simp, hread hus⟩⟩

/-- The last character of a text ends its first part, or the rest is not empty and
has it as its own. -/
theorem append_eq_concat_cases (chunk : List Char) {rest : List Char}
    (hsame : chunk ++ rest = body ++ [c]) :
    (rest = [] ∧ chunk = body ++ [c]) ∨ ∃ tail, rest = tail ++ [c] ∧ body = chunk ++ tail := by
  obtain rfl | ⟨tail, d, rfl⟩ := rest.eq_nil_or_concat'
  · exact .inl ⟨rfl, by simpa using hsame⟩
  · rw [← List.append_assoc] at hsame
    obtain ⟨rfl, hlast⟩ := List.append_inj' hsame rfl
    exact .inr ⟨tail, by rw [hlast], rfl⟩

/-- No class takes the anchor, since a class ends with its bracket. -/
theorem Spells.readsAnchor (hspells : Spells position (body ++ ['$']) ts) :
    ReadsAnchor position body ts := by
  generalize htext : body ++ ['$'] = cs at hspells
  induction hspells generalizing body with
  | nil => simp at htext
  | @escaped position c rest ts hrest ih =>
    obtain ⟨rfl, hchunk⟩ | ⟨tail, rfl, rfl⟩ :=
      append_eq_concat_cases ['\\', c] htext.symm
    · change ['\\'] ++ [c] = body ++ ['$'] at hchunk
      obtain ⟨rfl, hlast⟩ := List.append_inj' hchunk rfl
      cases hlast
      cases hrest
      exact ⟨[], rfl, .inr ⟨[], rfl, .nil position⟩⟩
    · exact (ih rfl).cons ['\\', c] .escaped
  | @oneOf position text members rest ts hclass hrest ih =>
    obtain ⟨rfl, hchunk⟩ | ⟨tail, rfl, rfl⟩ :=
      append_eq_concat_cases ('[' :: text) htext.symm
    · obtain ⟨front, rfl⟩ := hclass.exists_getLast
      rw [← List.cons_append] at hchunk
      cases (List.append_inj' hchunk rfl).2
    · exact (ih rfl).cons ('[' :: text) (.oneOf hclass)
  | @plain position c t rest ts hplain hrest ih =>
    obtain ⟨rfl, hchunk⟩ | ⟨tail, rfl, rfl⟩ := append_eq_concat_cases [c] htext.symm
    · change [] ++ [c] = body ++ ['$'] at hchunk
      obtain ⟨rfl, hlast⟩ := List.append_inj' hchunk rfl
      cases hlast
      cases hrest
      obtain ⟨_, _, rfl⟩ := spellsPlain_iff.1 hplain
      exact ⟨[], rfl, .inl (.nil position)⟩
    · exact (ih rfl).cons [c] (.plain hplain)

/-- A text whose last character is taken by a backslash keeps it as it is. -/
theorem TrimsEnd.of_escape (hfront : ¬ EndsEscaping front) (c : Char) :
    TrimsEnd (front ++ ['\\', c]) (front ++ ['\\', c]) := by
  apply TrimsEnd.plain
  intro before heq
  rw [List.append_cons] at heq
  obtain ⟨rfl, _⟩ := List.append_inj' heq rfl
  exact (endsEscaping_concat_iff _ _).2 ⟨rfl, hfront⟩

end Pattern

end Automata
