import Automata.Proofs.Pattern.FinalAnchor
import Automata.Proofs.Pattern.Rejection

namespace Automata

namespace Token

/-- The token with its position, if it has one, changed. -/
def relocate (f : Nat → Nat) : Token → Token
  | openGroup position => .openGroup (f position)
  | closeGroup position => .closeGroup (f position)
  | t => t

end Token

/-- Positions have no part in what tokens derive. -/
theorem Derives.relocate {phrase : Phrase} {ts : List Token} {e : Expression} (f : Nat → Nat)
    (hderives : Derives [] phrase ts e) : Derives [] phrase (ts.map (Token.relocate f)) e := by
  induction hderives with
  | literal c => exact .literal c
  | oneOf members => exact .oneOf members
  | group opening closing _ ih =>
    rw [List.map_append, List.map_append]
    exact .group (f opening) (f closing) ih
  | ofAtom _ ih => exact .ofAtom ih
  | star _ ih =>
    rw [List.map_append]
    exact .star ih
  | plus _ ih =>
    rw [List.map_append]
    exact .plus ih
  | question _ ih =>
    rw [List.map_append]
    exact .question ih
  | ofRepetition _ ih => exact .ofRepetition ih
  | concat _ _ ihleft ihright =>
    rw [List.map_append, List.map_append]
    exact .concat ihleft ihright
  | ofSequence _ ih => exact .ofSequence ih
  | alternation _ _ ihleft ihright =>
    rw [List.map_append, List.map_append]
    exact .alternation ihleft ihright

namespace Pattern

variable {position : Nat} {pattern body cs : List Char} {ts : List Token} {g : Graph}

/-- A character stands for the same token anywhere, up to its position. -/
theorem SpellsPlain.relocate {c : Char} {t : Token} (shift : Nat)
    (hplain : SpellsPlain position c t) :
    SpellsPlain (position + shift) c (t.relocate (· + shift)) := by
  cases hplain with
  | star => exact .star
  | plus => exact .plus
  | question => exact .question
  | alternation => exact .alternation
  | openGroup => exact .openGroup
  | closeGroup => exact .closeGroup
  | literal hplain => exact .literal hplain

/-- A text that stands further on in a pattern spells the same tokens at other
positions. -/
theorem Spells.relocate (shift : Nat) (hspells : Spells position cs ts) :
    Spells (position + shift) cs (ts.map (Token.relocate (· + shift))) := by
  induction hspells with
  | nil => exact .nil _
  | escaped _ ih =>
    rw [Nat.add_right_comm] at ih
    exact .escaped ih
  | oneOf hclass _ ih =>
    rw [Nat.add_right_comm, Nat.add_right_comm _ 1] at ih
    exact .oneOf hclass ih
  | plain hplain _ ih =>
    rw [Nat.add_right_comm] at ih
    exact .plain (hplain.relocate shift) ih

/-- Behind an automaton for a pattern stand tokens of the grammar. -/
theorem exists_derives_of_compile_eq_ok (hcompile : compile pattern = .ok g) :
    ∃ ts e, Lexes pattern ts ∧ Derives [] .choice ts e := by
  obtain ⟨ts, hlexes, hgaps, hcloses⟩ := exists_lexes_of_compile_eq_ok hcompile
  obtain ⟨e, hderives⟩ := exists_derives hlexes.concat_notMem hgaps hcloses
  exact ⟨ts, e, hlexes, hderives⟩

/-- A pattern without anchors is read as it stands. -/
theorem Lexes.spells_self (hlexes : Lexes pattern ts) (hstart : pattern.head? ≠ some '^')
    (hend : TrimsEnd pattern pattern) : Spells 0 pattern ts := by
  cases hlexes with
  | anchored => exact absurd rfl hstart
  | plain _ htrims hspells =>
    rwa [← htrims.dropEndAnchor_eq, hend.dropEndAnchor_eq] at hspells

/-- The anchor is dropped exactly if the text before it ends in no escape. -/
theorem dropEndAnchor_eq_body_iff :
    dropEndAnchor (body ++ ['$']) = body ↔ ¬ EndsEscaping body := by
  rw [dropEndAnchor_anchor, endsEscaping_iff]
  split
  · exact iff_of_true rfl (by omega)
  · exact iff_of_false (by simp) (by omega)

/-- The anchor stays exactly if the text before it ends in an escape. -/
theorem dropEndAnchor_eq_self_iff :
    dropEndAnchor (body ++ ['$']) = body ++ ['$'] ↔ EndsEscaping body := by
  rw [dropEndAnchor_anchor, endsEscaping_iff]
  split
  · exact iff_of_false (by simp) (by omega)
  · exact iff_of_true rfl (by omega)

/-- Where the text can be read with an anchor at its end as a symbol like any
other, the anchor is dropped exactly if it is read by itself, and kept exactly
if it is read behind a backslash. -/
theorem dropEndAnchor_settled_by_reading (hlex : lexFrom position (body ++ ['$']) = .ok ts) :
    ∃ us, ts = us ++ [.literal '$'] ∧
      (dropEndAnchor (body ++ ['$']) = body ↔ lexFrom position body = .ok us) ∧
      (dropEndAnchor (body ++ ['$']) = body ++ ['$'] ↔
        ∃ front, body = front ++ ['\\'] ∧ lexFrom position front = .ok us) := by
  simp only [lexFrom_eq_ok_iff, dropEndAnchor_eq_body_iff, dropEndAnchor_eq_self_iff] at hlex ⊢
  have hescapes {front : List Char} {us : List Token} (hus : Spells position front us) :
      EndsEscaping (front ++ ['\\']) :=
    (endsEscaping_concat_iff front '\\').2 ⟨rfl, hus.not_endsEscaping⟩
  obtain ⟨us, rfl, hus | ⟨front, rfl, hus⟩⟩ := hlex.readsAnchor
  · refine ⟨us, rfl, iff_of_true hus.not_endsEscaping hus, iff_of_false hus.not_endsEscaping ?_⟩
    rintro ⟨front, rfl, hfront⟩
    exact hus.not_endsEscaping (hescapes hfront)
  · refine ⟨us, rfl, iff_of_false (not_not_intro (hescapes hus)) ?_,
      iff_of_true (hescapes hus) ⟨front, rfl, hus⟩⟩
    exact fun hbody => hbody.not_endsEscaping (hescapes hus)

/-- A pattern without anchors compiles to the same graph with an anchor in front,
at its end, and on both sides. An anchor at the end is dropped by counting the
backslashes before it; reading the text from its start comes to the same, with
all escapes and classes on the way. -/
theorem outer_anchors_redundant :
    (∀ pattern g, compile pattern = .ok g → pattern.head? ≠ some '^' →
      (∀ body, pattern = body ++ ['$'] → EndsEscaping body) →
      compile ('^' :: pattern) = .ok g ∧ compile (pattern ++ ['$']) = .ok g ∧
        compile ('^' :: (pattern ++ ['$'])) = .ok g) ∧
    ∀ position body ts, lexFrom position (body ++ ['$']) = .ok ts →
      ∃ us, ts = us ++ [.literal '$'] ∧
        (dropEndAnchor (body ++ ['$']) = body ↔ lexFrom position body = .ok us) ∧
        (dropEndAnchor (body ++ ['$']) = body ++ ['$'] ↔
          ∃ front, body = front ++ ['\\'] ∧ lexFrom position front = .ok us) := by
  refine ⟨fun pattern g hcompile hstart hend => ?_, fun _ _ _ => dropEndAnchor_settled_by_reading⟩
  obtain ⟨ts, e, hlexes, hderives⟩ := exists_derives_of_compile_eq_ok hcompile
  have hspells := hlexes.spells_self hstart (.plain hend)
  have hanchor : TrimsEnd (pattern ++ ['$']) pattern := .anchored hspells.not_endsEscaping
  have hmoved := hspells.relocate 1
  rw [compile_eq_build hlexes hderives] at hcompile
  have hsame {pattern' : List Char} {us : List Token} (hlexes' : Lexes pattern' us)
      (hderives' : Derives [] .choice us e) : compile pattern' = .ok g :=
    (compile_eq_build hlexes' hderives').trans hcompile
  refine ⟨hsame (.anchored (.plain hend) hmoved) (hderives.relocate _),
    hsame (.plain ?_ hanchor hspells) hderives,
    hsame (.anchored hanchor hmoved) (hderives.relocate _)⟩
  intro hhead
  cases pattern with
  | nil => cases hhead
  | cons c rest => exact hstart hhead

/-- A class with an anchor and an escaped bracket in it, followed by an escaped
anchor; and an anchor behind two backslashes, which do not escape it. -/
theorem outer_anchors_redundant_of_class :
    (∃ g, compile "[$\\]]\\$".toList = .ok g ∧ "[$\\]]\\$".toList.head? ≠ some '^' ∧
      (∀ body, "[$\\]]\\$".toList = body ++ ['$'] → EndsEscaping body) ∧
      compile "^[$\\]]\\$".toList = .ok g ∧ compile "[$\\]]\\$$".toList = .ok g ∧
        compile "^[$\\]]\\$$".toList = .ok g) ∧
    lexFrom 0 "\\\\$".toList = .ok [.literal '\\', .literal '$'] ∧
      ∃ us, [.literal '\\', .literal '$'] = us ++ [.literal '$'] ∧
        (dropEndAnchor "\\\\$".toList = "\\\\".toList ↔ lexFrom 0 "\\\\".toList = .ok us) ∧
        (dropEndAnchor "\\\\$".toList = "\\\\$".toList ↔
          ∃ front, "\\\\".toList = front ++ ['\\'] ∧ lexFrom 0 front = .ok us) := by
  obtain ⟨hredundant, hreading⟩ := outer_anchors_redundant
  have hitems : SpellsItems ['$', '\\', ']', ']'] [('$', '$'), (']', ']')] :=
    .single (.plain (by decide) (by decide)) nofun (.single (.escaped ']') nofun .close)
  have hclass : SpellsClass ['$', '\\', ']', ']'] ['$', ']'] :=
    hitems.spellsClass (by decide) (by decide)
  have hspells : Spells 0 "[$\\]]\\$".toList [.oneOf ['$', ']'], .literal '$'] :=
    .oneOf hclass (.escaped (.nil 7))
  have hbefore : Spells 0 "[$\\]]".toList [.oneOf ['$', ']']] := .oneOf hclass (.nil 5)
  have hend : TrimsEnd "[$\\]]\\$".toList "[$\\]]\\$".toList :=
    .of_escape hbefore.not_endsEscaping '$'
  have hderives : Derives [] .choice [.oneOf ['$', ']'], .literal '$']
      ((Expression.oneOf ['$', ']']).concat (.literal '$')) :=
    .ofSequence (.concat (.ofRepetition (.ofAtom (.oneOf ['$', ']'])))
      (.ofAtom (.literal '$')))
  obtain ⟨g, hbuild, _⟩ := Assembly.exists_build_evaluation
    ((Expression.oneOf ['$', ']']).concat (.literal '$'))
  have hcompile := (compile_eq_build (.plain (by decide) hend hspells) hderives).trans hbuild
  have hescapes (body : List Char) (hbody : "[$\\]]\\$".toList = body ++ ['$']) :
      EndsEscaping body := by
    obtain ⟨rfl, _⟩ : "[$\\]]\\".toList = body ∧ _ := List.append_inj' hbody rfl
    exact (endsEscaping_concat_iff _ _).2 ⟨rfl, hbefore.not_endsEscaping⟩
  have hlex : lexFrom 0 "\\\\$".toList = .ok [.literal '\\', .literal '$'] :=
    lexFrom_eq_ok_iff.2 (.escaped (.plain (.literal (by decide)) (.nil 3)))
  exact ⟨⟨g, hcompile, by decide, hescapes, hredundant _ g hcompile (by decide) hescapes⟩, hlex,
    hreading 0 "\\\\".toList _ hlex⟩

end Pattern

end Automata
