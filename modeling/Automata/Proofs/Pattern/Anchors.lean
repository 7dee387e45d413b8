import Automata.Proofs.Pattern.Spelling

namespace Automata

namespace Pattern

/-- The text ends with an odd number of backslashes, of which the last one takes
    what follows as a literal. -/
def EndsEscaping (cs : List Char) : Prop :=
  ∃ front n, cs = front ++ List.replicate (2 * n + 1) '\\' ∧ front.getLast? ≠ some '\\'

/-- A text and what is left of it without an anchor at its end. -/
inductive TrimsEnd : List Char → List Char → Prop where
  | anchored {body : List Char} (hanchor : ¬ EndsEscaping body) : TrimsEnd (body ++ ['$']) body
  | plain {body : List Char} (hplain : ∀ front, body = front ++ ['$'] → EndsEscaping front) :
      TrimsEnd body body

/-- The tokens of a pattern, which needs no anchors to describe whole inputs and
    may have them. -/
inductive Lexes : List Char → List Token → Prop where
  | anchored {rest body : List Char} {ts : List Token} (hend : TrimsEnd rest body)
      (hspells : Spells 1 body ts) : Lexes ('^' :: rest) ts
  | plain {pattern body : List Char} {ts : List Token} (hstart : pattern.head? ≠ some '^')
      (hend : TrimsEnd pattern body) (hspells : Spells 0 body ts) : Lexes pattern ts

/-- Counting backwards tells whether a text ends in an escape. -/
theorem endsEscaping_iff {cs : List Char} :
    EndsEscaping cs ↔ (cs.reverse.takeWhile (· = '\\')).length % 2 = 1 := by
  constructor
  · rintro ⟨front, n, rfl, hfront⟩
    have hnone : front.reverse.takeWhile (· = '\\') = [] := by
      rw [← List.head?_reverse] at hfront
      cases hback : front.reverse with
      | nil => rfl
      | cons c tail =>
        rw [hback] at hfront
        exact List.takeWhile_cons_of_neg (by simpa using hfront)
    rw [List.reverse_append, List.reverse_replicate,
      List.takeWhile_append_of_pos (by simp [List.mem_replicate]), hnone]
    simp
  · intro hodd
    have hseries : cs.reverse.takeWhile (· = '\\') =
        List.replicate (cs.reverse.takeWhile (· = '\\')).length '\\' := by
      rw [List.eq_replicate_iff]
      exact ⟨rfl, fun c hc => by simpa using List.all_eq_true.1 List.all_takeWhile c hc⟩
    have hsplit : cs = (cs.reverse.dropWhile (· = '\\')).reverse ++
        (cs.reverse.takeWhile (· = '\\')).reverse := by
      rw [← List.reverse_append, List.takeWhile_append_dropWhile, List.reverse_reverse]
    obtain ⟨n, hn⟩ : ∃ n, (cs.reverse.takeWhile (· = '\\')).length = 2 * n + 1 := 
      ⟨(cs.reverse.takeWhile (· = '\\')).length / 2, by omega⟩
    rw [hseries, List.reverse_replicate, hn] at hsplit
    refine ⟨(cs.reverse.dropWhile (· = '\\')).reverse, n, hsplit, ?_⟩
    rw [List.getLast?_reverse]
    intro hhead
    have hstop := List.head?_dropWhile_not (fun c => decide (c = '\\')) cs.reverse
    rw [hhead] at hstop
    cases hstop

/-- An anchor at the end is dropped if the number of backslashes before it is
even. -/
theorem dropEndAnchor_anchor (front : List Char) :
    dropEndAnchor (front ++ ['$']) =
      if (front.reverse.takeWhile (· = '\\')).length % 2 = 0 then front else front ++ ['$'] := by
  simp [dropEndAnchor]

theorem TrimsEnd.of_getLast?_ne {cs : List Char} (hlast : cs.getLast? ≠ some '$') :
    TrimsEnd cs cs :=
  .plain fun _ heq => absurd (heq ▸ List.getLast?_concat) hlast

theorem dropEndAnchor_of_getLast?_ne {cs : List Char} (hlast : cs.getLast? ≠ some '$') :
    dropEndAnchor cs = cs := by
  simp [dropEndAnchor, hlast]

/-- What stands before the end is the text without its anchor. -/
theorem trimsEnd_dropEndAnchor (cs : List Char) : TrimsEnd cs (dropEndAnchor cs) := by
  by_cases hlast : cs.getLast? = some '$'
  · obtain ⟨front, rfl⟩ := List.getLast?_eq_some_iff.1 hlast
    rw [dropEndAnchor_anchor]
    split
    · rename_i heven
      exact .anchored fun hescapes => by rw [endsEscaping_iff] at hescapes; omega
    · rename_i hodd
      apply TrimsEnd.plain
      intro front' heq
      rw [← (List.append_inj_left' heq rfl), endsEscaping_iff]
      omega
  · rw [dropEndAnchor_of_getLast?_ne hlast]
    exact .of_getLast?_ne hlast

/-- A text that is trimmed is what dropping the anchor leaves. -/
theorem TrimsEnd.dropEndAnchor_eq {cs body : List Char} (hend : TrimsEnd cs body) :
    dropEndAnchor cs = body := by
  cases hend with
  | anchored hanchor =>
    rw [endsEscaping_iff] at hanchor
    rw [dropEndAnchor_anchor, if_pos (by omega)]
  | plain hplain =>
    by_cases hlast : cs.getLast? = some '$'
    · obtain ⟨front, rfl⟩ := List.getLast?_eq_some_iff.1 hlast
      have hescapes := endsEscaping_iff.1 (hplain front rfl)
      rw [dropEndAnchor_anchor, if_neg (by omega)]
    · exact dropEndAnchor_of_getLast?_ne hlast

/-- The lexemes of a pattern are exactly the tokens that it spells out. -/
theorem lexemes_eq_ok_iff {pattern : List Char} {ts : List Token} :
    lexemes pattern = .ok ts ↔ Lexes pattern ts := by
  constructor
  · intro hlex
    unfold lexemes at hlex
    split at hlex
    · exact .anchored (trimsEnd_dropEndAnchor _) (lexFrom_eq_ok_iff.1 hlex)
    · rename_i hstart
      refine .plain ?_ (trimsEnd_dropEndAnchor _) (lexFrom_eq_ok_iff.1 hlex)
      intro hhead
      obtain ⟨rest, rfl⟩ := List.head?_eq_some_iff.1 hhead
      exact hstart rest rfl
  · intro hlexes
    cases hlexes with
    | anchored hend hspells =>
      rw [lexemes, hend.dropEndAnchor_eq]
      exact lexFrom_eq_ok_iff.2 hspells
    | plain hstart hend hspells =>
      rw [lexemes, hend.dropEndAnchor_eq]
      · exact lexFrom_eq_ok_iff.2 hspells
      · rintro rest rfl
        exact hstart rfl

end Pattern

end Automata
