import Automata.Proofs.Pattern.Fragment

namespace Automata

/-- The moves around two fragments that are offered as alternatives. -/
def forkMoves (left right outer : Fragment) : List Transition :=
  [silentMove right.exit outer.exit, silentMove outer.entry right.entry,
    silentMove left.exit outer.exit, silentMove outer.entry left.entry]

/-- Four silent moves lead from the outer entry through either fragment to the
outer exit. -/
theorem mem_forkMoves_iff {left right outer : Fragment} {t : Transition} :
    t ∈ forkMoves left right outer ↔
      t = silentMove right.exit outer.exit ∨ t = silentMove outer.entry right.entry ∨
        t = silentMove left.exit outer.exit ∨ t = silentMove outer.entry left.entry := by
  simp [forkMoves]

namespace Fragment.Realizes

variable {lo mid hi : Nat} {left right : Fragment} {movesl movesr : List Transition}
  {L M : Language Char}

/-- A fork and its two parts keep to the states that were made for them. -/
theorem confined_fork (hleft : left.Realizes lo mid movesl L)
    (hright : right.Realizes mid hi movesr M) :
    Confined lo (hi + 2) (forkMoves left right ⟨hi, hi + 1⟩ ++ (movesr ++ movesl)) := by
  have hlow := hleft.lo_le_hi
  have hhigh := hright.lo_le_hi
  have hnew : Within lo (hi + 2) hi := .natCast (by omega) (by omega)
  have hlast : Within lo (hi + 2) (hi + 1 : Nat) := .natCast (by omega) (by omega)
  apply Confined.append ?_
    ((hright.confined.mono hlow (by omega)).append (hleft.confined.mono le_rfl (by omega)))
  intro t ht
  obtain rfl | rfl | rfl | rfl := mem_forkMoves_iff.1 ht
  · exact ⟨hright.exit_within.mono hlow (by omega), hlast⟩
  · exact ⟨hnew, hright.entry_within.mono hlow (by omega)⟩
  · exact ⟨hleft.exit_within.mono le_rfl (by omega), hlast⟩
  · exact ⟨hnew, hleft.entry_within.mono le_rfl (by omega)⟩

/-- A path past the new entry stays in the fragment that it turns to. -/
theorem mem_add_of_mem_fork (hleft : left.Realizes lo mid movesl L)
    (hright : right.Realizes mid hi movesr M) {word : List Char}
    (hword : word ∈ wordsBetween (forkMoves left right ⟨hi, hi + 1⟩ ++ (movesr ++ movesl)) hi
      (hi + 1 : Nat)) : word ∈ L + M := by
  let rest : StateId → Language Char := fun (p : Int) =>
    if p < mid then wordsBetween movesl p left.exit * 1
    else if p < hi then wordsBetween movesr p right.exit * 1
    else if p = hi then L + M else 1
  have hhigh := hright.lo_le_hi
  have hrestl {p : Int} (hp : Within lo mid p) : rest p = wordsBetween movesl p left.exit * 1 :=
    if_pos hp.2
  have hrestr {p : Int} (hp : Within mid hi p) : rest p = wordsBetween movesr p right.exit * 1 :=
    (if_neg (Int.not_lt.2 hp.1)).trans (if_pos hp.2)
  have hentry : rest (hi : Int) = L + M :=
    (if_neg (by omega)).trans ((if_neg (by omega)).trans (if_pos rfl))
  have hexit : rest ((hi + 1 : Nat) : Int) = 1 :=
    (if_neg (by omega)).trans ((if_neg (by omega)).trans (if_neg (by omega)))
  rw [← hentry]
  apply mem_of_mem_wordsBetween (hexit ▸ Language.nil_mem_one) ?_ hword
  intro t ht word hrest
  obtain ht | ht := List.mem_append.1 ht
  · obtain rfl | rfl | rfl | rfl := mem_forkMoves_iff.1 ht
    · apply silentMove_append_mem ?_ hrest
      intro hrest
      rw [hexit, Language.mem_one] at hrest
      rw [hrestr hright.exit_within, mul_one, hrest]
      exact nil_mem_wordsBetween
    · apply silentMove_append_mem ?_ hrest
      intro hrest
      rw [hrestr hright.entry_within, hright.words_eq, mul_one] at hrest
      rw [hentry]
      exact .inr hrest
    · apply silentMove_append_mem ?_ hrest
      intro hrest
      rw [hexit, Language.mem_one] at hrest
      rw [hrestl hleft.exit_within, mul_one, hrest]
      exact nil_mem_wordsBetween
    · apply silentMove_append_mem ?_ hrest
      intro hrest
      rw [hrestl hleft.entry_within, hleft.words_eq, mul_one] at hrest
      rw [hentry]
      exact .inl hrest
  · obtain ht | ht := List.mem_append.1 ht
    · exact hright.confined.label_append_mem hrestr ht hrest
    · exact hleft.confined.label_append_mem hrestl ht hrest

/-- A fragment between a new entry and a new exit offers its words there. -/
theorem mem_wordsBetween_through (inner outer : Fragment) {own all : List Transition}
    (henter : silentMove outer.entry inner.entry ∈ all)
    (hleave : silentMove inner.exit outer.exit ∈ all) (hown : own ⊆ all) {word : List Char}
    (hword : word ∈ wordsBetween own inner.entry inner.exit) :
    word ∈ wordsBetween all outer.entry outer.exit := by
  have hinner := wordsBetween_mono hown hword
  have hend := mem_wordsBetween_of_silent hleave nil_mem_wordsBetween
  rw [← List.append_nil word]
  exact mem_wordsBetween_of_silent henter (append_mem_wordsBetween hinner hend)

/-- The words of either part can be spelled through the fork. -/
theorem mem_fork_of_mem_add (hleft : left.Realizes lo mid movesl L)
    (hright : right.Realizes mid hi movesr M) {word : List Char} (hword : word ∈ L + M) :
    word ∈ wordsBetween (forkMoves left right ⟨hi, hi + 1⟩ ++ (movesr ++ movesl)) hi
      (hi + 1 : Nat) := by
  have hmove {t : Transition} (ht : t ∈ forkMoves left right ⟨hi, hi + 1⟩) :
      t ∈ forkMoves left right ⟨hi, hi + 1⟩ ++ (movesr ++ movesl) := List.mem_append_left _ ht
  have hown : movesr ++ movesl ⊆ forkMoves left right ⟨hi, hi + 1⟩ ++ (movesr ++ movesl) :=
    List.subset_append_right _ _
  obtain hword | hword := (Language.mem_add _ _ _).1 hword
  · rw [← hleft.words_eq] at hword
    exact mem_wordsBetween_through left ⟨hi, hi + 1⟩ (hmove (by simp [forkMoves]))
      (hmove (by simp [forkMoves])) (List.Subset.trans (List.subset_append_right _ _) hown) hword
  · rw [← hright.words_eq] at hword
    exact mem_wordsBetween_through right ⟨hi, hi + 1⟩ (hmove (by simp [forkMoves]))
      (hmove (by simp [forkMoves])) (List.Subset.trans (List.subset_append_left _ _) hown) hword

/-- A new entry before two fragments and a new exit after them. -/
theorem fork (hleft : left.Realizes lo mid movesl L) (hright : right.Realizes mid hi movesr M) :
    Realizes ⟨hi, hi + 1⟩ lo (hi + 2) (forkMoves left right ⟨hi, hi + 1⟩ ++ (movesr ++ movesl))
      (L + M) where
  entry_within := .natCast (hleft.lo_le_hi.trans hright.lo_le_hi) (by simp)
  exit_within := .natCast (hleft.lo_le_hi.trans (hright.lo_le_hi.trans (by simp))) (by simp)
  confined := hleft.confined_fork hright
  words_eq := Language.ext fun _ =>
    ⟨hleft.mem_add_of_mem_fork hright, hleft.mem_fork_of_mem_add hright⟩

end Fragment.Realizes

end Automata
