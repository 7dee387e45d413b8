import Automata.Pattern.Lexer
import Automata.Proofs.Result

namespace Automata

namespace Pattern

/-- One member of a class: any character behind a backslash, and any character
    but a backslash and the closing bracket as it stands. -/
inductive SpellsMember : List Char → Char → Prop where
  | escaped (c : Char) : SpellsMember ['\\', c] c
  | plain {c : Char} (hescape : c ≠ '\\') (hclose : c ≠ ']') : SpellsMember [c] c

/-- The items of a class up to its closing bracket, a single member as the range
    from itself to itself. A dash behind a member makes a range unless the class
    ends after it. -/
inductive SpellsItems : List Char → List (Char × Char) → Prop where
  | close : SpellsItems [']'] []
  | single {text rest : List Char} {c : Char} {items : List (Char × Char)}
      (hmember : SpellsMember text c) (hdash : ∀ d tail, rest = '-' :: d :: tail → d = ']')
      (hrest : SpellsItems rest items) : SpellsItems (text ++ rest) ((c, c) :: items)
  | range {text text' rest : List Char} {first last : Char} {items : List (Char × Char)}
      (hfirst : SpellsMember text first) (hlast : SpellsMember text' last)
      (horder : first ≤ last) (hrest : SpellsItems rest items) :
      SpellsItems (text ++ '-' :: (text' ++ rest)) ((first, last) :: items)

namespace SpellsMember

variable {text : List Char} {c : Char}

/-- A member begins with a character that does not close the class. -/
theorem exists_head (hspells : SpellsMember text c) :
    ∃ d tail, text = d :: tail ∧ d ≠ ']' := by
  cases hspells with
  | escaped => exact ⟨_, _, rfl, by decide⟩
  | plain _ hclose => exact ⟨_, _, rfl, hclose⟩

/-- A member is read off the front of any text. -/
theorem readMember (hspells : SpellsMember text c) (opening : Nat) (rest : List Char) :
    readMember opening (text ++ rest) = .ok (c, rest) := by
  cases hspells with
  | escaped => rfl
  | plain hescape =>
    simp only [List.singleton_append]
    unfold Pattern.readMember
    split <;> simp_all

end SpellsMember

/-- What is read as a member spells it. -/
theorem exists_spellsMember {opening : Nat} {cs rest : List Char} {c : Char}
    (hread : readMember opening cs = .ok (c, rest)) (hclose : cs.head? ≠ some ']') :
    ∃ text, SpellsMember text c ∧ cs = text ++ rest := by
  unfold readMember at hread
  split at hread
  · cases hread
  · cases hread
  · cases hread
    exact ⟨_, .escaped _, rfl⟩
  · rename_i d tail hlone hescape
    cases hread
    refine ⟨[c], .plain ?_ ?_, rfl⟩
    · rintro rfl
      cases rest with
      | nil => exact hlone rfl rfl
      | cons d tail => exact hescape d tail rfl rfl
    · rintro rfl
      exact hclose rfl

namespace SpellsItems

variable {text : List Char} {items : List (Char × Char)}

/-- The text of the items ends with the closing bracket. -/
theorem exists_getLast (hspells : SpellsItems text items) : ∃ front, text = front ++ [']'] := by
  induction hspells with
  | close => exact ⟨[], rfl⟩
  | single _ _ _ ih =>
    obtain ⟨front, rfl⟩ := ih
    exact ⟨_, (List.append_assoc _ _ _).symm⟩
  | @range text text' _ _ _ _ _ _ _ _ ih =>
    obtain ⟨front, rfl⟩ := ih
    exact ⟨text ++ '-' :: (text' ++ front), by simp⟩

/-- Behind a dash that the items begin with comes more of them. -/
theorem exists_cons_of_dash {tail : List Char} (hspells : SpellsItems ('-' :: tail) items) :
    ∃ d more, tail = d :: more := by
  obtain ⟨front, hfront⟩ := hspells.exists_getLast
  cases tail with
  | nil => cases front <;> simp_all
  | cons d more => exact ⟨d, more, rfl⟩

end SpellsItems

/-- A member that no range follows is an item of its own. -/
theorem readItem_single (opening : Nat) {text rest : List Char} {c : Char}
    {items : List (Char × Char)} (hmember : SpellsMember text c)
    (hdash : ∀ d tail, rest = '-' :: d :: tail → d = ']') (hrest : SpellsItems rest items)
    (after : List Char) :
    readItem opening (text ++ (rest ++ after)) = .ok ((c, c), rest ++ after) := by
  rw [readItem, hmember.readMember]
  split
  · rename_i herror
    cases herror
  · rename_i first next tail hok
    obtain ⟨rfl, hfollow⟩ : c = first ∧ rest ++ after = '-' :: next :: tail := by simpa using hok
    cases rest with
    | nil =>
      obtain ⟨front, hfront⟩ := hrest.exists_getLast
      cases front <;> cases hfront
    | cons d rest =>
      have hfirst : d = '-' := (List.cons.inj hfollow).1
      subst hfirst
      obtain ⟨e, more, rfl⟩ := hrest.exists_cons_of_dash
      obtain rfl := hdash e more rfl
      obtain ⟨rfl, rfl⟩ := List.cons.inj (List.cons.inj hfollow).2
      rw [if_pos rfl]
      rfl
  · rename_i first follow hnodash hok
    obtain ⟨rfl, rfl⟩ : c = first ∧ rest ++ after = follow := by simpa using hok
    rfl

/-- Two members with a dash between them are a range, if they are the right way
round. -/
theorem readItem_range (opening : Nat) {text text' : List Char} {first last : Char}
    (hfirst : SpellsMember text first) (hlast : SpellsMember text' last) (horder : first ≤ last)
    (after : List Char) :
    readItem opening (text ++ '-' :: (text' ++ after)) = .ok ((first, last), after) := by
  obtain ⟨d, tail, rfl, hd⟩ := hlast.exists_head
  rw [readItem, hfirst.readMember]
  simp only [List.cons_append, if_neg hd]
  rw [← List.cons_append, hlast.readMember]
  exact if_neg (Char.not_lt.2 horder)

/-- Items are read one after another, up to the bracket. -/
theorem readItems_cons {opening : Nat} {cs rest : List Char} {item : Char × Char}
    (hitem : readItem opening cs = .ok (item, rest)) (hclose : cs.head? ≠ some ']') :
    readItems opening cs =
      (readItems opening rest).map fun (items, rest) => (item :: items, rest) := by
  rw [readItems.eq_def]
  split
  · cases hitem
  · exact absurd rfl hclose
  · split
    · rename_i hread
      rw [hitem] at hread
      cases hread
    · rename_i hread
      rw [hitem] at hread
      cases hread
      rfl

/-- Items that are spelled are read, and what comes behind the bracket is
left. -/
theorem SpellsItems.readItems {text : List Char} {items : List (Char × Char)}
    (hspells : SpellsItems text items) (opening : Nat) (after : List Char) :
    readItems opening (text ++ after) = .ok (items, after) := by
  induction hspells with
  | close => rw [List.singleton_append, Pattern.readItems]
  | single hmember hdash hrest ih =>
    obtain ⟨d, tail, rfl, hd⟩ := hmember.exists_head
    have hitem := readItem_single opening hmember hdash hrest after
    rw [List.append_assoc, readItems_cons hitem (by simpa using hd), ih]
    rfl
  | @range _ text' rest _ _ _ hfirst hlast horder hrest ih =>
    obtain ⟨d, tail, rfl, hd⟩ := hfirst.exists_head
    have hitem := readItem_range opening hfirst hlast horder (rest ++ after)
    have hassoc : d :: tail ++ '-' :: (text' ++ rest) ++ after =
        d :: tail ++ '-' :: (text' ++ (rest ++ after)) := by simp
    rw [hassoc, readItems_cons hitem (by simpa using hd), ih]
    rfl

/-- An item that was read stands in front of the items that are read next. -/
theorem SpellsItems.exists_cons {opening : Nat} {cs rest after : List Char} {item : Char × Char}
    {items : List (Char × Char)} (hspells : SpellsItems rest items)
    (hitem : readItem opening cs = .ok (item, rest ++ after)) (hclose : cs.head? ≠ some ']') :
    ∃ text, SpellsItems text (item :: items) ∧ cs = text ++ after := by
  unfold readItem at hitem
  split at hitem
  · cases hitem
  · rename_i first next tail hfirst
    obtain ⟨text, hmember, rfl⟩ := exists_spellsMember hfirst hclose
    split at hitem
    · rename_i hnext
      obtain ⟨rfl, hfollow⟩ : (first, first) = item ∧ '-' :: next :: tail = rest ++ after := by
        simpa using hitem
      rw [hfollow, ← List.append_assoc]
      refine ⟨_, .single hmember ?_ hspells, rfl⟩
      rintro d more rfl
      obtain ⟨rfl, _⟩ := List.cons.inj (List.cons.inj hfollow).2
      exact hnext
    · rename_i hnext
      split at hitem
      · cases hitem
      · rename_i last follow hlast
        obtain ⟨text', hmember', hsplit⟩ := exists_spellsMember hlast (by simpa using hnext)
        split at hitem
        · cases hitem
        · rename_i horder
          obtain ⟨rfl, rfl⟩ : (first, last) = item ∧ follow = rest ++ after := by simpa using hitem
          rw [hsplit]
          exact ⟨_, .range hmember hmember' (Char.not_lt.1 horder) hspells, by simp⟩
  · rename_i first follow hnodash hfirst
    obtain ⟨text, hmember, rfl⟩ := exists_spellsMember hfirst hclose
    obtain ⟨rfl, rfl⟩ : (first, first) = item ∧ follow = rest ++ after := by simpa using hitem
    rw [← List.append_assoc]
    refine ⟨_, .single hmember ?_ hspells, rfl⟩
    rintro d more rfl
    exact (hnodash d (more ++ after) rfl).elim

/-- Only the text of items is read as items. -/
theorem exists_spellsItems {opening : Nat} {cs after : List Char} {items : List (Char × Char)}
    (hread : readItems opening cs = .ok (items, after)) :
    ∃ text, SpellsItems text items ∧ cs = text ++ after := by
  fun_induction Pattern.readItems opening cs generalizing items after with
  | case1 => cases hread
  | case2 rest =>
    cases hread
    exact ⟨_, .close, rfl⟩
  | case3 => cases hread
  | case4 c cs hclose item rest hitem ih =>
    obtain ⟨⟨items, after⟩, hrest, hsame⟩ := exists_of_map_eq_ok hread
    cases hsame
    obtain ⟨text, hspells, rfl⟩ := ih hrest
    exact hspells.exists_cons hitem (by simpa using hclose)

end Pattern

end Automata
