import Automata.Proofs.Pattern.Class.Items

namespace Automata

/-- Every character is the one with its number. -/
theorem charOfNat?_toNat (c : Char) : charOfNat? c.toNat = some c := by
  rw [charOfNat?, Char.ofNat_toNat]
  exact if_pos c.valid

/-- A range of characters holds those between its ends. -/
theorem mem_charRange_iff {first last c : Char} :
    c ∈ charRange first last ↔ first ≤ c ∧ c ≤ last := by
  rw [charRange, ← SortedSet.mem_toList, SortedSet.ofAscending, List.mem_filterMap,
    char_le_iff_toNat_le, char_le_iff_toNat_le]
  constructor
  · rintro ⟨n, hn, hc⟩
    rw [toNat_of_charOfNat? hc]
    rw [List.mem_range'_1] at hn
    omega
  · rintro ⟨hlow, hhigh⟩
    exact ⟨c.toNat, List.mem_range'_1.2 (by omega), charOfNat?_toNat c⟩

namespace Pattern

/-- The members of a class are those of its items. -/
theorem mem_rangeMembers_iff {items : List (Char × Char)} {c : Char} :
    c ∈ rangeMembers items ↔ ∃ item ∈ items, item.1 ≤ c ∧ c ≤ item.2 := by
  have hfold (seen : SortedSet Char) :
      c ∈ items.foldl (fun members item => charRange item.1 item.2 ∪ members) seen ↔
        (∃ item ∈ items, item.1 ≤ c ∧ c ≤ item.2) ∨ c ∈ seen := by
    induction items generalizing seen with
    | nil => simp
    | cons item items ih =>
      rw [List.foldl_cons, ih, SortedSet.mem_union, mem_charRange_iff]
      simp only [List.mem_cons, or_and_right, exists_or, exists_eq_left]
      rw [or_left_comm, or_assoc]
  exact (hfold ∅).trans (or_iff_left SortedSet.notMem_empty)

/-- A class: at least one item and no mark of negation, standing for the symbols
    in any of its ranges. The members are listed in ascending order. -/
inductive SpellsClass : List Char → List Char → Prop where
  | mk {text members : List Char} {items : List (Char × Char)} (hitems : SpellsItems text items)
      (hsome : items ≠ []) (hnegated : text.head? ≠ some '^') (hsorted : members.Pairwise (· < ·))
      (hmembers : ∀ c, c ∈ members ↔ ∃ item ∈ items, item.1 ≤ c ∧ c ≤ item.2) :
      SpellsClass text members

/-- What comes behind the items of a class does not change how it begins. -/
theorem SpellsItems.head?_append {text : List Char} {items : List (Char × Char)}
    (hspells : SpellsItems text items) (after : List Char) :
    (text ++ after).head? = text.head? := by
  obtain ⟨front, rfl⟩ := hspells.exists_getLast
  cases front <;> rfl

/-- Items spell a class if there are some and it does not begin with the mark of
a negation. -/
theorem SpellsItems.spellsClass {text : List Char} {items : List (Char × Char)}
    (hspells : SpellsItems text items) (hsome : items ≠ []) (hnegated : text.head? ≠ some '^') :
    SpellsClass text (rangeMembers items).toList :=
  .mk hspells hsome hnegated ((rangeMembers items).ascending.imp before_eq_true_iff.1)
    fun _ => mem_rangeMembers_iff

/-- Exactly the classes are read as classes, up to their closing bracket. -/
theorem readClass_eq_ok_iff {opening : Nat} {cs members after : List Char} :
    readClass opening cs = .ok (members, after) ↔
      ∃ text, SpellsClass text members ∧ cs = text ++ after := by
  constructor
  · intro hread
    unfold readClass at hread
    split at hread
    · cases hread
    · rename_i hnegated
      split at hread
      · cases hread
      · cases hread
      · rename_i items rest hsome hitems
        cases hread
        obtain ⟨text, hspells, rfl⟩ := exists_spellsItems hitems
        refine ⟨text, hspells.spellsClass hsome fun hhead => ?_, rfl⟩
        rw [← hspells.head?_append after, List.head?_eq_some_iff] at hhead
        obtain ⟨tail, htail⟩ := hhead
        exact hnegated tail htail
  · rintro ⟨text, ⟨hspells, hsome, hnegated, hsorted, hmembers⟩, rfl⟩
    rw [← hspells.head?_append after] at hnegated
    have hlist := SortedSet.eq_of_ascending_of_mem_iff (rangeMembers _).ascending
      (hsorted.imp before_eq_true_iff.2)
      fun c => mem_rangeMembers_iff.trans (hmembers c).symm
    unfold readClass
    split
    · rename_i heq
      exact absurd (congrArg List.head? heq) hnegated
    · rw [hspells.readItems]
      split
      · rename_i herror
        cases herror
      · rename_i hnone
        cases hnone
        exact absurd rfl hsome
      · rename_i hok
        cases hok
        rw [hlist]

end Pattern

end Automata
