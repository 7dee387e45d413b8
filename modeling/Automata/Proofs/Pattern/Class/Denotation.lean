import Automata.Proofs.Pattern.Rejection

namespace Automata

/-- What the author of a class wants in it. -/
inductive ClassItem where
  | single (c : Char)
  | range (first last : Char)
deriving DecidableEq

namespace ClassItem

/-- The item with every character escaped. -/
def spelling : ClassItem → List Char
  | single c => ['\\', c]
  | range first last => ['\\', first, '-', '\\', last]

/-- The ends of the range, a single symbol as the range from itself to itself. -/
def ends : ClassItem → Char × Char
  | single c => (c, c)
  | range first last => (first, last)

/-- The range is the right way round. A single symbol always is. -/
def Ordered (item : ClassItem) : Prop := item.ends.1 ≤ item.ends.2

instance (item : ClassItem) : Decidable item.Ordered :=
  inferInstanceAs (Decidable (item.ends.1 ≤ item.ends.2))

/-- The symbols that the item stands for. -/
def Denotes : ClassItem → Char → Prop
  | single c, x => x = c
  | range first last, x => first ≤ x ∧ x ≤ last

/-- An item denotes what lies between its ends. -/
theorem denotes_iff {item : ClassItem} {x : Char} :
    item.Denotes x ↔ item.ends.1 ≤ x ∧ x ≤ item.ends.2 := by
  cases item with
  | single c =>
    constructor
    · rintro rfl
      exact ⟨Char.le_refl x, Char.le_refl x⟩
    · rintro ⟨hlow, hhigh⟩
      exact Char.le_antisymm hhigh hlow
  | range first last => rfl

/-- The spelling of a class with the given items. -/
def classSpelling (items : List ClassItem) : List Char :=
  '[' :: (items.flatMap spelling ++ [']'])

/-- The items begin with a backslash, if there are any. -/
theorem head?_spellings_ne {c : Char} {rest : List Char} (items : List ClassItem)
    (hescape : c ≠ '\\') (hrest : rest.head? ≠ some c) :
    (items.flatMap spelling ++ rest).head? ≠ some c := by
  cases items with
  | nil => exact hrest
  | cons item items => cases item <;> exact fun hhead => hescape (Option.some.inj hhead).symm

end ClassItem

namespace Token

/-- Making concatenation explicit keeps all other tokens. -/
theorem mem_insertConcat_iff {t : Token} {ts : List Token} (ht : t ≠ .concat) :
    t ∈ insertConcat ts ↔ t ∈ ts := by
  have hraw := raw_insertConcat ts
  have hmem (us : List Token) : t ∈ raw us ↔ t ∈ us := by
    rw [raw, List.mem_filter]
    exact and_iff_left (decide_eq_true ht)
  rw [← hmem, hraw, hmem]

end Token

namespace Pattern

open ClassItem

variable {opening : Nat} {items : List ClassItem} {cs rest : List Char} {e : PatternError}

/-- An item that is the right way round is read back, unless a range could go on
behind it. -/
theorem readItem_of_ordered {item : ClassItem} (hordered : item.Ordered)
    (hrest : rest.head? ≠ some '-') :
    readItem opening (item.spelling ++ rest) = .ok (item.ends, rest) := by
  cases item with
  | single c =>
    have hmember := (SpellsMember.escaped c).readMember opening rest
    rw [readItem, spelling, hmember]
    split
    · rename_i herror
      cases herror
    · rename_i hok
      cases hok
      exact absurd rfl hrest
    · rename_i hok
      cases hok
      rfl
  | range first last =>
    exact readItem_range opening (.escaped first) (.escaped last) hordered rest

/-- A range that is the wrong way round is reported. -/
theorem readItem_of_inverted {first last : Char} (hinverted : last < first) (rest : List Char) :
    readItem opening ((ClassItem.range first last).spelling ++ rest) =
      .error (.invalidRange first last) := by
  simp [readItem, readMember, spelling, hinverted]

/-- An item that cannot be read ends the class. -/
theorem readItems_of_readItem_eq_error (hitem : readItem opening cs = .error e)
    (hclose : cs.head? ≠ some ']') : readItems opening cs = .error e := by
  rw [readItems.eq_def]
  split
  · cases hitem
    rfl
  · exact absurd rfl hclose
  · split
    · rename_i hread
      rw [Except.error.inj (hread.symm.trans hitem)]
    · rename_i hread
      cases hread.symm.trans hitem

/-- Items that are the right way round are read one by one, up to whatever comes
after them. -/
theorem readItems_spellings (hordered : ∀ item ∈ items, item.Ordered)
    (hrest : rest.head? ≠ some '-') :
    readItems opening (items.flatMap spelling ++ rest) =
      (readItems opening rest).map fun (found, after) => (items.map ends ++ found, after) := by
  induction items with
  | nil =>
    rw [List.flatMap_nil, List.nil_append]
    cases readItems opening rest <;> rfl
  | cons item items ih =>
    obtain ⟨hfirst, hmore⟩ := List.forall_mem_cons.1 hordered
    have hnext : (items.flatMap spelling ++ rest).head? ≠ some '-' :=
      head?_spellings_ne items (by decide) hrest
    have hclose : (item.spelling ++ (items.flatMap spelling ++ rest)).head? ≠ some ']' := by
      cases item <;> exact nofun
    rw [List.flatMap_cons, List.append_assoc,
      readItems_cons (readItem_of_ordered hfirst hnext) hclose, ih hmore]
    cases readItems opening rest <;> rfl

/-- The items of a class spell it out, if they are all the right way round. -/
theorem spellsItems_spellings (hordered : ∀ item ∈ items, item.Ordered) :
    SpellsItems (items.flatMap spelling ++ [']']) (items.map ends) := by
  have hread : readItems 0 (items.flatMap spelling ++ [']']) =
      (readItems 0 [']']).map fun (found, after) => (items.map ends ++ found, after) :=
    readItems_spellings hordered (by decide)
  rw [show readItems 0 [']'] = .ok ([], []) from SpellsItems.close.readItems 0 []] at hread
  obtain ⟨text, hspells, htext⟩ := exists_spellsItems hread
  rwa [htext, List.append_nil, ← List.append_nil (items.map ends)]

/-- The first range that is the wrong way round is the error, whatever comes after
it. -/
theorem readItems_of_inverted {first last : Char} (hordered : ∀ item ∈ items, item.Ordered)
    (hinverted : last < first) (rest : List Char) :
    readItems opening (items.flatMap spelling ++ ((ClassItem.range first last).spelling ++ rest)) =
      .error (.invalidRange first last) := by
  have herror : readItems opening ((ClassItem.range first last).spelling ++ rest) =
      .error (.invalidRange first last) :=
    readItems_of_readItem_eq_error (readItem_of_inverted hinverted rest) (by simp [spelling])
  rw [readItems_spellings hordered (by simp [spelling]), herror]
  rfl

/-- What is wrong with an item is wrong with the class. -/
theorem readClass_of_readItems_eq_error (hitems : readItems opening cs = .error e)
    (hnegated : cs.head? ≠ some '^') : readClass opening cs = .error e := by
  unfold readClass
  split
  · exact absurd rfl hnegated
  · rw [hitems]

/-- What is wrong with a class is wrong with the pattern. -/
theorem lexFrom_of_readClass_eq_error (hclass : readClass opening cs = .error e) :
    lexFrom opening ('[' :: cs) = .error e := by
  rw [lexFrom]
  split
  · rename_i hread
    rw [Except.error.inj (hread.symm.trans hclass)]
  · rename_i hread
    cases hread.symm.trans hclass

/-- A pattern between brackets has no anchors. -/
theorem tokens_bracketed (cs : List Char) :
    tokens ('[' :: (cs ++ [']'])) =
      (lexFrom 0 ('[' :: (cs ++ [']']))).map Token.insertConcat := by
  have hlast : ('[' :: (cs ++ [']'])).getLast? ≠ some '$' := by
    rw [← List.cons_append, List.getLast?_concat]
    decide
  rw [tokens, lexemes, dropEndAnchor_of_getLast?_ne hlast]
  rintro rest heq
  cases heq

/-- Items that are the right way round make one class of all symbols between
their ends. -/
theorem tokens_of_ordered (hsome : items ≠ []) (hordered : ∀ item ∈ items, item.Ordered) :
    tokens (classSpelling items) = .ok [.oneOf (rangeMembers (items.map ends)).toList] := by
  have hnegated : (items.flatMap spelling ++ [']']).head? ≠ some '^' :=
    head?_spellings_ne items (by decide) (by decide)
  have hclass := (spellsItems_spellings hordered).spellsClass (by simpa using hsome) hnegated
  have hspells : Spells 0 ('[' :: (items.flatMap spelling ++ [']'] ++ [])) [.oneOf _] :=
    .oneOf hclass (.nil _)
  rw [List.append_nil] at hspells
  rw [classSpelling, tokens_bracketed, lexFrom_eq_ok_iff.2 hspells]
  rfl

/-- The first range that is the wrong way round is the one that is reported. -/
theorem tokens_of_inverted {front back : List ClassItem} {first last : Char}
    (hordered : ∀ item ∈ front, item.Ordered) (hinverted : last < first) :
    tokens (classSpelling (front ++ .range first last :: back)) =
      .error (.invalidRange first last) := by
  have hnegated : (front.flatMap spelling ++ ((ClassItem.range first last).spelling ++
      (back.flatMap spelling ++ [']']))).head? ≠ some '^' :=
    head?_spellings_ne front (by decide) (by simp [spelling])
  have hclass : readClass 0 _ = .error (.invalidRange first last) :=
    readClass_of_readItems_eq_error (readItems_of_inverted hordered hinverted _) hnegated
  rw [classSpelling, tokens_bracketed, List.flatMap_append, List.flatMap_cons,
    List.append_assoc, List.append_assoc, lexFrom_of_readClass_eq_error hclass]
  rfl

/-- The items of a class that was read are the right way round. -/
theorem SpellsItems.ordered {text : List Char} {ranges : List (Char × Char)}
    (hspells : SpellsItems text ranges) : ∀ range ∈ ranges, range.1 ≤ range.2 := by
  induction hspells with
  | close => exact nofun
  | single _ _ _ ih => exact List.forall_mem_cons.2 ⟨Char.le_refl _, ih⟩
  | range _ _ horder _ ih => exact List.forall_mem_cons.2 ⟨horder, ih⟩

/-- A class has a member, since each of its items has. -/
theorem SpellsClass.ne_nil {text members : List Char} (hclass : SpellsClass text members) :
    members ≠ [] := by
  obtain ⟨hitems, hsome, _, _, hmembers⟩ := hclass
  obtain ⟨range, hrange⟩ := List.exists_mem_of_ne_nil _ hsome
  have hfirst := (hmembers range.1).2 ⟨range, hrange, Char.le_refl _, hitems.ordered range hrange⟩
  exact List.ne_nil_of_mem hfirst

/-- The members of a class are ascending. -/
theorem SpellsClass.pairwise_lt {text members : List Char} (hclass : SpellsClass text members) :
    members.Pairwise (· < ·) := by
  obtain ⟨_, _, _, hsorted, _⟩ := hclass
  exact hsorted

/-- Every class among the tokens of a pattern has members, in ascending
order. -/
theorem Spells.classes_sorted {position : Nat} {ts : List Token} {members : List Char}
    (hspells : Spells position cs ts) (hmem : .oneOf members ∈ ts) :
    members ≠ [] ∧ members.Pairwise (· < ·) := by
  induction hspells with
  | nil => cases hmem
  | escaped _ ih => exact ih (by simpa using hmem)
  | oneOf hclass _ ih =>
    obtain heq | hmem := List.mem_cons.1 hmem
    · cases heq
      exact ⟨hclass.ne_nil, hclass.pairwise_lt⟩
    · exact ih hmem
  | plain hplain _ ih =>
    obtain heq | hmem := List.mem_cons.1 hmem
    · rw [← heq] at hplain
      cases hplain
    · exact ih hmem

/-- A class with its items spelled out is read as one token for the symbols in any
of the items, in ascending order and each once, however the items overlap. If a
range is the wrong way round, the first such range is the error. The classes of
any pattern are ascending and not empty. -/
theorem class_denotes_items :
    (∀ items : List ClassItem, items ≠ [] → (∀ item ∈ items, item.Ordered) →
      ∃ members, tokens (classSpelling items) = .ok [.oneOf members] ∧
        members.Pairwise (· < ·) ∧ ∀ x, x ∈ members ↔ ∃ item ∈ items, item.Denotes x) ∧
    (∀ front first last back, (∀ item ∈ front, item.Ordered) → last < first →
      tokens (classSpelling (front ++ .range first last :: back)) =
        .error (.invalidRange first last)) ∧
    ∀ pattern ts, tokens pattern = .ok ts → ∀ members, .oneOf members ∈ ts →
      members ≠ [] ∧ members.Pairwise (· < ·) := by
  refine ⟨fun items hsome hordered => ?_, fun _ _ _ _ => tokens_of_inverted, ?_⟩
  · refine ⟨_, tokens_of_ordered hsome hordered,
      (rangeMembers _).ascending.imp before_eq_true_iff.1, fun x => ?_⟩
    simp only [SortedSet.mem_toList, mem_rangeMembers_iff, List.mem_map, denotes_iff,
      exists_exists_and_eq_and]
  · intro pattern ts htokens members hmem
    obtain ⟨us, hlexemes, rfl⟩ := exists_of_map_eq_ok htokens
    rw [Token.mem_insertConcat_iff Token.noConfusion] at hmem
    cases lexemes_eq_ok_iff.1 hlexemes with
    | anchored _ hspells | plain _ _ hspells => exact hspells.classes_sorted hmem

/-- Overlapping items made of characters that mean something in a class; two ranges
that are the wrong way round, of which the first is reported; and a class in front
of an operator. -/
theorem class_denotes_items_of_brackets :
    (∃ members, tokens "[\\[-\\^\\]\\-]".toList = .ok [.oneOf members] ∧
      members.Pairwise (· < ·) ∧ ∀ x, x ∈ members ↔
        ∃ item ∈ [ClassItem.range '[' '^', .single ']', .single '-'], item.Denotes x) ∧
    tokens "[\\a\\z-\\a\\9-\\0]".toList = .error (.invalidRange 'z' 'a') ∧
    ∃ ts, tokens "[\\a]*".toList = .ok ts ∧ .oneOf ['a'] ∈ ts ∧
      ['a'] ≠ [] ∧ ['a'].Pairwise (· < ·) := by
  obtain ⟨hdenotes, hreports, hsorted⟩ := class_denotes_items
  have hstar : Lexes "[\\a]*".toList [.oneOf ['a'], .star] := by
    have hitems : SpellsItems ['\\', 'a', ']'] [('a', 'a')] := .single (.escaped 'a') nofun .close
    have hclass : SpellsClass ['\\', 'a', ']'] ['a'] :=
      hitems.spellsClass (by decide) (by decide)
    exact .plain (by decide) (.of_getLast?_ne (by decide)) (.oneOf hclass (.plain .star (.nil 5)))
  have htokens := tokens_eq_of_lexes hstar
  exact ⟨hdenotes [.range '[' '^', .single ']', .single '-'] (by decide) (by decide),
    hreports [.single 'a'] 'z' 'a' [.range '9' '0'] (by decide) (by decide),
    _, htokens, List.mem_cons_self, hsorted _ _ htokens ['a'] List.mem_cons_self⟩

end Pattern

end Automata
