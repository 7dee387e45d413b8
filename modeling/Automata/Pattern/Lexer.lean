import Automata.Pattern.Token
import Automata.SortedSet

namespace Automata

/-- The character with a number, unless the number is none of a character. -/
def charOfNat? (n : Nat) : Option Char :=
  if n.isValidChar then some (Char.ofNat n) else none

/-- A character that a number has is the one with that number. -/
theorem toNat_of_charOfNat? {n : Nat} {c : Char} (h : charOfNat? n = some c) : c.toNat = n := by
  by_cases hn : n.isValidChar
  · obtain rfl : Char.ofNat n = c := Option.some.inj ((if_pos hn).symm.trans h)
    exact congrArg Char.toNat (dif_pos hn)
  · exact absurd ((if_neg hn).symm.trans h) nofun

/-- All characters from the first to the last, both included. -/
def charRange (first last : Char) : SortedSet Char :=
  .ofAscending ((List.range' first.toNat (last.toNat + 1 - first.toNat)).filterMap charOfNat?) (by
    have ascending : (List.range' first.toNat (last.toNat + 1 - first.toNat)).Pairwise (· < ·) :=
      List.pairwise_lt_range'
    refine ascending.filterMap _ fun m n hmn c hc d hd => ?_
    show decide ((c.toNat : Int) < d.toNat) = true
    rw [toNat_of_charOfNat? hc, toNat_of_charOfNat? hd]
    simpa using hmn)

namespace Pattern

/-- One member of a class, escaped or not, and what comes after it. -/
def readMember (opening : Nat) : List Char → Except PatternError (Char × List Char)
  | [] | ['\\'] => .error (.unterminatedClass opening)
  | '\\' :: c :: rest => .ok (c, rest)
  | c :: rest => .ok (c, rest)

/-- Reading a member of a class uses up text. -/
theorem length_readMember {opening : Nat} {cs rest : List Char} {c : Char}
    (h : readMember opening cs = .ok (c, rest)) : rest.length < cs.length := by
  unfold readMember at h
  split at h <;> simp at h <;> obtain ⟨-, rfl⟩ := h <;> simp only [List.length_cons] <;> omega

/-- One item of a class, and what comes after it. A single member is the range from itself to
itself; a dash makes a longer range unless the class ends after it. -/
def readItem (opening : Nat) (cs : List Char) :
    Except PatternError ((Char × Char) × List Char) :=
  match readMember opening cs with
  | .error e => .error e
  | .ok (first, '-' :: next :: rest) =>
    if next = ']' then .ok ((first, first), '-' :: next :: rest)
    else
      match readMember opening (next :: rest) with
      | .error e => .error e
      | .ok (last, rest) =>
        if last < first then .error (.invalidRange first last) else .ok ((first, last), rest)
  | .ok (first, rest) => .ok ((first, first), rest)

/-- Reading an item of a class uses up text. -/
theorem length_readItem {opening : Nat} {cs rest : List Char} {item : Char × Char}
    (h : readItem opening cs = .ok (item, rest)) : rest.length < cs.length := by
  unfold readItem at h
  split at h
  · simp at h
  · rename_i hfirst
    have hfirst := length_readMember hfirst
    split at h
    · simp at h
      exact h.2 ▸ hfirst
    · split at h
      · simp at h
      · rename_i hlast
        have hlast := length_readMember hlast
        split at h
        · simp at h
        · simp at h
          obtain ⟨-, rfl⟩ := h
          simp only [List.length_cons] at *
          omega
  · rename_i hfirst
    simp at h
    exact h.2 ▸ length_readMember hfirst

/-- The items of a class up to its closing bracket, and what comes after the bracket. -/
def readItems (opening : Nat) (cs : List Char) :
    Except PatternError (List (Char × Char) × List Char) :=
  match cs with
  | [] => .error (.unterminatedClass opening)
  | ']' :: rest => .ok ([], rest)
  | c :: cs =>
    match _read : readItem opening (c :: cs) with
    | .error e => .error e
    | .ok (item, rest) => (readItems opening rest).map fun (items, rest) => (item :: items, rest)
termination_by cs.length
decreasing_by exact length_readItem _read

/-- Reading the items of a class uses up text, since a class ends with its
bracket. -/
theorem length_readItems {opening : Nat} {cs rest : List Char} {items : List (Char × Char)}
    (h : readItems opening cs = .ok (items, rest)) : rest.length < cs.length := by
  fun_induction readItems opening cs generalizing items rest with
  | case1 => simp at h
  | case2 => simp at h; simp [← h.2]
  | case3 => simp at h
  | case4 c cs _ item after hitem ih =>
    cases hrest : readItems opening after with
    | error e => simp [hrest, Except.map] at h
    | ok found =>
      simp only [hrest, Except.map, Except.ok.injEq, Prod.mk.injEq] at h
      have hafter := length_readItem hitem
      have hfound : found.2.length < after.length := ih hrest
      rw [← h.2]
      omega

/-- The symbols in any of the ranges. -/
def rangeMembers (items : List (Char × Char)) : SortedSet Char :=
  items.foldl (fun members (first, last) => charRange first last ∪ members) ∅

/-- The members of the class whose bracket stands at a position, and what comes after it. -/
def readClass (opening : Nat) (cs : List Char) : Except PatternError (List Char × List Char) :=
  match cs with
  | '^' :: _ => .error (.negatedClass opening)
  | _ =>
    match readItems opening cs with
    | .error e => .error e
    | .ok ([], _) => .error (.emptyClass opening)
    | .ok (items, rest) => .ok ((rangeMembers items).toList, rest)

/-- Reading a class uses up text. -/
theorem length_readClass {opening : Nat} {cs rest members : List Char}
    (h : readClass opening cs = .ok (members, rest)) : rest.length < cs.length := by
  unfold readClass at h
  split at h
  · simp at h
  · split at h
    · simp at h
    · simp at h
    · rename_i hitems
      simp at h
      exact h.2 ▸ length_readItems hitems

/-- The token that an unescaped character outside classes stands for. -/
def plainToken (position : Nat) : Char → Token
  | '*' => .star
  | '+' => .plus
  | '?' => .question
  | '|' => .alternation
  | '(' => .openGroup position
  | ')' => .closeGroup position
  | c => .literal c

/-- The tokens of the characters from a position on. -/
def lexFrom (position : Nat) (cs : List Char) : Except PatternError (List Token) :=
  match cs with
  | [] => .ok []
  | ['\\'] => .error .trailingEscape
  | '\\' :: c :: rest => (lexFrom (position + 2) rest).map (.literal c :: ·)
  | '[' :: rest =>
    match _read : readClass position rest with
    | .error e => .error e
    | .ok (members, after) =>
      (lexFrom (position + 1 + (rest.length - after.length)) after).map (.oneOf members :: ·)
  | c :: rest => (lexFrom (position + 1) rest).map (plainToken position c :: ·)
termination_by cs.length
decreasing_by
  all_goals simp only [List.length_cons]
  · omega
  · have := length_readClass _read
    omega
  · omega

/-- Without the anchor at the end, unless a backslash takes it as a literal: of a series of
backslashes before it, every second one is itself escaped. -/
def dropEndAnchor (cs : List Char) : List Char :=
  if cs.getLast? = some '$' &&
      (cs.dropLast.reverse.takeWhile (· = '\\')).length % 2 = 0 then cs.dropLast
  else cs

/-- The tokens that a pattern spells out. -/
def lexemes (pattern : List Char) : Except PatternError (List Token) :=
  match pattern with
  | '^' :: rest => lexFrom 1 (dropEndAnchor rest)
  | cs => lexFrom 0 (dropEndAnchor cs)

/-- The tokens of a pattern, with explicit concatenation. -/
def tokens (pattern : List Char) : Except PatternError (List Token) :=
  (lexemes pattern).map Token.insertConcat

end Pattern

end Automata
