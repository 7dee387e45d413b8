import Automata.Text.Quoted
import Mathlib.Data.List.Basic

namespace Automata

namespace Text

/-- Different digits are written differently. -/
theorem digitChar_inj {m n : Nat} (hm : m < 16) (hn : n < 16)
    (hsame : m.digitChar = n.digitChar) : m = n := by
  have hall : ∀ i : Fin 16, ∀ j : Fin 16, i.val.digitChar = j.val.digitChar → i = j := by decide
  exact congrArg Fin.val (hall ⟨m, hm⟩ ⟨n, hn⟩ hsame)

/-- No digit is a brace. -/
theorem digitChar_ne_brace {n : Nat} (hn : n < 16) : n.digitChar ≠ '\x7d' := by
  have hall : ∀ i : Fin 16, i.val.digitChar ≠ '\x7d' := by decide
  exact hall ⟨n, hn⟩

/-- No brace stands in a number, so that the brace behind a number ends it. -/
theorem brace_notMem_toDigits (n : Nat) : '\x7d' ∉ Nat.toDigits 16 n := by
  induction n using Nat.strongRecOn with
  | ind n ih =>
    rw [Nat.toDigits_eq_if (by omega)]
    split
    · rename_i hsmall
      rw [List.mem_singleton]
      exact (digitChar_ne_brace hsmall).symm
    · rename_i hlarge
      rw [List.mem_append, List.mem_singleton, not_or]
      exact ⟨ih (n / 16) (by omega), (digitChar_ne_brace (by omega)).symm⟩

/-- Different numbers are written differently. -/
theorem toDigits_inj {m n : Nat} (hsame : Nat.toDigits 16 m = Nat.toDigits 16 n) : m = n := by
  induction m using Nat.strongRecOn generalizing n with
  | ind m ih =>
    rw [Nat.toDigits_eq_if (by omega), Nat.toDigits_eq_if (n := n) (by omega)] at hsame
    by_cases hm : m < 16
    · by_cases hn : n < 16
      · rw [if_pos hm, if_pos hn] at hsame
        exact digitChar_inj hm hn (List.singleton_inj.1 hsame)
      · rw [if_pos hm, if_neg hn] at hsame
        have hlength := congrArg List.length hsame
        have hpositive := Nat.length_toDigits_pos (b := 16) (n := n / 16)
        simp only [List.length_singleton, List.length_append] at hlength
        omega
    · by_cases hn : n < 16
      · rw [if_neg hm, if_pos hn] at hsame
        have hlength := congrArg List.length hsame
        have hpositive := Nat.length_toDigits_pos (b := 16) (n := m / 16)
        simp only [List.length_singleton, List.length_append] at hlength
        omega
      · rw [if_neg hm, if_neg hn] at hsame
        obtain ⟨hfront, hlast⟩ := List.append_inj' hsame rfl
        have hquotient := ih (m / 16) (by omega) hfront
        have hremainder := digitChar_inj (by omega) (by omega) (List.singleton_inj.1 hlast)
        omega

/-- Lists that are split at the first place of a value have been split alike. -/
theorem append_cons_inj_of_notMem_left {α : Type} {a : α} {front back x y : List α}
    (hfront : a ∉ front) (hback : a ∉ back) (hsame : front ++ a :: x = back ++ a :: y) :
    front = back ∧ x = y := by
  induction front generalizing back with
  | nil =>
    cases back with
    | nil => exact ⟨rfl, (List.cons.inj hsame).2⟩
    | cons b back =>
      obtain rfl := (List.cons.inj hsame).1
      exact absurd List.mem_cons_self hback
  | cons b front ih =>
    cases back with
    | nil =>
      obtain rfl := (List.cons.inj hsame).1
      exact absurd List.mem_cons_self hfront
    | cons c back =>
      obtain ⟨rfl, hrest⟩ := List.cons.inj hsame
      obtain ⟨rfl, hxy⟩ := ih (mt (List.mem_cons_of_mem _) hfront)
        (mt (List.mem_cons_of_mem _) hback) hrest
      exact ⟨rfl, hxy⟩

/-- The character that is named by a letter after a backslash. -/
def named? : Char → Option Char
  | '0' => some '\x00'
  | 't' => some '\t'
  | 'r' => some '\r'
  | 'n' => some '\n'
  | '"' => some '"'
  | '\\' => some '\\'
  | _ => none

/-- The ways in which a character stands between quotes: by name, by number, or as it is. -/
inductive Shape (c : Char) : List Char → Prop where
  | named {name : Char} (hname : named? name = some c) : Shape c ['\\', name]
  | numbered : Shape c ('\\' :: 'u' :: '\x7b' :: (Nat.toDigits 16 c.toNat ++ ['\x7d']))
  | plain (hquote : c ≠ '"') (hbackslash : c ≠ '\\') : Shape c [c]

/-- Every character is written in one of the shapes. -/
theorem shape_quotedChar (c : Char) : Shape c (quotedChar c).toList := by
  unfold quotedChar
  split
  · exact .named rfl
  · exact .named rfl
  · exact .named rfl
  · exact .named rfl
  · exact .named rfl
  · exact .named rfl
  · rename_i hquote hbackslash
    have hplain : Shape c c.toString.toList := by
      simpa using Shape.plain hquote hbackslash
    split
    · exact hplain
    · split
      · simpa [hex] using Shape.numbered
      · exact hplain

namespace Shape

variable {c d : Char} {u v x y : List Char}

/-- What stands for a character ends where it can be told to end. -/
theorem append_inj (hu : Shape c u) (hv : Shape d v) (hsame : u ++ x = v ++ y) :
    c = d ∧ x = y := by
  cases hu with
  | named hname =>
    cases hv with
    | named hname' =>
      simp only [List.cons_append, List.nil_append, List.cons.injEq, true_and] at hsame
      obtain ⟨rfl, rfl⟩ := hsame
      rw [hname, Option.some.injEq] at hname'
      exact ⟨hname', rfl⟩
    | numbered =>
      simp only [List.cons_append, List.nil_append, List.cons.injEq, true_and] at hsame
      obtain ⟨rfl, _⟩ := hsame
      cases hname
    | plain _ hbackslash =>
      simp only [List.cons_append, List.nil_append, List.cons.injEq] at hsame
      exact absurd hsame.1.symm hbackslash
  | numbered =>
    cases hv with
    | named hname =>
      simp only [List.cons_append, List.nil_append, List.cons.injEq, true_and] at hsame
      obtain ⟨rfl, _⟩ := hsame
      cases hname
    | numbered =>
      simp only [List.cons_append, List.append_assoc, List.nil_append, List.cons.injEq,
        true_and] at hsame
      obtain ⟨hdigits, hrest⟩ := append_cons_inj_of_notMem_left (brace_notMem_toDigits _)
        (brace_notMem_toDigits _) hsame
      exact ⟨Char.toNat_inj.1 (toDigits_inj hdigits), hrest⟩
    | plain _ hbackslash =>
      simp only [List.cons_append, List.nil_append, List.cons.injEq] at hsame
      exact absurd hsame.1.symm hbackslash
  | plain _ hbackslash =>
    cases hv with
    | named hname =>
      simp only [List.cons_append, List.nil_append, List.cons.injEq] at hsame
      exact absurd hsame.1 hbackslash
    | numbered =>
      simp only [List.cons_append, List.nil_append, List.cons.injEq] at hsame
      exact absurd hsame.1 hbackslash
    | plain =>
      simp only [List.cons_append, List.nil_append, List.cons.injEq] at hsame
      exact hsame

/-- Nothing that stands for a character begins like the closing quote. -/
theorem ne_quote_cons (hu : Shape c u) : u ++ x ≠ '"' :: y := by
  intro hsame
  cases hu with
  | named => simp at hsame
  | numbered => simp at hsame
  | plain hquote => exact hquote (List.cons.inj hsame).1

end Shape

/-- What is written before the closing quote tells what it stands for. -/
theorem flatMap_quotedChar_inj {cs ds x y : List Char}
    (hsame : (cs.flatMap fun c => (quotedChar c).toList) ++ '"' :: x =
      (ds.flatMap fun c => (quotedChar c).toList) ++ '"' :: y) : cs = ds ∧ x = y := by
  induction cs generalizing ds with
  | nil =>
    cases ds with
    | nil => exact ⟨rfl, (List.cons.inj hsame).2⟩
    | cons d ds =>
      rw [List.flatMap_cons, List.append_assoc] at hsame
      exact absurd hsame.symm (shape_quotedChar d).ne_quote_cons
  | cons c cs ih =>
    rw [List.flatMap_cons, List.append_assoc] at hsame
    cases ds with
    | nil => exact absurd hsame (shape_quotedChar c).ne_quote_cons
    | cons d ds =>
      rw [List.flatMap_cons, List.append_assoc] at hsame
      obtain ⟨rfl, hrest⟩ := (shape_quotedChar c).append_inj (shape_quotedChar d) hsame
      obtain ⟨rfl, hx⟩ := ih hrest
      exact ⟨rfl, hx⟩

/-- A quoted text tells where it ends and what it stands for. -/
theorem quoted_append_inj {cs ds : List Char} {s t : String}
    (hsame : quoted cs ++ s = quoted ds ++ t) : cs = ds ∧ s = t := by
  have hlists := congrArg String.toList hsame
  simp only [quoted, String.toList_append, String.toList_join, List.flatMap_map] at hlists
  obtain ⟨hcs, hrest⟩ := flatMap_quotedChar_inj (x := s.toList) (y := t.toList) (by simpa using hlists)
  exact ⟨hcs, String.toList_inj.1 hrest⟩

end Text

end Automata
