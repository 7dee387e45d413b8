import Automata.Proofs.Result
import Automata.Wire.Fields
import Mathlib.Data.List.Nodup

namespace Automata

namespace Json

variable {α : Type} {encode : α → Json} {decode : Json → Decoded α}

/-- Numbers of states are read back if they are within the machine range. -/
theorem toId_int {id : StateId} (hfits : fitsStateId id = true) : (int id).toId = .ok id :=
  if_pos hfits

/-- A number that was read is within the machine range. -/
theorem fits_of_toId {j : Json} {id : StateId} (hid : j.toId = .ok id) :
    fitsStateId id = true := by
  cases j with
  | int n =>
    change (if fitsStateId n then Except.ok n else malformed) = .ok id at hid
    split at hid
    · rename_i hfits
      exact Except.ok.inj hid ▸ hfits
    · cases hid
  | _ => cases hid

/-- The largest natural number that is read, which has 64 bits. -/
def maxNat : Nat := 18446744073709551615

/-- Lengths are read back if they are within the machine range. -/
theorem toNat_nat {n : Nat} (hn : n ≤ maxNat) : (nat n).toNat = .ok n := by
  have hrange : (0 ≤ (n : Int) && (n : Int) ≤ 18446744073709551615) = true := by
    simp only [maxNat] at hn
    simp only [Bool.and_eq_true, decide_eq_true_eq]
    omega
  exact (if_pos hrange).trans (congrArg Except.ok (Int.toNat_natCast n))

theorem toChar_char (c : Char) : (char c).toChar = .ok c := by
  simp [char, toChar, Char.toString]

/-- Different characters are written differently. -/
theorem char_inj {c d : Char} : char c = char d ↔ c = d := by
  refine ⟨fun hchar => ?_, congrArg char⟩
  have hread := toChar_char c
  rw [hchar, toChar_char] at hread
  exact (Except.ok.inj hread).symm

/-- A list is read back if its members are. -/
theorem toList_list {as : List α} (has : ∀ a ∈ as, decode (encode a) = .ok a) :
    (list encode as).toList decode = .ok as := by
  have hread : as.mapM (decode ∘ encode) = .ok (as.map id) := mapM_eq_ok_of_forall has
  change (as.map encode).mapM decode = .ok as
  rw [List.mapM_map, hread, List.map_id]

/-- Every member of a list that was read was read from an item. -/
theorem exists_of_mem_toList {j : Json} {as : List α} (hlist : j.toList decode = .ok as) {a : α}
    (ha : a ∈ as) : ∃ item, decode item = .ok a := by
  cases j with
  | arr items =>
    obtain ⟨item, _, hitem⟩ := exists_of_mem_of_mapM_eq_ok hlist ha
    exact ⟨item, hitem⟩
  | _ => cases hlist

/-- Where nothing is written as null, an absent value is read back as absent and
any other as itself. -/
theorem toOption_option (hnull : ∀ a, encode a ≠ null) {a? : Option α}
    (ha : ∀ a ∈ a?, decode (encode a) = .ok a) : (option encode a?).toOption decode = .ok a? := by
  cases a? with
  | none => rfl
  | some a =>
    have hsome : (encode a).toOption decode = (decode (encode a)).map some := by
      unfold toOption
      split
      · rename_i hencode
        exact absurd hencode (hnull a)
      · rfl
    rw [option, hsome, ha a rfl]
    rfl

end Json

namespace Fields

variable {α : Type} {fields : Fields} {name : String} {decode : Json → Decoded α} {a : α}

/-- An object that repeats no name is taken apart into its fields. -/
theorem ofJson_obj {entries : List (String × Json)} (hnodup : (entries.map Prod.fst).Nodup)
    (names : List String) : ofJson names (.obj entries) = .ok ⟨entries, false⟩ := by
  refine if_pos (List.all_eq_true.2 fun name _ => decide_eq_true ?_)
  have hcount := List.nodup_iff_count_le_one.1 hnodup name
  rwa [List.count_eq_countP, List.countP_map, List.countP_eq_length_filter] at hcount

/-- A required field is read if it is there and its value is. -/
theorem required_eq_ok_iff :
    fields.required name decode = .ok a ↔
      ∃ value, fields.entries.lookup name = some value ∧ decode value = .ok a := by
  unfold required
  cases fields.entries.lookup name with
  | none => simp [Json.malformed]
  | some value => simp

end Fields

end Automata
