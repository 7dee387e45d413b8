import Automata.Proofs.Result
import Automata.Proofs.Run.Confinement
import Automata.Proofs.Wire.Fields
import Automata.Wire.Execution

namespace Automata

/-- A bound is read back from its name. -/
theorem Limit.ofJson_wireName (limit : Limit) : ofJson (.str limit.wireName) = .ok limit := by
  cases limit <;> rfl

/-- How a run stopped is read back from what was written. -/
theorem Halt.ofJson_toJson (halt : Halt) : ofJson halt.toJson = .ok halt := by
  cases halt with
  | endOfInput => rfl
  | noTransition => rfl
  | emptyFrontier => rfl
  | limitExceeded limit =>
    exact congrArg (Except.map limitExceeded) (Limit.ofJson_wireName limit)

/-- How a run stopped is never written as null, which stands for a run that goes
on. -/
theorem Halt.toJson_ne_null (halt : Halt) : halt.toJson ≠ .null := by
  cases halt <;> nofun

/-- A set is written in ascending order and read back from any. -/
theorem Frontier.ofJson_toJson {f : Frontier} (hf : ∀ id ∈ f, fitsStateId id = true) :
    ofJson (toJson f) = .ok f := by
  have hlist : (Json.list .int f.toList).toList Json.toId = .ok f.toList :=
    Json.toList_list fun id hid => Json.toId_int (hf id hid)
  rw [ofJson, toJson, hlist]
  exact congrArg Except.ok (SortedSet.ofList_toList f)

/-- The stack is turned around twice. -/
theorem Configuration.ofJson_toJson {c : Configuration} (hc : fitsStateId c.state = true) :
    ofJson c.toJson = .ok c := by
  have hstack : (Json.list .char c.stack.reverse).toList Json.toChar = .ok c.stack.reverse :=
    Json.toList_list fun symbol _ => Json.toChar_char symbol
  rw [ofJson, toJson, Fields.ofJson_obj (by simp)]
  simp [Fields.required, List.lookup_cons, bind, Except.bind, pure, Except.pure,
    Json.toId_int hc, hstack]

namespace Run

variable {C : Type} {r s : Run C} {decode : Json → Decoded C} {encode : C → Json}

/-- The check refuses a run that is not well formed and changes no other. -/
theorem check_eq_ok_iff : r.check = .ok s ↔ r.WellFormed ∧ r = s := by
  constructor
  · intro hcheck
    unfold check at hcheck
    split at hcheck
    · cases hcheck
    · rename_i hposition
      split at hcheck
      · cases hcheck
      · rename_i hhistory
        exact ⟨⟨not_not.1 hhistory, Nat.le_of_not_lt hposition⟩, Except.ok.inj hcheck⟩
  · rintro ⟨⟨hhistory, hposition⟩, rfl⟩
    rw [check, if_neg (Nat.not_lt.2 hposition), if_neg (not_not_intro hhistory)]

/-- A run is read if its fields are, and fit together. -/
theorem ofJson_eq_ok_iff {j : Json} :
    ofJson decode j = .ok r ↔ ofFields decode j = .ok r ∧ r.WellFormed := by
  unfold ofJson
  cases ofFields decode j with
  | error cause => simp [bind, Except.bind]
  | ok s =>
    change s.check = .ok r ↔ _
    rw [check_eq_ok_iff, Except.ok.injEq]
    constructor
    · rintro ⟨hs, rfl⟩
      exact ⟨rfl, hs⟩
    · rintro ⟨rfl, hs⟩
      exact ⟨hs, rfl⟩

/-- Every field is read back, provided the configurations are and the position
is a number of 64 bits. -/
theorem ofFields_toJson (hposition : r.position ≤ Json.maxNat)
    (hcurrent : decode (encode r.current) = .ok r.current)
    (hhistory : ∀ c ∈ r.history, decode (encode c) = .ok c) :
    ofFields decode (r.toJson encode) = .ok r := by
  have hreversed : (Json.list encode r.history.reverse).toList decode = .ok r.history.reverse :=
    Json.toList_list fun c hc => hhistory c (List.mem_reverse.1 hc)
  have hverdict : (Json.option .bool r.verdict).toOption Json.toBool = .ok r.verdict :=
    Json.toOption_option nofun fun _ _ => rfl
  have hhalt : (Json.option Halt.toJson r.halt).toOption Halt.ofJson = .ok r.halt :=
    Json.toOption_option Halt.toJson_ne_null fun halt _ => halt.ofJson_toJson
  rw [ofFields, toJson, Fields.ofJson_obj (by simp)]
  simp [Fields.required, Fields.optional, Fields.defaulted, List.lookup_cons, bind, Except.bind,
    pure, Except.pure, Json.toText, Json.chars, Json.toNat_nat hposition, hverdict, hhalt, hcurrent,
    hreversed]

end Run

namespace Execution

/-- The run inside is well formed. -/
def WellFormed (e : Execution) : Prop := e.fold Run.WellFormed

/-- A run is well formed if its history is as long as its position, within the
input. -/
theorem wellFormed_iff {e : Execution} :
    e.WellFormed ↔ e.historyLength = e.position ∧ e.position ≤ e.input.length := by
  cases e <;> exact Iff.rfl

/-- What a value is read as under a tag. -/
inductive ReadUnder (readRun : {C : Type} → (Json → Decoded C) → Json → Decoded (Run C))
    (value : Json) : String → Execution → Prop where
  | deterministic {r : Run StateId} (hrun : readRun Json.toId value = .ok r) :
    ReadUnder readRun value "deterministic" (.deterministic r)
  | frontier {r : Run Frontier} (hrun : readRun Frontier.ofJson value = .ok r) :
    ReadUnder readRun value "frontier" (.frontier r)
  | stack {r : Run Configuration} (hrun : readRun Configuration.ofJson value = .ok r) :
    ReadUnder readRun value "stack" (.stack r)

/-- A run is read as the kind that it names, from the state that comes with
it. -/
theorem readWith_eq_ok_iff {readRun : {C : Type} → (Json → Decoded C) → Json → Decoded (Run C)}
    {j : Json} {e : Execution} :
    readWith readRun j = .ok e ↔
      ∃ fields tag value, Fields.ofJson ["kind", "state"] j = .ok fields ∧
        fields.required "kind" Json.toUnitName = .ok tag ∧
        fields.entries.lookup "state" = some value ∧ ReadUnder readRun value tag e := by
  constructor
  · intro hread
    obtain ⟨fields, hfields, hread⟩ := exists_of_bind_eq_ok hread
    obtain ⟨tag, htag, hread⟩ := exists_of_bind_eq_ok hread
    -- a value is read under each of the three tags and under no other
    split at hread
    · obtain ⟨r, hrun, hwrap⟩ := exists_of_bind_eq_ok hread
      cases hwrap
      obtain ⟨value, hvalue, hrun⟩ := Fields.required_eq_ok_iff.1 hrun
      exact ⟨fields, _, value, hfields, htag, hvalue, .deterministic hrun⟩
    · obtain ⟨r, hrun, hwrap⟩ := exists_of_bind_eq_ok hread
      cases hwrap
      obtain ⟨value, hvalue, hrun⟩ := Fields.required_eq_ok_iff.1 hrun
      exact ⟨fields, _, value, hfields, htag, hvalue, .frontier hrun⟩
    · obtain ⟨r, hrun, hwrap⟩ := exists_of_bind_eq_ok hread
      cases hwrap
      obtain ⟨value, hvalue, hrun⟩ := Fields.required_eq_ok_iff.1 hrun
      exact ⟨fields, _, value, hfields, htag, hvalue, .stack hrun⟩
    · cases hread
  · rintro ⟨fields, tag, value, hfields, htag, hvalue, hunder⟩
    have hstate {α : Type} {decode : Json → Decoded α} {a : α} (ha : decode value = .ok a) :
        fields.required "state" decode = .ok a :=
      Fields.required_eq_ok_iff.2 ⟨value, hvalue, ha⟩
    cases hunder with
    | deterministic hrun =>
      exact bind_eq_ok hfields (bind_eq_ok htag (bind_eq_ok (hstate hrun) rfl))
    | frontier hrun => exact bind_eq_ok hfields (bind_eq_ok htag (bind_eq_ok (hstate hrun) rfl))
    | stack hrun => exact bind_eq_ok hfields (bind_eq_ok htag (bind_eq_ok (hstate hrun) rfl))

theorem readUnder_ofJson_iff {value : Json} {tag : String} {e : Execution} :
    ReadUnder Run.ofJson value tag e ↔ ReadUnder Run.ofFields value tag e ∧ e.WellFormed := by
  constructor
  · rintro (hrun | hrun | hrun)
    · obtain ⟨hfields, hr⟩ := Run.ofJson_eq_ok_iff.1 hrun
      exact ⟨.deterministic hfields, hr⟩
    · obtain ⟨hfields, hr⟩ := Run.ofJson_eq_ok_iff.1 hrun
      exact ⟨.frontier hfields, hr⟩
    · obtain ⟨hfields, hr⟩ := Run.ofJson_eq_ok_iff.1 hrun
      exact ⟨.stack hfields, hr⟩
  · rintro ⟨hfields | hfields | hfields, hr⟩
    · exact .deterministic (Run.ofJson_eq_ok_iff.2 ⟨hfields, hr⟩)
    · exact .frontier (Run.ofJson_eq_ok_iff.2 ⟨hfields, hr⟩)
    · exact .stack (Run.ofJson_eq_ok_iff.2 ⟨hfields, hr⟩)

/-- Of the runs whose fields can be read, those that are well formed are
accepted, as they are. -/
theorem ofJson_eq_ok_iff {j : Json} {e : Execution} :
    ofJson j = .ok e ↔ ofFields j = .ok e ∧ e.WellFormed := by
  simp only [ofJson, ofFields, readWith_eq_ok_iff, readUnder_ofJson_iff]
  constructor
  · rintro ⟨fields, tag, value, hfields, htag, hvalue, hunder, he⟩
    exact ⟨⟨fields, tag, value, hfields, htag, hvalue, hunder⟩, he⟩
  · rintro ⟨⟨fields, tag, value, hfields, htag, hvalue, hunder⟩, he⟩
    exact ⟨fields, tag, value, hfields, htag, hvalue, hunder, he⟩

/-- The position has 64 bits and the state numbers have 32. -/
def Fits : Execution → Prop
  | deterministic r => r.position ≤ Json.maxNat ∧ r.Throughout fun id => fitsStateId id = true
  | frontier r => r.position ≤ Json.maxNat ∧ r.Throughout fun f => ∀ id ∈ f, fitsStateId id = true
  | stack r => r.position ≤ Json.maxNat ∧ r.Throughout fun c => fitsStateId c.state = true

/-- A run that was written can be read field by field. -/
theorem ofFields_toJson {e : Execution} (hfits : e.Fits) : ofFields e.toJson = .ok e := by
  have htagged (tag : String) (value : Json) :
      Fields.ofJson ["kind", "state"] (.obj [("kind", .str tag), ("state", value)]) =
        .ok ⟨[("kind", .str tag), ("state", value)], false⟩ :=
    Fields.ofJson_obj (by simp) _
  refine readWith_eq_ok_iff.2 ?_
  cases e with
  | deterministic r =>
    obtain ⟨hposition, hcurrent, hhistory⟩ := hfits
    refine ⟨_, _, _, htagged _ _, rfl, rfl, .deterministic ?_⟩
    exact Run.ofFields_toJson hposition (Json.toId_int hcurrent)
      fun id hid => Json.toId_int (hhistory id hid)
  | frontier r =>
    obtain ⟨hposition, hcurrent, hhistory⟩ := hfits
    refine ⟨_, _, _, htagged _ _, rfl, rfl, .frontier ?_⟩
    exact Run.ofFields_toJson hposition (Frontier.ofJson_toJson hcurrent)
      fun f hf => Frontier.ofJson_toJson (hhistory f hf)
  | stack r =>
    obtain ⟨hposition, hcurrent, hhistory⟩ := hfits
    refine ⟨_, _, _, htagged _ _, rfl, rfl, .stack ?_⟩
    exact Run.ofFields_toJson hposition (Configuration.ofJson_toJson hcurrent)
      fun c hc => Configuration.ofJson_toJson (hhistory c hc)

/-- A well-formed run is read back as it was written. -/
theorem ofJson_toJson {e : Execution} (he : e.WellFormed) (hfits : e.Fits) :
    ofJson e.toJson = .ok e :=
  ofJson_eq_ok_iff.2 ⟨ofFields_toJson hfits, he⟩

/-- A state number of more than 32 bits is written but not read. -/
example : ofJson (deterministic { input := [], current := 2147483648 }).toJson =
    .error .malformed :=
  rfl

end Execution

end Automata
