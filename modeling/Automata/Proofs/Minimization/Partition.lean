import Automata.Minimization.Table
import Mathlib.Data.Finset.Card

namespace Automata

/-- A partition of some listed states by a colouring: the numbers of the states
in list order are their colours, and no number below the count is left out. -/
structure Partition.Colours (p : Partition) (states : List StateId) (colour : StateId → Nat) :
    Prop where
  blocks : p.blocks = states.map colour
  lt_count_iff : ∀ b, b < p.count ↔ ∃ id ∈ states, colour id = b

/-- Two colourings of the same states that tell the same states apart. -/
def SamePartition (states : List StateId) (colour colour' : StateId → Nat) : Prop :=
  ∀ p ∈ states, ∀ q ∈ states, colour p = colour q ↔ colour' p = colour' q

namespace Partition

/-- Different keys first appear at different places. -/
theorem idxOf_fresh_inj {κ : Type} [DecidableEq κ] {keys : List κ} {a b : κ} (ha : a ∈ keys)
    (hb : b ∈ keys) : (fresh [] keys).idxOf a = (fresh [] keys).idxOf b ↔ a = b := by
  constructor
  · intro hindex
    exact (List.idxOf_inj (mem_fresh.2 ⟨ha, List.not_mem_nil⟩)).1 hindex
  · rintro rfl
    rfl

/-- The numbers given out are those below the count. -/
theorem mem_blocks_ofKeys_iff {κ : Type} [DecidableEq κ] {keys : List κ} {b : Nat} :
    b ∈ (ofKeys keys).blocks ↔ b < (ofKeys keys).count := by
  have hcount : (ofKeys keys).count = (fresh [] keys).length := rfl
  rw [hcount]
  constructor
  · intro hb
    obtain ⟨k, hk, rfl⟩ := List.mem_map.1 hb
    exact List.idxOf_lt_length_of_mem (mem_fresh.2 ⟨hk, List.not_mem_nil⟩)
  · intro hb
    have hfirst : (fresh [] keys)[b] ∈ fresh [] keys := List.getElem_mem hb
    exact List.mem_map.2 ⟨_, (mem_fresh.1 hfirst).1, nodup_fresh.idxOf_getElem b hb⟩

/-- Numbering keys by first appearance colours the states by their keys. -/
theorem colours_ofKeys {κ : Type} [DecidableEq κ] (states : List StateId) (key : StateId → κ) :
    (ofKeys (states.map key)).Colours states
      fun id => (fresh [] (states.map key)).idxOf (key id) := by
  refine ⟨by simp [ofKeys], fun b => ?_⟩
  rw [← mem_blocks_ofKeys_iff, ofKeys, List.map_map, List.mem_map]
  rfl

/-- States are in one block exactly if they have the same key. -/
theorem colour_ofKeys_eq_iff {κ : Type} [DecidableEq κ] {states : List StateId}
    {key : StateId → κ} {p q : StateId} (hp : p ∈ states) (hq : q ∈ states) :
    (fresh [] (states.map key)).idxOf (key p) = (fresh [] (states.map key)).idxOf (key q) ↔
      key p = key q :=
  idxOf_fresh_inj (List.mem_map_of_mem hp) (List.mem_map_of_mem hq)

/-- There are as many colours as blocks. -/
theorem Colours.card_image {p : Partition} {states : List StateId} {colour : StateId → Nat}
    (hp : p.Colours states colour) : (states.toFinset.image colour).card = p.count := by
  have hrange : states.toFinset.image colour = Finset.range p.count := by
    ext b
    simp [hp.lt_count_iff b]
  rw [hrange, Finset.card_range]

/-- A finer partition with no more blocks is the same partition. -/
theorem Colours.samePartition_of_count_le {p p' : Partition} {states : List StateId}
    {colour colour' : StateId → Nat} (hp : p.Colours states colour)
    (hp' : p'.Colours states colour')
    (hfiner : ∀ a ∈ states, ∀ b ∈ states, colour' a = colour' b → colour a = colour b)
    (hcount : p'.count ≤ p.count) : SamePartition states colour colour' := by
  -- pairs of both colours are as many as the finer colours, so the coarser colours determine them
  let pairs := states.toFinset.image fun id => (colour' id, colour id)
  have hfst : pairs.image Prod.fst = states.toFinset.image colour' := by
    rw [Finset.image_image]
    rfl
  have hsnd : pairs.image Prod.snd = states.toFinset.image colour := by
    rw [Finset.image_image]
    rfl
  have hinjFst : Set.InjOn Prod.fst (pairs : Set (Nat × Nat)) := by
    intro x hx y hy hxy
    obtain ⟨a, ha, rfl⟩ := Finset.mem_image.1 (Finset.mem_coe.1 hx)
    obtain ⟨b, hb, rfl⟩ := Finset.mem_image.1 (Finset.mem_coe.1 hy)
    exact Prod.ext hxy (hfiner a (List.mem_toFinset.1 ha) b (List.mem_toFinset.1 hb) hxy)
  have hcard : (pairs.image Prod.snd).card = pairs.card := by
    have hpairs : pairs.card = p'.count := by
      rw [← Finset.card_image_of_injOn hinjFst, hfst, hp'.card_image]
    have hle := Finset.card_image_le (s := pairs) (f := Prod.snd)
    rw [hsnd, hp.card_image] at hle ⊢
    omega
  have hinjSnd := Finset.card_image_iff.1 hcard
  intro a ha b hb
  refine ⟨fun hab => ?_, hfiner a ha b hb⟩
  have hmem {id : StateId} (hid : id ∈ states) :
      (colour' id, colour id) ∈ (pairs : Set (Nat × Nat)) :=
    Finset.mem_coe.2 (Finset.mem_image_of_mem _ (List.mem_toFinset.2 hid))
  exact congrArg Prod.fst (hinjSnd (hmem ha) (hmem hb) hab)

end Partition

end Automata
