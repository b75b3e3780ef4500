import Ps4o.InPlace.ElementwisePermutation
import Ps4o.InPlace.StripeClassification

/-!
# What block permutation leaves behind

When all threads have finished, the blocks of a bucket stand in its slots, one behind the other;
the last one may be in the overflow block of some thread. Cleanup begins there.

## The model

Elements are bits (`bitStore`). The blocks are the full blocks of the stripes, known by the place
where they were written.

## What is proved

* `Reachable.inOrder` — **where the blocks of a bucket are in the end.**
-/

namespace Ps4o.InPlace

open Ps4o.Program Ps4o.Storage Ps4o.Order

variable {α : Type}

/-! ### Blocks of bits -/

/-- Bits: there is room for a block everywhere. -/
def bitStore (α : Type) (init : Bool) (B : ℕ) (hB : 1 ≤ B) : BlockStore (copies Area α) init B where
  Full m q l := l.length = B ∧ Has m q l
  Vacant _ _ := True
  full_congr {m m' q l} hm h := by
    refine ⟨h.1, h.2.of_eq fun i hi => hm (.elem (q + i)) ?_⟩
    rw [h.1] at hi
    exact elem_add_mem_seg.mpr hi
  vacant_congr _ _ := trivial
  sat_readAt {m q x l} h := by
    have hx : m.slot q = x := h.2 0 x rfl
    refine ⟨Set.singleton_subset_iff.mpr (elem_mem_seg_self.mpr hB), fun _ => ⟨x, m, ?_, rfl, rfl⟩⟩
    rw [← hx]
    rfl
  sat_readFrom {m src block l} hsrc hblock h _ := by
    have hne : src.arr ≠ block.arr := hsrc ▸ hblock.symm
    refine (sat_readFrom_bits h.1 h.2 fun i _ j _ => elem_add_ne hne).imp ?_
    exact fun _ m' hm' => ⟨⟨h.1, hm'.1⟩, trivial⟩
  sat_writeTo {m block dest l} hblock hdest h _ := by
    have hne : block.arr ≠ dest.arr := hdest ▸ hblock
    rw [Block.writeTo, sat_bind]
    refine (sat_moveRange_bits h.1 h.2 fun i _ j _ => elem_add_ne hne).imp fun _ m' hm' => ?_
    refine (sat_destroyRange_bits block B).mono Set.subset_union_left ?_
    rintro _ _ rfl
    exact ⟨⟨h.1, hm'.1⟩, trivial⟩
  sat_writeToBlock {m block other l} _ _ hne h _ := by
    rw [Block.writeToBlock, sat_bind]
    have hread : Sat (copies Area α) _ (Block.readFrom init other block B) m _ :=
      sat_readFrom_bits h.1 h.2 fun i _ j _ => elem_add_ne hne
    refine hread.imp fun _ m' hm' => ?_
    refine (sat_destroyRange_bits block B).mono Set.subset_union_left ?_
    rintro _ _ rfl
    exact ⟨⟨h.1, hm'.1⟩, trivial⟩

/-! ### Where the blocks of a bucket are in the end -/

section
variable {t : ℕ} {β : Type} [Fintype β] {B n nb b : ℕ} {bss full : ℕ → ℕ} {classify : Option β → ℕ}
  {s₀ s : Permuting t β}

/-- Block `y k` of bucket `b` is in the `k`-th slot of the bucket; or the slot is the last one of
the array, and the block is in an overflow block. -/
structure InOrder (B n : ℕ) (bss : ℕ → ℕ) (classify : Option β → ℕ) (s : Permuting t β) (b : ℕ)
    (y : Fin (blocksOf classify b) → β) : Prop where
  injective : Function.Injective y
  bucket : ∀ k, classify (some (y k)) = b
  place : ∀ k : Fin (blocksOf classify b),
    s.slot (startBlock B bss b + (k : ℕ) * B) = some (y k) ∨
      startBlock B bss b + (k : ℕ) * B = maxOff B n ∧ ∃ j, (s.threads j).overflow = some (y k)

/-- These are all its blocks. -/
theorem InOrder.exists_eq {y : Fin (blocksOf classify b) → β} (h : InOrder B n bss classify s b y)
    {x : β} (hx : classify (some x) = b) : ∃ k, y k = x := by
  classical
  have hsub : Finset.univ.image y ⊆ Finset.univ.filter fun x => classify (some x) = b := by
    intro z hz
    obtain ⟨k, -, rfl⟩ := Finset.mem_image.mp hz
    exact Finset.mem_filter.mpr ⟨Finset.mem_univ _, h.bucket k⟩
  have hcard : (Finset.univ.filter fun x => classify (some x) = b).card ≤
      (Finset.univ.image y).card := by
    rw [Finset.card_image_of_injective _ h.injective, Finset.card_univ, Fintype.card_fin]
    exact le_rfl
  have hmem : x ∈ Finset.univ.image y := by
    rw [Finset.eq_of_subset_of_card_le hsub hcard]
    exact Finset.mem_filter.mpr ⟨Finset.mem_univ x, hx⟩
  obtain ⟨k, -, hk⟩ := Finset.mem_image.mp hmem
  exact ⟨k, hk⟩

/-- Without an overflow block of the bucket, all its blocks are in its slots. -/
theorem InOrder.slot_eq {y : Fin (blocksOf classify b) → β} (ho : InOrder B n bss classify s b y)
    (hno : ∀ j x, (s.threads j).overflow = some x → classify (some x) ≠ b)
    (k : Fin (blocksOf classify b)) : s.slot (startBlock B bss b + (k : ℕ) * B) = some (y k) := by
  cases ho.place k with
  | inl hslot => exact hslot
  | inr hover =>
    obtain ⟨-, j, hj⟩ := hover
    exact absurd (ho.bucket k) (hno j _ hj)

variable (h : Boundaries false nb n bss) (hB : 1 ≤ B)
  (hcl : Classified B n nb bss full classify s₀) (ht : 1 ≤ t)
  (hr : Reachable B n nb classify s₀ s) (hfin : ∀ i, (s.threads i).pc = .finished)
include h hB hcl ht hr hfin

/-- **When all threads have finished, the blocks of a bucket stand one behind the other.** -/
theorem Reachable.inOrder (hb : b < nb) : ∃ y, InOrder B n bss classify s b y := by
  have hI := hr.inv h hB hcl
  obtain ⟨m, l, y, hm, hinj, hslot⟩ := hI.exists_accounts h hB hcl.bucket hb
  have hw := hr.w_eq h hB hcl ht hfin hb
  obtain rfl : m = blocksOf classify b := by
    have hmul : ((m * B : ℕ) : ℤ) = (blocksOf classify b * B : ℕ) := by
      push_cast
      omega
    exact Nat.eq_of_mul_eq_mul_right hB (Int.ofNat.inj hmul)
  refine ⟨y, hinj, fun k => (hslot k).2.2, fun k => ?_⟩
  obtain ⟨hacc, hy, -⟩ := hslot k
  generalize l k = place at hacc hy
  cases hacc with
  | slot => exact .inl hy
  | swap j k' d c hp _ =>
    unfold Permuting.Claims at hp
    rw [hfin j] at hp
    cases hp
  | overflow j hp => exact .inr ⟨hp, j, hy⟩

omit ht hfin in
/-- The slots of the bucket lie in the array as a whole then. -/
theorem InOrder.le_n {y : Fin (blocksOf classify b) → β} (ho : InOrder B n bss classify s b y)
    (hno : ∀ j x, (s.threads j).overflow = some x → classify (some x) ≠ b)
    (hpos : 1 ≤ blocksOf classify b) : startOf B bss b + blocksOf classify b * B ≤ n := by
  obtain ⟨k, hk⟩ := Nat.exists_eq_add_of_le' hpos
  have hlt : startBlock B bss b + (k : ℤ) * B < maxOff B n :=
    hr.slot_lt h hB hcl _ _ (ho.slot_eq hno ⟨k, by omega⟩)
  have hdvd : (B : ℤ) ∣ startBlock B bss b + ((k + 1 : ℕ) : ℤ) * B :=
    Int.dvd_add (dvd_startBlock b) (Dvd.intro_left _ rfl)
  have hnext : startBlock B bss b + ((k + 1 : ℕ) : ℤ) * B ≤ maxOff B n := by
    refine le_of_lt_add_block hdvd dvd_maxOff ?_
    push_cast
    rw [add_one_mul]
    omega
  have hmax := Nat.div_mul_le_self n B
  rw [maxOff_eq hB, startBlock] at hnext
  rw [hk]
  exact le_trans (by exact_mod_cast hnext) hmax

omit ht hfin in
/-- **The overflow block is the last one of its bucket.** -/
theorem InOrder.last_eq {y : Fin (blocksOf classify b) → β} (ho : InOrder B n bss classify s b y)
    {j : Fin t} {x : β} (hx : (s.threads j).overflow = some x) (hb : classify (some x) = b) :
    ∃ k, y k = x ∧ (k : ℕ) + 1 = blocksOf classify b ∧
      n < startOf B bss b + blocksOf classify b * B ∧ ∀ k' : Fin (blocksOf classify b), k' ≠ k →
        s.slot (startBlock B bss b + (k' : ℕ) * B) = some (y k') := by
  have hI := hr.inv h hB hcl
  obtain ⟨k, rfl⟩ := ho.exists_eq hb
  have hmax : startBlock B bss b + (k : ℕ) * B = maxOff B n := by
    cases ho.place k with
    | inl hslot =>
      have hplace : Place.slot _ = .overflow j := (hI.places (y k)).unique hslot hx
      cases hplace
    | inr hover => exact hover.1
  have hslot : ∀ k' : Fin (blocksOf classify b), k' ≠ k →
      s.slot (startBlock B bss b + (k' : ℕ) * B) = some (y k') := by
    intro k' hk'
    cases ho.place k' with
    | inl hslot => exact hslot
    | inr hover =>
      have hmul : ((k' * B : ℕ) : ℤ) = (k * B : ℕ) := by
        have heq := hover.1
        push_cast
        omega
      exact absurd (Fin.ext (Nat.eq_of_mul_eq_mul_right hB (Int.ofNat.inj hmul))) hk'
  have hlast : (k : ℕ) + 1 = blocksOf classify b := by
    by_contra hne
    have hlt : (k : ℕ) + 1 < blocksOf classify b := Nat.lt_of_le_of_ne k.isLt hne
    have hnext := hslot ⟨k + 1, hlt⟩ fun he => absurd (congrArg Fin.val he) (Nat.succ_ne_self k)
    have hbefore := hr.slot_lt h hB hcl _ _ hnext
    push_cast at hbefore
    rw [add_one_mul] at hbefore
    omega
  refine ⟨k, rfl, hlast, ?_, hslot⟩
  have hend := le_alignToNextBlock hB (n + 1)
  have hcast : ((startOf B bss b + k * B : ℕ) : ℤ) = maxOff B n := by
    rw [← hmax, startBlock]
    norm_cast
  rw [maxOff] at hcast
  rw [← hlast, Nat.succ_mul]
  omega

end

/-! ### What the blocks hold -/

section
variable {V : Type} {B k : ℕ} {m : Mem Area V} {q : Ptr Area} {g : ℕ → List V}

/-- Blocks that stand one behind the other. -/
theorem has_blocks (hlen : ∀ i < k, (g i).length = B) (h : ∀ i < k, Has m (q + i * B) (g i)) :
    ((List.range k).flatMap g).length = k * B ∧ Has m q ((List.range k).flatMap g) := by
  induction k with
  | zero => exact ⟨(Nat.zero_mul B).symm, has_nil⟩
  | succ k ih =>
    obtain ⟨hl, hm⟩ := ih (fun i hi => hlen i (Nat.lt_succ_of_lt hi))
      fun i hi => h i (Nat.lt_succ_of_lt hi)
    rw [List.range_succ, List.flatMap_append, List.flatMap_singleton, List.length_append, hl,
      hlen k (Nat.lt_succ_self k), has_append, hl]
    exact ⟨(Nat.succ_mul k B).symm, hm, h k (Nat.lt_succ_self k)⟩

theorem coe_blocks (k : ℕ) (g : ℕ → List V) :
    ((List.range k).flatMap g : Multiset V) = ∑ i ∈ Finset.range k, (g i : Multiset V) := by
  induction k with
  | zero => rfl
  | succ k ih =>
    rw [List.range_succ, List.flatMap_append, List.flatMap_singleton, ← Multiset.coe_add, ih,
      Finset.sum_range_succ]

end

section
variable {t : ℕ} {β : Type} [Fintype β] {B n nb b : ℕ} {bss full : ℕ → ℕ} {classify : Option β → ℕ}
  {s₀ s : Permuting t β} {init : Bool} {p : Ptr Area} {content : β → List α}
  {f : Working t α (Mem Area α)}

/-- What is in the blocks of bucket `b`: `main` in its slots, and `last` in an overflow block. -/
structure Placing (B n : ℕ) (p : Ptr Area) (bss : ℕ → ℕ) (classify : Option β → ℕ)
    (content : β → List α) (s : Permuting t β) (m : Mem Area α) (b : ℕ) (main last : List α) :
    Prop where
  all : (main ++ last : Multiset α) =
    ∑ x ∈ Finset.univ.filter (fun x => classify (some x) = b), (content x : Multiset α)
  has : Has m (p + startOf B bss b) main
  noOverflow : (∀ j x, (s.threads j).overflow = some x → classify (some x) ≠ b) →
    last = [] ∧ main.length = blocksOf classify b * B ∧
      (1 ≤ blocksOf classify b → startOf B bss b + blocksOf classify b * B ≤ n)
  overflow : ∀ j x, (s.threads j).overflow = some x → classify (some x) = b →
    last.length = B ∧ main.length + B = blocksOf classify b * B ∧
      n < startOf B bss b + blocksOf classify b * B ∧ Has m (overflowOf B j) last

variable (h : Boundaries false nb n bss) (hB : 1 ≤ B)
  (hcl : Classified B n nb bss full classify s₀) (ht : 1 ≤ t)
  (hr : Reachable B n nb classify s₀ s) (hfin : ∀ i, (s.threads i).pc = .finished)
  (hrep : Represents (bitStore α init B hB) content n p f s)
include h hB hcl ht hr hfin hrep

/-- **The blocks of every bucket.** -/
theorem Represents.exists_placing (hb : b < nb) :
    ∃ main last, Placing B n p bss classify content s f.mem b main last := by
  classical
  obtain ⟨y, ho⟩ := hr.inOrder h hB hcl ht hfin hb
  let g (i : ℕ) : List α := if hi : i < blocksOf classify b then content (y ⟨i, hi⟩) else []
  have hg : ∀ k : Fin (blocksOf classify b), g k = content (y k) := fun k => dif_pos k.isLt
  have hslot : ∀ k : Fin (blocksOf classify b),
      s.slot (startBlock B bss b + (k : ℕ) * B) = some (y k) →
      (g k).length = B ∧ Has f.mem (p + startOf B bss b + (k : ℕ) * B) (g k) := by
    intro k hk
    have hreal : Place.Real (t := t) B n (.slot (startBlock B bss b + (k : ℕ) * B)) :=
      hr.real_of_some h hB hcl (l := .slot _) hk
    have hok := hrep.places _ hreal
    rw [show s.content (.slot (startBlock B bss b + (k : ℕ) * B)) = some (y k) from hk] at hok
    have hnat : (startBlock B bss b + (k : ℕ) * B).toNat = startOf B bss b + k * B := by
      rw [startBlock]
      norm_cast
    rw [hg]
    refine ⟨hok.1, ?_⟩
    rw [Ptr.add_assoc, ← hnat]
    exact hok.2
  have hall : ∑ i ∈ Finset.range (blocksOf classify b), (g i : Multiset α) =
      ∑ x ∈ Finset.univ.filter (fun x => classify (some x) = b), (content x : Multiset α) := by
    have himage : (Finset.univ.filter fun x => classify (some x) = b) = Finset.univ.image y := by
      ext x
      simp only [Finset.mem_filter, Finset.mem_univ, true_and, Finset.mem_image]
      constructor
      · exact ho.exists_eq
      · rintro ⟨k, rfl⟩
        exact ho.bucket k
    rw [himage, Finset.sum_image fun k _ k' _ he => ho.injective he,
      ← Fin.sum_univ_eq_sum_range (fun i => (g i : Multiset α))]
    exact Finset.sum_congr rfl fun k _ => congrArg _ (hg k)
  by_cases hspill : ∃ j x, (s.threads j).overflow = some x ∧ classify (some x) = b
  · obtain ⟨j, x, hx, hxb⟩ := hspill
    obtain ⟨k, hk, hlast, hend, hother⟩ := ho.last_eq h hB hcl hr hx hxb
    have hbefore : ∀ i < (k : ℕ), (g i).length = B ∧
        Has f.mem (p + startOf B bss b + i * B) (g i) := by
      intro i hi
      have hne : (⟨i, hi.trans k.isLt⟩ : Fin (blocksOf classify b)) ≠ k := Fin.ne_of_val_ne hi.ne
      exact hslot _ (hother _ hne)
    obtain ⟨hlen, hhas⟩ := has_blocks (fun i hi => (hbefore i hi).1) fun i hi => (hbefore i hi).2
    have hover := hrep.places (.overflow j) trivial
    rw [show s.content (.overflow j) = some x from hx] at hover
    refine ⟨_, content x, ?_, hhas, fun hno => absurd hxb (hno j x hx), fun j' x' hx' _ => ?_⟩
    · have hsum := Finset.sum_range_succ (fun i => (g i : Multiset α)) k
      rw [hlast, hall, ← coe_blocks, hg, hk] at hsum
      rw [← Multiset.coe_add, hsum]
    · obtain rfl := ((hr.inv h hB hcl).overflow j x hx).2.2.2 j' x' hx'
      refine ⟨hover.1, ?_, hend, hover.2⟩
      rw [hlen, ← Nat.succ_mul]
      exact congrArg (· * B) hlast
  · have hno : ∀ j x, (s.threads j).overflow = some x → classify (some x) ≠ b :=
      fun j x hx hxb => hspill ⟨j, x, hx, hxb⟩
    have hin : ∀ i < blocksOf classify b, (g i).length = B ∧
        Has f.mem (p + startOf B bss b + i * B) (g i) :=
      fun i hi => hslot _ (ho.slot_eq hno ⟨i, hi⟩)
    obtain ⟨hlen, hhas⟩ := has_blocks (fun i hi => (hin i hi).1) fun i hi => (hin i hi).2
    refine ⟨_, [], ?_, hhas, fun _ => ⟨rfl, hlen, ho.le_n h hB hcl hr hno⟩,
      fun j x hx hxb => absurd hxb (hno j x hx)⟩
    rw [List.append_nil, coe_blocks, hall]

end

end Ps4o.InPlace
