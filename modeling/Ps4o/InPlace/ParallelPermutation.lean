import Mathlib.Algebra.BigOperators.Fin
import Ps4o.InPlace.PermutedBlocks

/-!
# Block permutation between the barriers

What local classification leaves behind is what the threads begin to permute blocks with, and what
they leave behind is what cleanup begins with.

## What is proved

* `sum_fullBlock` — the full blocks are those of the stripes.
* `StripesCompacted.sum_blocks`, `StripesCompacted.flushed` — what the blocks of a bucket hold, and
  how many there are.
* `StripesCompacted.exists_start` — **block permutation can begin**.
* `StripesCompacted.exists_scattered` — **when all threads have finished it, cleanup can begin**.
-/

namespace Ps4o.InPlace

open Ps4o.Program Ps4o.Storage Ps4o.Order

variable {α : Type}

/-! ### The code -/

/-- `shared_->local`: the buffers of all threads, in one piece of memory. -/
def Buffers.together {t : ℕ} (kMaxBuckets kBlockSize : ℕ) (ds : Fin t → LocalData α) : Buffers where
  ptr k := if h : k / kMaxBuckets < t then
      k / kMaxBuckets * (kMaxBuckets * kBlockSize) + (ds ⟨_, h⟩).buffers.ptr (k % kMaxBuckets)
    else k * kBlockSize
  stop k := if h : k / kMaxBuckets < t then
      k / kMaxBuckets * (kMaxBuckets * kBlockSize) + (ds ⟨_, h⟩).buffers.stop (k % kMaxBuckets)
    else k * kBlockSize + kBlockSize

/-- `shared_->overflow`: the thread whose overflow block all threads use. At most one thread has set
`overflow_`. -/
def Working.overflowThread {t : ℕ} {σ : Type} (f : Working t α σ) : Option (Fin t) :=
  (List.finRange t).find? fun i => (f.workers i).overflow

/-- What the threads know about the buckets when they have permuted blocks. -/
def Working.margins {t : ℕ} {σ : Type} (shared : SharedData α) (f : Working t α σ) : Margins :=
  ⟨shared.numBuckets, shared.bucketStart, fun i => (f.pointers i).w.toNat,
    f.overflowThread.isSome⟩

/-- Where a thread finds what is at `q`: the overflow block is that of thread `j`. -/
def overflowAt (kBlockSize j : ℕ) (q : Ptr Area) : Ptr Area :=
  ⟨q.arr, (if q.arr = .overflow then j * kBlockSize else 0) + q.off⟩

/-! ### The blocks of the stripes -/

section
variable {B n t : ℕ} {bd feb : ℕ → ℕ}

/-- **The full blocks, stripe by stripe**, when there are `k j` in stripe `j`. -/
theorem sum_fullBlock {M : Type} [AddCommMonoid M] (h : Striped B n t bd feb) (hB : 1 ≤ B)
    {k : Fin t → ℕ} (hk : ∀ j : Fin t, feb j = bd j + k j * B) (F : ℕ → M) :
    ∑ y : FullBlock B n t bd feb, F y.1 = ∑ j : Fin t, ∑ i : Fin (k j), F (bd j + i * B) := by
  have hlt : ∀ (j : Fin t) (i : Fin (k j)), bd j + i * B < feb j := by
    intro j i
    rw [hk j]
    exact Nat.add_lt_add_left (Nat.mul_lt_mul_of_pos_right i.isLt hB) _
  have hfull : ∀ (j : Fin t) (i : Fin (k j)), Full t bd feb (bd j + i * B) := fun j i =>
    ⟨j, j.isLt, Nat.le_add_right _ _, hlt j i⟩
  let block (a : Σ j, Fin (k j)) : FullBlock B n t bd feb :=
    ⟨⟨bd a.1 + a.2 * B, h.full_lt (hfull a.1 a.2)⟩,
      Nat.dvd_add (h.dvd _ a.1.isLt) (Nat.dvd_mul_left B _), hfull a.1 a.2⟩
  have hinj : Function.Injective block := by
    rintro ⟨j, i⟩ ⟨j', i'⟩ he
    have hx : bd j + i * B = bd j' + i' * B := congrArg (fun y : FullBlock _ _ _ _ _ => y.1.val) he
    have hj : (j : ℕ) = j' := h.eq_of_mem j.isLt j'.isLt (Nat.le_add_right _ _)
      ((hlt j i).trans_le (h.le_end j j.isLt)) (hx ▸ Nat.le_add_right _ _)
      (hx ▸ (hlt j' i').trans_le (h.le_end j' j'.isLt))
    obtain rfl := Fin.ext hj
    have hi : (i : ℕ) = i' := Nat.eq_of_mul_eq_mul_right hB (Nat.add_left_cancel hx)
    rw [Fin.ext hi]
  have hsurj : Function.Surjective block := by
    rintro ⟨x, hdvd, j, hj, h₁, h₂⟩
    obtain ⟨i, hi⟩ := Nat.dvd_sub hdvd (h.dvd j hj)
    have hx : bd j + i * B = x := by
      rw [Nat.mul_comm i B, ← hi, Nat.add_sub_cancel' h₁]
    have hlt : i < k ⟨j, hj⟩ := by
      rw [← hx, hk ⟨j, hj⟩] at h₂
      exact Nat.lt_of_mul_lt_mul_right (Nat.lt_of_add_lt_add_left h₂)
    exact ⟨⟨⟨j, hj⟩, i, hlt⟩, Subtype.ext (Fin.ext hx)⟩
  rw [← Fintype.sum_sigma']
  exact (Fintype.sum_bijective block ⟨hinj, hsurj⟩ _ _ fun _ => rfl).symm

end

/-- What is in the block that begins at offset `y`. -/
def blockAt (B : ℕ) (p : Ptr Area) (m : Mem Area α) (y : ℕ) : List α :=
  (List.range B).map fun i => m.slot (p + (y + i))

/-- The bucket of a full block is that of its first element. -/
def classifyFull {B n t : ℕ} {bd feb : ℕ → ℕ} (key : α → ℕ) (p : Ptr Area) (m : Mem Area α) :
    Option (FullBlock B n t bd feb) → ℕ
  | none => 0
  | some y => key (m.slot (p + (y.1 : ℕ)))

section
variable {B b nb x : ℕ} {p q : Ptr Area} {m : Mem Area α} {key : α → ℕ} {l : List α}
  {blocks : List (List α)}

@[simp] theorem length_blockAt : (blockAt B p m x).length = B := by
  rw [blockAt, List.length_map, List.length_range]

theorem has_blockAt : Has m (p + x) (blockAt B p m x) := by
  intro i v hv
  obtain ⟨hi, hv⟩ := List.getElem?_eq_some_iff.mp hv
  simp only [← hv, blockAt, List.getElem_map, List.getElem_range, Ptr.add_assoc]

theorem blockAt_eq (hl : l.length = B) (h : Has m (p + x) l) : blockAt B p m x = l := by
  refine List.ext_getElem (by rw [length_blockAt, hl]) fun i hi hi' => ?_
  simp only [blockAt, List.getElem_map, List.getElem_range, ← Ptr.add_assoc]
  exact h i _ (List.getElem?_eq_getElem hi')

/-- The blocks that stand one behind the other. -/
theorem has_of_flatten (hlen : ∀ l ∈ blocks, l.length = B) (h : Has m q blocks.flatten) {i : ℕ}
    (hi : i < blocks.length) : Has m (q + i * B) blocks[i] := by
  have hsplit : blocks = blocks.take i ++ blocks[i] :: blocks.drop (i + 1) := by
    rw [← List.drop_eq_getElem_cons hi, List.take_append_drop]
  have hbefore : (blocks.take i).flatten.length = i * B := by
    rw [length_flatten_blocks fun l hl => hlen l (List.mem_of_mem_take hl),
      List.length_take_of_le hi.le]
  rw [hsplit, List.flatten_append, List.flatten_cons, has_append, has_append, hbefore] at h
  exact h.2.1

/-- A block has elements of its bucket only. -/
theorem IsBlock.filter_eq {c : ℕ} (h : IsBlock B key c l) :
    (l : Multiset α).filter (fun x => key x = b) = if c = b then (l : Multiset α) else 0 := by
  split_ifs with hcb
  · refine Multiset.filter_eq_self.mpr fun x hx => ?_
    rw [h.key x hx, hcb]
  · refine Multiset.filter_eq_nil.mpr fun x hx hxb => hcb ?_
    rw [← h.key x hx, hxb]

theorem sum_filter_flatten (q : α → Prop) [DecidablePred q] (blocks : List (List α)) :
    (blocks.map fun l : List α => (l : Multiset α).filter q).sum =
      (blocks.flatten : Multiset α).filter q := by
  induction blocks with
  | nil => rfl
  | cons l blocks ih =>
    rw [List.map_cons, List.sum_cons, ih, List.flatten_cons, ← Multiset.coe_add,
      Multiset.filter_add]

end

section
variable {K B nb t j b lo : ℕ} {key : α → ℕ} {p : Ptr Area} {xs ys : List α}
  {ds : Fin t → LocalData α} {d : LocalData α} {m : Mem Area α} {r : ℕ × LocalData α}
  {blocks : List (List α)} {buf : ℕ → List α}

/-- The elements of a bucket are in its blocks and in its buffer. -/
theorem StripeClassified.filter_eq
    (h : StripeClassified K B nb key p j lo ys d m r blocks buf) (hb : b < nb) :
    (blocks.flatten : Multiset α).filter (fun x => key x = b) + (buf b : Multiset α) =
      (ys : Multiset α).filter fun x => key x = b := by
  rw [← h.all, Multiset.filter_add, Multiset.add_right_inj]
  have hbuf : (∑ c ∈ Finset.range nb, (buf c : Multiset α)).filter (fun x => key x = b) =
      ∑ c ∈ {b}, (buf c : Multiset α) := by
    refine filter_sum_eq (Finset.singleton_subset_iff.mpr (Finset.mem_range.mpr hb))
      (fun c hc x hx => ?_) fun c _ hc x hx hxb => ?_
    · rw [h.keyed c x hx, Finset.mem_singleton.mp hc]
    · apply hc
      rw [Finset.mem_singleton, ← h.keyed c x hx, hxb]
  rw [hbuf, Finset.sum_singleton]

/-- How many elements are in a buffer. -/
theorem StripeClassified.length_buf
    (h : StripeClassified K B nb key p j lo ys d m r blocks buf) (hb : b < nb) :
    flushes B (ys.countP fun x => key x = b) * B + (buf b).length =
      ys.countP fun x => key x = b := by
  have hcard := congrArg Multiset.card (h.filter_eq hb)
  rwa [Multiset.card_add, ← Multiset.countP_eq_card_filter, ← Multiset.countP_eq_card_filter,
    Multiset.coe_countP, Multiset.coe_countP, Multiset.coe_card, fullBlocks_mul h.block,
    h.flushed b hb] at hcard

end

/-! ### What block permutation begins with -/

section
variable {K B t b : ℕ} {key : α → ℕ} {p : Ptr Area} {xs : List α} {shared : SharedData α}
  {ds : Fin t → LocalData α} {r : SharedData α × (Fin t → LocalData α)} {m m₁ : Mem Area α}
  {feb : ℕ → ℕ} {blocks : Fin t → List (List α)} {buf : Fin t → ℕ → List α} {f : ℕ → ℕ → ℕ}
  (h : StripesCompacted K B key p xs shared ds r m m₁ feb blocks buf f)
  (hB : 1 ≤ B) (ht : 1 ≤ t) (hn : 4 * t * B ≤ xs.length)
include h hB ht hn

theorem StripesCompacted.striped : Striped B xs.length t (stripeBound B xs.length t) feb :=
  striped_of_classified hB ht hn h.stripe fun _ => rfl

omit hB ht hn in
/-- The block that a thread has written is where it was written. -/
theorem StripesCompacted.blockAt_eq (j : Fin t) (i : Fin (blocks j).length) :
    blockAt B p m₁ (stripeBound B xs.length t j + i * B) = (blocks j)[i.1] := by
  have hlen : ∀ l ∈ blocks j, l.length = B := fun l hl => by
    obtain ⟨c, -, hl⟩ := (h.stripe j).block l hl
    exact hl.length
  refine InPlace.blockAt_eq (hlen _ (List.getElem_mem _)) ?_
  rw [← Ptr.add_assoc]
  exact has_of_flatten hlen (h.stripe j).has i.isLt

/-- **What the blocks of a bucket hold.** -/
theorem StripesCompacted.sum_blocks (b : ℕ) :
    ∑ y ∈ Finset.univ.filter (fun y : FullBlock B xs.length t (stripeBound B xs.length t) feb =>
      classifyFull key p m₁ (some y) = b), (blockAt B p m₁ y.1 : Multiset α) =
      ∑ j, ((blocks j).flatten : Multiset α).filter fun x => key x = b := by
  let F (x : ℕ) : Multiset α := if key (m₁.slot (p + x)) = b then ↑(blockAt B p m₁ x) else 0
  have hsum := sum_fullBlock (k := fun j => (blocks j).length) (h.striped hB ht hn) hB
    (fun j => (h.stripe j).write) F
  rw [Finset.sum_filter]
  refine Eq.trans ?_ (hsum.trans (Finset.sum_congr rfl fun j _ => ?_))
  · rfl
  rw [← sum_filter_flatten, ← Fin.sum_univ_fun_getElem]
  refine Finset.sum_congr rfl fun i _ => ?_
  have heq := h.blockAt_eq j i
  obtain ⟨c, -, hc⟩ := (h.stripe j).block _ (List.getElem_mem i.isLt)
  have hhead : key (m₁.slot (p + (stripeBound B xs.length t j + (i : ℕ) * B))) = c := by
    refine hc.key _ ?_
    rw [← heq]
    exact List.mem_map.mpr ⟨0, List.mem_range.mpr hB, rfl⟩
  simp only [F, hhead, heq]
  exact hc.filter_eq.symm

/-- **How many blocks a bucket has.** -/
theorem StripesCompacted.flushed :
    Flushed B shared.numBuckets
      (classifyFull key p m₁ : Option (FullBlock B xs.length t (stripeBound B xs.length t) feb) → ℕ)
      r.1.bucketStart fun (j : Fin t) b =>
      (stripeOf B t xs j).countP fun x => key x = b where
  size b hb := by
    rw [h.start b hb.le, h.start (b + 1) hb, start_succ, sum_countP_stripeOf hB ht hn, List.count,
      List.countP_map]
    rfl
  blocks b hb := by
    have hcard := congrArg Multiset.card (h.sum_blocks hB ht hn b)
    simp only [Multiset.card_sum, Multiset.coe_card, length_blockAt, Finset.sum_const,
      Nat.nsmul_eq_mul, ← Multiset.countP_eq_card_filter, Multiset.coe_countP] at hcard
    refine Nat.eq_of_mul_eq_mul_right hB (hcard.trans ?_)
    rw [Finset.sum_mul]
    refine Finset.sum_congr rfl fun j _ => ?_
    rw [fullBlocks_mul (h.stripe j).block, (h.stripe j).flushed b hb]

/-- The elements of a bucket are in its blocks and in the buffers of all threads. -/
theorem StripesCompacted.filter_eq (hb : b < shared.numBuckets) :
    ∑ y ∈ Finset.univ.filter (fun y : FullBlock B xs.length t (stripeBound B xs.length t) feb =>
      classifyFull key p m₁ (some y) = b), (blockAt B p m₁ y.1 : Multiset α) +
      ∑ j, (buf j b : Multiset α) = (xs : Multiset α).filter fun x => key x = b := by
  let filter : Multiset α →+ Multiset α :=
    ⟨⟨Multiset.filter fun x => key x = b, Multiset.filter_zero _⟩, Multiset.filter_add _⟩
  have hall : filter (∑ j : Fin t, (stripeOf B t xs j : Multiset α)) =
      ∑ j : Fin t, filter (stripeOf B t xs j : Multiset α) := map_sum filter _ _
  rw [sum_stripeOf hB ht hn] at hall
  refine Eq.trans ?_ hall.symm
  rw [h.sum_blocks hB ht hn, ← Finset.sum_add_distrib]
  exact Finset.sum_congr rfl fun j _ => (h.stripe j).filter_eq hb

end

/-- A block is not empty, and its first element says which bucket it belongs to. -/
theorem classify_blockAt {B n t : ℕ} {bd feb : ℕ → ℕ} {comp : α → α → Bool} {eq : Bool}
    {c : Classifier α} {key : α → ℕ} {p : Ptr Area} {m : Mem Area α} (hB : 1 ≤ B)
    (hc : ∀ x, c.classify comp eq x = some (key x)) (y : FullBlock B n t bd feb) :
    ∃ a l, blockAt B p m y.1 = a :: l ∧ c.classify comp eq a =
      some (classifyFull key p m (some y)) := by
  obtain ⟨k, rfl⟩ := Nat.exists_eq_add_of_le' hB
  refine ⟨m.slot (p + (y.1 : ℕ)), ((List.range k).map Nat.succ).map fun i =>
    m.slot (p + ((y.1 : ℕ) + i)), ?_, hc _⟩
  rw [blockAt, List.range_succ_eq_map, List.map_cons, Nat.add_zero]

section
variable {K B t : ℕ} {key : α → ℕ} {p : Ptr Area} {xs : List α} {shared : SharedData α}
  {ds : Fin t → LocalData α} {r : SharedData α × (Fin t → LocalData α)} {m m₁ : Mem Area α}
  {feb : ℕ → ℕ} {blocks : Fin t → List (List α)} {buf : Fin t → ℕ → List α} {f : ℕ → ℕ → ℕ}
  (h : StripesCompacted K B key p xs shared ds r m m₁ feb blocks buf f)
  (hnb : 1 ≤ shared.numBuckets) (hkey : ∀ x, key x < shared.numBuckets)
include h hnb hkey

theorem StripesCompacted.boundaries :
    Boundaries false shared.numBuckets xs.length r.1.bucketStart :=
  boundaries_of_start hnb hkey h.start

variable (hB : 1 ≤ B) (ht : 1 ≤ t) (hn : 4 * t * B ≤ xs.length)
include ht hn

/-- **Block permutation can begin**: the pointers are set, and the full blocks are at the front of
their buckets. -/
theorem StripesCompacted.exists_start (init : Bool) :
    ∃ s₀ : Permuting t (FullBlock B xs.length t (stripeBound B xs.length t) feb),
      s₀.pointers = r.1.bucketPointers ∧
      Classified B xs.length shared.numBuckets r.1.bucketStart
        (frontBlocks B t r.1.bucketStart (stripeBound B xs.length t) feb)
        (classifyFull key p m₁) s₀ ∧
      Represents (bitStore α init B hB) (fun y => blockAt B p m₁ y.1) xs.length p
        (.start shared.numBuckets t s₀.pointers m) s₀ := by
  have hbound := h.boundaries hnb hkey
  have hstriped := h.striped hB ht hn
  obtain ⟨s, hs⟩ : ∃ s : Permuting t (FullBlock B xs.length t (stripeBound B xs.length t) feb),
      Compacts shared.numBuckets r.1.bucketStart f s := exists_compacts hB hbound f
  let s₀ : Permuting t (FullBlock B xs.length t (stripeBound B xs.length t) feb) :=
    { s with pointers := r.1.bucketPointers }
  have hs₀ : Compacts shared.numBuckets r.1.bucketStart f s₀ := ⟨h.pointers, hs.slot, hs.threads⟩
  have hcl : Classified _ _ _ _ _ (classifyFull key p m₁) s₀ :=
    hs₀.classified hstriped hB hbound ht h.fronts.moved (fun y => hkey _) (h.flushed hB ht hn)
  refine ⟨s₀, rfl, hcl, rfl, fun l _ => ?_, fun i => ?_⟩
  · cases l with
    | slot q =>
      change BlockStore.Ok _ _ _ _ (s₀.slot q)
      cases hq : s₀.slot q with
      | none => trivial
      | some y =>
        obtain ⟨b, hb, x, rfl, hx, h₁, h₂, hf⟩ := (hs₀.slot q y).mp hq
        refine ⟨length_blockAt, fun i v hv => ?_⟩
        have hi : i < B := by simpa using (List.getElem?_eq_some_iff.mp hv).1
        have hmoved := h.fronts.slot b hb x hx h₁ h₂ i hi
        rw [hf, ← Ptr.add_assoc] at hmoved
        have hold := has_blockAt (B := B) (p := p) (m := m₁) (x := y.1) i v hv
        rw [Ptr.add_assoc] at hold
        exact hmoved.trans hold
    | swap i c =>
      change BlockStore.Ok _ _ _ _ ((s₀.threads i).swap c)
      rw [hs₀.threads i]
      trivial
    | overflow i =>
      change BlockStore.Ok _ _ _ _ (s₀.threads i).overflow
      rw [hs₀.threads i]
      trivial
  · rw [hs₀.threads i]
    simp [Thread.start, Working.start]

end

/-! ### What cleanup begins with -/

section
variable {K B j b : ℕ} {q : Ptr Area}

theorem overflowAt_add (x : ℕ) : overflowAt B j (q + x) = overflowAt B j q + x :=
  congrArg (Ptr.mk _) (Nat.add_assoc _ _ _).symm

theorem overflowAt_of_ne (h : q.arr ≠ .overflow) : overflowAt B j q = q := by
  obtain ⟨a, o⟩ := q
  simp only [overflowAt, if_neg h, Nat.zero_add]

theorem overflowAt_overflowBlock : overflowAt B j overflowBlock = overflowOf B j := rfl

theorem overflowAt_injective : Function.Injective (overflowAt B j) := by
  rintro ⟨a, o⟩ ⟨a', o'⟩ h
  obtain ⟨rfl, hoff⟩ := Ptr.mk.inj h
  exact congrArg (Ptr.mk a) (Nat.add_left_cancel hoff)

theorem has_overflowAt {m : Mem Area α} {vs : List α} :
    Has (m.along (overflowAt B j)) q vs ↔ Has m (overflowAt B j q) vs :=
  has_along fun i _ => overflowAt_add i

/-- What a thread keeps in its buffer. -/
theorem Buffers.Keeps.together {t : ℕ} {ds : Fin t → LocalData α} {j : Fin t} {m : Mem Area α}
    {vs : List α} (hb : b < K) (h : (ds j).buffers.Keeps B (m.along (localAt K B j)) b vs) :
    (Buffers.together K B ds).Keeps B m (j * K + b) vs := by
  have hdiv : (j * K + b) / K = j := by
    rw [Nat.mul_comm, Nat.mul_add_div (Nat.zero_lt_of_lt hb), Nat.div_eq_of_lt hb, Nat.add_zero]
  have hmod : (j * K + b) % K = b := by
    rw [Nat.mul_comm, Nat.mul_add_mod, Nat.mod_eq_of_lt hb]
  have hmul : (j * K + b) * B = j * (K * B) + b * B := by rw [Nat.add_mul, Nat.mul_assoc]
  refine ⟨?_, ?_, h.le, ?_⟩
  · simp only [Buffers.together, hdiv, hmod, dif_pos j.isLt, h.ptr, hmul, Nat.add_assoc]
  · simp only [Buffers.together, hdiv, hmod, dif_pos j.isLt, h.stop, hmul, Nat.add_assoc]
  · rw [← localAt_data]
    exact has_local.mp h.has

end

section
variable {t : ℕ} {σ : Type} {f : Working t α σ}

theorem Working.overflow_of_overflowThread {j : Fin t} (h : f.overflowThread = some j) :
    (f.workers j).overflow = true :=
  List.find?_some (p := fun i => (f.workers i).overflow) h

theorem Working.isSome_overflowThread_iff :
    f.overflowThread.isSome = true ↔ ∃ j, (f.workers j).overflow = true := by
  rw [Working.overflowThread, List.find?_isSome]
  exact ⟨fun ⟨j, _, hj⟩ => ⟨j, hj⟩, fun ⟨j, hj⟩ => ⟨j, List.mem_finRange j, hj⟩⟩

end

section
variable {t : ℕ} {β : Type} [Fintype β] {B n nb b : ℕ} {bss full : ℕ → ℕ} {classify : Option β → ℕ}
  {s₀ s : Permuting t β} {p : Ptr Area} {content : β → List α} {m m' : Mem Area α}
  {main last rest : List α} {mg : Margins} {o : Bool}

/-- A bucket whose blocks are in order can be filled. -/
theorem Placing.pieces (h : Placing B n p bss classify content s m b main last)
    (hstart : mg.bucketStart = bss)
    (hwrite : mg.write b = startOf B bss b + blocksOf classify b * B)
    (hsize : bss (b + 1) = bss b + blocksOf classify b * B + rest.length) (hn : bss (b + 1) ≤ n)
    (hlazy : 1 ≤ blocksOf classify b → rest ≠ [])
    (ho : o = true ↔ ∃ j x, (s.threads j).overflow = some x ∧ classify (some x) = b)
    (hmain : Has m' (p + startOf B bss b) main)
    (hlast : ∀ j x, (s.threads j).overflow = some x → Has m (overflowOf B j) last →
      Has m' overflowBlock last) : Pieces B n p mg m' b (blocksOf classify b) o main last rest := by
  subst hstart
  refine ⟨hwrite, hsize, hn, hlazy, hmain, fun hno => ?_, fun hyes => ?_⟩
  · have hnone : ∀ j x, (s.threads j).overflow = some x → classify (some x) ≠ b := by
      intro j x hx hxb
      rw [ho.mpr ⟨j, x, hx, hxb⟩] at hno
      cases hno
    obtain ⟨hnil, hlen, hle⟩ := h.noOverflow hnone
    exact ⟨hnil, hlen, fun hpos => hwrite ▸ hle hpos⟩
  · obtain ⟨j, x, hx, hxb⟩ := ho.mp hyes
    obtain ⟨hlen, hlen', hlt, hhas⟩ := h.overflow j x hx hxb
    exact ⟨hlen, hlen', hwrite ▸ hlt, hlast j x hx hhas⟩

end

/-- What is in the buffer of thread `j` from bucket `i`. -/
def inBuffers {t : ℕ} (buf : Fin t → ℕ → List α) (i j : ℕ) : List α :=
  if h : j < t then buf ⟨j, h⟩ i else []

theorem coe_inBuffers {t : ℕ} (buf : Fin t → ℕ → List α) (i : ℕ) :
    (buffered t (inBuffers buf i) : Multiset α) = ∑ j, (buf j i : Multiset α) := by
  rw [coe_blocks, Finset.sum_range]
  exact Finset.sum_congr rfl fun j _ => congrArg _ (dif_pos j.isLt)

section
variable {comp : α → α → Bool} {init : Bool} {K B t : ℕ} {key : α → ℕ} {p : Ptr Area} {xs : List α}
  {shared : SharedData α} {ds : Fin t → LocalData α} {r : SharedData α × (Fin t → LocalData α)}
  {m m₁ : Mem Area α} {feb : ℕ → ℕ} {blocks : Fin t → List (List α)} {buf : Fin t → ℕ → List α}
  {f : ℕ → ℕ → ℕ} {g : Working t α (Mem Area α)}
  (h : StripesCompacted K B key p xs shared ds r m m₁ feb blocks buf f)
  (hB : 1 ≤ B) (ht : 1 ≤ t) (hn : 4 * t * B ≤ xs.length)
include h hB ht hn

/-- A bucket has the elements of its blocks, and those in the buffers. -/
theorem StripesCompacted.size_eq {b : ℕ} (hb : b < shared.numBuckets) :
    r.1.bucketStart (b + 1) = r.1.bucketStart b +
      blocksOf (classifyFull key p m₁ :
        Option (FullBlock B xs.length t (stripeBound B xs.length t) feb) → ℕ) b * B +
      (buffered t (inBuffers buf b)).length := by
  have hfl := h.flushed hB ht hn
  have hcard := congrArg Multiset.card (coe_inBuffers buf b)
  rw [Multiset.coe_card, Multiset.card_sum] at hcard
  rw [hfl.size b hb, blocksOf, hfl.blocks b hb, hcard, Finset.sum_mul, Nat.add_assoc,
    ← Finset.sum_add_distrib]
  congr 1
  exact Finset.sum_congr rfl fun j _ => ((h.stripe j).length_buf hb).symm

end

section
variable {K B t n j i : ℕ} {p q : Ptr Area}

/-- The buffers are not among the blocks that are permuted. -/
theorem notMem_territory (hp : p.arr = .input) (hq : q.arr = .buffers) :
    .elem q ∉ territory t B n p := by
  rintro ⟨l, -, hmem⟩
  refine notMem_seg_of_arr (i := 0) ?_ hmem
  cases l <;> simp [Place.ptr, swapOf, overflowOf, hp, hq]

end

section
variable {comp : α → α → Bool} {init : Bool} {K B t : ℕ} {key : α → ℕ} {p : Ptr Area} {xs : List α}
  {shared : SharedData α} {ds : Fin t → LocalData α} {r : SharedData α × (Fin t → LocalData α)}
  {m m₁ m' : Mem Area α} {feb : ℕ → ℕ} {blocks : Fin t → List (List α)}
  {buf : Fin t → ℕ → List α} {f : ℕ → ℕ → ℕ} {g : Working t α (Mem Area α)}
  (h : StripesCompacted K B key p xs shared ds r m m₁ feb blocks buf f)
include h

/-- The buffers are as they were. -/
theorem StripesCompacted.keeps (hp : p.arr = .input)
    (hag : (copies Area α).AgreeOn (territory t B xs.length p)ᶜ m m') (j : Fin t) {i : ℕ}
    (hi : i < K) : (Buffers.together K B r.2).Keeps B m' (j * K + i) (buf j i) := by
  have hkeeps := (h.stripe j).keeps i hi
  have hhas : Has (m'.along (localAt K B j)) (Buffers.data B i) (buf j i) := by
    refine hkeeps.has.of_eq fun x hx => ?_
    have hx : x < B := hx.trans_le hkeeps.le
    have hne : (localAt K B j (Buffers.data B i + x)).arr ≠ p.arr := by
      rw [hp]
      nofun
    have hown := h.own (.elem (localAt K B j (Buffers.data B i + x))) ⟨⟨j, j.isLt,
      .elem (Buffers.data B i + x), .inr (data_subset hi ⟨x, hx, rfl⟩), rfl⟩,
      notMem_seg_of_arr (i := 0) hne⟩
    exact hown.trans (hag _ (notMem_territory hp rfl))
  exact Buffers.Keeps.together hi { hkeeps with has := hhas }

variable (hB : 1 ≤ B) (ht : 1 ≤ t) (hn : 4 * t * B ≤ xs.length) (hp : p.arr = .input)
  (hK : shared.numBuckets ≤ K) (hnb : 1 ≤ shared.numBuckets)
  (hkey : ∀ x, key x < shared.numBuckets)
  (hc : ∀ x, r.1.classifier.classify comp r.1.useEqualBuckets x = some (key x))
  (hg : Working.Reaches comp init B r.1.useEqualBuckets r.1.classifier p (copies Area α) xs.length
    shared.numBuckets (.start shared.numBuckets t r.1.bucketPointers m) g)
include hB ht hn hp hK hnb hkey hc hg

/-- **What the threads leave behind when they have permuted blocks** is what cleanup begins with:
every element is in a block of its bucket, or in a buffer. -/
theorem StripesCompacted.exists_scattered (hret : ∀ i, (g.workers i).prog = .ret .finished) :
    ∃ blocks o main last, Scattered K B xs.length t p (g.margins r.1)
      (Buffers.together K B r.2)
      (g.mem.along (overflowAt B (g.overflowThread.elim 0 Fin.val))) blocks o main last
      (inBuffers buf) ∧ ∀ i < shared.numBuckets,
        ((main i ++ last i ++ buffered t (inBuffers buf i) : List α) : Multiset α) =
          (xs : Multiset α).filter fun x => key x = i := by
  classical
  have hbound := h.boundaries hnb hkey
  have hfl := h.flushed hB ht hn
  obtain ⟨s₀, hptr, hcl, hst⟩ := h.exists_start hnb hkey hB ht hn init
  rw [← hptr] at hg
  obtain ⟨s, L, hr, hM, hag⟩ := hg.matches hbound hB hcl hp (classify_blockAt hB hc) hst
  obtain ⟨hfin, hrep⟩ := hM.finished hret
  have hI := hr.inv hbound hB hcl
  have hplaced : ∀ b < shared.numBuckets, ∃ main last, _ := fun b hb =>
    hrep.exists_placing hbound hB hcl ht hr hfin hb
  choose! main last hpl using hplaced
  let bits : Option (FullBlock B xs.length t (stripeBound B xs.length t) feb) → ℕ :=
    classifyFull key p m₁
  let o (b : ℕ) : Bool := decide (∃ j x, (s.threads j).overflow = some x ∧ bits (some x) = b)
  have hnum : r.1.numBuckets = shared.numBuckets := h.shared.2.1
  -- the overflow block that all threads use
  have hthread : ∀ j x, (s.threads j).overflow = some x → g.overflowThread = some j := by
    intro j x hx
    have hset : (g.workers j).overflow = true := (hrep.overflow j).mp (by rw [hx]; rfl)
    obtain ⟨j', hj'⟩ := Option.isSome_iff_exists.mp
      (Working.isSome_overflowThread_iff.mpr ⟨j, hset⟩)
    obtain ⟨x', hx'⟩ := Option.isSome_iff_exists.mp
      ((hrep.overflow j').mpr (Working.overflow_of_overflowThread hj'))
    rw [hj', (hI.overflow j x hx).2.2.2 j' x' hx']
  refine ⟨blocksOf bits, o, main, last, ⟨?_, ?_, fun i hi => ?_, fun i hi j hj => ?_,
    fun i hi => ?_⟩, fun i hi => ?_⟩
  · change Boundaries false r.1.numBuckets _ _
    rw [hnum]
    exact hbound
  · exact hnum.trans_le hK
  · rw [show (g.margins r.1).numBuckets = shared.numBuckets from hnum] at hi
    have hsize := h.size_eq hB ht hn hi
    refine (hpl i hi).pieces rfl ?_ hsize (hbound.end_le hi) (fun hpos hnil => ?_)
      decide_eq_true_iff ?_ fun j x hx hhas => ?_
    · change ((g.pointers i).w).toNat = _
      rw [hrep.pointers, hr.w_eq hbound hB hcl ht hfin hi, startBlock]
      norm_cast
    · have hmore := (hfl.permuted hB fun b _ => rfl).flushed i hi hpos
      rw [hnil, List.length_nil] at hsize
      omega
    · rw [has_overflowAt, overflowAt_of_ne (by simp [hp])]
      exact (hpl i hi).has
    · rw [has_overflowAt, hthread j x hx, overflowAt_overflowBlock]
      exact hhas
  · rw [show (g.margins r.1).numBuckets = shared.numBuckets from hnum] at hi
    have hkeeps := h.keeps hp hag ⟨j, hj⟩ (hi.trans_le hK)
    have hbuf : inBuffers buf i j = buf ⟨j, hj⟩ i := dif_pos hj
    rw [hbuf]
    refine { hkeeps with has := ?_ }
    rw [has_overflowAt, overflowAt_of_ne (by simp [Buffers.data])]
    exact hkeeps.has
  · change o i = true ↔ some i = computeOverflowBucket B r.1.bucketStart r.1.numBuckets ∧
      g.overflowThread.isSome = true
    rw [hnum]
    constructor
    · intro hi
      obtain ⟨j, x, hx, rfl⟩ := of_decide_eq_true hi
      exact ⟨(hI.overflowBucket_eq hbound hB hcl hfl hx).symm, by rw [hthread j x hx]; rfl⟩
    · rintro ⟨hi, hsome⟩
      obtain ⟨j, hj⟩ := Option.isSome_iff_exists.mp hsome
      obtain ⟨x, hx⟩ := Option.isSome_iff_exists.mp
        ((hrep.overflow j).mpr (Working.overflow_of_overflowThread hj))
      rw [hI.overflowBucket_eq hbound hB hcl hfl hx] at hi
      exact decide_eq_true ⟨j, x, hx, (Option.some.inj hi).symm⟩
  · rw [← Multiset.coe_add, (hpl i hi).all, coe_inBuffers]
    exact h.filter_eq hB ht hn hi

end

end Ps4o.InPlace
