import Ps4o.InPlace.BlockInvariant
import Ps4o.InPlace.ParallelCleanup
import Ps4o.InPlace.Partitioning
import Ps4o.Program.Halting

/-!
# The overflow block

The last block of the array may be cut off by its end. A block that belongs there goes to the
overflow buffer of a thread (`swapBlock` in `block_permutation.hpp`); which bucket it can be of is
computed before (`computeOverflowBucket`), and when the margins are filled, it is assumed that
everything fits (`writeMargins` in `cleanup_margins.hpp`).

## The model

The threads take their steps in the order of a schedule. Every thread has classified a part of the
elements of each bucket, and has flushed its buffer of the bucket when a further element has
arrived. What `writeMargins` declares impossible is `Impossible`.

## What is proved

* `writeHeadOf_halted_iff` — the model of `writeMargins` halts just for what is declared impossible.
* `Classifying.fullBlocks_eq`, `Flushed.permuted` — how many blocks of a bucket one thread has
  flushed, and what is left when all have.
* `overflowWrites_le_one` — at most one block is written to an overflow buffer.
* `Inv.overflowBucket_eq` — it belongs to the bucket that has been computed.
* `Reachable.w_eq` — when all threads have finished, the write pointer of a bucket is behind all its
  blocks.
* `overflow_predicted` — **all this holds for every schedule, and what `writeMargins` declares
  impossible does not happen**.
-/

namespace Ps4o.InPlace

open Ps4o.Program Ps4o.Storage Ps4o.Order Ps4o.Order.Stripes

/-! ### The code -/

/-- How often a buffer is flushed to which `count` elements go. -/
def flushes (kBlockSize count : ℕ) : ℕ := (count - 1) / kBlockSize

/-- What `writeMargins` declares impossible for bucket `i`: in the overflow case, with elements from
the swap block, and when the last block of the bucket has been written. -/
def Impossible (kBlockSize : ℕ) (bss write : ℕ → ℕ) (overflowBucket : Option ℕ) (overflow : Bool)
    (saved : Saved) (i : ℕ) : Prop :=
  let remaining := alignToNextBlock kBlockSize (bss i) - bss i
  if some i = overflowBucket ∧ overflow then
    alignToNextBlock kBlockSize (bss (i + 1)) ≠ write i ∨
      (bss (i + 1) : ℤ) - (write i - kBlockSize) + remaining < kBlockSize
  else if some i = saved.swapBucket ∧ saved.inSwapBuffer ≠ 0 then
    remaining < saved.inSwapBuffer
  else if bss (i + 1) < write i ∧ kBlockSize < bss (i + 1) - bss i then
    alignToNextBlock kBlockSize (bss (i + 1)) ≠ write i ∨ remaining < write i - bss (i + 1)
  else
    False

/-- Whether the thread writes its overflow block next. -/
def Pc.writesOverflow : Pc → Bool
  | .writeOverflow _ _ _ => true
  | _ => false

section
variable {t : ℕ} {β : Type} (B n nb : ℕ) (classify : Option β → ℕ)

/-- The state after a schedule. -/
def Permuting.after (schedule : List (Fin t)) (s : Permuting t β) : Permuting t β :=
  schedule.foldl (fun s i => step B n nb classify i s) s

/-- How many blocks are written to overflow blocks in a schedule. -/
def overflowWrites : List (Fin t) → Permuting t β → ℕ
  | [], _ => 0
  | i :: schedule, s =>
    (s.threads i).pc.writesOverflow.toNat + overflowWrites schedule (step B n nb classify i s)

/-- Whether some thread has set `overflow_`. -/
def Permuting.overflowed (s : Permuting t β) : Bool := decide (∃ i, (s.threads i).overflow.isSome)

/-- `getWrite`. -/
def Permuting.getWrite (s : Permuting t β) (b : ℕ) : ℕ := (s.pointers b).w.toNat

/-- The threads have classified `counts j b` elements of bucket `b` each, and have flushed all
blocks but the last ones. -/
structure Flushed [Fintype β] (bss : ℕ → ℕ) (counts : Fin t → ℕ → ℕ) : Prop where
  size : ∀ b < nb, bss (b + 1) = bss b + ∑ j, counts j b
  blocks : ∀ b < nb, (Finset.univ.filter fun x => classify (some x) = b).card =
    ∑ j, flushes B (counts j b)

end

/-! ### What is declared impossible -/

section
variable {α : Type}

theorem not_halted_moveRange (src dst : Ptr Area) (n : ℕ) :
    ¬ (moveRange src dst n : Act Area α Unit).Halted :=
  Prog.not_halted_loop (fun _ _ => Prog.not_halted_cmd _ _) n ()

theorem not_halted_reset (init : Bool) (block : Ptr Area) (n : ℕ) :
    ¬ (Block.reset init block n : Act Area α Unit).Halted := by
  cases init with
  | true => exact Prog.not_halted_ret ()
  | false => exact Prog.not_halted_loop (fun _ _ => Prog.not_halted_cmd _ _) n ()

/-- **It is what `writeMargins` halts for.** -/
theorem writeHeadOf_halted_iff {init : Bool} {B : ℕ} {p : Ptr Area} {s : Margins}
    {overflowBucket : Option ℕ} {swap : Ptr Area} {saved : Saved} {i : ℕ} :
    (writeHeadOf init B p s overflowBucket swap saved i : Act Area α (Ptr Area × Option ℕ)).Halted ↔
      Impossible B s.bucketStart s.write overflowBucket s.overflow saved i := by
  have hgoes : ∀ {src dst : Ptr Area} {k : ℕ} {f : Unit → Act Area α (Ptr Area × Option ℕ)},
      (∀ b, ¬ (f b).Halted) →
      ¬ (moveRange src dst k >>= f).Halted := Prog.not_halted_bind (not_halted_moveRange _ _ _)
  have hreset : ∀ {block : Ptr Area} {k : ℕ} {r : Ptr Area × Option ℕ},
      ¬ (Block.reset init block k >>= fun _ =>
        (pure r : Act Area α (Ptr Area × Option ℕ))).Halted :=
    Prog.not_halted_bind (not_halted_reset init _ _) fun _ => Prog.not_halted_ret _
  unfold writeHeadOf Impossible
  dsimp only
  split_ifs with ho himp hs himp hlast himp
  · exact iff_of_true (Prog.halted_halt _) himp
  · exact iff_of_false (hgoes fun _ => hgoes fun _ => hreset) himp
  · exact iff_of_true (Prog.halted_halt _) himp
  · exact iff_of_false (hgoes fun _ => hreset) himp
  · exact iff_of_true (Prog.halted_halt _) himp
  · exact iff_of_false (hgoes fun _ => Prog.not_halted_ret _) himp
  · exact iff_of_false (Prog.not_halted_ret _) id

end

/-! ### What is flushed -/

section
variable {B count : ℕ}

theorem flushes_mul_le : flushes B count * B ≤ count - 1 := Nat.div_mul_le_self _ _

/-- What is left is a block at most. -/
theorem le_flushes (hB : 1 ≤ B) : count ≤ flushes B count * B + B := by
  have hlt := Nat.lt_div_mul_add (a := count - 1) (b := B) (by omega)
  unfold flushes
  omega

/-- Something is left when a block has been flushed. -/
theorem flushes_lt (hpos : 1 ≤ flushes B count) : flushes B count * B < count := by
  have hle : flushes B count * B ≤ count - 1 := flushes_mul_le
  have hcount : count ≠ 0 := by
    rintro rfl
    rw [flushes, Nat.zero_sub, Nat.zero_div] at hpos
    omega
  omega

theorem flushes_eq {k r : ℕ} (hB : 1 ≤ B) (hr : r ≤ B) (hpos : 1 ≤ k → 1 ≤ r) :
    flushes B (k * B + r) = k := by
  rw [flushes]
  rcases Nat.eq_zero_or_pos k with rfl | hk
  · exact Nat.div_eq_of_lt (by omega)
  · have hone := hpos hk
    rw [Nat.add_sub_assoc hone, Nat.add_comm, Nat.add_mul_div_right _ _ hB,
      Nat.div_eq_of_lt (by omega), Nat.zero_add]

/-- **How many blocks of a bucket a thread has flushed** when it has classified its elements. -/
theorem Classifying.fullBlocks_eq {α : Type} {init : Bool} {nb kMaxBuckets lo j : ℕ} {key : α → ℕ}
    {p : Ptr Area} {xs : List α} {d₀ : LocalData α} {r : ℕ × LocalData α} {m : Mem Area (Slot α)}
    {blocks : List (List α)} {buf : ℕ → List α}
    (h : Classifying init B nb kMaxBuckets key p lo xs j d₀ r m blocks buf)
    (hlazy : Lazy key blocks buf) (hB : 1 ≤ B) (hnb : nb ≤ kMaxBuckets) {b : ℕ} (hb : b < nb) :
    fullBlocks B key blocks b = flushes B ((xs.take j).countP fun x => key x = b) := by
  rw [← h.count hb, fullBlocks_mul h.block]
  refine (flushes_eq hB (h.holds b (hb.trans_le hnb)).le fun hpos => ?_).symm
  have hblock : 0 < blocks.flatten.countP fun x => key x = b := by
    rw [fullBlocks_mul h.block]
    exact Nat.mul_pos hpos hB
  obtain ⟨x, hx, hxb⟩ := List.countP_pos_iff.mp hblock
  obtain ⟨l, hl, hxl⟩ := List.mem_flatten.mp hx
  have hbuf := hlazy l hl x hxl
  rw [of_decide_eq_true hxb] at hbuf
  exact List.length_pos_iff.mpr hbuf

variable {t nb : ℕ} {β : Type} [Fintype β] {bss : ℕ → ℕ} {classify : Option β → ℕ}
  {counts : Fin t → ℕ → ℕ}

/-- How many blocks a bucket has. -/
def blocksOf (classify : Option β → ℕ) (b : ℕ) : ℕ :=
  (Finset.univ.filter fun x => classify (some x) = b).card

/-- **What threads have flushed together**: there is room for all blocks, what is left is a block of
each thread at most, and something is left of a bucket that has blocks. -/
theorem Flushed.permuted (h : Flushed B nb classify bss counts) (hB : 1 ≤ B) {write : ℕ → ℕ}
    (hw : ∀ b < nb, write b = alignToNextBlock B (bss b) + blocksOf classify b * B) :
    Permuted B nb t bss (blocksOf classify) write := by
  have hsize : ∀ b < nb, bss (b + 1) - bss b = ∑ j, counts j b := fun b hb => by
    rw [h.size b hb, Nat.add_sub_cancel_left]
  have hblocks : ∀ b < nb, blocksOf classify b * B = ∑ j, flushes B (counts j b) * B :=
      fun b hb => by
    rw [blocksOf, h.blocks b hb, Finset.sum_mul]
  refine ⟨fun b hb => ?_, fun b hb => ?_, fun b hb hpos => ?_, hw⟩
  · rw [hsize b hb, hblocks b hb]
    exact Finset.sum_le_sum fun j _ => flushes_mul_le.trans (Nat.sub_le _ _)
  · rw [hsize b hb, hblocks b hb, Nat.sub_le_iff_le_add']
    calc ∑ j, counts j b ≤ ∑ j, (flushes B (counts j b) * B + B) :=
      Finset.sum_le_sum fun j _ => le_flushes hB
      _ = ∑ j, flushes B (counts j b) * B + t * B := by
        rw [Finset.sum_add_distrib, Finset.sum_const, Finset.card_univ,
          Fintype.card_fin, Nat.nsmul_eq_mul]
  · rw [hsize b hb, hblocks b hb]
    rw [blocksOf, h.blocks b hb] at hpos
    obtain ⟨j, -, hj⟩ := Finset.exists_ne_zero_of_sum_ne_zero (Nat.one_le_iff_ne_zero.mp hpos)
    exact Finset.sum_lt_sum (fun i _ => flushes_mul_le.trans (Nat.sub_le _ _))
      ⟨j, Finset.mem_univ j, flushes_lt (Nat.one_le_iff_ne_zero.mpr hj)⟩

end

/-! ### What does not happen -/

section
variable {B n nb t : ℕ} {bss blocks write : ℕ → ℕ} {i : ℕ} (h : Boundaries false nb n bss)
  (hB : 1 ≤ B) (hp : Permuted B nb t bss blocks write)
include h hB hp

/-- The excess of the last block fits into the head of the bucket. -/
theorem Permuted.excess_le (hi : i < nb) :
    write i - bss (i + 1) ≤ alignToNextBlock B (bss i) - bss i := by
  have hfits := hp.fits i hi
  have hstep := h.step i hi
  have hle := le_alignToNextBlock hB (bss i)
  rw [hp.write i hi]
  omega

/-- A bucket whose write pointer is beyond its end ends in its last block. -/
theorem Permuted.align_end (hi : i < nb) (hlt : bss (i + 1) < write i) :
    alignToNextBlock B (bss (i + 1)) = write i :=
  le_antisymm ((alignToNextBlock_le_iff hB (hp.dvd hi)).mpr hlt.le) (hp.write_le h hB hi)

/-- **Nothing that is declared impossible happens**, when the overflow bucket is the one that
reaches beyond the end of the array, and a thread saves the excess of a bucket. -/
theorem Permuted.not_impossible {overflowBucket : Option ℕ} {overflow : Bool}
    {saved : Saved} (hi : i < nb) (hover : some i = overflowBucket → overflow = true → n < write i)
    (hsaved : some i = saved.swapBucket → saved.inSwapBuffer ≠ 0 →
      saved.inSwapBuffer = write i - bss (i + 1)) :
    ¬ Impossible B bss write overflowBucket overflow saved i := by
  have hfits := hp.fits i hi
  have hexcess := hp.excess_le h hB hi
  have hwrite := hp.write i hi
  have hstep := h.step i hi
  have hle := le_alignToNextBlock hB (bss i)
  unfold Impossible
  dsimp only
  split_ifs with ho hs hlast
  · have hend := hp.align_end h hB hi ((h.end_le hi).trans_lt (hover ho.1 ho.2))
    rw [not_or, not_not]
    refine ⟨hend, ?_⟩
    omega
  · rw [hsaved hs.1 hs.2]
    exact Nat.not_lt.mpr hexcess
  · rw [not_or, not_not]
    exact ⟨hp.align_end h hB hi hlast.1, Nat.not_lt.mpr hexcess⟩
  · exact not_false

end

/-! ### One overflow block -/

section
variable {t : ℕ} {β : Type} [Fintype β] {B n nb : ℕ} {bss full : ℕ → ℕ} {classify : Option β → ℕ}
  {s₀ s : Permuting t β} (h : Boundaries false nb n bss) (hB : 1 ≤ B)
  (hcl : Classified B n nb bss full classify s₀)
include h hB hcl

/-- Nobody writes an overflow block when there is one. -/
theorem Inv.not_writesOverflow (hI : Inv B n nb bss classify s₀ s) {j : Fin t}
    (hj : (s.threads j).overflow.isSome) (i : Fin t) : (s.threads i).pc.writesOverflow = false := by
  cases hpc : (s.threads i).pc with
  | writeOverflow d c q =>
    have hspill : s.Claims q i .spill := congrArg Pc.claim hpc
    rw [(hI.overflow_of_spill h hB hcl hspill).2 j] at hj
    cases hj
  | _ => rfl

/-- An overflow block stays. -/
theorem Inv.isSome_overflow_step (hI : Inv B n nb bss classify s₀ s) {j : Fin t}
    (hj : (s.threads j).overflow.isSome) (i : Fin t) :
    ((step B n nb classify i s).threads j).overflow.isSome := by
  rcases step_overflow B n nb classify s i j with heq | ⟨rfl, d, c, q, hpc, -⟩
  · rwa [heq]
  · have hno := hI.not_writesOverflow h hB hcl hj j
    rw [hpc] at hno
    cases hno

omit [Fintype β] h hB hcl in
/-- A thread that writes its overflow block has one then. -/
theorem Inv.isSome_overflow_of_writes (hI : Inv B n nb bss classify s₀ s) {i : Fin t}
    (hi : (s.threads i).pc.writesOverflow = true) :
    ((step B n nb classify i s).threads i).overflow.isSome := by
  cases hpc : (s.threads i).pc with
  | writeOverflow d c q =>
    have hok := hI.threads i
    unfold Thread.Ok at hok
    rw [hpc] at hok
    obtain ⟨⟨x, hx, -⟩, -⟩ := hok
    simp only [step, hpc, Permuting.continue, Function.update_self, hx, Option.isSome_some]
  | _ =>
    rw [hpc] at hi
    cases hi

/-- Once there is an overflow block, none is written. -/
theorem overflowWrites_eq_zero (hI : Inv B n nb bss classify s₀ s) {j : Fin t}
    (hj : (s.threads j).overflow.isSome) (schedule : List (Fin t)) :
    overflowWrites B n nb classify schedule s = 0 := by
  induction schedule generalizing s with
  | nil => rfl
  | cons i schedule ih =>
    rw [overflowWrites, hI.not_writesOverflow h hB hcl hj i,
      ih (inv_step h hB hcl hI i) (hI.isSome_overflow_step h hB hcl hj i)]
    rfl

/-- **At most one block is written to an overflow buffer.** -/
theorem overflowWrites_le_one (hI : Inv B n nb bss classify s₀ s) (schedule : List (Fin t)) :
    overflowWrites B n nb classify schedule s ≤ 1 := by
  induction schedule generalizing s with
  | nil => exact Nat.zero_le 1
  | cons i schedule ih =>
    have hnext := inv_step h hB hcl hI i
    rw [overflowWrites]
    cases hi : (s.threads i).pc.writesOverflow with
    | false => simpa using ih hnext
    | true =>
      rw [overflowWrites_eq_zero h hB hcl hnext (hI.isSome_overflow_of_writes hi)]
      rfl

/-! ### Where the overflow block belongs -/

omit [Fintype β] h hcl in
/-- A bucket that the last slot is in reaches beyond its beginning. -/
theorem InBucket.maxOff_lt {b : ℕ} (hin : InBucket B bss b (maxOff B n)) :
    n / B * B < bss (b + 1) := by
  have hlt := hin.2.2
  rw [maxOff_eq hB, ← Nat.cast_mul, startBlock, Int.ofNat_lt] at hlt
  by_contra hle
  exact absurd ((alignToNextBlock_le_iff hB (Dvd.intro_left _ rfl)).mpr (not_lt.mp hle))
    (not_le.mpr hlt)

omit [Fintype β] hcl in
/-- It is the last one that has more elements than one block, if it has so many. -/
theorem computeOverflowBucket_of_maxOff {b : ℕ} (hb : b < nb) (hin : InBucket B bss b (maxOff B n))
    (hlt : B < bss (b + 1) - bss b) : computeOverflowBucket B bss nb = some b := by
  refine computeOverflowBucket_eq hb hlt fun c hc hcn => ?_
  have hlast := hin.maxOff_lt hB
  have hlate := h.mono (show b + 1 ≤ c from hc) hcn.le
  have hend := h.end_le hcn
  have hn := Nat.div_add_mod' n B
  have hmod := Nat.mod_lt n (show 0 < B by omega)
  omega

/-- **The overflow block belongs to the bucket that has been computed.** -/
theorem Inv.overflowBucket_eq (hI : Inv B n nb bss classify s₀ s) {counts : Fin t → ℕ → ℕ}
    (hf : Flushed B nb classify bss counts) {i : Fin t} {x : β}
    (hx : (s.threads i).overflow = some x) :
    computeOverflowBucket B bss nb = some (classify (some x)) := by
  have hb := hcl.bucket x
  have hpos : 1 ≤ blocksOf classify (classify (some x)) :=
    Finset.card_pos.mpr ⟨x, Finset.mem_filter.mpr ⟨Finset.mem_univ x, rfl⟩⟩
  have hmore := (hf.permuted hB fun b _ => rfl).flushed _ hb hpos
  have hone := Nat.le_mul_of_pos_left B hpos
  exact computeOverflowBucket_of_maxOff h hB hb (hI.overflow i x hx).1 (by omega)

/-! ### The write pointers -/

omit hB in
/-- No block is in the last slot: one that is written there goes to the overflow block. -/
theorem Inv.slot_lt_step (hI : Inv B n nb bss classify s₀ s)
    (hlt : ∀ p x, s.slot p = some x → p < maxOff B n) (i : Fin t) :
    ∀ p x, (step B n nb classify i s).slot p = some x → p < maxOff B n := by
  intro p x hx
  by_cases hno : ∀ k, ¬ s.Claims p i k
  · rw [step_slot_of_not_claims hno] at hx
    exact hlt p x hx
  obtain ⟨k, hk⟩ := not_forall_not.mp hno
  obtain ⟨b, hb, hin, hslot⟩ := hI.claimed h hcl hk
  unfold Permuting.Claims at hk
  cases hpc : (s.threads i).pc with
  | tryRead | decRead | noBlock | stopRead | incWrite | finished =>
    rw [hpc] at hk
    cases hk
  | readBlock q | swapOut d c q new =>
    rw [hpc] at hk
    obtain rfl : q = p := congrArg Prod.fst (Option.some.inj hk)
    simp only [step, hpc, Permuting.write, Function.update_self] at hx
    cases hx
  | writeBlock d c q | swapIn d c q new =>
    rw [hpc] at hk
    obtain rfl : q = p := congrArg Prod.fst (Option.some.inj hk)
    exact (hslot.fill (i := i) (congrArg Pc.claim hpc)).2.1
  | writeOverflow d c q | classify d c q =>
    simp only [step, hpc, Permuting.continue] at hx
    exact hlt p x hx
  | isReading d c q =>
    simp only [step, hpc] at hx
    split at hx <;> exact hlt p x hx

theorem Reachable.slot_lt (hr : Reachable B n nb classify s₀ s) :
    ∀ p x, s.slot p = some x → p < maxOff B n := by
  induction hr with
  | start => exact fun p x hx => hcl.lt_maxOff hx hB
  | step i hr ih => exact (hr.inv h hB hcl).slot_lt_step h hcl ih i

/-- **When all threads have finished, the write pointer of a bucket is behind all its blocks.** -/
theorem Reachable.w_eq (ht : 1 ≤ t) (hr : Reachable B n nb classify s₀ s)
    (hfin : ∀ i, (s.threads i).pc = .finished) {b : ℕ} (hb : b < nb) :
    (s.pointers b).w = startBlock B bss b + (blocksOf classify b : ℕ) * B := by
  have hI := hr.inv h hB hcl
  have hslots := hr.slot_lt h hB hcl
  classical
  obtain ⟨m, l, y, hm, hinj, hslot⟩ := hI.exists_accounts h hB hcl.bucket hb
  -- the block that a slot below the write pointer accounts for is in the slot, or in the overflow
  -- block if it is the last slot
  have hacc : ∀ k, l k = .slot (startBlock B bss b + (k : ℕ) * B) ∨
      ∃ j, l k = .overflow j ∧ startBlock B bss b + (k : ℕ) * B = maxOff B n := by
    intro k
    have hk := (hslot k).1
    generalize l k = place at hk
    cases hk with
    | slot => exact .inl rfl
    | swap j k' d c hp _ =>
      unfold Permuting.Claims at hp
      rw [hfin j] at hp
      cases hp
    | overflow j hp => exact .inr ⟨j, rfl, hp⟩
  have hindex : ∀ p, InBucket B bss b p → p < (s.pointers b).w →
      ∃ k : Fin m, p = startBlock B bss b + (k : ℕ) * B := by
    intro p hin hlt
    obtain ⟨q, hq⟩ := Int.dvd_sub hin.1 (@dvd_startBlock B bss b)
    have hle := hin.2.1
    have hq₀ : 0 ≤ q := le_of_mul_le_mul_left (a := (B : ℤ)) (by rw [mul_zero]; omega) (by omega)
    obtain ⟨k, rfl⟩ := Int.eq_ofNat_of_zero_le hq₀
    have hp : p = startBlock B bss b + (k : ℤ) * B := by
      rw [mul_comm]
      omega
    have hk : (k : ℤ) < m := lt_of_mul_lt_mul_right (a := (B : ℤ)) (by omega) (Int.natCast_nonneg B)
    exact ⟨⟨k, Int.ofNat_lt.mp hk⟩, hp⟩
  have hsurj : ∀ x, classify (some x) = b → ∃ k, y k = x := by
    intro x hx
    rcases (hI.allPlaced h ht hfin).1 x with ⟨p, h₁, h₂, hp⟩ | ⟨i, hi⟩
    · subst hx
      obtain ⟨c, -, hin, -⟩ := hI.bucket_of_slot hp
      obtain ⟨k, rfl⟩ := hindex p ⟨hin.1, h₁, h₂.trans_le (hI.w_le _ hb)⟩ h₂
      rcases hacc k with hl | ⟨j, -, hmax⟩
      · have hy := (hslot k).2.1
        rw [hl] at hy
        exact ⟨k, Option.some.inj (hy.symm.trans hp)⟩
      · exact absurd hmax (hslots _ x hp).ne
    · obtain ⟨hin, hw, -, huniq⟩ := hI.overflow i x hi
      rw [hx] at hin hw
      obtain ⟨k, hk⟩ := hindex _ hin hw
      have hy := (hslot k).2.1
      rcases hacc k with hl | ⟨j, hl, -⟩
      · rw [hl, ← hk] at hy
        exact absurd (hslots _ _ hy) (lt_irrefl _)
      · rw [hl] at hy
        obtain rfl := huniq j _ hy
        exact ⟨k, Option.some.inj (hy.symm.trans hi)⟩
  have hcard : blocksOf classify b = m := by
    have himage : (Finset.univ.filter fun x => classify (some x) = b) = Finset.univ.image y := by
      ext x
      simp only [Finset.mem_filter, Finset.mem_univ, true_and, Finset.mem_image]
      exact ⟨hsurj x, fun ⟨k, hk⟩ => hk ▸ (hslot k).2.2⟩
    rw [blocksOf, himage, Finset.card_image_of_injective _ hinj, Finset.card_univ, Fintype.card_fin]
  rw [hm, hcard]

/-- What the threads leave behind when they have finished. -/
theorem Reachable.permuted (ht : 1 ≤ t) (hr : Reachable B n nb classify s₀ s)
    (hfin : ∀ i, (s.threads i).pc = .finished) {counts : Fin t → ℕ → ℕ}
    (hf : Flushed B nb classify bss counts) :
    Permuted B nb t bss (blocksOf classify) s.getWrite := by
  refine hf.permuted hB fun b hb => ?_
  rw [Permuting.getWrite, hr.w_eq h hB hcl ht hfin hb, startBlock]
  norm_cast

/-! ### What is predicted -/

/-- The write pointer of the bucket that has been computed is beyond the end of the array when there
is an overflow block. -/
theorem Inv.lt_getWrite (hI : Inv B n nb bss classify s₀ s) {counts : Fin t → ℕ → ℕ}
    (hf : Flushed B nb classify bss counts) {b : ℕ} (hb : some b = computeOverflowBucket B bss nb)
    (ho : s.overflowed = true) : n < s.getWrite b := by
  obtain ⟨i, hi⟩ := of_decide_eq_true ho
  obtain ⟨x, hx⟩ := Option.isSome_iff_exists.mp hi
  obtain rfl : b = classify (some x) :=
    Option.some.inj (hb.trans (hI.overflowBucket_eq h hB hcl hf hx))
  obtain ⟨-, hw, -, -⟩ := hI.overflow i x hx
  have hnext : maxOff B n + B ≤ (s.pointers (classify (some x))).w := by
    by_contra hlt
    have hle := le_of_lt_add_block (hI.dvd_w _ (hcl.bucket x)) (dvd_maxOff (n := n)) (not_le.mp hlt)
    omega
  have hend := le_alignToNextBlock hB (n + 1)
  unfold maxOff at hnext
  rw [Permuting.getWrite]
  omega

/-- **The overflow is unique and predicted**: whatever the order of the steps, at most one block is
written to an overflow buffer, and it belongs to the bucket that has been computed; nothing that is
declared impossible happens when the margins are filled, by one thread or by all. -/
theorem overflow_predicted (ht : 1 ≤ t) {counts : Fin t → ℕ → ℕ}
    (hf : Flushed B nb classify bss counts) (schedule : List (Fin t)) :
    overflowWrites B n nb classify schedule s₀ ≤ 1 ∧
      (∀ i x, ((s₀.after B n nb classify schedule).threads i).overflow = some x →
        computeOverflowBucket B bss nb = some (classify (some x))) ∧
      ((∀ i, ((s₀.after B n nb classify schedule).threads i).pc = .finished) →
        (∀ b < nb, ¬ Impossible B bss (s₀.after B n nb classify schedule).getWrite
          (computeOverflowBucket B bss nb)
          (s₀.after B n nb classify schedule).overflowed ⟨none, 0, 0⟩ b) ∧
        ∀ (j : Fin t) (b : ℕ), first nb t j ≤ b → b < first nb t (j + 1) →
          ¬ Impossible B bss (s₀.after B n nb classify schedule).getWrite
            (computeOverflowBucket B bss nb) (s₀.after B n nb classify schedule).overflowed
            (savings B n nb t bss (s₀.after B n nb classify schedule).getWrite j) b) := by
  have hr : Reachable B n nb classify s₀ (s₀.after B n nb classify schedule) :=
    reachable_foldl .start schedule
  have hI := hr.inv h hB hcl
  refine ⟨overflowWrites_le_one h hB hcl (inv_start h hB hcl) schedule,
    fun i x hx => hI.overflowBucket_eq h hB hcl hf hx, fun hfin => ?_⟩
  have hp := hr.permuted h hB hcl ht hfin hf
  refine ⟨fun b hb => ?_, fun j b _ hb => ?_⟩
  · exact hp.not_impossible h hB hb (fun ho => hI.lt_getWrite h hB hcl hf ho) nofun
  · refine hp.not_impossible h hB (hb.trans_le first_le)
      (fun ho => hI.lt_getWrite h hB hcl hf ho) fun hs hpos => ?_
    obtain ⟨c, -, heq, -⟩ := savings_of_pos h hB hp ht (Nat.pos_of_ne_zero hpos)
    rw [heq] at hs ⊢
    obtain rfl := Option.some.inj hs
    rfl

end

/-- Two buckets, of one and of five elements. -/
def oneAndFive (b : ℕ) : ℕ := if b = 0 then 0 else if b = 1 then 1 else 6

/-- The first thread has classified all of them, and has flushed a block of the second bucket. -/
def oneBlock : Permuting 2 (Fin 1) where
  slot p := if p = 0 then some 0 else none
  pointers b := if b = 0 then .set 0 0 else .set 4 0
  threads i := .start 2 2 i

theorem oneBlock_classified : Classified 4 6 2 oneAndFive (fun b => if b = 0 then 1 else 0)
    (fun _ => 1) oneBlock where
  pointers := by decide
  inBucket := by decide
  inArray := by decide
  slot p := by
    constructor
    · intro hp
      simp only [oneBlock] at hp
      split at hp
      · next h => exact ⟨0, by decide, 0, by decide, h⟩
      · cases hp
    · rintro ⟨b, hb, k, hk, rfl⟩
      revert b k
      decide
  blocks x := by
    refine ⟨0, by rw [Subsingleton.elim x 0]; rfl, fun p hp => ?_⟩
    simp only [oneBlock] at hp
    split at hp
    · next h => exact h
    · cases hp
  bucket := by decide
  room := by decide
  threads _ := rfl

theorem oneAndFive_boundaries : Boundaries false 2 6 oneAndFive :=
  ⟨by decide, rfl, rfl, by decide, nofun⟩

theorem oneBlock_flushed :
    Flushed 4 2 (fun _ : Option (Fin 1) => 1) oneAndFive fun (j : Fin 2) b =>
      if j = 0 then 4 * b + 1 else 0 :=
  ⟨by decide, by decide⟩

/-- Two threads that take turns: the block goes to the overflow block of the first one, and belongs
to the second bucket. -/
theorem overflow_predicted_oneBlock :
    ((oneBlock.after 4 6 2 (fun _ => 1) (List.replicate 12 [0, 1]).flatten).threads 0).overflow =
    some 0 ∧ computeOverflowBucket 4 oneAndFive 2 = some 1 ∧
      ∀ b < 2, ¬ Impossible 4 oneAndFive
        (oneBlock.after 4 6 2 (fun _ => 1) (List.replicate 12 [0, 1]).flatten).getWrite
          (computeOverflowBucket 4 oneAndFive 2)
        (oneBlock.after 4 6 2 (fun _ => 1) (List.replicate 12 [0, 1]).flatten).overflowed
          ⟨none, 0, 0⟩ b := by
  have hover : ((oneBlock.after 4 6 2 (fun _ => 1) (List.replicate 12 [0, 1]).flatten).threads
      0).overflow = some 0 := by
    decide +kernel
  obtain ⟨-, hbucket, hmargins⟩ :=
    overflow_predicted oneAndFive_boundaries (by decide) oneBlock_classified (by decide)
    oneBlock_flushed (List.replicate 12 [0, 1]).flatten
  exact ⟨hover, hbucket 0 0 hover, (hmargins (by decide +kernel)).1⟩

end Ps4o.InPlace
