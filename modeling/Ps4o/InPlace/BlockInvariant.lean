import Ps4o.InPlace.BlockPlaces

/-!
# Block permutation conserves the blocks

Each part of the invariant is kept in a step: the slots (`Ps4o.InPlace.BlockSlots`), the threads and
the pointers (`Ps4o.InPlace.BlockPointers`), the places of the blocks and the overflow block
(`Ps4o.InPlace.BlockPlaces`), and, here, what a thread knows of the buckets that it has been
through.

## What is proved

* `inv_step` — the invariant is kept in every step.
* `permuteBlocks_conserves` — no block is lost, duplicated or overwritten, and in the end all are in
  their buckets.
-/

namespace Ps4o.InPlace

/-! ### One step: the loop over the buckets -/

section
variable {t : ℕ} {β : Type} {B n nb : ℕ} {bss full : ℕ → ℕ} {classify : Option β → ℕ}
  {s₀ s : Permuting t β}

@[simp] theorem loop_eq_finished {count : ℕ} : loop count = .finished ↔ count = 0 := by
  unfold loop
  split
  · next h => simp [h]
  · next h => simp [h]

theorem loop_ne_noBlock (count : ℕ) : loop count ≠ .noBlock := by
  unfold loop
  split <;> nofun

/-- A bucket without blocks stays without. -/
theorem step_empty {b : ℕ} (i : Fin t) (h : (s.pointers b).r < (s.pointers b).w) :
    ((step B n nb classify i s).pointers b).r < ((step B n nb classify i s).pointers b).w := by
  have hw := step_w_le B n nb classify s i b
  have hr := step_r_le B n nb classify s i b
  omega

/-- A thread that stays at its bucket. -/
theorem Visited.of_same {i j : Fin t} (hv : Visited nb s j)
    (hcount : ((step B n nb classify i s).threads j).count = (s.threads j).count)
    (hbucket : ((step B n nb classify i s).threads j).readBucket = (s.threads j).readBucket)
    (hfin : ((step B n nb classify i s).threads j).pc = .finished ↔ (s.threads j).pc = .finished)
    (hno : ((step B n nb classify i s).threads j).pc = .noBlock →
      ((step B n nb classify i s).pointers (s.threads j).readBucket).r <
        ((step B n nb classify i s).pointers (s.threads j).readBucket).w) : Visited nb
          (step B n nb classify i s) j where
  count_le := hcount ▸ hv.count_le
  readBucket := by
    rw [hbucket, hcount]
    exact hv.readBucket
  finished := by
    rw [hcount, hfin]
    exact hv.finished
  noBlock := by
    rw [hbucket]
    exact hno
  visited k hk := by
    rw [hcount] at hk
    exact step_empty i (hv.visited k hk)

/-- **The loop, in one step.** -/
theorem Inv.visited_step (hI : Inv B n nb bss classify s₀ s) (hnb : 1 ≤ nb) (i j : Fin t) :
    Visited nb (step B n nb classify i s) j := by
  have hv := hI.visited j
  rcases eq_or_ne j i with rfl | hne
  swap
  · have heq := @step_threads_of_ne _ _ B n nb classify s _ _ hne
    refine hv.of_same (by rw [heq]) (by rw [heq]) (by rw [heq]) ?_
    rw [heq]
    exact fun hno => step_empty i (hv.noBlock hno)
  have hin := hI.readBucket_lt hnb j
  cases hpc : (s.threads j).pc with
  | finished =>
    simp only [step, hpc]
    exact hv
  | isReading d c q =>
    simp only [step, hpc]
    split
    · exact hv
    · next hnot =>
      have hstep : step B n nb classify j s =
          s.continue j { s.threads j with pc := .writeBlock d c q } := by
        simp only [step, hpc]
        exact if_neg hnot
      rw [← hstep]
      refine hv.of_same ?_ ?_ ?_ ?_ <;> simp [hstep, hpc, Permuting.continue]
  | decRead =>
    refine hv.of_same ?_ ?_ ?_ ?_
    · simp only [step, hpc, Permuting.set, Function.update_self]
    · simp only [step, hpc, Permuting.set, Function.update_self]
    · simp only [step, hpc, Permuting.set, Function.update_self]
      split <;> simp
    · have hread : (s.pointers (s.threads j).readBucket).read B =
          (s.pointers (s.threads j).readBucket).r :=
        Int.ediv_mul_cancel (hI.dvd_r _ hin)
      simp only [step, hpc, hread, Permuting.set, Function.update_self]
      split
      · intro _
        dsimp only [BucketPointers.decRead]
        omega
      · intro h
        cases h
  | incWrite d c =>
    refine hv.of_same ?_ ?_ ?_ ?_ <;> simp only [step, hpc, Permuting.set, Function.update_self]
    · split
      · split <;> simp
      · simp
    · intro h
      split at h
      · split at h <;> cases h
      · cases h
  | classify d c q =>
    refine hv.of_same ?_ ?_ ?_ ?_ <;> simp only [step, hpc,
      Permuting.continue, Function.update_self]
    · split <;> simp
    · intro h
      split at h <;> cases h
  | tryRead | stopRead | readBlock | writeBlock | writeOverflow | swapOut | swapIn =>
    refine hv.of_same ?_ ?_ ?_ ?_ <;> simp [step, hpc, Permuting.set,
      Permuting.write, Permuting.continue]
  | noBlock =>
    have hcount : 1 ≤ (s.threads j).count := Nat.one_le_iff_ne_zero.mpr fun hzero => by
      have := hv.finished.mp hzero
      rw [hpc] at this
      cases this
    have hle := hv.count_le
    have hempty := hv.noBlock hpc
    have hth : (step B n nb classify j s).threads j =
        { s.threads j with
          pc := loop ((s.threads j).count - 1)
          count := (s.threads j).count - 1
          readBucket := ((s.threads j).readBucket + 1) % nb } := by
      simp only [step, hpc, Permuting.set, Function.update_self]
    constructor
    · rw [hth]
      dsimp only
      omega
    · rw [hth]
      dsimp only
      rw [hv.readBucket, Nat.mod_add_mod, show nb - ((s.threads j).count - 1) =
        nb - (s.threads j).count + 1 by omega, Nat.add_assoc]
    · rw [hth]
      exact loop_eq_finished.symm
    · rw [hth]
      exact fun hno => absurd hno (loop_ne_noBlock _)
    · rw [hth]
      intro k hk
      dsimp only at hk
      refine step_empty j ?_
      rcases Nat.lt_or_ge k (nb - (s.threads j).count) with hlt | hge
      · exact hv.visited k hlt
      · -- the bucket that it has just been through
        obtain rfl : k = nb - (s.threads j).count := by omega
        rw [← hv.readBucket]
        exact hempty

end

/-! ### The invariant -/

section
variable {t : ℕ} {β : Type} [Fintype β] {B n nb : ℕ} {bss full : ℕ → ℕ} {classify : Option β → ℕ}
  {s₀ s : Permuting t β} (h : Boundaries false nb n bss) (hB : 1 ≤ B)
  (hcl : Classified B n nb bss full classify s₀)
include h hB hcl

omit h in
/-- A block is in a bucket at first, below the first empty block. -/
theorem Classified.inBucket_of_slot {p : ℤ} {x : β} (hx : s₀.slot p = some x) :
    ∃ b < nb, InBucket B bss b p ∧ p ≤ (s₀.pointers b).r := by
  obtain ⟨b, hb, k, hk, rfl⟩ := (hcl.slot p).mp (Option.isSome_of_eq_some hx)
  have hle : (k : ℤ) * B + B ≤ full b * B := by
    rw [← add_one_mul]
    exact mul_le_mul_of_nonneg_right (by omega) (Int.natCast_nonneg B)
  have hk₀ : (0 : ℤ) ≤ (k : ℕ) * B := mul_nonneg (Int.natCast_nonneg _) (Int.natCast_nonneg B)
  have hend := hcl.inBucket b hb
  refine ⟨b, hb, ⟨Int.dvd_add (dvd_startBlock b) (Int.dvd_mul_left _ _), by omega, by omega⟩, ?_⟩
  rw [hcl.pointers b hb]
  dsimp only [BucketPointers.set]
  omega

omit h in
/-- In a bucket, the slots up to the read pointer are full at first. -/
theorem Classified.slot_of_le {b : ℕ} (hb : b < nb) {p : ℤ} (hp : InBucket B bss b p)
    (hr : p ≤ (s₀.pointers b).r) : ∃ x, s₀.slot p = some x := by
  rw [hcl.pointers b hb] at hr
  dsimp only [BucketPointers.set] at hr
  obtain ⟨k, hk⟩ := Int.dvd_sub hp.1 (@dvd_startBlock B bss b)
  have hle := hp.2.1
  have hk₀ : 0 ≤ k := le_of_mul_le_mul_left (a := (B : ℤ)) (by rw [mul_zero]; omega) (by omega)
  obtain ⟨k, rfl⟩ := Int.eq_ofNat_of_zero_le hk₀
  refine Option.isSome_iff_exists.mp ((hcl.slot p).mpr ⟨b, hb, k, ?_, ?_⟩)
  · have hlt : (B : ℤ) * k < B * full b := by
      rw [mul_comm (B : ℤ) (full b)]
      omega
    exact Int.ofNat_lt.mp (lt_of_mul_lt_mul_left hlt (Int.natCast_nonneg B))
  · rw [mul_comm]
    omega

theorem inv_start : Inv B n nb bss classify s₀ s₀ := by
  have hw : ∀ b < nb, (s₀.pointers b).w = startBlock B bss b := fun b hb => by
    rw [hcl.pointers b hb]
    rfl
  have hr : ∀ b < nb, (s₀.pointers b).r = startBlock B bss b + full b * B - B := fun b hb => by
    rw [hcl.pointers b hb]
    rfl
  have hpc : ∀ i, (s₀.threads i).pc = loop nb := fun i => by
    rw [hcl.threads i]
    rfl
  have hclaims : ∀ p j k, ¬ s₀.Claims p j k := fun p j k hk => by
    unfold Permuting.Claims at hk
    rw [hpc, loop_claim] at hk
    cases hk
  constructor
  · exact fun b hb => hw b hb ▸ dvd_startBlock b
  · intro b hb
    rw [hr b hb]
    exact Int.dvd_sub (Int.dvd_add (dvd_startBlock b) (Int.dvd_mul_left _ _)) (Int.dvd_refl _)
  · exact fun b hb => (hw b hb).ge
  · exact fun b hb => (hw b hb).le.trans (startBlock_mono h hB (Nat.le_succ b) hb)
  · intro b hb
    have := hcl.inBucket b hb
    rw [hr b hb]
    omega
  · intro b hb p hp
    rcases le_or_gt p (s₀.pointers b).r with hle | hlt
    · obtain ⟨x, hx⟩ := hcl.slot_of_le hB hb hp hle
      exact .unread x ((hw b hb).le.trans hp.2.1) hle hx hx (hclaims p)
    · refine .free ((hw b hb).le.trans hp.2.1) hlt ?_ (hclaims p)
      refine Option.eq_none_iff_forall_not_mem.mpr fun x hx => ?_
      obtain ⟨c, hc, hpc', hle⟩ := hcl.inBucket_of_slot hB hx
      obtain rfl := hp.eq h hB hb hc hpc'
      omega
  · intro p hp
    refine Option.eq_none_iff_forall_not_mem.mpr fun x hx => ?_
    obtain ⟨c, hc, hpc', -⟩ := hcl.inBucket_of_slot hB hx
    exact hp c hc hpc'
  · intro i
    unfold Thread.Ok
    have hnb := h.pos
    rw [hpc i, loop, if_neg (by omega), hcl.threads i]
    exact fun _ => rfl
  · intro b hb
    rw [hcl.pointers b hb]
    refine (Finset.sum_eq_zero fun i _ => Thread.counts_of_not_counted ?_ b).symm
    rw [hpc]
    unfold loop
    split <;> rfl
  · intro x
    obtain ⟨p, hp, huniq⟩ := hcl.blocks x
    refine ⟨.slot p, hp, fun l hl => ?_⟩
    cases l with
    | slot q => exact congrArg Place.slot (huniq q hl)
    | swap i c =>
      simp only [Permuting.content, hcl.threads i, Thread.start] at hl
      cases hl
    | overflow i =>
      simp only [Permuting.content, hcl.threads i, Thread.start] at hl
      cases hl
  · intro i x hx
    rw [hcl.threads i] at hx
    cases hx
  · intro i
    constructor <;> rw [hcl.threads i]
    · exact le_rfl
    · dsimp only [Thread.start]
      rw [Nat.sub_self, Nat.add_zero, startBucket, Nat.mod_mod]
    · exact loop_eq_finished.symm
    · exact fun hno => absurd hno (loop_ne_noBlock _)
    · intro k hk
      dsimp only [Thread.start] at hk
      omega

/-- **Every step keeps the invariant.** -/
theorem inv_step (hI : Inv B n nb bss classify s₀ s) (i : Fin t) :
    Inv B n nb bss classify s₀ (step B n nb classify i s) := by
  have hp := step_pointers B n nb classify s i
  constructor
  · intro b hb
    have hdvd := hI.dvd_w b hb
    rcases hp b with ⟨hw, -⟩ | ⟨hw, -⟩ | ⟨-, hw, -⟩ <;> rw [hw]
    · exact hdvd
    · exact hdvd
    · exact Int.dvd_add hdvd (Int.dvd_refl _)
  · intro b hb
    have hdvd := hI.dvd_r b hb
    rcases hp b with ⟨-, hr⟩ | ⟨-, hr⟩ | ⟨-, -, hr⟩ <;> rw [hr]
    · exact hdvd
    · exact Int.dvd_sub hdvd (Int.dvd_refl _)
    · exact hdvd
  · exact fun b hb => (hI.le_w b hb).trans (step_w_le B n nb classify s i b)
  · intro b hb
    have hle := hI.w_le b hb
    rcases hp b with ⟨hw, -⟩ | ⟨hw, -⟩ | ⟨⟨c, hpc⟩, hw, -⟩ <;> rw [hw]
    · exact hle
    · exact hle
    · have hroom := (hI.write_lt h hB hcl hpc).2
      refine le_of_lt_add_block (Int.dvd_add (hI.dvd_w b hb) (Int.dvd_refl _))
        (dvd_startBlock (b + 1)) ?_
      omega
  · exact fun b hb => (step_r_le B n nb classify s i b).trans_lt (hI.r_lt b hb)
  · exact fun b hb p hin => hI.slots_step h hB hcl i hb hin
  · intro p hout
    rw [step_slot_of_not_claims, hI.outside p hout]
    intro k hk
    obtain ⟨b, hb, hin, -⟩ := hI.claimed h hcl hk
    exact hout b hb hin
  · exact hI.threads_step h hB hcl i
  · intro b hb
    rw [step_numReading, hI.reading b hb, sum_step fun th => th.counts b]
  · exact hI.places_step h hB hcl i
  · exact hI.overflow_step h hB hcl i
  · exact hI.visited_step h.pos i

/-- **The invariant holds whatever steps the threads take.** -/
theorem Reachable.inv (hr : Reachable B n nb classify s₀ s) : Inv B n nb bss classify s₀ s := by
  induction hr with
  | start => exact inv_start h hB hcl
  | step i _ ih => exact inv_step h hB hcl ih i

/-! ### Conservation -/

omit [Fintype β] h hB hcl in
/-- There are blocks in buckets only. -/
theorem Inv.bucket_of_slot (hI : Inv B n nb bss classify s₀ s) {p : ℤ} {x : β}
    (hx : s.slot p = some x) : ∃ b < nb, InBucket B bss b p ∧ SlotOk B n classify s₀ s b p := by
  by_contra hout
  have := hI.outside p fun b hb hin => hout ⟨b, hb, hin, hI.slots b hb p hin⟩
  rw [hx] at this
  cases this

omit [Fintype β] h hB hcl in
theorem Inv.inSlot (hI : Inv B n nb bss classify s₀ s) (x : β) : InSlot B bss classify s₀ s x := by
  intro p hx
  obtain ⟨b, hb, hin, hslot⟩ := hI.bucket_of_slot hx
  have hsame : ∀ {y}, s.slot p = some y → s₀.slot p = some y → s₀.slot p = some x :=
    fun hy h₀ => hx.symm.trans hy ▸ h₀
  cases hslot with
  | unread y _ _ hy h₀ | reading y _ _ _ hy h₀ | holding y _ _ hy h₀ | waiting y _ _ _ _ hy h₀ =>
    exact .inl (hsame hy h₀)
  | free _ _ hnone | empty _ _ _ _ hnone | spilling _ _ _ hnone | spilled _ _ hnone =>
    rw [hnone] at hx
    cases hx
  | placed y hw hy hb' =>
    obtain rfl := Option.some.inj (hx.symm.trans hy)
    subst hb'
    exact .inr ⟨hin.2.1, hw, hx⟩

omit hB in
theorem Inv.notOverwritten (hI : Inv B n nb bss classify s₀ s) :
    NotOverwritten B n nb classify s := by
  intro i p x hx
  by_cases hno : ∀ k, ¬ s.Claims p i k
  · exact .inl ((step_slot_of_not_claims hno).trans hx)
  obtain ⟨k, hk⟩ := not_forall_not.mp hno
  obtain ⟨b, hb, hin, hslot⟩ := hI.claimed h hcl hk
  unfold Permuting.Claims at hk
  cases hpc : (s.threads i).pc with
  | tryRead | decRead | noBlock | stopRead | incWrite | finished =>
    rw [hpc] at hk
    cases hk
  | readBlock q =>
    rw [hpc] at hk
    obtain rfl : q = p := congrArg Prod.fst (Option.some.inj hk)
    refine .inr ⟨?_, false, ?_⟩ <;> simp only [step, hpc, Permuting.write, Function.update_self]
    exact hx
  | swapOut d c q new =>
    rw [hpc] at hk
    obtain rfl : q = p := congrArg Prod.fst (Option.some.inj hk)
    refine .inr ⟨?_, !c, ?_⟩ <;> simp only [step, hpc, Permuting.write, Function.update_self]
    exact hx
  | writeBlock d c q | swapIn d c q new =>
    -- the slot is empty
    rw [hpc] at hk
    obtain rfl : q = p := congrArg Prod.fst (Option.some.inj hk)
    obtain ⟨-, -, hnone, -⟩ := hslot.fill (i := i) (congrArg Pc.claim hpc)
    rw [hnone] at hx
    cases hx
  | writeOverflow d c q | classify d c q =>
    simp only [step, hpc, Permuting.continue]
    exact .inl hx
  | isReading d c q =>
    simp only [step, hpc]
    split <;> exact .inl hx

omit [Fintype β] hB hcl in
theorem Inv.allPlaced (hI : Inv B n nb bss classify s₀ s) (ht : 1 ≤ t)
    (hfin : ∀ i, (s.threads i).pc = .finished) : AllPlaced B bss classify s := by
  have hclaims : ∀ p j k, ¬ s.Claims p j k := fun p j k hk => by
    unfold Permuting.Claims at hk
    rw [hfin j] at hk
    cases hk
  -- one thread has been through all buckets
  have hempty : ∀ b < nb, (s.pointers b).r < (s.pointers b).w := by
    intro b hb
    have hv := hI.visited ⟨0, ht⟩
    have hzero := hv.finished.mpr (hfin _)
    have hvisited := hv.visited
    rw [hzero, Nat.sub_zero] at hvisited
    have hstart : startBucket nb t 0 < nb := Nat.mod_lt _ h.pos
    rcases Nat.lt_or_ge b (startBucket nb t 0) with hlt | hge
    · have := hvisited (nb + b - startBucket nb t 0) (by omega)
      rwa [show startBucket nb t 0 + (nb + b - startBucket nb t 0) =
        nb + b by omega, Nat.add_mod_left, Nat.mod_eq_of_lt hb] at this
    · have := hvisited (b - startBucket nb t 0) (by omega)
      rwa [Nat.add_sub_of_le hge, Nat.mod_eq_of_lt hb] at this
  refine ⟨fun x => ?_, fun i j x y hx hy => (hI.overflow j y hy).2.2.2 i x hx⟩
  obtain ⟨l, hl, -⟩ := hI.places x
  cases l with
  | overflow i => exact .inr ⟨i, hl⟩
  | swap i c =>
    have hok := hI.threads i
    unfold Thread.Ok at hok
    rw [hfin i] at hok
    rw [Permuting.content, hok c] at hl
    cases hl
  | slot p =>
    refine .inl ⟨p, ?_⟩
    have hx : s.slot p = some x := hl
    obtain ⟨b, hb, hin, hslot⟩ := hI.bucket_of_slot hx
    have hb' := hempty b hb
    cases hslot with
    | unread _ hw hr => omega
    | reading _ i _ _ _ _ hc => exact absurd ((hc i .read).mpr ⟨rfl, rfl⟩) (hclaims p i _)
    | holding _ i _ _ _ hc => exact absurd ((hc i .hold).mpr ⟨rfl, rfl⟩) (hclaims p i _)
    | waiting _ i _ _ _ _ _ hc => exact absurd ((hc i .wait).mpr (.inl ⟨rfl, rfl⟩)) (hclaims p i _)
    | free _ _ hnone | empty _ _ _ _ hnone | spilling _ _ _ hnone | spilled _ _ hnone =>
      rw [hnone] at hx
      cases hx
    | placed y hw hy hb' =>
      obtain rfl := Option.some.inj (hx.symm.trans hy)
      subst hb'
      exact ⟨hin.2.1, hw, hx⟩

/-- **Block permutation neither loses nor duplicates a block**, whatever steps the threads take, and
when all have finished, every block is in its bucket or in the overflow block. -/
theorem permuteBlocks_conserves (ht : 1 ≤ t) (hr : Reachable B n nb classify s₀ s) :
    (∀ x, InOnePlace s x) ∧ (∀ x, InSlot B bss classify s₀ s x) ∧ NotOverwritten B n nb classify s ∧
      ((∀ i, (s.threads i).pc = .finished) → AllPlaced B bss classify s) := by
  have hI := hr.inv h hB hcl
  exact ⟨hI.places, hI.inSlot, hI.notOverwritten h hcl, hI.allPlaced h ht⟩

end

/-- A schedule. -/
theorem reachable_foldl {t : ℕ} {β : Type} {B n nb : ℕ} {classify : Option β → ℕ}
    {s₀ s : Permuting t β} (hr : Reachable B n nb classify s₀ s) (schedule : List (Fin t)) :
    Reachable B n nb classify s₀ (schedule.foldl (fun s i => step B n nb classify i s) s) := by
  induction schedule generalizing s with
  | nil => exact hr
  | cons i schedule ih => exact ih (hr.step i)

/-- Two buckets of three and four elements. -/
def twoBuckets (b : ℕ) : ℕ := if b = 0 then 0 else if b = 1 then 3 else 7

/-- Of three blocks of two elements, the first and the last one belong to the second bucket. -/
def bucketOf (x : Option (Fin 3)) : ℕ := if x = some 1 then 0 else 1

/-- The blocks stand one after the other. -/
def threeBlocks : Permuting 2 (Fin 3) where
  slot p := if p = 0 then some 0 else if p = 2 then some 1 else if p = 4 then some 2 else none
  pointers b := if b = 0 then .set 0 2 else .set 4 4
  threads i := .start 2 2 i

theorem twoBuckets_boundaries : Boundaries false 2 7 twoBuckets :=
  ⟨by decide, rfl, rfl, by decide, nofun⟩

theorem threeBlocks_classified :
    Classified 2 7 2 twoBuckets (fun b => if b = 0 then 2 else 1) bucketOf threeBlocks where
  pointers := by decide
  inBucket := by decide
  inArray := by decide
  slot p := by
    constructor
    · intro hp
      simp only [threeBlocks] at hp
      split at hp
      · next h => exact ⟨0, by decide, 0, by decide, h⟩
      · split at hp
        · next h => exact ⟨0, by decide, 1, by decide, h⟩
        · split at hp
          · next h => exact ⟨1, by decide, 0, by decide, h⟩
          · cases hp
    · rintro ⟨b, hb, k, hk, rfl⟩
      revert b k
      decide
  blocks x := by
    have hslot : ∀ {p : ℤ}, threeBlocks.slot p = some x → p = 2 * (x : ℕ) := by
      intro p hp
      simp only [threeBlocks] at hp
      split at hp
      · next h =>
        cases hp
        exact h
      · split at hp
        · next h =>
          cases hp
          exact h
        · split at hp
          · next h =>
            cases hp
            exact h
          · cases hp
    have hat : ∀ x : Fin 3, threeBlocks.slot (2 * (x : ℕ)) = some x := by decide
    exact ⟨2 * (x : ℕ), hat x, fun p hp => hslot hp⟩
  bucket := by decide
  room := by decide
  threads _ := rfl

/-- Two threads that take turns: the second block of the second bucket does not fit, and ends up in
the overflow block. -/
theorem permuteBlocks_threeBlocks : ∃ s, Reachable 2 7 2 bucketOf threeBlocks s ∧
    (∃ i, (s.threads i).overflow = some 0) ∧ AllPlaced 2 twoBuckets bucketOf s := by
  have hr : Reachable 2 7 2 bucketOf threeBlocks _ :=
    reachable_foldl .start (List.replicate 16 [0, 1]).flatten
  exact ⟨_, hr, ⟨0, by decide +kernel⟩,
    (permuteBlocks_conserves twoBuckets_boundaries (by decide) threeBlocks_classified
      (by decide) hr).2.2.2 (by decide +kernel)⟩

end Ps4o.InPlace
