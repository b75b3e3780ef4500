import Ps4o.InPlace.BlockSlots

/-!
# The threads and the pointers in one step of the block permutation

A step changes one thread. What this thread has in its swap blocks fits what it does next, the write
pointers go up, the read pointers go down, and the read counter of a bucket counts the threads that
read there.

## What is proved

* `Inv.threads_step` — each thread has what it needs for its next step.
* `step_pointers` — which pointers a step moves, and how far.
* `step_numReading` — the read counter changes as the number of threads that read does.
-/

namespace Ps4o.InPlace

/-! ### One step: the threads -/

section
variable {t : ℕ} {β : Type} {B n nb : ℕ} {bss full : ℕ → ℕ} {classify : Option β → ℕ}
  {s₀ s : Permuting t β}

theorem step_threads_of_ne {i j : Fin t} (hne : j ≠ i) :
    (step B n nb classify i s).threads j = s.threads j := by
  cases hpc : (s.threads i).pc with
  | finished => simp only [step, hpc]
  | isReading d c q =>
    simp only [step, hpc]
    split
    · rfl
    · exact Function.update_of_ne hne ..
  | _ =>
    simp only [step, hpc]
    exact Function.update_of_ne hne ..

/-- A swap block that has been emptied, and the other one, which was empty. -/
theorem swap_eq_none {swap : Bool → Option β} {c : Bool} (h : swap (!c) = none) (c' : Bool) :
    Function.update swap c none c' = none := by
  rcases eq_or_ne c' c with rfl | hne
  · exact Function.update_self ..
  · rwa [Function.update_of_ne hne, Bool.eq_not_iff.mpr hne]

variable (h : Boundaries false nb n bss) (hB : 1 ≤ B)
include h hB

/-- **What a thread has in its swap blocks, in one step.** -/
theorem Inv.threads_step [Fintype β] (hI : Inv B n nb bss classify s₀ s)
    (hcl : Classified B n nb bss full classify s₀) (i j : Fin t) :
    ((step B n nb classify i s).threads j).Ok B bss classify s₀ := by
  rcases eq_or_ne j i with rfl | hne
  swap
  · rw [step_threads_of_ne hne]
    exact hI.threads j
  have hok := hI.threads j
  have hin := hI.readBucket_lt h.pos j
  unfold Thread.Ok at hok
  cases hpc : (s.threads j).pc with
  | finished =>
    simp only [step, hpc]
    exact hI.threads j
  | tryRead =>
    rw [hpc] at hok
    simp only [step, hpc, Permuting.set, Function.update_self]
    exact hok
  | decRead =>
    rw [hpc] at hok
    have hread : (s.pointers (s.threads j).readBucket).read B =
        (s.pointers (s.threads j).readBucket).r :=
      Int.ediv_mul_cancel (hI.dvd_r _ hin)
    simp only [step, hpc, hread, Permuting.set, Function.update_self]
    split
    · exact hok
    · next hfull => exact ⟨hok, hI.dvd_r _ hin, (hI.le_w _ hin).trans (by omega), hI.r_lt _ hin⟩
  | noBlock =>
    rw [hpc] at hok
    simp only [step, hpc, Permuting.set, Function.update_self, loop]
    split <;> exact hok
  | readBlock q =>
    rw [hpc] at hok
    obtain ⟨hnone, hq⟩ := hok
    obtain ⟨-, x, hx, -⟩ := (hI.slots _ hin q hq).read (i := j) (congrArg Pc.claim hpc)
    simp only [step, hpc, Permuting.write, Function.update_self]
    refine ⟨⟨x, ?_⟩, ?_⟩ <;> dsimp only
    · rwa [Function.update_self]
    · rw [Function.update_of_ne Bool.true_eq_false.mp]
      exact hnone true
  | stopRead =>
    rw [hpc] at hok
    obtain ⟨⟨x, hx⟩, hnone⟩ := hok
    simp only [step, hpc, Permuting.set, Function.update_self]
    exact ⟨⟨x, hx, by rw [hx]⟩, hnone⟩
  | incWrite d c =>
    rw [hpc] at hok
    obtain ⟨hcar, hnone⟩ := hok
    obtain ⟨hd, hroom⟩ := hI.write_lt h hB hcl hpc
    have hq : InBucket B bss d (s.pointers d).w := ⟨hI.dvd_w d hd, hI.le_w d hd, hroom⟩
    simp only [step, hpc, Permuting.set, Function.update_self]
    split
    · split <;> exact ⟨hcar, hnone, hq⟩
    · exact ⟨hcar, hnone, hq⟩
  | isReading d c q =>
    simp only [step, hpc]
    split
    · exact hI.threads j
    · rw [hpc] at hok
      simp only [Permuting.continue, Function.update_self]
      exact hok
  | writeBlock d c q =>
    rw [hpc] at hok
    simp only [step, hpc, Permuting.write, Function.update_self]
    exact swap_eq_none hok.2.1
  | writeOverflow d c q =>
    rw [hpc] at hok
    simp only [step, hpc, Permuting.continue, Function.update_self]
    exact swap_eq_none hok.2.1
  | classify d c q =>
    rw [hpc] at hok
    obtain ⟨hcar, hnone, hq⟩ := hok
    have hd : d < nb := by
      obtain ⟨x, -, hxd⟩ := hcar
      exact hxd ▸ hcl.bucket x
    obtain ⟨-, ⟨x, hx, h₀⟩, -⟩ := (hI.slots d hd q hq).hold (i := j) (congrArg Pc.claim hpc)
    simp only [step, hpc, Permuting.continue, Function.update_self]
    split
    · exact ⟨hcar, hnone⟩
    · exact ⟨hcar, hnone, hq, by rw [hx, h₀]⟩
  | swapOut d c q new =>
    rw [hpc] at hok
    obtain ⟨⟨y, hy, hyd⟩, -, hq, hnew⟩ := hok
    obtain ⟨-, ⟨x, hx, h₀⟩, -⟩ := (hI.slots d (hyd ▸ hcl.bucket y) q hq).hold (i := j)
      (congrArg Pc.claim hpc)
    simp only [step, hpc, Permuting.write, Function.update_self]
    refine ⟨⟨y, ?_, hyd⟩, ⟨x, ?_, by rw [hnew, h₀]⟩, hq⟩ <;> dsimp only
    · rwa [Function.update_of_ne (Bool.eq_not_self c).mp]
    · rwa [Function.update_self]
  | swapIn d c q new =>
    rw [hpc] at hok
    obtain ⟨-, ⟨x, hx, hxn⟩, -⟩ := hok
    simp only [step, hpc, Permuting.write, Function.update_self]
    refine ⟨⟨x, ?_, hxn⟩, ?_⟩ <;> dsimp only
    · rwa [Function.update_of_ne (Bool.not_eq_self c).mp]
    · rw [Bool.not_not, Function.update_self]

end

/-! ### One step: the pointers -/

section
variable {t : ℕ} {β : Type} {B n nb : ℕ} {bss full : ℕ → ℕ} {classify : Option β → ℕ}
  {s₀ s : Permuting t β}

variable (B n nb classify s) in
/-- The pointers of a bucket stay, or one of them moves by a block. -/
theorem step_pointers (i : Fin t) (b : ℕ) :
    ((step B n nb classify i s).pointers b).w = (s.pointers b).w ∧
        ((step B n nb classify i s).pointers b).r = (s.pointers b).r ∨
      ((step B n nb classify i s).pointers b).w = (s.pointers b).w ∧
        ((step B n nb classify i s).pointers b).r = (s.pointers b).r - B ∨
      (∃ c, (s.threads i).pc = .incWrite b c) ∧ ((step B n nb classify i s).pointers b).w =
        (s.pointers b).w + B ∧ ((step B n nb classify i s).pointers b).r = (s.pointers b).r := by
  cases hpc : (s.threads i).pc with
  | tryRead | noBlock | stopRead =>
    simp only [step, hpc]
    exact .inl ⟨Permuting.set_w (by rfl) b, Permuting.set_r (by rfl) b⟩
  | decRead =>
    simp only [step, hpc]
    rcases eq_or_ne b (s.threads i).readBucket with rfl | hne
    · rw [Permuting.set_self]
      exact .inr (.inl ⟨rfl, rfl⟩)
    · rw [Permuting.set_of_ne hne]
      exact .inl ⟨rfl, rfl⟩
  | incWrite d c =>
    simp only [step, hpc]
    rcases eq_or_ne b d with rfl | hne
    · rw [Permuting.set_self]
      exact .inr (.inr ⟨⟨c, rfl⟩, rfl, rfl⟩)
    · rw [Permuting.set_of_ne hne]
      exact .inl ⟨rfl, rfl⟩
  | isReading d c q =>
    simp only [step, hpc]
    split <;> exact .inl ⟨rfl, rfl⟩
  | readBlock | writeBlock | writeOverflow | classify | swapOut | swapIn | finished =>
    refine .inl ⟨?_, ?_⟩ <;> simp only [step, hpc] <;> rfl

variable (B n nb classify s) in
theorem step_w_le (i : Fin t) (b : ℕ) :
    (s.pointers b).w ≤ ((step B n nb classify i s).pointers b).w := by
  rcases step_pointers B n nb classify s i b with h | h | h <;> omega

variable (B n nb classify s) in
theorem step_r_le (i : Fin t) (b : ℕ) :
    ((step B n nb classify i s).pointers b).r ≤ (s.pointers b).r := by
  rcases step_pointers B n nb classify s i b with h | h | h <;> omega

/-! ### One step: the read counters -/

theorem Thread.counts_of_counted {th : Thread β} (h : th.pc.counted = true) (b : ℕ) :
    th.counts b = if th.readBucket = b then 1 else 0 := by
  unfold Thread.counts
  simp only [h, true_and]

theorem Thread.counts_of_not_counted {th : Thread β} (h : th.pc.counted = false) (b : ℕ) :
    th.counts b = 0 :=
  if_neg fun hc => Bool.false_ne_true (h.symm.trans hc.1)

/-- The read counter changes as the thread begins or ends to read. -/
theorem step_numReading (i : Fin t) (b : ℕ) : ((step B n nb classify i s).pointers b).numReading =
    (s.pointers b).numReading - (s.threads i).counts b +
    ((step B n nb classify i s).threads i).counts b := by
  have hset : ∀ {bp : BucketPointers} (th : Thread β) (c : ℕ) (d : ℤ), bp.numReading =
      (s.pointers c).numReading + d →
      ((s.set c bp i th).pointers b).numReading = (s.pointers b).numReading +
      if c = b then d else 0 := by
    intro bp th c d hbp
    rcases eq_or_ne b c with rfl | hne
    · rw [Permuting.set_self, hbp, if_pos rfl]
    · rw [Permuting.set_of_ne hne, if_neg hne.symm, add_zero]
  cases hpc : (s.threads i).pc with
  | tryRead =>
    rw [Thread.counts_of_not_counted (by rw [hpc]; rfl), sub_zero]
    simp only [step, hpc]
    rw [hset _ _ 1 rfl]
    simp only [Permuting.set, Function.update_self]
    rw [Thread.counts_of_counted rfl]
  | decRead =>
    rw [Thread.counts_of_counted (by rw [hpc]; rfl)]
    simp only [step, hpc]
    rw [hset _ _ 0 (by exact (add_zero _).symm), ite_self, add_zero]
    simp only [Permuting.set, Function.update_self]
    rw [Thread.counts_of_counted (by dsimp only; split <;> rfl)]
    exact (Int.sub_add_cancel _ _).symm
  | noBlock | stopRead =>
    rw [Thread.counts_of_counted (by rw [hpc]; rfl)]
    simp only [step, hpc]
    rw [hset _ _ (-1) rfl]
    simp only [Permuting.set, Function.update_self]
    rw [Thread.counts_of_not_counted (by simp only [loop]; first | rfl | (split <;> rfl)), add_zero]
    split <;> rfl
  | readBlock q =>
    rw [Thread.counts_of_counted (by rw [hpc]; rfl)]
    simp only [step, hpc, Permuting.write, Function.update_self]
    rw [Thread.counts_of_counted rfl]
    exact (Int.sub_add_cancel _ _).symm
  | incWrite d c =>
    rw [Thread.counts_of_not_counted (by rw [hpc]; rfl), sub_zero]
    simp only [step, hpc]
    rw [hset _ _ 0 (by exact (add_zero _).symm), ite_self]
    simp only [Permuting.set, Function.update_self]
    rw [Thread.counts_of_not_counted]
    dsimp only
    split
    · split <;> rfl
    · rfl
  | isReading d c q =>
    rw [Thread.counts_of_not_counted (by rw [hpc]; rfl), sub_zero]
    simp only [step, hpc]
    split
    · rw [Thread.counts_of_not_counted (by rw [hpc]; rfl), add_zero]
    · simp only [Permuting.continue, Function.update_self]
      rw [Thread.counts_of_not_counted rfl, add_zero]
  | classify d c q =>
    rw [Thread.counts_of_not_counted (by rw [hpc]; rfl), sub_zero]
    simp only [step, hpc, Permuting.continue, Function.update_self]
    rw [Thread.counts_of_not_counted (by dsimp only; split <;> rfl), add_zero]
  | writeBlock | writeOverflow | swapOut | swapIn =>
    rw [Thread.counts_of_not_counted (by rw [hpc]; rfl), sub_zero]
    simp only [step, hpc, Permuting.write, Permuting.continue, Function.update_self]
    rw [Thread.counts_of_not_counted rfl, add_zero]
  | finished =>
    rw [Thread.counts_of_not_counted (by rw [hpc]; rfl), sub_zero]
    simp only [step, hpc]
    rw [Thread.counts_of_not_counted (by rw [hpc]; rfl), add_zero]

/-- What the threads add up to changes as one thread does. -/
theorem sum_step (f : Thread β → ℤ) (i : Fin t) : ∑ j, f ((step B n nb classify i s).threads j) =
    ∑ j, f (s.threads j) - f (s.threads i) + f ((step B n nb classify i s).threads i) := by
  rw [← Finset.add_sum_erase _ (fun j => f (s.threads j)) (Finset.mem_univ i),
    ← Finset.add_sum_erase _ (fun j => f ((step B n nb classify i s).threads j))
    (Finset.mem_univ i),
    Finset.sum_congr rfl fun j hj => congrArg f (step_threads_of_ne (Finset.ne_of_mem_erase hj))]
  omega

end

end Ps4o.InPlace
