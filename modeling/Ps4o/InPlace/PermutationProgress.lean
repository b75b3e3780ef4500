import Mathlib.Algebra.BigOperators.Intervals
import Ps4o.InPlace.ElementwisePermutation

/-!
# The block permutation comes to an end

Threads that permute blocks wait for each other (`swapBlock` in `block_permutation.hpp`): one that
is about to write a slot waits while somebody may be reading the block that was there.

## What is proved

* `Inv.left_step` — a step that changes anything leaves less to be done, whatever the thread.
* `Inv.exists_moves` — **not all of the threads that have not finished wait**.
* `permuteBlocks_terminates` — in a run, the threads take no more than so many steps in which they
  do not wait, and unless all have finished, one of them can take such a step.
* `Matches.exists_finished` — moving blocks element by element, they can finish, too.
-/

namespace Ps4o.InPlace

open Ps4o.Program Ps4o.Storage Ps4o.Order

/-! ### What is left to be done -/

/-- How many steps a thread takes at most before it moves a write pointer, or is done with a
bucket. -/
def Pc.rank : Pc → ℕ
  | .finished => 0
  | .noBlock | .incWrite _ _ => 1
  | .stopRead | .swapIn _ _ _ _ => 2
  | .readBlock _ | .swapOut _ _ _ _ => 3
  | .decRead | .classify _ _ _ => 4
  | .tryRead => 5
  | .writeBlock _ _ _ | .writeOverflow _ _ _ => 6
  | .isReading _ _ _ => 7

/-- What is left to be done by a thread that moves no write pointer. -/
def Thread.left {β : Type} (th : Thread β) : ℤ := 8 * th.count + th.pc.rank

/-- How many blocks the write pointers can still move. -/
def Permuting.room {t : ℕ} {β : Type} (B nb : ℕ) (bss : ℕ → ℕ) (s : Permuting t β) : ℤ :=
  ∑ b ∈ Finset.range nb, (startBlock B bss (b + 1) - (s.pointers b).w) / B

/-- What is left to be done. -/
def Permuting.left {t : ℕ} {β : Type} (B nb : ℕ) (bss : ℕ → ℕ) (s : Permuting t β) : ℤ :=
  8 * s.room B nb bss + ∑ i, (s.threads i).left

/-- Thread `i` waits until nobody may be reading the block that was in the slot, or has finished. -/
def Permuting.idles {t : ℕ} {β : Type} (s : Permuting t β) (i : Fin t) : Bool :=
  match (s.threads i).pc with
  | .isReading dest _ _ => (s.pointers dest).isReading
  | .finished => true
  | _ => false

theorem rank_loop_le (count : ℕ) : (loop count).rank ≤ 5 := by
  unfold loop
  split
  · exact Nat.zero_le _
  · exact le_rfl

section
variable {t : ℕ} {β : Type} {B n nb : ℕ} {bss full : ℕ → ℕ} {classify : Option β → ℕ}
  {s₀ s : Permuting t β}

/-- A write pointer that does not move leaves the room as it was. -/
theorem room_step_of_ne {i : Fin t} (h : ∀ b c, (s.threads i).pc ≠ .incWrite b c) :
    (step B n nb classify i s).room B nb bss = s.room B nb bss := by
  refine Finset.sum_congr rfl fun b _ => ?_
  rcases step_pointers B n nb classify s i b with hw | hw | ⟨⟨c, hpc⟩, -⟩
  · rw [hw.1]
  · rw [hw.1]
  · exact absurd hpc (h b c)

/-- One that moves leaves room for one block less. -/
theorem room_step_of_incWrite (hB : 1 ≤ B) {i : Fin t} {d : ℕ} {c : Bool} (hd : d < nb)
    (hpc : (s.threads i).pc = .incWrite d c) :
    (step B n nb classify i s).room B nb bss + 1 = s.room B nb bss := by
  have hmem := Finset.mem_range.mpr hd
  rw [Permuting.room, Permuting.room, ← Finset.add_sum_erase _ _ hmem,
    ← Finset.add_sum_erase _
      (fun b => (startBlock B bss (b + 1) - (s.pointers b).w) / (B : ℤ)) hmem,
    Finset.sum_congr rfl fun b hb => ?_, add_right_comm]
  · congr 1
    have hstep : ((step B n nb classify i s).pointers d).w = (s.pointers d).w + B := by
      simp only [step, hpc, Permuting.set_self]
      rfl
    have hB' : (B : ℤ) ≠ 0 := by omega
    rw [hstep, show startBlock B bss (d + 1) - ((s.pointers d).w + B) =
      startBlock B bss (d + 1) - (s.pointers d).w + -1 * B by omega,
      Int.add_mul_ediv_right _ _ hB']
    omega
  · have hne := Finset.ne_of_mem_erase hb
    simp only [step, hpc, Permuting.set_of_ne hne]

/-- The room is that between the pointers and the next buckets. -/
theorem Inv.room_nonneg (hI : Inv B n nb bss classify s₀ s) : 0 ≤ s.room B nb bss := by
  refine Finset.sum_nonneg fun b hb => Int.ediv_nonneg ?_ (Int.natCast_nonneg B)
  have := hI.w_le b (Finset.mem_range.mp hb)
  omega

theorem Inv.left_nonneg (hI : Inv B n nb bss classify s₀ s) : 0 ≤ s.left B nb bss := by
  have hroom := hI.room_nonneg
  have hsum : 0 ≤ ∑ i, (s.threads i).left := Finset.sum_nonneg fun i _ => by
    unfold Thread.left
    omega
  unfold Permuting.left
  omega

/-- A step that moves no write pointer leaves less to be done by the thread. -/
theorem Inv.thread_left_step (hI : Inv B n nb bss classify s₀ s) {i : Fin t}
    (hinc : ∀ b c, (s.threads i).pc ≠ .incWrite b c) (hi : s.idles i = false) :
    ((step B n nb classify i s).threads i).left < (s.threads i).left := by
  unfold Permuting.idles at hi
  cases hpc : (s.threads i).pc with
  | noBlock =>
    have hcount : (s.threads i).count ≠ 0 := fun h => by
      rw [(hI.visited i).finished.mp h] at hpc
      cases hpc
    have hrank := rank_loop_le ((s.threads i).count - 1)
    simp only [step, hpc, Permuting.set, Function.update_self, Thread.left]
    rw [show Pc.noBlock.rank = 1 from rfl]
    omega
  | incWrite d c => exact absurd hpc (hinc d c)
  | finished =>
    rw [hpc] at hi
    cases hi
  | isReading d c q =>
    simp only [hpc] at hi
    simp only [step, hpc, hi, Bool.false_eq_true, if_false, Permuting.continue,
      Function.update_self, Thread.left, Pc.rank]
    omega
  | decRead =>
    simp only [step, hpc, Permuting.set, Function.update_self, Thread.left]
    split <;> simp only [Pc.rank] <;> omega
  | classify d c q =>
    simp only [step, hpc, Permuting.continue, Function.update_self, Thread.left]
    split <;> simp only [Pc.rank] <;> omega
  | tryRead | stopRead =>
    simp only [step, hpc, Permuting.set, Function.update_self, Thread.left, Pc.rank]
    omega
  | readBlock q | writeBlock d c q | writeOverflow d c q | swapOut d c q new | swapIn d c q new =>
    simp only [step, hpc, Permuting.write, Permuting.continue, Function.update_self, Thread.left,
      Pc.rank]
    omega

/-- The bucket of the block that a thread is about to write. -/
theorem Inv.dest_lt (hI : Inv B n nb bss classify s₀ s) (hbucket : ∀ x, classify (some x) < nb)
    {i : Fin t} {d : ℕ} {c : Bool} (hpc : (s.threads i).pc.carried = some (d, c)) : d < nb := by
  have hok := hI.threads i
  unfold Thread.Ok at hok
  cases hp : (s.threads i).pc <;> rw [hp] at hok hpc <;> try cases hpc
  all_goals
    obtain ⟨⟨x, -, rfl⟩, -⟩ := hok
    exact hbucket x

/-- **A step leaves less to be done**, unless the thread waits or has finished. -/
theorem Inv.left_step (hI : Inv B n nb bss classify s₀ s) (hB : 1 ≤ B)
    (hbucket : ∀ x, classify (some x) < nb) {i : Fin t} (hi : s.idles i = false) :
    (step B n nb classify i s).left B nb bss < s.left B nb bss := by
  rw [Permuting.left, Permuting.left, sum_step fun th => th.left]
  by_cases hinc : ∃ b c, (s.threads i).pc = .incWrite b c
  · obtain ⟨d, c, hpc⟩ := hinc
    have hd : d < nb := hI.dest_lt hbucket (by rw [hpc]; rfl)
    have hroom : (step B n nb classify i s).room B nb bss + 1 = s.room B nb bss :=
      room_step_of_incWrite hB hd hpc
    have hthread : ((step B n nb classify i s).threads i).left ≤ (s.threads i).left + 6 := by
      simp only [step, hpc, Permuting.set, Function.update_self, Thread.left]
      split
      · split <;> simp only [Pc.rank] <;> omega
      · simp only [Pc.rank]
        omega
    omega
  · have hinc : ∀ b c, (s.threads i).pc ≠ .incWrite b c := fun b c h => hinc ⟨b, c, h⟩
    have hthread := hI.thread_left_step hinc hi
    rw [room_step_of_ne hinc]
    omega

/-- A thread that waits, or has finished, changes nothing. -/
theorem step_eq_self {i : Fin t} (hi : s.idles i = true) : step B n nb classify i s = s := by
  unfold Permuting.idles at hi
  split at hi
  · next d c q hpc => simp only [step, hpc, if_pos hi]
  · next hpc => simp only [step, hpc]
  · cases hi

/-- A thread that is counted as reading does not wait. -/
theorem idles_of_counted {i : Fin t} (h : (s.threads i).pc.counted = true) : s.idles i = false := by
  unfold Permuting.idles
  cases hpc : (s.threads i).pc <;> first | rfl | (rw [hpc] at h; cases h)

/-- Whoever is waited for is counted as reading. -/
theorem Inv.exists_counted (hI : Inv B n nb bss classify s₀ s) {b : ℕ} (hb : b < nb)
    (hread : (s.pointers b).isReading = true) : ∃ j, (s.threads j).pc.counted = true := by
  have hne : ∑ i, (s.threads i).counts b ≠ 0 := by
    rw [← hI.reading b hb]
    exact of_decide_eq_true hread
  obtain ⟨j, -, hj⟩ := Finset.exists_ne_zero_of_sum_ne_zero hne
  refine ⟨j, Bool.eq_true_of_not_eq_false fun hcounted => ?_⟩
  exact hj (Thread.counts_of_not_counted hcounted b)

/-- **Not all of the threads that have not finished wait.** -/
theorem Inv.exists_moves (hI : Inv B n nb bss classify s₀ s)
    (hbucket : ∀ x, classify (some x) < nb) {i : Fin t} (hi : (s.threads i).pc ≠ .finished) :
    ∃ j, s.idles j = false := by
  cases hidle : s.idles i with
  | false => exact ⟨i, hidle⟩
  | true =>
    unfold Permuting.idles at hidle
    split at hidle
    · next d c q hpc =>
      have hd : d < nb := hI.dest_lt hbucket (by rw [hpc]; rfl)
      obtain ⟨j, hj⟩ := hI.exists_counted hd hidle
      exact ⟨j, idles_of_counted hj⟩
    · next hpc => exact absurd hpc hi
    · cases hidle

end

/-! ### The runs -/

/-- In how many steps of a schedule a thread does something. -/
def moves {t : ℕ} {β : Type} (B n nb : ℕ) (classify : Option β → ℕ) :
    List (Fin t) → Permuting t β → ℕ
  | [], _ => 0
  | i :: schedule, s =>
    (!s.idles i).toNat + moves B n nb classify schedule (step B n nb classify i s)

section
variable {t : ℕ} {β : Type} [Fintype β] {B n nb : ℕ} {bss full : ℕ → ℕ} {classify : Option β → ℕ}
  {s₀ s s' : Permuting t β}
  (h : Boundaries false nb n bss) (hB : 1 ≤ B) (hcl : Classified B n nb bss full classify s₀)
include h hB hcl

/-- What has been done is not left to be done. -/
theorem Reachable.moves_add_left (hr : Reachable B n nb classify s₀ s)
    (schedule : List (Fin t)) : moves B n nb classify schedule s +
      (s.after B n nb classify schedule).left B nb bss ≤ s.left B nb bss := by
  induction schedule generalizing s with
  | nil =>
    rw [moves, Nat.cast_zero, zero_add]
    exact le_rfl
  | cons i schedule ih =>
    have hrest := ih (hr.step i)
    change _ + ((InPlace.step B n nb classify i s).after B n nb classify schedule).left B nb bss ≤ _
    rw [moves]
    cases hi : s.idles i with
    | true =>
      rw [step_eq_self hi] at hrest ⊢
      simpa using hrest
    | false =>
      have hleft := (hr.inv h hB hcl).left_step hB hcl.bucket hi
      simp only [Bool.not_false, Bool.toNat_true]
      push_cast
      omega

/-- Less and less is left to be done. -/
theorem Reachable.left_le (hr : Reachable B n nb classify s₀ s)
    (hr' : Reachable B n nb classify s s') : s'.left B nb bss ≤ s.left B nb bss := by
  induction hr' with
  | start => exact le_rfl
  | @step s₁ i hr' ih =>
    refine le_trans ?_ ih
    cases hi : s₁.idles i with
    | true => rw [step_eq_self hi]
    | false => exact (((hr.trans hr').inv h hB hcl).left_step hB hcl.bucket hi).le

/-- **The threads can finish.** -/
theorem Reachable.exists_finished (hr : Reachable B n nb classify s₀ s) :
    ∃ schedule, ∀ i, ((s.after B n nb classify schedule).threads i).pc = .finished := by
  induction hleft : (s.left B nb bss).toNat using Nat.strong_induction_on generalizing s with
  | _ k ih =>
    by_cases hfin : ∀ i, (s.threads i).pc = .finished
    · exact ⟨[], hfin⟩
    · obtain ⟨i, hi⟩ := not_forall.mp hfin
      have hI := hr.inv h hB hcl
      obtain ⟨j, hj⟩ := hI.exists_moves hcl.bucket hi
      have hlt := hI.left_step hB hcl.bucket hj
      have hnonneg := ((hr.step j).inv h hB hcl).left_nonneg
      obtain ⟨schedule, hs⟩ := ih _ (by omega) (hr.step j) rfl
      exact ⟨j :: schedule, hs⟩

/-- The room that there is in the beginning: the blocks of the array. -/
theorem Classified.room_eq : s₀.room B nb bss = (alignToNextBlock B n : ℤ) / B := by
  have hterm : ∀ b ∈ Finset.range nb, (startBlock B bss (b + 1) - (s₀.pointers b).w) / (B : ℤ) =
      startBlock B bss (b + 1) / B - startBlock B bss b / B := by
    intro b hb
    rw [hcl.pointers b (Finset.mem_range.mp hb)]
    exact Int.sub_ediv_of_dvd _ (dvd_startBlock b)
  rw [Permuting.room, Finset.sum_congr rfl hterm,
    Finset.sum_range_sub fun b => startBlock B bss b / (B : ℤ), startBlock, startBlock, h.last,
    h.zero, alignToNextBlock_of_dvd hB (Nat.dvd_zero B)]
  simp

/-- What there is to be done in the beginning. -/
theorem Classified.left_le :
    s₀.left B nb bss ≤ 8 * ((alignToNextBlock B n : ℤ) / B) + t * (8 * nb + 5) := by
  have hthread : ∀ i ∈ Finset.univ, (s₀.threads i).left ≤ 8 * nb + 5 := by
    intro i _
    have hrank := rank_loop_le nb
    rw [hcl.threads i]
    simp only [Thread.left, Thread.start]
    omega
  have hsum := Finset.sum_le_card_nsmul _ _ _ hthread
  rw [Finset.card_univ, Fintype.card_fin, nsmul_eq_mul] at hsum
  rw [Permuting.left, hcl.room_eq h hB]
  omega

/-- **The block permutation comes to an end**: whatever the order of the steps, the threads take at
most so many steps in which they do anything; until all of them have finished, one of them can take
such a step; and there is an order in which they finish. -/
theorem permuteBlocks_terminates (hr : Reachable B n nb classify s₀ s) (schedule : List (Fin t)) :
    moves B n nb classify schedule s₀ ≤ 8 * (alignToNextBlock B n / B) + t * (8 * nb + 5) ∧
      (∀ i, (s.threads i).pc ≠ .finished → ∃ j, s.idles j = false) ∧
      (∀ i, s.idles i = true ↔ InPlace.step B n nb classify i s = s) ∧
      ∃ schedule, ∀ i, ((s.after B n nb classify schedule).threads i).pc = .finished := by
  have hI := hr.inv h hB hcl
  have hmoves := Reachable.moves_add_left h hB hcl .start schedule
  have hleft := hcl.left_le h hB
  have hrun : Reachable B n nb classify s₀ (s₀.after B n nb classify schedule) :=
    reachable_foldl .start schedule
  have hnonneg := (hrun.inv h hB hcl).left_nonneg
  refine ⟨?_, fun i hi => hI.exists_moves hcl.bucket hi, fun i => ⟨step_eq_self, fun heq => ?_⟩,
    hr.exists_finished h hB hcl⟩
  · have hbound : (moves B n nb classify schedule s₀ : ℤ) ≤
        8 * ((alignToNextBlock B n : ℤ) / B) + t * (8 * nb + 5) := by omega
    exact_mod_cast hbound
  · refine Bool.eq_true_of_not_eq_false fun hi => ?_
    have hlt := hI.left_step hB hcl.bucket hi
    rw [heq] at hlt
    exact lt_irrefl _ hlt

end

/-- Two threads that take turns come to an end with three blocks, and go on as long as they like. -/
theorem permuteBlocks_terminates_threeBlocks :
    moves 2 7 2 bucketOf (List.replicate 100 [0, 1]).flatten threeBlocks ≤ 74 ∧
      ∃ schedule, ∀ i, ((threeBlocks.after 2 7 2 bucketOf schedule).threads i).pc = .finished := by
  obtain ⟨hmoves, -, -, hfinish⟩ := permuteBlocks_terminates twoBuckets_boundaries (by decide)
    threeBlocks_classified .start (List.replicate 100 [0, 1]).flatten
  exact ⟨hmoves.trans (by decide), hfinish⟩

/-! ### Element by element -/

section
variable {α σ : Type} {S : Semantics (Cmd Area α) Cmd.Ans σ (Loc Area)} {comp : α → α → Bool}
  {init : Bool} {B n nb t : ℕ} {eq : Bool} {c : Classifier α} {p : Ptr Area}
  {s₀ s s' : Working t α σ}

theorem Working.Reaches.trans (h : Working.Reaches comp init B eq c p S n nb s₀ s)
    (h' : Working.Reaches comp init B eq c p S n nb s s') :
    Working.Reaches comp init B eq c p S n nb s₀ s' := by
  induction h' with
  | start => exact h
  | step i choice _ hs ih => exact ih.step i choice hs

/-- Thread `i` waits until nobody may be reading the block that was in the slot, or has finished. -/
def Working.idles (s : Working t α σ) (i : Fin t) : Bool :=
  match (s.workers i).prog with
  | .ret (.isReading dest _ _) => (s.pointers dest).isReading
  | .ret .finished => true
  | _ => false

/-- It makes an access, and does not wait. -/
theorem Working.not_idles {i : Fin t} {a : Access} (hprog : (s.workers i).prog = .ret a)
    (hi : s.idles i = false) : a ≠ .finished ∧
      ∀ dest current write, a = .isReading dest current write →
        (s.pointers dest).isReading = false := by
  unfold Working.idles at hi
  rw [hprog] at hi
  constructor
  · rintro rfl
    cases hi
  · rintro dest current write rfl
    exact hi

end

section
variable {α σ β : Type} [Fintype β] {S : Semantics (Cmd Area α) Cmd.Ans σ (Loc Area)} {init : Bool}
  {B t n nb : ℕ} {bss full : ℕ → ℕ} {classify : Option β → ℕ} {s₀ s : Permuting t β}
  {st : BlockStore S init B} {content : β → List α} {p : Ptr Area} {f : Working t α σ}
  {L : Fin t → List (Place t)} {comp : α → α → Bool} {eq : Bool} {c : Classifier α}
  (h : Boundaries false nb n bss) (hB : 1 ≤ B) (hcl : Classified B n nb bss full classify s₀)
  (hp : p.arr = .input)
  (hhead : ∀ x, ∃ a l, content x = a :: l ∧ c.classify comp eq a = some (classify (some x)))
  (hM : Matches st content classify n p f s L) (hr : Reachable B n nb classify s₀ s)
include h hB hcl hp hM hr

variable (comp eq c) in
/-- A thread can go on to its next access. -/
theorem Matches.exists_ret (i : Fin t) : ∃ f' a, Working.Reaches comp init B eq c p S n nb f f' ∧
    Matches st content classify n p f' s L ∧ (f'.workers i).prog = .ret a ∧
      ∀ j, j ≠ i → f'.workers j = f.workers j := by
  induction hprog : (f.workers i).prog generalizing f with
  | ret a => exact ⟨f, a, .start, hM, hprog, fun _ _ => rfl⟩
  | cmd o k ih =>
    obtain ⟨-, hexec⟩ := hM.command h hB hcl hp hr hprog
    obtain ⟨a, m', he, -, hM'⟩ := hexec 0
    have hself : ((f.answered i (k a) m').workers i).prog = k a := by
      simp only [Working.answered, Function.update_self]
    obtain ⟨f', b, hreach, hM'', hret, hothers⟩ := ih a hM' hself
    have hstep : f.step comp init B eq c p S n nb i 0 = some (f.answered i (k a) m') := by
      simp only [Working.step, hprog, he, Option.map_some]
    refine ⟨f', b, (Working.Reaches.start.step i 0 hstep).trans hreach, hM'', hret, fun j hj => ?_⟩
    rw [hothers j hj]
    exact Function.update_of_ne hj ..
  | halt e =>
    have hdoing := hM.doing i
    rw [hprog] at hdoing
    exact hdoing.elim

variable (comp eq c) in
/-- All threads can go on to their next accesses. -/
theorem Matches.exists_allRet : ∃ f', Working.Reaches comp init B eq c p S n nb f f' ∧
    Matches st content classify n p f' s L ∧ ∀ i, ∃ a, (f'.workers i).prog = .ret a := by
  have hsome : ∀ l : List (Fin t), ∃ f', Working.Reaches comp init B eq c p S n nb f f' ∧
      Matches st content classify n p f' s L ∧ ∀ i ∈ l, ∃ a, (f'.workers i).prog = .ret a := by
    intro l
    induction l with
    | nil => exact ⟨f, .start, hM, fun _ hi => absurd hi List.not_mem_nil⟩
    | cons i l ih =>
      obtain ⟨f₁, hreach₁, hM₁, hl⟩ := ih
      obtain ⟨f₂, a, hreach₂, hM₂, hret, hothers⟩ :=
        hM₁.exists_ret comp eq c h hB hcl hp hr i
      refine ⟨f₂, hreach₁.trans hreach₂, hM₂, fun j hj => ?_⟩
      by_cases hji : j = i
      · rw [hji]
        exact ⟨a, hret⟩
      · rw [hothers j hji]
        exact hl j ((List.mem_cons.mp hj).resolve_left hji)
  obtain ⟨f', hreach, hM', hall⟩ := hsome (List.finRange t)
  exact ⟨f', hreach, hM', fun i => hall i (List.mem_finRange i)⟩

omit hp in
/-- **Not all of the threads that have not finished wait.** -/
theorem Matches.exists_moves {i : Fin t} (hi : (f.workers i).prog ≠ .ret .finished) :
    ∃ j, f.idles j = false := by
  cases hidle : f.idles i with
  | false => exact ⟨i, hidle⟩
  | true =>
    have hI := hr.inv h hB hcl
    unfold Working.idles at hidle
    split at hidle
    · next d cur q hprog =>
      -- somebody is counted as reading, and is about to make another access
      have hdoing := hM.doing i
      rw [hprog] at hdoing
      obtain ⟨vs, hplan, -⟩ := hdoing
      have hd : d < nb := by
        cases hplan with
        | access _ hpc => exact hI.dest_lt hcl.bucket (by rw [hpc]; rfl)
      rw [hM.pointers] at hidle
      obtain ⟨j, hj⟩ := hI.exists_counted hd hidle
      refine ⟨j, Bool.eq_false_of_not_eq_true fun hidle => ?_⟩
      have hdoing := hM.doing j
      unfold Working.idles at hidle
      split at hidle
      · next hprog =>
        rw [hprog] at hdoing
        obtain ⟨vs, hplan, -⟩ := hdoing
        cases hplan with
        | access _ hpc =>
          rw [hpc] at hj
          cases hj
      · next hprog =>
        rw [hprog] at hdoing
        obtain ⟨vs, hplan, -⟩ := hdoing
        cases hplan with
        | access _ hpc =>
          rw [hpc] at hj
          cases hj
      · cases hidle
    · next hprog => exact absurd hprog hi
    · cases hidle

include hhead in
/-- **The threads can finish.** -/
theorem Matches.exists_finished : ∃ f', Working.Reaches comp init B eq c p S n nb f f' ∧
    ∀ i, (f'.workers i).prog = .ret .finished := by
  induction hleft : (s.left B nb bss).toNat using Nat.strong_induction_on generalizing f s L with
  | _ k ih =>
    obtain ⟨f₁, hreach₁, hM₁, hall⟩ :=
      hM.exists_allRet comp eq c h hB hcl hp hr
    by_cases hfin : ∀ i, (f₁.workers i).prog = .ret .finished
    · exact ⟨f₁, hreach₁, hfin⟩
    · obtain ⟨i, hi⟩ := not_forall.mp hfin
      obtain ⟨j, hj⟩ := hM₁.exists_moves h hB hcl hr hi
      obtain ⟨a, hprog⟩ := hall j
      obtain ⟨hne, hwait⟩ := Working.not_idles hprog hj
      obtain ⟨s', hss', hpc, hM'⟩ := hM₁.settle h hB hcl hr hprog
      have hr' := hr.trans hss'
      have hLj : Function.update L j [] j = [] := Function.update_self ..
      -- the step that moves whole blocks is not one in which the thread waits
      have hnot : s'.idles j = false := by
        unfold Permuting.idles
        rw [hpc]
        cases a <;> first | rfl | skip
        · rw [← hM'.pointers]
          exact hwait _ _ _ rfl
        · exact absurd rfl hne
      have hlt := (hr'.inv h hB hcl).left_step hB hcl.bucket hnot
      have hle := hr.left_le h hB hcl hss'
      have hnonneg := ((hr'.step j).inv h hB hcl).left_nonneg
      have hstep : ∀ {g : Working t α σ} {b}, (g.workers j).prog = .ret b →
          g.step comp init B eq c p S n nb j 0 =
            some (g.access comp init B eq c p n nb j b) := fun hb => by
        simp only [Working.step, hb]
      by_cases ha : a = .overflowed
      · subst ha
        -- it sets `overflow_`, and goes on as if there had been nothing to set
        have hM₂ : Matches st content classify n p
            (f₁.access comp init B eq c p n nb j .overflowed) s' _ :=
          hM'.access_overflowed hLj hprog hpc
        have hprog₂ : ((f₁.access comp init B eq c p n nb j .overflowed).workers j).prog =
            .ret .tryRead := by
          simp only [Working.access, Working.continue, Function.update_self]
        have hM₃ : Matches st content classify n p ((f₁.access comp init B eq c p n nb j
            .overflowed).access comp init B eq c p n nb j .tryRead) _ _ :=
          hM₂.access_tryRead (Function.update_self ..) hprog₂ hpc
        obtain ⟨f', hreach, hdone⟩ := ih _ (by omega) hM₃ (hr'.step j) rfl
        exact ⟨f', ((hreach₁.step j 0 (hstep hprog)).step j 0 (hstep hprog₂)).trans hreach, hdone⟩
      · obtain ⟨L', hM₂⟩ := hM'.access_step h hB hcl hp hhead hr' hLj hprog hpc ha
        obtain ⟨f', hreach, hdone⟩ := ih _ (by omega) hM₂ (hr'.step j) rfl
        exact ⟨f', (hreach₁.step j 0 (hstep hprog)).trans hreach, hdone⟩

end

end Ps4o.InPlace
