import Mathlib.Data.List.Chain
import Ps4o.BaseCase
import Ps4o.Order.Stripes
import Ps4o.Program.Team

/-!
# The test for sorted input in parallel

Before a parallel sort, the threads test together whether there is anything to do: each of them
scans its stripe, and one element more, so that no pair of neighbours is left out (`isSorted` in
`base_case.hpp`, and again in `ParallelSorter::operator()`).

## The model

The scans are programs of a team, which take turns command by command in any order. Each thread has
its own copy of the comparator in the test of `ParallelSorter`; copies of a comparator are the same
function. What a thread has found out is its result: that several bits of a `std::vector<bool>`
share a word is not modelled.

## What is proved

* `chain_iff_stripes` — every pair of neighbours is in one of the overlapping stripes, also when
  there are more threads than elements.
* `stripedTest_iff` — the tests of all threads together say whether the range is sorted, and they
  change nothing.
-/

namespace Ps4o

open Ps4o.Program Ps4o.Storage Ps4o.Order Ps4o.Order.Stripes

variable {A α : Type}

/-! ### The code -/

section
variable (comp : α → α → Bool) (p : Ptr A) (n : ℕ)

/-- What thread `myId` tests: its stripe, and the first element of the next one. -/
def stripeIsSorted (numThreads myId : ℕ) : Act A α Bool :=
  let stripe := width n numThreads
  let myBegin := min (stripe * myId) n
  let myEnd := min (stripe * (myId + 1) + 1) n
  isSorted comp (p + myBegin) (myEnd - myBegin)

/-- `std::all_of`. -/
def allOf {t : ℕ} (isSorted : Fin t → Bool) : Bool := (List.ofFn isSorted).all id

/-- `detail::isSorted`, for a pool of `t` threads. -/
def isSortedParallel (t : ℕ) : Team (Cmd A α) Cmd.Ans (Fin t) Bool :=
  .stage (fun i => stripeIsSorted comp p n t i) fun isSorted => .done (allOf isSorted)

/-- What `ParallelSorter::operator()` does before it sorts in parallel; it returns at once when the
answer is `true`. -/
def ParallelSorter.alreadySorted (checkSorted : Bool) (t : ℕ) :
    Team (Cmd A α) Cmd.Ans (Fin t) Bool :=
  -- Do nothing if input is already sorted.
  let test : Team (Cmd A α) Cmd.Ans (Fin t) Bool :=
    .stage (fun i => stripeIsSorted comp p n t i) fun isSorted => .done (allOf isSorted)
  if checkSorted then
    .stage (fun i => stripeIsSorted comp p n t i) fun isSorted =>
      if allOf isSorted then .done true else test
  else
    test

end

/-! ### Pairs of neighbours -/

/-- A stripe, and one element more. -/
def overlapping (xs : List α) (t i : ℕ) : List α :=
  (xs.drop (min (width xs.length t * i) xs.length)).take
    (min (width xs.length t * (i + 1) + 1) xs.length - min (width xs.length t * i) xs.length)

section
variable {t : ℕ} {xs : List α}

theorem length_overlapping (i : ℕ) : (overlapping xs t i).length =
    min (width xs.length t * (i + 1) + 1) xs.length - min (width xs.length t * i) xs.length := by
  rw [overlapping, List.length_take, List.length_drop]
  omega

/-- **Every pair of neighbours is in a stripe.** -/
theorem chain_iff_stripes {R : α → α → Prop} (ht : 1 ≤ t) :
    (∀ i < t, (overlapping xs t i).IsChain R) ↔ xs.IsChain R := by
  constructor
  · intro h
    rw [List.isChain_iff_getElem]
    intro j hj
    -- the stripe of the first of the two
    obtain ⟨h₁, h₂⟩ := (mem_iff ht (Nat.lt_of_succ_lt hj)).mpr rfl
    have hi := owner_lt ht (Nat.lt_of_succ_lt hj)
    set i := owner xs.length t j
    have hchain := h i hi
    rw [List.isChain_iff_getElem] at hchain
    rw [first, Nat.mul_comm] at h₁ h₂
    have := hchain (j - min (width xs.length t * i) xs.length) (by rw [length_overlapping]; omega)
    simp only [overlapping, List.getElem_take, List.getElem_drop] at this
    have hleft : min (width xs.length t * i) xs.length +
      (j - min (width xs.length t * i) xs.length) = j := by omega
    simpa only [← Nat.add_assoc, hleft] using this
  · intro h i _
    exact (h.drop _).take _

end

/-! ### The tests -/

section
variable [DecidableEq A] (comp : α → α → Bool) {lax : Bool} {p : Ptr A} {m : Mem A (Slot α)} {t : ℕ}
  {xs : List α}

omit [DecidableEq A] in
/-- Scanning a range does nothing but read. -/
theorem isSorted_reads [DecidableEq A] (p : Ptr A) (n : ℕ) :
    (isSorted comp p n).All (slots A α lax).Reads := by
  have hread : ∀ q : Ptr A, (slots A α lax).Reads (.read q) := by
    intro q c m a m' he
    cases hq : m.slot q <;> simp_all [slots, slotExec]
  induction n generalizing p with
  | zero => trivial
  | succ n ih =>
    cases n with
    | zero => trivial
    | succ n =>
      refine ⟨hread _, fun next => ⟨hread _, fun first => ?_⟩⟩
      change Prog.All _ (if comp next first then pure false else isSorted comp (p + 1) (n + 1))
      split
      · trivial
      · exact ih (p + 1)

/-- What a thread finds out. -/
theorem sat_stripeIsSorted (h : Has m p (xs.map .full)) (i : ℕ) :
    Sat (slots A α lax) (seg p xs.length) (stripeIsSorted comp p xs.length t i) m fun b m' =>
      m' = m ∧ (b = true ↔ (overlapping xs t i).IsChain fun a b => comp b a = false) := by
  have hhas : Has m (p + min (width xs.length t * i) xs.length)
      ((overlapping xs t i).map .full) := by
    intro j v hv
    obtain ⟨x, hx, rfl⟩ := Option.map_eq_some_iff.mp (by rwa [List.getElem?_map] at hv)
    have hj := (List.getElem?_eq_some_iff.mp hx).1
    rw [length_overlapping] at hj
    rw [overlapping, List.getElem?_take_of_lt hj, List.getElem?_drop] at hx
    rw [Ptr.add_assoc]
    exact h _ _ (by rw [List.getElem?_map, hx]; rfl)
  have hsat : Sat (slots A α lax) _ _ m _ := sat_isSorted comp hhas
  rw [length_overlapping] at hsat
  exact hsat.mono (seg_subset (by omega)) fun _ _ hb => hb

/-- The scans of all threads, in any order. -/
theorem cooperate_stripes (h : Has m p (xs.map .full)) :
    Cooperate (slots A α lax) (seg p xs.length)
      (fun i : Fin t => stripeIsSorted comp p xs.length t i) m fun i b m' =>
        (b = true ↔ (overlapping xs t i).IsChain fun a b => comp b a = false) ∧
        Has m' p (xs.map .full) := by
  refine (Cooperate.of_reads (fun i : Fin t => sat_stripeIsSorted comp h i) fun i =>
    isSorted_reads comp _ _).imp ?_
  rintro i b m' ⟨m₂, ⟨rfl, hb⟩, hm⟩
  refine ⟨hb, h.of_eq fun j hj => hm _ (elem_add_mem_seg.mpr ?_)⟩
  rwa [List.length_map] at hj

/-- What all threads find out. -/
theorem allOf_iff {b : Fin t → Bool} {P : ℕ → Prop} (hb : ∀ i : Fin t, b i = true ↔ P i) :
    allOf b = true ↔ ∀ i < t, P i := by
  rw [allOf, List.all_eq_true]
  simp only [List.mem_ofFn, id, forall_exists_index, forall_apply_eq_imp_iff, hb]
  exact Fin.forall_iff

/-- The scans, and what is made of their results. -/
theorem sat_stripes (hc : StrictWeak comp) (ht : 1 ≤ t) (h : Has m p (xs.map .full))
    {next : (Fin t → Bool) → Team (Cmd A α) Cmd.Ans (Fin t) Bool} {Q : Bool → Mem A (Slot α) → Prop}
    (hnext : ∀ b m', (allOf b = true ↔ Sorted comp xs) → Has m' p (xs.map .full) →
      (next b).Sat (slots A α lax) (seg p xs.length) m' Q) :
    (Team.stage (fun i : Fin t => stripeIsSorted comp p xs.length t i) next).Sat (slots A α lax)
    (seg p xs.length) m Q := by
  have hle : IsTrans α fun a b => comp b a = false := ⟨fun _ _ _ => hc.le_trans⟩
  refine ⟨_, cooperate_stripes comp h, fun b m' hb => hnext b m' ?_ (hb ⟨0, ht⟩).2⟩
  rw [allOf_iff (P := fun i => (overlapping xs t i).IsChain fun a b => comp b a = false)
    fun i => (hb i).1, chain_iff_stripes ht]
  exact List.isChain_iff_pairwise

/-- **The tests of all threads** say whether the range is sorted. -/
theorem stripedTest_iff (hc : StrictWeak comp) (ht : 1 ≤ t) (h : Has m p (xs.map .full))
    (checkSorted : Bool) :
    (isSortedParallel comp p xs.length t).Sat (slots A α lax) (seg p xs.length) m
        (fun b m' => (b = true ↔ Sorted comp xs) ∧ Has m' p (xs.map .full)) ∧
      (ParallelSorter.alreadySorted comp p xs.length checkSorted t).Sat (slots A α lax)
        (seg p xs.length) m
          (fun b m' => (b = true ↔ Sorted comp xs) ∧ Has m' p (xs.map .full)) := by
  have hdone : ∀ {b : Bool} {m : Mem A (Slot α)}, (b = true ↔ Sorted comp xs) →
      Has m p (xs.map .full) →
      (Team.done b : Team (Cmd A α) Cmd.Ans (Fin t) Bool).Sat (slots A α lax) (seg p xs.length) m
        (fun b m' => (b = true ↔ Sorted comp xs) ∧ Has m' p (xs.map .full)) := by
    intro b m hb hm m' hm'
    refine ⟨hb, hm.of_eq fun j hj => hm' _ (elem_add_mem_seg.mpr ?_)⟩
    rwa [List.length_map] at hj
  refine ⟨sat_stripes comp hc ht h fun b m' hb hm' => hdone hb hm', ?_⟩
  rw [ParallelSorter.alreadySorted]
  cases checkSorted with
  | false => exact sat_stripes comp hc ht h fun b m' hb hm' => hdone hb hm'
  | true =>
    refine sat_stripes comp hc ht h fun b m' hb hm' => ?_
    split
    · next hall => exact hdone ⟨fun _ => hb.mp hall, fun _ => rfl⟩ hm'
    · exact sat_stripes comp hc ht hm' fun b m'' hb hm'' => hdone hb hm''

end

/-- Five threads for three numbers, of which the last two are out of order. -/
theorem stripedTest_five :
    (isSortedParallel (fun a b => decide (a < b)) (⟨(), 0⟩ : Ptr Unit) 3 5).Sat (slots Unit ℕ false)
    (seg ⟨(), 0⟩ 3)
        (Mem.ofList ⟨(), 0⟩ [1, 3, 2] fun _ => 0)
        (fun b m' => (b = true ↔ Sorted (fun a b => decide (a < b)) [1, 3, 2]) ∧
          Has m' ⟨(), 0⟩ ([1, 3, 2].map .full)) ∧
      (ParallelSorter.alreadySorted (fun a b => decide (a < b)) (⟨(), 0⟩ : Ptr Unit) 3 true 5).Sat
        (slots Unit ℕ false) (seg ⟨(), 0⟩ 3) (Mem.ofList ⟨(), 0⟩ [1, 3, 2] fun _ => 0)
        (fun b m' => (b = true ↔ Sorted (fun a b => decide (a < b)) [1, 3, 2]) ∧
          Has m' ⟨(), 0⟩ ([1, 3, 2].map .full)) :=
  stripedTest_iff _ (StrictWeak.of_linearOrder ℕ) (by decide) (has_ofList _ [1, 3, 2] _) true

end Ps4o
