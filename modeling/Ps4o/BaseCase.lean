import Ps4o.Order.WeakOrder
import Ps4o.Program.Segment
import Mathlib.Data.List.DropRight
import Mathlib.Data.List.Induction

/-!
# Base cases

Insertion sort and the test for sorted input (`base_case.hpp`). A range is its begin and
its length. Decrementing an iterator below the begin of the range and dereferencing it
is undefined.

## What is proved

* `sat_insertionSort` — insertion sort stays inside its range, whatever the comparator
  answers, and leaves `insertionSorted comp xs`: a permutation (`insertionSorted_perm`),
  and sorted when the comparator is a strict weak order (`insertionSorted_sorted`).
* `insertionSort_stable` — **insertion sort leaves the stable sort of its range**, and a permutation
  when the comparator is no order at all.
* `sat_sortedCaseSort` — the test for sorted input leaves the range sorted when it says
  so, and as it was when it does not.
-/

namespace Ps4o

open Ps4o.Program Ps4o.Storage Ps4o.Order

variable {A α : Type} (comp : α → α → Bool)

/-! ### The code -/

/-- `std::move_backward(p, p + j, p + j + 1)`. -/
def moveBackward (p : Ptr A) : ℕ → Act A α Unit
  | 0 => pure ()
  | j + 1 => do
    let v ← moveFrom (p + j)
    assignTo (p + (j + 1)) v
    moveBackward p j

/-- The inner loop: `cur` is `p + j`, `next` is the iterator before it. -/
def shift (val : α) (p : Ptr A) : ℕ → Act A α Unit
  | 0 => undefined
  | j + 1 => do
    let next ← readAt (p + j)
    if comp val next then
      let v ← moveFrom (p + j)
      assignTo (p + (j + 1)) v
      shift val p j
    else
      assignTo (p + (j + 1)) val

/-- The body of the outer loop. -/
def insertionStep (p : Ptr A) (it : ℕ) : Act A α Unit := do
  let val ← moveFrom (p + it)
  let first ← readAt p
  if comp val first then
    moveBackward p it
    assignTo p val
  else
    shift comp val p it

/-- Insertion sort. -/
def insertionSort (p : Ptr A) (n : ℕ) : Act A α Unit :=
  if n = 0 then undefined else Prog.loop (fun i _ => insertionStep comp p (i + 1)) (n - 1) ()

/-- Wrapper for base case sorter. -/
def baseCaseSort (p : Ptr A) (n : ℕ) : Act A α Unit :=
  if n = 0 then pure () else insertionSort comp p n

/-- `std::is_sorted`: no element is less than the one before it. -/
def isSorted (p : Ptr A) : ℕ → Act A α Bool
  | 0 => pure true
  | 1 => pure true
  | n + 2 => do
    let next ← readAt (p + 1)
    let first ← readAt p
    if comp next first then pure false else isSorted (p + 1) (n + 1)

/-- The other scan of `sortedCaseSort`: no element is less than the one after it. -/
def isReverseSorted (p : Ptr A) : ℕ → Act A α Bool
  | 0 => pure true
  | 1 => pure true
  | n + 2 => do
    let first ← readAt p
    let next ← readAt (p + 1)
    if comp first next then pure false else isReverseSorted (p + 1) (n + 1)

/-- `std::reverse`. -/
def reverse (p : Ptr A) (n : ℕ) : Act A α Unit :=
  Prog.loop (fun i _ => swapAt (p + i) (p + (n - 1 - i))) (n / 2) ()

/-- Whether the input is sorted, after reversing it when it is sorted backwards. -/
def sortedCaseSort (p : Ptr A) (n : ℕ) : Act A α Bool :=
  if n = 0 then
    pure true
  else do
    let last ← readAt (p + (n - 1))
    let first ← readAt p
    if !comp last first then
      isSorted comp p n
    else if ← isReverseSorted comp p n then
      reverse p n
      pure true
    else
      pure false

/-! ### Insertion sort on lists -/

/-- Inserting after the last element that is not greater. -/
def insertBack (pre : List α) (val : α) : List α :=
  match pre with
  | [] => [val]
  | first :: _ =>
    if comp val first then val :: pre else pre.rdropWhile (comp val) ++
      val :: pre.rtakeWhile (comp val)

/-- The list insertion sort leaves. -/
def insertionSorted : List α → List α
  | [] => []
  | x :: xs => xs.foldl (insertBack comp) [x]

theorem insertBack_perm (pre : List α) (val : α) : (insertBack comp pre val).Perm (val :: pre) := by
  cases pre with
  | nil => rfl
  | cons first pre =>
    simp only [insertBack]
    split
    · rfl
    · refine List.perm_middle.trans (List.Perm.cons val ?_)
      rw [List.rdropWhile_append_rtakeWhile]

theorem insertionSorted_perm (xs : List α) : (insertionSorted comp xs).Perm xs := by
  suffices h : ∀ (xs pre : List α), (xs.foldl (insertBack comp) pre).Perm (pre ++ xs) by
    cases xs with
    | nil => rfl
    | cons x xs => exact h xs [x]
  intro xs
  induction xs with
  | nil => intro pre; simp
  | cons x xs ih =>
    intro pre
    refine (ih _).trans (((insertBack_perm comp pre x).append_right xs).trans ?_)
    exact List.perm_middle.symm

section
variable {comp} (hc : StrictWeak comp)
include hc

/-- In a sorted list, shifting everything is what the scan would have done. -/
theorem insertBack_eq_scan {pre : List α} (h : Sorted comp pre) (val : α) :
    insertBack comp pre val = pre.rdropWhile (comp val) ++ val :: pre.rtakeWhile (comp val) := by
  cases pre with
  | nil => simp [insertBack]
  | cons first pre =>
    rw [insertBack]
    split
    · next hv =>
      have hall : ∀ x ∈ first :: pre, comp val x = true := by
        intro x hx
        rcases List.mem_cons.mp hx with rfl | hx
        · exact hv
        · exact hc.lt_of_lt_of_le hv ((List.pairwise_cons.mp h).1 x hx)
      rw [List.rdropWhile_eq_nil_iff.mpr hall,
        List.rtakeWhile_eq_self_iff.mpr hall, List.nil_append]
    · rfl

theorem insertBack_sorted {pre : List α} (h : Sorted comp pre) (val : α) :
    Sorted comp (insertBack comp pre val) := by
  rw [insertBack_eq_scan hc h]
  induction pre using List.reverseRecOn with
  | nil => simp [Sorted]
  | append_singleton pre x ih =>
    have hpre : Sorted comp pre := (List.pairwise_append.mp h).1
    have hx : ∀ a ∈ pre, comp x a = false :=
      fun a ha => (List.pairwise_append.mp h).2.2 a ha x (by simp)
    rw [List.rdropWhile_concat, List.rtakeWhile_concat]
    split
    · next hv =>
      rw [← List.cons_append, ← List.append_assoc]
      refine List.pairwise_append.mpr ⟨ih hpre, by simp, fun a ha b hb => ?_⟩
      obtain rfl : b = x := by simpa using hb
      have ha : a ∈ pre ∨ a = val := by
        rcases List.mem_append.mp ha with ha | ha
        · exact .inl ((List.rdropWhile_prefix _ _).subset ha)
        · rcases List.mem_cons.mp ha with rfl | ha
          · exact .inr rfl
          · exact .inl ((List.rtakeWhile_suffix _ _).subset ha)
      rcases ha with ha | rfl
      · exact hx a ha
      · exact hc.asymm hv
    · next hv =>
      refine List.pairwise_append.mpr ⟨h, by simp, fun a ha b hb => ?_⟩
      obtain rfl : b = val := by simpa using hb
      have hv : comp b x = false := by simpa using hv
      rcases List.mem_append.mp ha with ha | ha
      · exact hc.le_trans (hx a ha) hv
      · obtain rfl : a = x := by simpa using ha
        exact hv

theorem insertionSorted_sorted (xs : List α) : Sorted comp (insertionSorted comp xs) := by
  cases xs with
  | nil => exact List.Pairwise.nil
  | cons x xs =>
    suffices h : ∀ (xs pre : List α), Sorted comp pre →
      Sorted comp (xs.foldl (insertBack comp) pre) from h xs [x] (by simp [Sorted])
    intro xs
    induction xs with
    | nil => exact fun pre h => h
    | cons x xs ih => exact fun pre h => ih _ (insertBack_sorted hc h x)

/-- An element is inserted behind those that are equivalent to it. -/
theorem insertBack_filter {pre : List α} (h : Sorted comp pre) (val a : α) :
    (insertBack comp pre val).filter (tied comp a) = (pre ++ [val]).filter (tied comp a) := by
  have hsplit : pre.filter (tied comp a) =
      (pre.rdropWhile (comp val)).filter (tied comp a) ++ (pre.rtakeWhile (comp val)).filter
      (tied comp a) := by
    rw [← List.filter_append, List.rdropWhile_append_rtakeWhile]
  rw [insertBack_eq_scan hc h, List.filter_append, List.filter_append, hsplit]
  by_cases hval : tied comp a val = true
  · -- no equivalent element has been shifted
    have hnone : (pre.rtakeWhile (comp val)).filter (tied comp a) = [] := by
      rw [List.filter_eq_nil_iff]
      intro x hx hax
      have hlt : comp val x = true := List.mem_rtakeWhile_imp hx
      have htied := (tied_iff.mp (hc.tied_of_tied hval hax)).1
      rw [hlt] at htied
      cases htied
    rw [List.filter_cons_of_pos hval, hnone, List.append_nil,
      List.filter_cons_of_pos hval, List.filter_nil]
  · rw [List.filter_cons_of_neg hval, List.filter_cons_of_neg hval,
      List.filter_nil, List.append_nil]

/-- **What insertion sort leaves is the stable sort.** -/
theorem insertionSorted_stable (xs : List α) : IsStableSort comp xs (insertionSorted comp xs) where
  sorted := insertionSorted_sorted hc xs
  perm := insertionSorted_perm comp xs
  stable a := by
    cases xs with
    | nil => rfl
    | cons x xs =>
      suffices h : ∀ (xs pre : List α), Sorted comp pre →
          (xs.foldl (insertBack comp) pre).filter (tied comp a) =
          (pre ++ xs).filter (tied comp a) from
        h xs [x] (by simp [Sorted])
      intro xs
      induction xs with
      | nil =>
        intro pre _
        rw [List.foldl_nil, List.append_nil]
      | cons x xs ih =>
        intro pre hpre
        rw [List.foldl_cons, ih _ (insertBack_sorted hc hpre x), List.filter_append,
          insertBack_filter hc hpre, ← List.filter_append, List.append_assoc, List.singleton_append]

end

/-! ### Insertion sort in place -/

section
variable [DecidableEq A] {lax : Bool} {m : Mem A (Slot α)} {p : Ptr A}

theorem sat_moveBackward {pre : List α} {v : Slot α} (h : Has m p (pre.map .full ++ [v]))
    (hv : v ≠ .raw) :
    Sat (slots A α lax) (seg p (pre.length + 1)) (moveBackward p pre.length) m fun _ m' =>
      ∃ w, w ≠ .raw ∧ Has m' p (w :: pre.map .full) := by
  induction pre using List.reverseRecOn generalizing m v with
  | nil => exact ⟨v, hv, h⟩
  | append_singleton pre x ih =>
    simp only [List.length_append, List.length_singleton, moveBackward]
    rw [sat_bind]
    refine sat_moveFrom (a := x) (elem_add_mem_seg.mpr (by omega)) (h _ _ (by simp)) ?_
    rw [sat_bind]
    refine sat_assignTo (by simp) (fun hr => ?_) ?_
    · have hl := h (pre.length + 1) v (by simp)
      rw [Mem.set_slot, Function.update_of_ne (by simp), hl] at hr
      exact absurd hr hv
    have h' := (h.set pre.length .moved).set (pre.length + 1) (.full x)
    rw [show (((List.map Slot.full (pre ++ [x]) ++ [v]).set pre.length .moved).set
      (pre.length + 1) (.full x))
      = (pre.map .full ++ [Slot.moved]) ++ [Slot.full x] by simp, has_append] at h'
    refine ((ih h'.1 (by simp)).frame.mono (seg_subset (p := p) (i := 0) (by omega)) ?_)
    rintro _ m' ⟨⟨w, hw, hh⟩, hf⟩
    refine ⟨w, hw, ?_⟩
    rw [List.map_append, ← List.cons_append, has_append]
    refine ⟨hh, ?_⟩
    have hx' := h'.2.frame hf fun i hi => by
      rw [Ptr.add_assoc, elem_add_mem_seg, List.length_append,
        List.length_map, List.length_singleton]
      omega
    simpa using hx'

theorem sat_shift {pre : List α} {v : Slot α} {val : α} (h : Has m p (pre.map .full ++ [v]))
    (hv : v ≠ .raw) (hf : ∃ x ∈ pre, comp val x = false) :
    Sat (slots A α lax) (seg p (pre.length + 1)) (shift comp val p pre.length) m fun _ m' =>
      Has m' p ((pre.rdropWhile (comp val) ++ val :: pre.rtakeWhile (comp val)).map .full) := by
  induction pre using List.reverseRecOn generalizing m v with
  | nil => simp at hf
  | append_singleton pre x ih =>
    simp only [List.length_append, List.length_singleton, shift]
    have hx : m.slot (p + pre.length) = .full x := h _ _ (by simp)
    have hl : m.slot (p + (pre.length + 1)) = v := h (pre.length + 1) v (by simp)
    rw [sat_bind]
    refine sat_readAt (a := x) (elem_add_mem_seg.mpr (by omega)) hx ?_
    rw [List.rdropWhile_concat, List.rtakeWhile_concat]
    by_cases hcx : comp val x = true
    · simp only [hcx, if_true]
      rw [sat_bind]
      refine sat_moveFrom (a := x) (elem_add_mem_seg.mpr (by omega)) hx ?_
      rw [sat_bind]
      refine sat_assignTo (by simp) (fun hr => ?_) ?_
      · rw [Mem.set_slot, Function.update_of_ne (by simp), hl] at hr
        exact absurd hr hv
      have h' := (h.set pre.length .moved).set (pre.length + 1) (.full x)
      rw [show (((List.map Slot.full (pre ++ [x]) ++ [v]).set pre.length .moved).set
        (pre.length + 1) (.full x))
        = (pre.map .full ++ [Slot.moved]) ++ [Slot.full x] by simp, has_append] at h'
      have hf' : ∃ y ∈ pre, comp val y = false := by
        obtain ⟨y, hy, hyv⟩ := hf
        rcases List.mem_append.mp hy with hy | hy
        · exact ⟨y, hy, hyv⟩
        · obtain rfl : y = x := by simpa using hy
          simp [hcx] at hyv
      refine ((ih h'.1 (by simp) hf').frame.mono (seg_subset (p := p) (i := 0) (by omega)) ?_)
      rintro _ m' ⟨hh, hfr⟩
      rw [← List.cons_append, ← List.append_assoc, List.map_append, has_append]
      refine ⟨hh, ?_⟩
      have hlen : (pre.rdropWhile (comp val) ++ val :: pre.rtakeWhile (comp val)).length =
          pre.length + 1 := by
        have := congrArg List.length (List.rdropWhile_append_rtakeWhile (p := comp val) (l := pre))
        simp only [List.length_append, List.length_cons] at this ⊢
        omega
      have hx' := h'.2.frame hfr fun i hi => by
        rw [Ptr.add_assoc, elem_add_mem_seg, List.length_append,
          List.length_map, List.length_singleton]
        omega
      simpa only [List.length_map, List.length_append, List.length_singleton, hlen, List.map_cons,
        List.map_nil] using hx'
    · simp only [hcx]
      refine sat_assignTo (by simp) (fun hr => absurd (hl.symm.trans hr) hv) ?_
      have h' := h.set (pre.length + 1) (.full val)
      simpa [List.set_append] using h'

/-- The body of the outer loop inserts the next element into the sorted ones. -/
theorem sat_insertionStep {pre : List α} {val : α} (hpre : pre ≠ [])
    (h : Has m p (pre.map .full ++ [.full val])) :
    Sat (slots A α lax) (seg p (pre.length + 1)) (insertionStep comp p pre.length) m fun _ m' =>
      Has m' p ((insertBack comp pre val).map .full) := by
  obtain ⟨first, rest, rfl⟩ := List.exists_cons_of_ne_nil hpre
  have hfirst : m.slot p = .full first := by simpa using h 0 (.full first) rfl
  have hval : m.slot (p + (first :: rest).length) = .full val := h _ _ (by simp)
  have h' := h.set (first :: rest).length .moved
  rw [show ((List.map Slot.full (first :: rest) ++ [Slot.full val]).set
    (first :: rest).length .moved) = (first :: rest).map .full ++ [Slot.moved] by simp] at h'
  rw [insertionStep, sat_bind]
  refine sat_moveFrom (elem_add_mem_seg.mpr (by omega)) hval ?_
  rw [sat_bind]
  refine sat_readAt (a := first) (elem_mem_seg_self.mpr (by omega)) ?_ ?_
  · rw [Mem.set_slot, Function.update_of_ne, hfirst]
    rw [← Ptr.add_zero p, Ptr.add_assoc, Ne, Ptr.add_inj]
    simp
  by_cases hc : comp val first = true
  · simp only [insertBack, hc, if_true]
    rw [sat_bind]
    refine (sat_moveBackward h' (by simp)).imp ?_
    rintro _ m' ⟨w, hw, hm'⟩
    have hp : m'.slot p = w := by simpa using hm' 0 w rfl
    refine sat_assignTo (elem_mem_seg_self.mpr (by omega))
      (fun hr => absurd (hp.symm.trans hr) hw) ?_
    simpa using hm'.set 0 (.full val)
  · simp only [insertBack, hc]
    exact sat_shift comp h' (by simp) ⟨first, by simp, by simpa using hc⟩

/-- Insertion sort stays inside its range and sorts it in place. -/
theorem sat_insertionSort {xs : List α} (hxs : xs ≠ []) (h : Has m p (xs.map .full)) :
    Sat (slots A α lax) (seg p xs.length) (insertionSort comp p xs.length) m fun _ m' =>
      Has m' p ((insertionSorted comp xs).map .full) := by
  obtain ⟨x, xs, rfl⟩ := List.exists_cons_of_ne_nil hxs
  rw [insertionSort, if_neg (by simp)]
  refine (sat_loop (fun i _ m => Has m p
    (((xs.take i).foldl (insertBack comp) [x] ++ xs.drop i).map .full))
    (by simpa using h) fun i hi _ m hm => ?_).imp fun _ m' hm' => ?_
  · obtain ⟨y, hy⟩ : ∃ y, xs[i]? = some y :=
      ⟨xs.get ⟨i, by simpa using hi⟩, List.getElem?_eq_getElem _⟩
    set pre := (xs.take i).foldl (insertBack comp) [x] with hpre
    have hlen : pre.length = i + 1 := by
      have := (insertionSorted_perm comp (x :: xs.take i)).length_eq
      rw [List.length_cons, List.length_take] at this
      simp only [List.length_cons, Nat.add_sub_cancel] at hi
      rw [hpre]
      exact this.trans (by omega)
    have hdrop : xs.drop i = y :: xs.drop (i + 1) := by
      rw [List.drop_eq_getElem?_toList_append, hy]
      rfl
    rw [hdrop, List.map_append, List.map_cons, ← List.singleton_append,
      ← List.append_assoc, has_append] at hm
    have hne : pre ≠ [] := fun h0 => by simp [h0] at hlen
    have hs := (@sat_insertionStep _ _ comp _ lax _ _ _ _ hne hm.1).frame
    rw [hlen] at hs
    refine hs.mono (seg_subset (p := p) (i := 0) ?_) ?_
    · simp only [List.length_cons, Nat.add_sub_cancel] at hi ⊢
      omega
    rintro _ m' ⟨hm', hf⟩
    have htake : (xs.take (i + 1)).foldl (insertBack comp) [x] = insertBack comp pre y := by
      rw [List.take_add_one, hy, Option.toList, List.foldl_append, ← hpre]
      rfl
    rw [htake, List.map_append, has_append]
    refine ⟨hm', ?_⟩
    have hlen' : (insertBack comp pre y).length = i + 1 + 1 := by
      rw [(insertBack_perm comp pre y).length_eq, List.length_cons, hlen]
    have := hm.2.frame hf fun j hj => by
      rw [Ptr.add_assoc, elem_add_mem_seg, List.length_append, List.length_map,
        List.length_singleton, hlen]
      omega
    simpa [hlen, hlen'] using this
  · simpa [insertionSorted] using hm'

/-- **Insertion sort sorts stably and stays inside its range**: when the comparator is a strict weak
order, it leaves the stable sort; and whatever the comparator answers, it comes to an end and leaves
a permutation. -/
theorem insertionSort_stable {xs : List α} (hxs : xs ≠ []) (h : Has m p (xs.map .full)) :
    (StrictWeak comp → ∃ ys, IsStableSort comp xs ys ∧ (∀ zs, IsStableSort comp xs zs → zs = ys) ∧
      Sat (slots A α lax) (seg p xs.length) (insertionSort comp p xs.length) m fun _ m' =>
      Has m' p (ys.map .full)) ∧
    ∃ ys : List α, ys.Perm xs ∧
      Sat (slots A α lax) (seg p xs.length) (insertionSort comp p xs.length) m fun _ m' =>
        Has m' p (ys.map .full) := by
  have hsat : Sat (slots A α lax) (seg p xs.length) (insertionSort comp p xs.length) m fun _ m' =>
      Has m' p ((insertionSorted comp xs).map .full) :=
    sat_insertionSort comp hxs h
  refine ⟨fun hc => ?_, insertionSorted comp xs, insertionSorted_perm comp xs, hsat⟩
  have hstable := insertionSorted_stable hc xs
  exact ⟨insertionSorted comp xs, hstable, fun zs hz => hz.unique hc hstable, hsat⟩

/-- Numbers of which only the tens are compared. -/
theorem insertionSort_stable_tens :
    ∃ ys, IsStableSort (fun a b => decide (a / 10 < b / 10)) [31, 12, 35, 10, 17] ys ∧
    (∀ zs, IsStableSort (fun a b => decide (a / 10 < b / 10)) [31, 12, 35, 10, 17] zs → zs = ys) ∧
      Sat (slots Unit ℕ false) (seg ⟨(), 0⟩ 5)
        (insertionSort (fun a b => decide (a / 10 < b / 10)) ⟨(), 0⟩ 5)
          (Mem.ofList ⟨(), 0⟩ [31, 12, 35, 10, 17] fun _ => 0) fun _ m' =>
          Has m' ⟨(), 0⟩ (ys.map .full) := by
  have hc : StrictWeak fun a b : ℕ => decide (a / 10 < b / 10) :=
    (StrictWeak.of_linearOrder ℕ).comap (· / 10)
  exact (insertionSort_stable (fun a b => decide (a / 10 < b / 10))
    (by decide) (has_ofList _ _ _)).1 hc

theorem sat_baseCaseSort {xs : List α} (h : Has m p (xs.map .full)) :
    Sat (slots A α lax) (seg p xs.length) (baseCaseSort comp p xs.length) m fun _ m' =>
      Has m' p ((insertionSorted comp xs).map .full) := by
  rw [baseCaseSort]
  split
  · next hn =>
    obtain rfl := List.length_eq_zero_iff.mp hn
    exact h
  · next hn => exact sat_insertionSort comp (fun h0 => hn (by simp [h0])) h

/-! ### The test for sorted input -/

theorem sat_isSorted {xs : List α} (h : Has m p (xs.map .full)) :
    Sat (slots A α lax) (seg p xs.length) (isSorted comp p xs.length) m fun b m' =>
      m' = m ∧ (b = true ↔ xs.IsChain fun a b => comp b a = false) := by
  induction xs generalizing p with
  | nil => simp [isSorted]
  | cons x xs ih =>
    cases xs with
    | nil => simp [isSorted]
    | cons y xs =>
      simp only [List.length_cons, isSorted]
      rw [sat_bind]
      refine sat_readAt (a := y) (elem_add_mem_seg.mpr (by omega)) (h 1 _ rfl) ?_
      rw [sat_bind]
      refine sat_readAt (a := x) (elem_mem_seg_self.mpr (by omega)) (by simpa using h 0 _ rfl) ?_
      by_cases hxy : comp y x = true
      · simp [hxy]
      · simp only [hxy, List.isChain_cons_cons, true_and]
        refine (ih (has_cons.mp h).2).mono (seg_subset (by simp; omega)) fun b m' hb => ?_
        simpa using hb

theorem sat_isReverseSorted {xs : List α} (h : Has m p (xs.map .full)) :
    Sat (slots A α lax) (seg p xs.length) (isReverseSorted comp p xs.length) m fun b m' =>
      m' = m ∧ (b = true ↔ xs.IsChain fun a b => comp a b = false) := by
  induction xs generalizing p with
  | nil => simp [isReverseSorted]
  | cons x xs ih =>
    cases xs with
    | nil => simp [isReverseSorted]
    | cons y xs =>
      simp only [List.length_cons, isReverseSorted]
      rw [sat_bind]
      refine sat_readAt (a := x) (elem_mem_seg_self.mpr (by omega)) (by simpa using h 0 _ rfl) ?_
      rw [sat_bind]
      refine sat_readAt (a := y) (elem_add_mem_seg.mpr (by omega)) (h 1 _ rfl) ?_
      by_cases hxy : comp x y = true
      · simp [hxy]
      · simp only [hxy, List.isChain_cons_cons, true_and]
        refine (ih (has_cons.mp h).2).mono (seg_subset (by simp; omega)) fun b m' hb => ?_
        simpa using hb

theorem sat_reverse {xs : List α} (h : Has m p (xs.map .full)) :
    Sat (slots A α lax) (seg p xs.length) (reverse p xs.length) m fun _ m' =>
      Has m' p (xs.reverse.map .full) := by
  -- after `i` rounds the first and the last `i` slots hold the mirrored elements
  let I (i : ℕ) (m : Mem A (Slot α)) : Prop := ∀ j (hj : j < xs.length),
    m.slot (p + j) = .full (if j < i ∨ xs.length - 1 - j < i then xs[xs.length - 1 - j] else xs[j])
  refine (sat_loop (fun i _ m => I i m) (fun j hj => ?_) fun i hi _ m hm => ?_).imp
    fun _ m' hm' => ?_
  · simp [h j (.full xs[j]) (by simp [hj])]
  · have hi' : i < xs.length ∧ xs.length - 1 - i < xs.length := by omega
    refine sat_swapAt (elem_add_mem_seg.mpr hi'.1) (elem_add_mem_seg.mpr hi'.2) (hm i hi'.1)
      (hm _ hi'.2) fun j hj => ?_
    simp only [Mem.set_slot, Function.update_apply, Ptr.add_inj]
    by_cases h₁ : j = xs.length - 1 - i
    · subst h₁
      have : xs.length - 1 - (xs.length - 1 - i) = i := by omega
      rw [if_pos rfl, if_neg (by omega), if_pos (by omega)]
      simp only [this]
    · rw [if_neg h₁]
      by_cases h₂ : j = i
      · subst h₂
        have : xs.length - 1 - (xs.length - 1 - j) = j := by omega
        rw [if_pos rfl, if_neg (by omega), if_pos (by omega)]
      · rw [if_neg h₂, hm j hj]
        congr 2
        simp only [eq_iff_iff]
        omega
  · intro j v hv
    rw [List.getElem?_map, Option.map_eq_some_iff] at hv
    obtain ⟨a, ha, rfl⟩ := hv
    obtain ⟨hj, ha⟩ := List.getElem?_eq_some_iff.mp ha
    rw [List.length_reverse] at hj
    rw [List.getElem_reverse] at ha
    rw [hm' j hj, ← ha]
    split
    · rfl
    · congr 2
      omega

/-- The last element is less than the first one, and no element is less than the one after it. -/
def Backward (comp : α → α → Bool) (xs : List α) : Prop :=
  (∃ first ∈ xs.head?, ∃ last ∈ xs.getLast?, comp last first = true) ∧
  xs.IsChain fun a b => comp a b = false

omit [DecidableEq A] in
/-- The last element of a sorted list is not less than the first one. -/
theorem Sorted.last_first (hc : StrictWeak comp) {xs : List α} (h : Sorted comp xs) {first last : α}
    (hfirst : first ∈ xs.head?) (hlast : last ∈ xs.getLast?) : comp last first = false := by
  obtain ⟨x, xs, rfl⟩ := List.exists_cons_of_ne_nil
    (List.ne_nil_of_mem (List.mem_of_mem_head? hfirst))
  obtain rfl : x = first := by simpa using hfirst
  rcases List.mem_cons.mp (List.mem_of_mem_getLast? hlast) with rfl | hmem
  · exact hc.irrefl _
  · exact (List.pairwise_cons.mp h).1 last hmem

/-- **The three cases** of the test for sorted input. -/
theorem sat_sortedCaseSort_cases (hc : StrictWeak comp) {xs : List α} (h : Has m p (xs.map .full)) :
    Sat (slots A α lax) (seg p xs.length) (sortedCaseSort comp p xs.length) m fun b m' =>
      b = true ∧ m' = m ∧ Sorted comp xs ∨
        b = true ∧ Has m' p (xs.reverse.map .full) ∧ Backward comp xs ∨
        b = false ∧ m' = m ∧ ¬ Sorted comp xs ∧ ¬ Backward comp xs := by
  have hle : IsTrans α fun a b => comp b a = false := ⟨fun _ _ _ => hc.le_trans⟩
  have hchain : (xs.IsChain fun a b => comp b a = false) ↔ Sorted comp xs :=
    List.isChain_iff_pairwise
  rw [sortedCaseSort]
  split
  · next hn =>
    obtain rfl := List.length_eq_zero_iff.mp hn
    exact .inl ⟨rfl, rfl, List.Pairwise.nil⟩
  · next hn =>
    have hlt : xs.length - 1 < xs.length := by omega
    have hfirst : xs[0] ∈ xs.head? := by simp [List.head?_eq_getElem?]
    have hlast : xs[xs.length - 1] ∈ xs.getLast? := by simp [List.getLast?_eq_getElem?, hlt]
    rw [sat_bind]
    refine sat_readAt (a := xs[xs.length - 1]) (elem_add_mem_seg.mpr hlt) (h _ _ (by simp [hlt])) ?_
    rw [sat_bind]
    refine sat_readAt (a := xs[0]) (elem_mem_seg_self.mpr (by omega))
      (by simpa using h 0 (.full xs[0]) (by simp [show 0 < xs.length by omega])) ?_
    split
    · next hcomp =>
      refine (sat_isSorted comp h).imp ?_
      rintro b m' ⟨rfl, hb⟩
      rw [hchain] at hb
      cases b with
      | true => exact .inl ⟨rfl, rfl, hb.mp rfl⟩
      | false =>
        refine .inr (.inr ⟨rfl, rfl, fun hs => Bool.false_ne_true (hb.mpr hs), ?_⟩)
        rintro ⟨⟨first, hf, last, hl, hless⟩, -⟩
        rw [Option.mem_unique hf hfirst, Option.mem_unique hl hlast] at hless
        simp [hless] at hcomp
    · next hcomp =>
      have hless : comp xs[xs.length - 1] xs[0] = true := by simpa using hcomp
      have hnot : ¬ Sorted comp xs := fun hs => by
        rw [Sorted.last_first comp hc hs hfirst hlast] at hless
        exact Bool.false_ne_true hless
      rw [sat_bind]
      refine (sat_isReverseSorted comp h).imp ?_
      rintro b m' ⟨rfl, hb⟩
      cases b with
      | false =>
        exact .inr (.inr ⟨rfl, rfl, hnot, fun hback => Bool.false_ne_true (hb.mpr hback.2)⟩)
      | true =>
        simp only [if_true]
        rw [sat_bind]
        exact (sat_reverse h).imp fun _ m' hm' =>
          .inr (.inl ⟨rfl, hm', ⟨_, hfirst, _, hlast, hless⟩, hb.mp rfl⟩)

omit [DecidableEq A] in
/-- A list that is sorted backwards is sorted when it is reversed. -/
theorem Backward.sorted_reverse (hc : StrictWeak comp) {xs : List α} (h : Backward comp xs) :
    Sorted comp xs.reverse := by
  have hge : IsTrans α fun a b => comp a b = false := ⟨fun _ _ _ h h' => hc.le_trans h' h⟩
  exact List.pairwise_reverse.mpr (List.isChain_iff_pairwise.mp h.2)

/-- What the test for sorted input says and does. -/
theorem sat_sortedCaseSort (hc : StrictWeak comp) {xs : List α} (h : Has m p (xs.map .full)) :
    Sat (slots A α lax) (seg p xs.length) (sortedCaseSort comp p xs.length) m fun b m' =>
      (b = true → ∃ ys, ys.Perm xs ∧ Sorted comp ys ∧ Has m' p (ys.map .full)) ∧
        (b = false → m' = m) := by
  refine (sat_sortedCaseSort_cases comp hc h).imp ?_
  rintro b m' (⟨rfl, rfl, hs⟩ | ⟨rfl, hm', hs⟩ | ⟨rfl, rfl, -⟩)
  · exact ⟨fun _ => ⟨xs, List.Perm.refl _, hs, h⟩, nofun⟩
  · exact ⟨fun _ => ⟨xs.reverse, List.reverse_perm xs, hs.sorted_reverse comp hc, hm'⟩, nofun⟩
  · exact ⟨nofun, fun _ => rfl⟩

/-- **When the test for sorted input says so**, and that it can be trusted then. -/
theorem sortedCaseSort_trusted (hc : StrictWeak comp) {xs : List α} (h : Has m p (xs.map .full)) :
    Sat (slots A α lax) (seg p xs.length) (sortedCaseSort comp p xs.length) m fun b m' =>
      (b = true ↔ Sorted comp xs ∨ Backward comp xs) ∧
        (b = true → ∃ ys, ys.Perm xs ∧ Sorted comp ys ∧ Has m' p (ys.map .full)) ∧
        (b = false → m' = m) := by
  refine (sat_sortedCaseSort_cases comp hc h).imp ?_
  rintro b m' (⟨rfl, rfl, hs⟩ | ⟨rfl, hm', hs⟩ | ⟨rfl, rfl, hs, hb⟩)
  · exact ⟨⟨fun _ => .inl hs, fun _ => rfl⟩, fun _ => ⟨xs, List.Perm.refl _, hs, h⟩, nofun⟩
  · exact ⟨⟨fun _ => .inr hs, fun _ => rfl⟩,
      fun _ => ⟨xs.reverse, List.reverse_perm xs, hs.sorted_reverse comp hc, hm'⟩, nofun⟩
  · exact ⟨⟨nofun, fun hor => (hor.elim hs hb).elim⟩, nofun, fun _ => rfl⟩

end

/-- Four numbers, two of them equal, that are sorted backwards. -/
theorem sortedCaseSort_trusted_backward :
    Backward (fun a b => decide (a < b)) [3, 2, 2, 1] ∧
      Sat (slots Unit ℕ false) (seg ⟨(), 0⟩ 4)
        (sortedCaseSort (fun a b => decide (a < b)) ⟨(), 0⟩ 4)
          (Mem.ofList ⟨(), 0⟩ [3, 2, 2, 1] fun _ => 0) fun b m' =>
        (b = true ↔ Sorted (fun a b => decide (a < b)) [3, 2, 2, 1] ∨
          Backward (fun a b => decide (a < b)) [3, 2, 2, 1]) ∧
          (b = true → ∃ ys, ys.Perm [3, 2, 2, 1] ∧ Sorted (fun a b => decide (a < b)) ys ∧
            Has m' ⟨(), 0⟩ (ys.map .full)) ∧
          (b = false → m' = Mem.ofList ⟨(), 0⟩ [3, 2, 2, 1] fun _ => 0) :=
  ⟨⟨⟨3, rfl, 1, rfl, rfl⟩, by simp⟩,
    sortedCaseSort_trusted _ (StrictWeak.of_linearOrder ℕ) (has_ofList _ [3, 2, 2, 1] _)⟩

end Ps4o
