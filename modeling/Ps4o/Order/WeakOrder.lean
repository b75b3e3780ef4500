import Mathlib.Data.List.Perm.Basic
import Mathlib.Order.Defs.LinearOrder
import Mathlib.Order.Defs.Unbundled
import Mathlib.Order.Lattice

/-!
# Sorting by a comparator

A comparator is a function to `Bool`; sorting by it makes sense when it is a strict
weak order. This module derives the order on classes of equivalent elements that such
a comparator gives, and what it means for a list to be sorted by it.

## What is proved

* `Sorted.eq_of_filter` — **there is one stable sort**: lists that are sorted, and have equivalent
  elements in the same order, are the same.
-/

namespace Ps4o.Order

variable {α : Type} {comp : α → α → Bool}

/-- The comparator is a strict weak order. -/
abbrev StrictWeak (comp : α → α → Bool) : Prop := IsStrictWeakOrder α fun a b => comp a b = true

/-- No later element is less than an earlier one. -/
def Sorted (comp : α → α → Bool) (xs : List α) : Prop := xs.Pairwise fun a b => comp b a = false

/-- Comparing by a linear order. -/
theorem StrictWeak.of_linearOrder (α : Type) [LinearOrder α] :
    StrictWeak fun a b : α => decide (a < b) where
  irrefl a := by simp
  trans a b c := by simpa using lt_trans
  incomp_trans a b c := by
    simp only [decide_eq_true_eq, not_lt]
    rintro ⟨h₁, h₂⟩ ⟨h₃, h₄⟩
    exact ⟨le_trans h₃ h₁, le_trans h₂ h₄⟩

namespace StrictWeak

variable (hc : StrictWeak comp)
include hc

theorem irrefl (a : α) : comp a a = false := by
  by_contra h
  exact Std.Irrefl.irrefl (r := fun a b => comp a b = true) a (by simpa using h)

theorem lt_trans {a b c : α} (hab : comp a b = true) (hbc : comp b c = true) : comp a c = true :=
  IsTrans.trans (r := fun a b => comp a b = true) a b c hab hbc

theorem asymm {a b : α} (h : comp a b = true) : comp b a = false := by
  by_contra hba
  have := hc.lt_trans h (by simpa using hba)
  rw [hc.irrefl] at this
  cases this

/-- "Not less" is transitive. -/
theorem le_trans {a b c : α} (hab : comp b a = false) (hbc : comp c b = false) :
    comp c a = false := by
  by_contra hca
  have hca : comp c a = true := by simpa using hca
  have hab' : comp a b = false := by
    by_contra h
    rw [hc.lt_trans hca (by simpa using h)] at hbc
    cases hbc
  have hbc' : comp b c = false := by
    by_contra h
    rw [hc.lt_trans (by simpa using h) hca] at hab
    cases hab
  have := (hc.incomp_trans a b c ⟨by simp [hab'], by simp [hab]⟩ ⟨by simp [hbc'], by simp [hbc]⟩).2
  simp [hca] at this

theorem lt_of_le_of_lt {a b c : α} (hab : comp b a = false) (hbc : comp b c = true) :
    comp a c = true := by
  by_contra hac
  rw [hc.le_trans (show comp a c = false by simpa using hac) hab] at hbc
  cases hbc

theorem lt_of_lt_of_le {a b c : α} (hab : comp a b = true) (hbc : comp c b = false) :
    comp a c = true := by
  by_contra hac
  rw [hc.le_trans hbc (show comp a c = false by simpa using hac)] at hab
  cases hab

/-- Comparing keys. -/
theorem comap {β : Type} (f : β → α) : StrictWeak fun a b : β => comp (f a) (f b) where
  irrefl a := Bool.eq_false_iff.mp (hc.irrefl (f a))
  trans _ _ _ := hc.lt_trans
  incomp_trans a b c := hc.incomp_trans (f a) (f b) (f c)

end StrictWeak

/-! ### Stable sorting -/

/-- Neither of two elements is less than the other one. -/
def tied (comp : α → α → Bool) (a b : α) : Bool := !comp a b && !comp b a

/-- `ys` are the elements of `xs`, sorted, with those that are equivalent in the same order. -/
structure IsStableSort (comp : α → α → Bool) (xs ys : List α) : Prop where
  sorted : Sorted comp ys
  perm : ys.Perm xs
  stable : ∀ a, ys.filter (tied comp a) = xs.filter (tied comp a)

section
variable (hc : StrictWeak comp) {a b : α} {xs ys zs : List α}

theorem tied_iff : tied comp a b = true ↔ comp a b = false ∧ comp b a = false := by
  rw [tied, Bool.and_eq_true, Bool.not_eq_true', Bool.not_eq_true']

include hc

theorem StrictWeak.tied_self (a : α) : tied comp a a = true :=
  tied_iff.mpr ⟨hc.irrefl a, hc.irrefl a⟩

/-- The elements of a class are found with any of them. -/
theorem StrictWeak.tied_of_tied {c : α} (hab : tied comp a b = true) (hac : tied comp a c = true) :
    tied comp b c = true := by
  obtain ⟨hab, hba⟩ := tied_iff.mp hab
  obtain ⟨hac, hca⟩ := tied_iff.mp hac
  exact tied_iff.mpr ⟨hc.le_trans hac hba, hc.le_trans hab hca⟩

/-- Sorted lists are the same when they have the same elements of each class, in the same order. -/
theorem Sorted.eq_of_filter (hy : Sorted comp ys) (hz : Sorted comp zs)
    (h : ∀ a, ys.filter (tied comp a) = zs.filter (tied comp a)) : ys = zs := by
  -- an element of one list is in the other one
  have hmem : ∀ {us vs : List α}, (∀ a, us.filter (tied comp a) = vs.filter (tied comp a)) →
      ∀ a ∈ us, a ∈ vs := by
    intro us vs huv a ha
    have hin : a ∈ us.filter (tied comp a) := List.mem_filter.mpr ⟨ha, hc.tied_self a⟩
    rw [huv a] at hin
    exact (List.mem_filter.mp hin).1
  induction ys generalizing zs with
  | nil =>
    cases zs with
    | nil => rfl
    | cons z zs => exact absurd (hmem (fun a => (h a).symm) z List.mem_cons_self) List.not_mem_nil
  | cons y ys ih =>
    cases zs with
    | nil => exact absurd (hmem h y List.mem_cons_self) List.not_mem_nil
    | cons z zs =>
      obtain ⟨hy₁, hy₂⟩ := List.pairwise_cons.mp hy
      obtain ⟨hz₁, hz₂⟩ := List.pairwise_cons.mp hz
      have hyz : comp y z = false := by
        rcases List.mem_cons.mp (hmem h y List.mem_cons_self) with rfl | hin
        · exact hc.irrefl y
        · exact hz₁ y hin
      have hzy : comp z y = false := by
        rcases List.mem_cons.mp (hmem (fun a => (h a).symm) z List.mem_cons_self) with rfl | hin
        · exact hc.irrefl z
        · exact hy₁ z hin
      -- the first elements are the first ones of the same class
      have hhead := h y
      rw [List.filter_cons_of_pos (hc.tied_self y),
        List.filter_cons_of_pos (tied_iff.mpr ⟨hyz, hzy⟩)] at hhead
      obtain rfl : y = z := (List.cons.inj hhead).1
      have htail : ys = zs := by
        refine ih hy₂ hz₂ fun a => ?_
        have ha := h a
        rw [List.filter_cons, List.filter_cons] at ha
        split at ha
        · exact (List.cons.inj ha).2
        · exact ha
      rw [htail]

/-- **There is one stable sort.** -/
theorem IsStableSort.unique (hy : IsStableSort comp xs ys) (hz : IsStableSort comp xs zs) :
    ys = zs :=
  hy.sorted.eq_of_filter hc hz.sorted fun a => (hy.stable a).trans (hz.stable a).symm

end

end Ps4o.Order
