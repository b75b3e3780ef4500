import Mathlib.Data.Multiset.AddSub
import Mathlib.Data.List.Range
import Ps4o.Order.WeakOrder

/-!
# Work on an array

An array is sorted in tasks. Each of them has an interval of positions whose elements are yet to be
sorted, and is divided into smaller tasks when some of the work has been done.

## What is proved

* `Conserved` says that every position is finished or the business of one task, that no element is
  lost, and that elements which are not the business of the same task are in order.
* `Conserved.divide` — dividing a task keeps it.
* `Conserved.sorted` — without tasks, everything is sorted.
-/

namespace Ps4o.Order.Work

variable {τ α : Type} (lo hi : τ → ℕ) (comp : α → α → Bool)

/-- A position lies in the interval of a task. -/
def Covers (x : ℕ) (t : τ) : Prop := lo t ≤ x ∧ x < hi t

instance (x : ℕ) (t : τ) : Decidable (Covers lo hi x t) := inferInstanceAs (Decidable (_ ∧ _))

/-- What holds of the work on `n` elements, which were `xs` in the beginning and are `cur` now. -/
structure Conserved (n : ℕ) (xs : List α) (finished : ℕ → Bool) (tasks : Multiset τ) (cur : ℕ → α) :
    Prop where
  /-- A task is about positions of the array. -/
  bounded : ∀ t ∈ tasks, lo t ≤ hi t ∧ hi t ≤ n
  /-- Every position is finished, or lies in the interval of one task. -/
  once : ∀ x < n, (finished x).toNat + tasks.countP (Covers lo hi x) = 1
  /-- No element is lost. -/
  perm : ((List.range n).map cur).Perm xs
  /-- Elements that are not left to the same task are in order. -/
  ordered : ∀ x y, x < y → y < n → (∀ t ∈ tasks, ¬ (lo t ≤ x ∧ y < hi t)) →
    comp (cur y) (cur x) = false

/-- A task has been divided into parts. -/
structure Divided (t : τ) (finished finished' : ℕ → Bool) (parts : Multiset τ) (cur cur' : ℕ → α) :
    Prop where
  /-- Everything else is as it was. -/
  frame : ∀ x, ¬ Covers lo hi x t → cur' x = cur x ∧ finished' x = finished x
  /-- The parts lie in the interval of the task. -/
  inside : ∀ u ∈ parts, lo t ≤ lo u ∧ lo u ≤ hi u ∧ hi u ≤ hi t
  /-- Every position of the interval is finished, or lies in the interval of one part. -/
  once : ∀ x, Covers lo hi x t → (finished' x).toNat + parts.countP (Covers lo hi x) = 1
  /-- No element is lost. -/
  perm : ((List.range (hi t - lo t)).map fun i => cur' (lo t + i)).Perm
    ((List.range (hi t - lo t)).map fun i => cur (lo t + i))
  /-- Elements that are not left to the same part are in order. -/
  ordered : ∀ x y, lo t ≤ x → x < y → y < hi t → (∀ u ∈ parts, ¬ (lo u ≤ x ∧ y < hi u)) →
    comp (cur' y) (cur' x) = false

section
variable {lo hi comp} {n : ℕ} {xs : List α} {finished finished' : ℕ → Bool}
  {tasks parts : Multiset τ} {t : τ} {cur cur' : ℕ → α}

/-- Positions before, in, and behind an interval. -/
theorem map_range_split (f : ℕ → α) {a b : ℕ} (hab : a ≤ b) (hb : b ≤ n) :
    (List.range n).map f = (List.range a).map f ++ ((List.range (b - a)).map fun i => f (a + i)) ++
      (List.range (n - b)).map fun i => f (b + i) := by
  have h₁ : List.range b = List.range a ++ (List.range (b - a)).map (a + ·) := by
    rw [← List.range_add, Nat.add_sub_of_le hab]
  have h₂ : List.range n = List.range b ++ (List.range (n - b)).map (b + ·) := by
    rw [← List.range_add, Nat.add_sub_of_le hb]
  rw [h₂, h₁]
  simp only [List.map_append, List.map_map]
  rfl

/-- An element of a divided task is one that was there before. -/
theorem Divided.exists_eq (h : Divided lo hi comp t finished finished' parts cur cur') {x : ℕ}
    (hx : Covers lo hi x t) : ∃ z, Covers lo hi z t ∧ cur z = cur' x := by
  have hmem : cur' x ∈ (List.range (hi t - lo t)).map fun i => cur' (lo t + i) :=
    List.mem_map.mpr ⟨x - lo t, List.mem_range.mpr (by have := hx.1; have := hx.2; omega),
      by rw [Nat.add_sub_of_le hx.1]⟩
  obtain ⟨i, hi, heq⟩ := List.mem_map.mp (h.perm.mem_iff.mp hmem)
  exact ⟨lo t + i, ⟨Nat.le_add_right _ _, by have := List.mem_range.mp hi; omega⟩, heq⟩

/-- No other task covers a position of a task. -/
theorem Conserved.not_covers (h : Conserved lo hi comp n xs finished (t ::ₘ tasks) cur) {x : ℕ}
    (hx : Covers lo hi x t) {u : τ} (hu : u ∈ tasks) : ¬ Covers lo hi x u := by
  intro hxu
  have hn := (h.bounded t (Multiset.mem_cons_self t tasks)).2
  have honce := h.once x (by have := hx.2; omega)
  rw [Multiset.countP_cons_of_pos _ hx] at honce
  have := Multiset.countP_pos.mpr ⟨u, hu, hxu⟩
  omega

/-- **Dividing a task conserves the work.** -/
theorem Conserved.divide (h : Conserved lo hi comp n xs finished (t ::ₘ tasks) cur)
    (hd : Divided lo hi comp t finished finished' parts cur cur') :
    Conserved lo hi comp n xs finished' (parts + tasks) cur' := by
  obtain ⟨hle, hn⟩ := h.bounded t (Multiset.mem_cons_self t tasks)
  refine ⟨fun u hu => ?_, fun x hx => ?_, ?_, fun x y hxy hy hu => ?_⟩
  · rcases Multiset.mem_add.mp hu with hu | hu
    · have := hd.inside u hu
      omega
    · exact h.bounded u (Multiset.mem_cons_of_mem hu)
  · rw [Multiset.countP_add]
    by_cases hxt : Covers lo hi x t
    · have hnone : tasks.countP (Covers lo hi x) = 0 :=
        Multiset.countP_eq_zero.mpr fun u hu => h.not_covers hxt hu
      rw [hnone, Nat.add_zero]
      exact hd.once x hxt
    · have hnone : parts.countP (Covers lo hi x) = 0 :=
        Multiset.countP_eq_zero.mpr fun u hu hxu => hxt (by
        have := hd.inside u hu
        exact ⟨this.1.trans hxu.1, hxu.2.trans_le this.2.2⟩)
      have honce := h.once x hx
      rw [Multiset.countP_cons_of_neg _ hxt] at honce
      rw [hnone, Nat.zero_add, (hd.frame x hxt).2, honce]
  · refine List.Perm.trans ?_ h.perm
    rw [map_range_split cur' hle hn, map_range_split cur hle hn]
    have hframe : ∀ x, x < lo t ∨ hi t ≤ x → cur' x = cur x := fun x hx =>
      (hd.frame x fun hxt => by have := hxt.1; have := hxt.2; omega).1
    refine List.Perm.append (List.Perm.append ?_ hd.perm) ?_
    · exact .of_eq (List.map_congr_left fun x hx => hframe x (.inl (List.mem_range.mp hx)))
    · exact .of_eq (List.map_congr_left fun x _ => hframe _ (.inr (Nat.le_add_right _ _)))
  · have hparts : ∀ u ∈ parts, ¬ (lo u ≤ x ∧ y < hi u) :=
      fun u h' => hu u (Multiset.mem_add.mpr (.inl h'))
    have htasks : ∀ u ∈ tasks, ¬ (lo u ≤ x ∧ y < hi u) :=
      fun u h' => hu u (Multiset.mem_add.mpr (.inr h'))
    by_cases hxt : Covers lo hi x t
    · by_cases hyt : Covers lo hi y t
      · exact hd.ordered x y hxt.1 hxy hyt.2 hparts
      · -- the first one has come from a position of the task
        obtain ⟨z, hz, hzx⟩ := hd.exists_eq hxt
        have hty : hi t ≤ y := by
          by_contra hlt
          exact hyt ⟨hxt.1.trans hxy.le, Nat.lt_of_not_le hlt⟩
        rw [← hzx, (hd.frame y hyt).1]
        refine h.ordered z y (hz.2.trans_le hty) hy fun u hu => ?_
        rcases Multiset.mem_cons.mp hu with rfl | hu
        · omega
        · exact fun hzy => h.not_covers hz hu ⟨hzy.1, (hz.2.trans_le hty).trans hzy.2⟩
    · by_cases hyt : Covers lo hi y t
      · obtain ⟨z, hz, hzy⟩ := hd.exists_eq hyt
        have hxt' : x < lo t := by
          by_contra hge
          exact hxt ⟨Nat.le_of_not_lt hge, hxy.trans hyt.2⟩
        rw [← hzy, (hd.frame x hxt).1]
        refine h.ordered x z (hxt'.trans_le hz.1) (hz.2.trans_le hn) fun u hu => ?_
        rcases Multiset.mem_cons.mp hu with rfl | hu
        · omega
        · exact fun hxz => h.not_covers hz hu ⟨(hxz.1.trans hxt'.le).trans hz.1, hxz.2⟩
      · rw [(hd.frame x hxt).1, (hd.frame y hyt).1]
        refine h.ordered x y hxy hy fun u hu => ?_
        rcases Multiset.mem_cons.mp hu with rfl | hu
        · exact fun hxu => hxt ⟨hxu.1, hxy.trans hxu.2⟩
        · exact htasks u hu

/-- **When there is nothing left to do, everything is sorted.** -/
theorem Conserved.sorted (h : Conserved lo hi comp n xs finished 0 cur) :
    Sorted comp ((List.range n).map cur) := by
  rw [Sorted, List.pairwise_map]
  refine (List.pairwise_lt_range).imp_of_mem fun {x y} _ hy hxy => ?_
  exact h.ordered x y hxy (List.mem_range.mp hy) fun t ht => absurd ht (Multiset.notMem_zero t)

end

end Ps4o.Order.Work
