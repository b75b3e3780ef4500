import Ps4o.Conservation

/-!
# Tasks under way

An array is sorted in tasks, several of which may be under way at the same time: each of them is
partitioned, step by step, in its own part of the arrays. Others are at rest, with their elements
where they say.

## The model

What is known of a task under way is a predicate that does not depend on other parts of the arrays;
it may be that a program, or a team of programs, ends with the task partitioned. It refers to the
elements that the task had in the beginning.

## What is proved

* `Account` says that the work is conserved, with the elements that tasks under way had in the
  beginning. It is kept when a task is begun (`Account.start`), by a step of a task under way
  (`Account.step`), and when one has been divided (`Account.finish`).
* `Account.sorted` — **when there are no tasks left, the array is sorted**.
-/

namespace Ps4o

open Ps4o.Program Ps4o.Storage Ps4o.Order Ps4o.Order.Work

variable {A α ι : Type} [DecidableEq A]

/-- A task under way. -/
structure UnderWay (begin tmp : Ptr A) (oracle : ℕ) (α : Type) where
  /-- The task. -/
  task : Task
  /-- What is known of it, when these were its elements. -/
  ok : List α → Mem A α → Prop
  /-- What is elsewhere does not matter. -/
  env : ∀ xs m m', (copies A α).AgreeOn (task.region begin tmp oracle) m m' → ok xs m → ok xs m'

section
variable (comp : α → α → Bool) (cfg : Config) (begin tmp : Ptr A) (oracle n : ℕ) (xs : List α)

/-- The tasks under way. -/
def tasksOf [Fintype ι] (running : ι → Option (UnderWay begin tmp oracle α)) : Multiset Task :=
  ∑ i, (running i).elim 0 fun w => {w.task}

/-- What is known of all tasks, of the elements, which were `xs` in the beginning, and of the
memory. -/
structure Account [Fintype ι] (resting : Multiset Task)
    (running : ι → Option (UnderWay begin tmp oracle α)) (m : Mem A α) (finished : ℕ → Bool)
    (cur : ℕ → α) : Prop where
  conserved : Conserved Task.begin Task.stop comp n xs finished
    (resting + tasksOf begin tmp oracle running) cur
  large : ∀ task ∈ resting + tasksOf begin tmp oracle running, 2 * cfg.kBaseCaseSize <
    task.stop - task.begin
  done : ∀ x < n, finished x = true → m.slot (begin + x) = cur x
  inPlace : ∀ task ∈ resting, task.InPlace begin tmp cur m
  ok : ∀ i w, running i = some w → w.ok (w.task.elems cur) m

end

section
variable {comp : α → α → Bool} {cfg : Config} {begin tmp : Ptr A} {oracle n : ℕ} {xs : List α}

/-- Tasks of which none has a position of the other. -/
theorem apart_of_not_covers {t u : Task} (ht : t.begin < t.stop) (hu : u.begin < u.stop)
    (h : ∀ x, Covers Task.begin Task.stop x t → ¬ Covers Task.begin Task.stop x u) :
    t.stop ≤ u.begin ∨ u.stop ≤ t.begin := by
  by_contra hno
  obtain ⟨h₁, h₂⟩ := not_or.mp hno
  exact h (max t.begin u.begin) ⟨le_max_left _ _, by omega⟩ ⟨le_max_right _ _, by omega⟩

omit [DecidableEq A] in
theorem Task.source_mem_region {task : Task} {x : ℕ} (hx : Covers Task.begin Task.stop x task) :
    (.elem (task.source begin tmp + x) : Loc A) ∈ task.region begin tmp oracle := by
  obtain ⟨h₁, h₂⟩ := hx
  rw [Task.region, Task.source, elem_mem_workspace, elem_mem_seg, elem_mem_seg]
  split_ifs
  · exact .inl ⟨rfl, by simp only [Ptr.add_off]; omega, by simp only [Ptr.add_off]; omega⟩
  · exact .inr ⟨rfl, by simp only [Ptr.add_off]; omega, by simp only [Ptr.add_off]; omega⟩

/-- What is elsewhere does not matter for a task at rest. -/
theorem Task.InPlace.agree {task : Task} {cur : ℕ → α} {m m' : Mem A α}
    (h : task.InPlace begin tmp cur m)
    (hm : (copies A α).AgreeOn (task.region begin tmp oracle) m m') :
    task.InPlace begin tmp cur m' :=
  fun x hx => (hm _ (Task.source_mem_region hx)).symm.trans (h x hx)

variable [Fintype ι] [DecidableEq ι] {resting parts : Multiset Task}
  {running : ι → Option (UnderWay begin tmp oracle α)} {m m' : Mem A α}
  {finished finished' : ℕ → Bool} {cur cur' : ℕ → α} {i : ι} {w w' : UnderWay begin tmp oracle α}
  {task : Task}

/-- The tasks under way, but one. -/
theorem tasksOf_eq (hi : running i = some w) :
    tasksOf begin tmp oracle running = w.task ::ₘ tasksOf begin tmp oracle
      (Function.update running i none) := by
  have h := sum_update running (fun r : Option (UnderWay begin tmp oracle α) => r.elim 0 fun w =>
    ({w.task} : Multiset Task)) i none
  rw [hi] at h
  simp only [Option.elim_some, Option.elim_none, add_zero] at h
  rw [tasksOf, tasksOf, ← h, add_comm, Multiset.singleton_add]

theorem tasksOf_update (hi : running i = none) :
    tasksOf begin tmp oracle (Function.update running i (some w)) =
      w.task ::ₘ tasksOf begin tmp oracle running := by
  rw [tasksOf_eq (i := i) (w := w) (Function.update_self _ _ _), Function.update_idem,
    ← hi, Function.update_eq_self]

theorem mem_tasksOf (hi : running i = some w) : w.task ∈ tasksOf begin tmp oracle running := by
  rw [tasksOf_eq hi]
  exact Multiset.mem_cons_self _ _

/-- What others have while a task is under way. -/
theorem Account.agree (h : Account comp cfg begin tmp oracle n xs resting running m finished cur)
    (harr : begin.arr ≠ tmp.arr) (hi : running i = some w)
    (hm : (copies A α).AgreeOn (w.task.region begin tmp oracle)ᶜ m m') :
    (∀ x < n, finished x = true → m'.slot (begin + x) = m.slot (begin + x)) ∧
      (∀ u ∈ resting, (copies A α).AgreeOn (u.region begin tmp oracle) m m') ∧
      ∀ j v, j ≠ i → running j = some v →
      (copies A α).AgreeOn (v.task.region begin tmp oracle) m m' := by
  have hsplit : resting + tasksOf begin tmp oracle running =
      w.task ::ₘ (resting + tasksOf begin tmp oracle (Function.update running i none)) := by
    rw [tasksOf_eq hi, Multiset.add_cons]
  have hcons := h.conserved
  have hlarge := h.large
  rw [hsplit] at hcons hlarge
  have hw := hlarge w.task (Multiset.mem_cons_self _ _)
  have hother : ∀ u ∈ resting + tasksOf begin tmp oracle (Function.update running i none),
      (copies A α).AgreeOn (u.region begin tmp oracle) m m' := fun u hu => by
    have hlu := hlarge u (Multiset.mem_cons_of_mem hu)
    have hapart := apart_of_not_covers (by omega) (by omega) fun x hx => hcons.not_covers hx hu
    exact hm.subset fun l hl hl' => region_disjoint harr hapart l hl' hl
  refine ⟨fun x hx hfin => ?_, fun u hu => hother u (Multiset.mem_add.mpr (.inl hu)),
      fun j v hj hv =>
    hother _ (Multiset.mem_add.mpr (.inr (mem_tasksOf (i := j) ?_)))⟩
  · refine (hm (.elem (begin + x)) fun hmem => ?_).symm
    have honce := hcons.once x hx
    have hcovers : Covers Task.begin Task.stop x w.task := by
      rw [Task.region, elem_mem_workspace, elem_mem_seg, elem_mem_seg] at hmem
      rcases hmem with ⟨-, h₁, h₂⟩ | ⟨harr', -⟩
      · simp only [Ptr.add_off] at h₁ h₂
        exact ⟨by omega, by omega⟩
      · exact absurd harr' harr
    rw [Multiset.countP_cons_of_pos _ hcovers, hfin, Bool.toNat_true] at honce
    omega
  · rw [Function.update_of_ne hj]
    exact hv

/-- **A step of a task under way.** -/
theorem Account.step (h : Account comp cfg begin tmp oracle n xs resting running m finished cur)
    (harr : begin.arr ≠ tmp.arr) (hi : running i = some w)
    (hm : (copies A α).AgreeOn (w.task.region begin tmp oracle)ᶜ m m') (hw : w'.task = w.task)
    (hok : w'.ok (w.task.elems cur) m') :
    Account comp cfg begin tmp oracle n xs resting
      (Function.update running i (some w')) m' finished cur := by
  obtain ⟨hdone, hrest, hrun⟩ := h.agree harr hi hm
  have htasks : tasksOf begin tmp oracle (Function.update running i (some w')) =
      tasksOf begin tmp oracle running := by
    rw [tasksOf_eq (Function.update_self i (some w') running), tasksOf_eq hi,
      Function.update_idem, hw]
  refine ⟨htasks ▸ h.conserved, htasks ▸ h.large,
    fun x hx hfin => (hdone x hx hfin).trans (h.done x hx hfin),
    fun u hu => (h.inPlace u hu).agree (hrest u hu), fun j v hj => ?_⟩
  by_cases hji : j = i
  · subst hji
    rw [Function.update_self] at hj
    obtain rfl := Option.some.inj hj
    rw [hw]
    exact hok
  · rw [Function.update_of_ne hji] at hj
    exact v.env _ _ _ (hrun j v hji hj) (h.ok j v hj)

/-- **A task is begun.** -/
theorem Account.start
    (h : Account comp cfg begin tmp oracle n xs (task ::ₘ resting) running m finished cur)
    (hi : running i = none) (hw : w.task = task) (hok : w.ok (task.elems cur) m) :
    Account comp cfg begin tmp oracle n xs resting
      (Function.update running i (some w)) m finished cur := by
  have htasks : resting + tasksOf begin tmp oracle (Function.update running i (some w)) =
      (task ::ₘ resting) + tasksOf begin tmp oracle running := by
    rw [tasksOf_update hi, hw, Multiset.add_cons, Multiset.cons_add]
  refine ⟨htasks ▸ h.conserved, htasks ▸ h.large, h.done,
    fun u hu => h.inPlace u (Multiset.mem_cons_of_mem hu), fun j v hj => ?_⟩
  by_cases hji : j = i
  · subst hji
    rw [Function.update_self] at hj
    obtain rfl := Option.some.inj hj
    rw [hw]
    exact hok
  · rw [Function.update_of_ne hji] at hj
    exact h.ok j v hj

/-- **A task has been divided.** -/
theorem Account.finish {parts : List Task}
    (h : Account comp cfg begin tmp oracle n xs resting running m finished cur)
    (hi : running i = some w)
    (hd : w.task.DividedInto comp cfg begin tmp parts m cur cur' finished finished') :
    Account comp cfg begin tmp oracle n xs (parts + resting)
      (Function.update running i none) m finished' cur' := by
  have hsplit : resting + tasksOf begin tmp oracle running =
      w.task ::ₘ (resting + tasksOf begin tmp oracle (Function.update running i none)) := by
    rw [tasksOf_eq hi, Multiset.add_cons]
  have hcons := h.conserved
  have hlarge := h.large
  rw [hsplit] at hcons hlarge
  -- nothing has changed for the others
  have hsame : ∀ u ∈ resting + tasksOf begin tmp oracle (Function.update running i none), ∀ x,
      Covers Task.begin Task.stop x u → cur' x = cur x := fun u hu x hx =>
    (hd.divided.frame x fun hxw => hcons.not_covers hxw hu hx).1
  refine ⟨?_, fun u hu => ?_, fun x hx hfin => ?_, fun u hu x hx => ?_, fun j v hj => ?_⟩
  · rw [add_assoc]
    exact hcons.divide hd.divided
  · rw [add_assoc] at hu
    rcases Multiset.mem_add.mp hu with hu | hu
    · exact hd.large u (Multiset.mem_coe.mp hu)
    · exact hlarge u (Multiset.mem_cons_of_mem hu)
  · by_cases hxw : Covers Task.begin Task.stop x w.task
    · exact hd.done x hxw hfin
    · obtain ⟨hcur, hfin'⟩ := hd.divided.frame x hxw
      rw [hcur]
      exact h.done x hx (hfin'.symm.trans hfin)
  · rcases Multiset.mem_add.mp hu with hu | hu
    · exact hd.inPlace u (Multiset.mem_coe.mp hu) x hx
    · rw [hsame u (Multiset.mem_add.mpr (.inl hu)) x hx]
      exact h.inPlace u hu x hx
  · have hv := mem_tasksOf hj
    by_cases hji : j = i
    · subst hji
      rw [Function.update_self] at hj
      cases hj
    · rw [Function.update_of_ne hji] at hj
      rw [Task.elems_congr (hsame v.task (Multiset.mem_add.mpr (.inr hv)))]
      exact h.ok j v hj

/-- **A task has been partitioned.** -/
theorem Account.split {eq : Bool} {bss : ℕ → ℕ} {nb : ℕ}
    (h : Account comp cfg begin tmp oracle n xs resting running m finished cur)
    (hi : running i = some w)
    (hsplit : w.task.Split comp cfg begin tmp (w.task.elems cur) eq bss nb m) :
    Boundaries eq nb (w.task.stop - w.task.begin) bss ∧ ∃ finished' cur',
      Account comp cfg begin tmp oracle n xs (emplaced cfg w.task bss nb eq + resting)
        (Function.update running i none) m finished' cur' := by
  have hlarge := h.large _ (Multiset.mem_add.mpr (.inr (mem_tasksOf hi)))
  have hbounds := Partitioned.boundaries hsplit (by rw [Task.length_elems]; omega)
  rw [Task.length_elems] at hbounds
  obtain ⟨cur', finished', hd⟩ := hsplit.divided (by omega) finished
  exact ⟨hbounds, finished', cur', h.finish hi hd⟩

omit [DecidableEq ι] in
/-- **When there are no tasks left, the array is sorted.** -/
theorem Account.sorted (h : Account comp cfg begin tmp oracle n xs resting running m finished cur)
    (hrest : resting = 0) (hrun : ∀ i, running i = none) :
    ∃ ys : List α, ys.Perm xs ∧ Sorted comp ys ∧ Has m begin ys := by
  have hnone : resting + tasksOf begin tmp oracle running = 0 := by
    rw [hrest, zero_add]
    exact Finset.sum_eq_zero fun i _ => by rw [hrun i, Option.elim_none]
  have hcons := h.conserved
  rw [hnone] at hcons
  refine ⟨_, hcons.perm, hcons.sorted, fun i v hv => ?_⟩
  obtain ⟨hi, rfl⟩ := List.getElem?_eq_some_iff.mp hv
  rw [List.length_map, List.length_range] at hi
  simp only [List.getElem_map, List.getElem_range]
  refine h.done i hi ?_
  have honce := hcons.once i hi
  rw [Multiset.countP_zero, Nat.add_zero] at honce
  exact Bool.toNat_eq_one.mp honce

end

end Ps4o
