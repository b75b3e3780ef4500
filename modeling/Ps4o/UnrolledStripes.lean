import Ps4o.BigTasks
import Ps4o.ParallelClassification

/-!
# Stripes for the unrolled loop

The classification loop is unrolled, and declares it unreachable that there are fewer elements than
it has lanes (`classifier.hpp`). A stripe has as many elements as the number of threads leaves for
it: the whole range is divided among all threads, a big task among the threads of its group.

## What is proved

* `unrollable_iff` — all stripes that are not empty are long enough just when the width of a stripe
  is, and what is left for the last one.
* `unrollable_iff_sat` — this is when no thread comes to what is declared unreachable.
* `PartitionCall.spread` — what a big task has for each of its threads but one, however the elements
  fall into buckets.
* `PartitionCall.wideEnough` — **stripes are long enough when those of the whole range are wide**,
  compared with the number of threads.
-/

namespace Ps4o

open Ps4o.Program Ps4o.Storage Ps4o.Order Ps4o.Order.Stripes

variable {U n t : ℕ}

/-! ### One partition -/

/-- When `t` threads partition `n` elements, every stripe with elements has one for each of the `U`
lanes of the loop. -/
def Unrollable (U n t : ℕ) : Prop :=
  ∀ i < t, first n t i < first n t (i + 1) → U ≤ first n t (i + 1) - first n t i

/-- A stripe is wide enough, and what is left for the last one is nothing or enough. -/
def WideEnough (U n t : ℕ) : Prop := U ≤ width n t ∧ (n % width n t = 0 ∨ U ≤ n % width n t)

instance : Decidable (WideEnough U n t) := inferInstanceAs (Decidable (_ ∧ _))

/-- **When the stripes are long enough.** -/
theorem unrollable_iff (ht : 1 ≤ t) (hn : 0 < n) : Unrollable U n t ↔ WideEnough U n t := by
  have hw := width_pos ht hn
  have hwn := width_le ht hn
  constructor
  · intro h
    constructor
    · have h₁ : first n t 1 = width n t := by rw [first, Nat.one_mul, min_eq_left hwn]
      have := h 0 ht (by rw [first_zero, Nat.zero_add, h₁]; exact hw)
      rwa [first_zero, Nat.zero_add, h₁, Nat.sub_zero] at this
    · by_contra hrest
      obtain ⟨hrest, hshort⟩ := not_or.mp hrest
      obtain ⟨i, hi, hlen, hlt⟩ := exists_rest ht hrest
      exact hshort (hlen ▸ h i hi hlt)
  · rintro ⟨hwide, hrest⟩ i - hlt
    rw [length_stripe hlt]
    split_ifs with hfull
    · exact hwide
    · refine hrest.resolve_left fun h0 => ?_
      have hlen := length_stripe hlt
      rw [if_neg hfull, h0] at hlen
      omega

/-- Stripes that are wide compared with the number of threads leave enough for the last one. -/
theorem first_last_le {k m w : ℕ} (hk : 2 ≤ k) (hm : (k - 1) * w < m) (hw : 2 * U + k ≤ w) :
    U ≤ m - first m k (k - 1) := by
  obtain ⟨j, rfl⟩ : ∃ j, k = j + 1 := ⟨k - 1, by omega⟩
  rw [Nat.add_sub_cancel] at hm ⊢
  set W := width m (j + 1) with hW
  have hfirst : first m (j + 1) j ≤ j * W := min_le_left _ _
  have hdiv : W * (j + 1) ≤ m + j := Nat.div_mul_le_self _ _
  -- the first `j` stripes take little more than their part
  have hall : (j + 1) * (j * W) ≤ j * m + j * j := by
    rw [← Nat.mul_add, Nat.mul_left_comm, Nat.mul_comm (j + 1)]
    exact Nat.mul_le_mul_left j hdiv
  have hrest : (j + 1) * U + j * j ≤ m :=
    calc (j + 1) * U + j * j ≤ j * (2 * U) + j * (j + 1) := by
          refine Nat.add_le_add ?_ (Nat.mul_le_mul_left j (Nat.le_succ j))
          rw [← Nat.mul_assoc]
          exact Nat.mul_le_mul_right U (by omega)
      _ ≤ j * w := by
          rw [← Nat.mul_add]
          exact Nat.mul_le_mul_left j hw
      _ ≤ m := hm.le
  have hmul : (j + 1) * (U + j * W) ≤ (j + 1) * m := by
    rw [Nat.mul_add, Nat.succ_mul j m]
    omega
  have := Nat.le_of_mul_le_mul_left hmul (Nat.succ_pos j)
  omega

theorem wideEnough_of_lt {k m w : ℕ} (hk : 2 ≤ k) (hm : (k - 1) * w < m) (hw : 2 * U + k ≤ w) :
    WideEnough U m k := by
  have hpos : 0 < m := Nat.zero_lt_of_lt hm
  refine (unrollable_iff (by omega) hpos).mp fun i hi _ => le_trans ?_ (last_shortest (by omega) hi)
  exact first_last_le hk hm hw

/-! ### The code -/

section
variable {A α : Type} [DecidableEq A] {comp : α → α → Bool} {cfg : Config} {lax : Bool} {p : Ptr A}
  {c : Classifier α} {k : ℕ} {splitters xs : List α} {m : Mem A (Slot α)}

/-- **The stripes are long enough just when no thread comes to what the loop declares
unreachable.** -/
theorem unrollable_iff_sat (hc : StrictWeak comp) (hsorted : Sorted comp splitters)
    (h : c.Built k splitters) (eq : Bool) (hk : k ≤ 8) (hU : 1 ≤ cfg.kUnrollClassifier)
    (hm : Has m p (xs.map .full)) (oracle : ℕ) (row : ℕ → ℕ) (s : Sorter α) :
    Unrollable cfg.kUnrollClassifier xs.length t ↔ ∀ i < t,
      Sat (slots A α lax) (stripeRegion p oracle xs.length t i)
        (parallelClassification comp cfg eq (p + first xs.length t i)
          (first xs.length t (i + 1) - first xs.length t i) (oracle + first xs.length t i) c row s)
            m fun _ _ => True := by
  refine forall₂_congr fun i hi => ?_
  rcases Nat.lt_or_ge (first xs.length t i) (first xs.length t (i + 1)) with hlt | hge
  · rw [forall_prop_of_true hlt]
    constructor
    · intro hlen
      exact (sat_parallelClassification lax eq oracle hc hsorted h hk hU hm hlen row s).imp
        fun _ _ _ => trivial
    · intro hsat
      by_contra hshort
      rw [parallelClassification, classifyStripe, if_pos (by omega), classifyLocally,
        Classifier.classifyRange, h.log,
        if_pos ⟨h.log_pos, hk⟩, Classifier.classifyUnrolled, if_pos (.inr (by omega))] at hsat
      exact hsat
  · refine iff_of_true (fun hlt => absurd hlt (Nat.not_lt.mpr hge)) ?_
    rw [parallelClassification, classifyStripe, if_neg (by omega)]
    trivial

end

/-! ### Big tasks -/

namespace Groups

variable {cfg : Config} {g g' : Groups} {id : ℕ} {p : Parent} {q : Queued}

/-- A bucket that is queued: a part of the range that is not small. -/
structure Large (cfg : Config) (n : ℕ) (task : Task) : Prop where
  stop : task.stop ≤ n
  large : 2 * cfg.kBaseCaseSize < task.stop - task.begin

/-- Whatever is queued, or on the board, is large. -/
structure AllLarge (cfg : Config) (n : ℕ) (g : Groups) : Prop where
  board : ∀ x, (g.board.bigTasks x).hasTask = true →
    Large cfg n ⟨(g.board.bigTasks x).begin, (g.board.bigTasks x).stop,
      (g.board.bigTasks x).inInputArray⟩
  queueing : ∀ id p rest, g.queueing id = some (p, rest) → ∀ q ∈ rest, Large cfg n q.task

/-- The buckets of a part of the range. -/
theorem large_of_mem {stripe id k size offset : ℕ} {flag eq : Bool} {nb : ℕ} {bss : ℕ → ℕ}
    (h : BucketBounds eq nb size bss) (hsize : offset + size ≤ n)
    (hq : q ∈ queueTasks cfg stripe id k size flag offset bss nb eq) : Large cfg n q.task := by
  rw [queueTasks] at hq
  split_ifs at hq with hlast
  · cases hq
  obtain ⟨b, hb, rfl⟩ := List.mem_map.mp hq
  obtain ⟨hbnb, hlarge⟩ := h.lt_of_mem hb
  have hend : bss (b + 1) ≤ size := by
    rw [← h.last]
    exact h.mono hbnb le_rfl
  rw [queueTask_task]
  exact ⟨by dsimp only; omega, by dsimp only; omega⟩

theorem AllLarge.enter (h : AllLarge cfg n g) {stripe : ℕ} {eq : Bool} {nb : ℕ} {bss : ℕ → ℕ}
    (hb : BucketBounds eq nb (p.task.stop - p.task.begin) bss)
    (hsize : p.task.begin + (p.task.stop - p.task.begin) ≤ n) :
    AllLarge cfg n (g.enter cfg stripe p bss nb eq) := by
  refine ⟨fun x hx => ?_, fun id' p' rest' hq q hmem => ?_⟩
  · obtain ⟨hout, hx⟩ := hasTask_reset hx
    have hsame : (g.enter cfg stripe p bss nb eq).board.bigTasks x = g.board.bigTasks x :=
      bigTasks_reset hout
    rw [hsame]
    exact h.board x hx
  · rw [queueing_enter] at hq
    split_ifs at hq
    · obtain ⟨rfl, rfl⟩ := Prod.mk.inj (Option.some.inj hq)
      exact large_of_mem hb hsize hmem
    · exact h.queueing id' p' rest' hq q hmem

theorem AllLarge.put (h : AllLarge cfg n g) {rest : List Queued}
    (hq : g.queueing id = some (p, q :: rest)) : AllLarge cfg n (g.put id p q rest) := by
  refine ⟨fun x hx => ?_, fun id' p' rest' hq' q' hmem => ?_⟩
  · by_cases htakes : Takes q x
    · cases q with
      | small => exact htakes.elim
      | big a b task =>
        have hentry : (g.put id p (.big a b task) rest).board.bigTasks x =
          ⟨task.begin, task.stop, x - a, a, task.inInputArray, true⟩ := if_pos htakes
        rw [hentry]
        exact h.queueing id p _ hq _ List.mem_cons_self
    · have hsame : (g.put id p q rest).board.bigTasks x = g.board.bigTasks x := bigTasks_put htakes
      rw [hsame] at hx ⊢
      exact h.board x hx
  · rw [queueing_put] at hq'
    split_ifs at hq' with hid
    · obtain ⟨rfl, rfl⟩ := Prod.mk.inj (Option.some.inj hq')
      exact h.queueing id p _ hq q' (List.mem_cons_of_mem _ hmem)
    · exact h.queueing id' p' rest' hq' q' hmem

/-- **Every step leaves only large tasks.** -/
theorem AllLarge.step (h : AllLarge cfg n g) (hstep : Step cfg n t g g') : AllLarge cfg n g' := by
  cases hstep with
  | first hg hb =>
    have hstart : AllLarge cfg n { g with started := true } := ⟨h.board, h.queueing⟩
    split_ifs
    · exact hstart
    · exact hstart.enter hb (by dsimp only; omega)
  | @partitioned id _ _ _ hg hq hb =>
    have hlarge := h.board id hg.1
    have hstop : (g.board.bigTasks id).stop ≤ n := hlarge.stop
    have hsize : 2 * cfg.kBaseCaseSize < (g.board.bigTasks id).stop - (g.board.bigTasks id).begin :=
      hlarge.large
    exact h.enter hb (by dsimp only [taskOf]; omega)
  | put hq => exact h.put hq
  | leave hq =>
    refine ⟨h.board, fun id' p' rest' hq' => ?_⟩
    rw [Groups.leave] at hq'
    dsimp only at hq'
    rw [Function.update_apply] at hq'
    split_ifs at hq'
    exact h.queueing id' p' rest' hq'

theorem Reachable.allLarge (h : g.Reachable cfg n t) : AllLarge cfg n g := by
  obtain ⟨g₀, hstart, hrun⟩ := h
  induction hrun with
  | refl =>
    refine ⟨fun x hx => ?_, fun id p rest hq => ?_⟩
    · rw [hstart.noTask x] at hx
      cases hx
    · rw [hstart.queueing id] at hq
      cases hq
  | tail _ hstep ih => exact ih.step hstep

/-- Which big tasks there may be: large buckets, with as many threads as begin in them, of which
there have to be two. -/
theorem Reachable.task_of_outstanding (h : g.Reachable cfg n t) (ht : 1 ≤ t) {r : ℕ}
    (hr : g.Outstanding r) :
    (g.taskOf r).task.stop ≤ n ∧
      2 * cfg.kBaseCaseSize < (g.taskOf r).task.stop - (g.taskOf r).task.begin ∧
      (g.taskOf r).taskNumThreads =
        nearest (width n t) (g.taskOf r).task.stop - nearest (width n t) (g.taskOf r).task.begin ∧
      2 ≤ (g.taskOf r).taskNumThreads := by
  have hlarge := h.allLarge.board r hr.1
  obtain ⟨hgroup, -⟩ := (h.inv ht).grouped hr
  have hbegin := hgroup.begin
  have hstop := hgroup.stop
  exact ⟨hlarge.stop, hlarge.large, by dsimp only [taskOf]; omega, hgroup.two⟩

end Groups

/-! ### All partitions of a run -/

/-- When `t` threads sort `n` elements, they may partition `m` elements with `k` threads, whose loop
has `U` lanes: the whole range, as the user has configured it; or a big task, as the default is.
What a partition returns is arbitrary here, so there may be more big tasks than in runs of the
code. -/
inductive PartitionCall (cfg : Config) (n t : ℕ) : (U m k : ℕ) → Prop
  /-- The whole range. -/
  | whole : PartitionCall cfg n t cfg.kUnrollClassifier n t
  /-- A big task, in any run. -/
  | task {g : Groups} {r : ℕ} (hg : g.Reachable cfg n t) (hr : g.Outstanding r) :
    PartitionCall cfg n t defaultConfig.kUnrollClassifier
      ((g.taskOf r).task.stop - (g.taskOf r).task.begin) (g.taskOf r).taskNumThreads

/-- When stripes are wide, many elements are partitioned for each of the threads but one. -/
theorem PartitionCall.spread {cfg : Config} {m k : ℕ} (h : PartitionCall cfg n t U m k) (ht : 2 ≤ t)
    (hw : t ≤ width n t) : 2 ≤ k ∧ k ≤ t ∧ (k - 1) * width n t < m := by
  cases h with
  | whole =>
    have hwidth := Nat.div_mul_le_self (n + t - 1) t
    rw [show (n + t - 1) / t = width n t from rfl, Nat.mul_comm] at hwidth
    have hsplit : t * width n t = (t - 1) * width n t + width n t := by
      rw [← Nat.succ_mul, Nat.succ_eq_add_one, Nat.sub_add_cancel (by omega)]
    exact ⟨ht, le_rfl, by omega⟩
  | task hg hr =>
    obtain ⟨hb, -, hk, htwo⟩ := hg.task_of_outstanding (by omega) hr
    set a := (Groups.taskOf _ _).task.begin
    set b := (Groups.taskOf _ _).task.stop
    rw [hk] at htwo ⊢
    have hle : nearest (width n t) b ≤ t := (nearest_mono hb).trans (nearest_le (by omega))
    refine ⟨htwo, by omega, ?_⟩
    -- all threads but one begin in the task
    have ha : a + width n t / 2 < (nearest (width n t) a + 1) * width n t := by
      rw [Nat.succ_mul]
      exact Nat.lt_div_mul_add (by omega)
    have hb' : nearest (width n t) b * width n t ≤ b + width n t / 2 := Nat.div_mul_le_self _ _
    have hmul : (nearest (width n t) b - nearest (width n t) a - 1) * width n t +
        (nearest (width n t) a + 1) * width n t = nearest (width n t) b * width n t := by
      rw [← Nat.add_mul]
      congr 1
      omega
    omega

/-- It is enough that stripes are wide, compared with the number of threads. -/
theorem PartitionCall.wideEnough {cfg : Config} {m k : ℕ} (h : PartitionCall cfg n t U m k)
    (ht : 2 ≤ t) (hU : 2 * cfg.kUnrollClassifier + t ≤ width n t)
    (hU' : 2 * defaultConfig.kUnrollClassifier + t ≤ width n t) : WideEnough U m k := by
  obtain ⟨hk, hkt, hm⟩ := h.spread ht (by omega)
  have hU : 2 * U + k ≤ width n t := by
    cases h with
    | whole => exact hU
    | task => omega
  exact wideEnough_of_lt hk hm hU

/-- All stripes have elements then. -/
theorem PartitionCall.filled {cfg : Config} {m k : ℕ} (h : PartitionCall cfg n t U m k) (ht : 2 ≤ t)
    (hw : t + 2 ≤ width n t) : ∀ i < k, first m k i < first m k (i + 1) := by
  intro i hi
  obtain ⟨hk, hkt, hm⟩ := h.spread ht (by omega)
  have hlast := first_last_le (U := 1) hk hm (by omega)
  have := last_shortest (by omega) hi (n := m)
  omega

end Ps4o
