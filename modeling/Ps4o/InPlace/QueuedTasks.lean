import Ps4o.InPlace.TaskRounds

/-!
# The tasks that the task loop queues

Which subranges the task loop of the parallel in-place sort partitions: every bucket that is not
small, and each of them once.

## What is proved

* `Outcome.Bounds.apart` — the buckets that a partition queues have no position in common.
* `Work.step` — no two tasks have a position in common, none is a task that has been partitioned,
  and none is lost.
-/

namespace Ps4o.InPlace

/-! ### Buckets that are queued -/

/-- Two tasks that have no position in common. -/
def ParallelTask.Apart (t u : ParallelTask) : Prop := t ≠ u ∧ (t.stop ≤ u.begin ∨ u.stop ≤ t.begin)

/-- A part of a task that is partitioned later. -/
def ParallelTask.Contains (t u : ParallelTask) : Prop :=
  t.begin ≤ u.begin ∧ u.stop ≤ t.stop ∧ t.level < u.level

section
variable {t u v task : ParallelTask} {o : Outcome} {c d : ℕ}

theorem ParallelTask.Apart.symm (h : t.Apart u) : u.Apart t := ⟨h.1.symm, h.2.symm⟩

theorem ParallelTask.Apart.of_size (hu : 0 < u.size) (h : t.stop ≤ u.begin ∨ u.stop ≤ t.begin) :
    t.Apart u := by
  refine ⟨?_, h⟩
  rintro rfl
  rw [ParallelTask.size] at hu
  omega

theorem ParallelTask.Contains.ne (h : t.Contains u) : t ≠ u := by
  rintro rfl
  exact lt_irrefl _ h.2.2

theorem ParallelTask.Apart.mono (h : t.Apart u) (hv : u.Contains v) (hsize : 0 < v.size) :
    t.Apart v := by
  refine .of_size hsize (h.2.imp (fun hle => hle.trans hv.1) fun hle => hv.2.1.trans hle)

theorem ParallelTask.Contains.trans (h : t.Contains u) (hv : u.Contains v) : t.Contains v :=
  ⟨h.1.trans hv.1, hv.2.1.trans h.2.1, h.2.2.trans hv.2.2⟩

theorem size_subtask (o : Outcome) (task : ParallelTask) (c : ℕ) :
    (o.subtask task c).size = o.bucketStart (c + 1) - o.bucketStart c := by
  simp only [Outcome.subtask, ParallelTask.size]
  omega

/-- A bucket lies in its task. -/
theorem Outcome.Bounds.contains (h : o.Bounds task.size) (hc : c < o.numBuckets)
    (hs : 0 < (o.subtask task c).size) : task.Contains (o.subtask task c) := by
  rw [size_subtask] at hs
  have hle : o.bucketStart (c + 1) ≤ o.bucketStart o.numBuckets := h.mono hc le_rfl
  rw [h.last, ParallelTask.size] at hle
  refine ⟨Nat.le_add_right _ _, ?_, Nat.lt_succ_self _⟩
  simp only [Outcome.subtask]
  omega

/-- Buckets have no positions in common. -/
theorem Outcome.Bounds.apart (h : o.Bounds task.size) (hc : c < o.numBuckets)
    (hd : d < o.numBuckets) (hcd : c ≠ d) (hs : 0 < (o.subtask task d).size) :
    (o.subtask task c).Apart (o.subtask task d) := by
  refine .of_size hs ?_
  simp only [Outcome.subtask]
  rcases Nat.lt_or_gt_of_ne hcd with hlt | hgt
  · have : o.bucketStart (c + 1) ≤ o.bucketStart d := h.mono hlt hd.le
    exact .inl (by omega)
  · have : o.bucketStart (d + 1) ≤ o.bucketStart c := h.mono hgt hc.le
    exact .inr (by omega)

theorem mem_upTo {step n : ℕ} (hs : 0 < step) : c ∈ upTo step n ↔ c < n ∧ c % step = 0 := by
  simp only [upTo, List.mem_map, List.mem_range]
  constructor
  · rintro ⟨j, hj, rfl⟩
    have hle := (Nat.le_div_iff_mul_le hs).mp (Nat.succ_le_of_lt hj)
    rw [Nat.succ_mul, Nat.mul_comm] at hle
    exact ⟨by omega, Nat.mul_mod_right step j⟩
  · rintro ⟨hlt, hmod⟩
    refine ⟨c / step, ?_, Nat.mul_div_cancel' (Nat.dvd_of_mod_eq_zero hmod)⟩
    refine (Nat.le_div_iff_mul_le hs).mpr ?_
    rw [Nat.succ_mul, Nat.div_mul_cancel (Nat.dvd_of_mod_eq_zero hmod)]
    omega

theorem nodup_upTo {step n : ℕ} (hs : 0 < step) : (upTo step n).Nodup :=
  List.Nodup.map (fun _ _ h => Nat.eq_of_mul_eq_mul_left hs h) List.nodup_range

/-- All buckets are looked at but the equality buckets. -/
theorem Outcome.Bounds.mem_lookedAt {n : ℕ} (h : o.Bounds n) :
    c ∈ o.lookedAt ↔ c < o.numBuckets ∧ ¬ (o.equalBuckets = true ∧ IsEqual o.numBuckets c) := by
  have hpos := h.pos
  have heven := h.even
  rw [Outcome.lookedAt, List.mem_append, mem_upTo (by omega)]
  cases he : o.equalBuckets with
  | false => simp [Nat.mod_one]
  | true =>
    have := h.two he
    have := heven he
    simp only [Bool.toNat_true, if_true, List.mem_singleton, true_and]
    omega

theorem Outcome.Bounds.nodup_lookedAt {n : ℕ} (h : o.Bounds n) : o.lookedAt.Nodup := by
  have heven := h.even
  have hpos := h.pos
  rw [Outcome.lookedAt]
  refine List.Nodup.append (nodup_upTo (by omega)) ?_ ?_
  · split_ifs <;> simp
  · intro c hc hc'
    rw [mem_upTo (by omega)] at hc
    split_ifs at hc' with he
    · have := List.mem_singleton.mp hc'
      have := heven he
      rw [he, Bool.toNat_true] at hc
      omega
    · cases hc'

end

/-! ### No task is lost -/

/-- Whether a task is queued. -/
def ParallelTask.Kept (cfg : Config) (maxSequentialSize : ℕ) (t : ParallelTask) : Prop :=
  maxSequentialSize < t.size ∨ 2 * cfg.kBaseCaseSize < t.size

instance (cfg : Config) (maxSequentialSize : ℕ) :
    DecidablePred (ParallelTask.Kept cfg maxSequentialSize) := fun _ =>
  inferInstanceAs (Decidable (_ ∨ _))

/-- A bucket that is not an equality bucket, nor small, of a task that has been partitioned when
this was not the last level. -/
def Remains (cfg : Config) (p : ParallelTask × Outcome) (u : ParallelTask) : Prop :=
  cfg.kSingleLevelThreshold < p.1.size ∧ ∃ c < p.2.numBuckets,
    ¬ (p.2.equalBuckets = true ∧ IsEqual p.2.numBuckets c) ∧ u = p.2.subtask p.1 c ∧
    2 * cfg.kBaseCaseSize < u.size

/-- What has to be partitioned or sorted: the whole range, and what remains of a task that has been
partitioned. -/
def TaskLoop.Due {ι : Type} (cfg : Config) (n : ℕ) (s : TaskLoop ι) (u : ParallelTask) : Prop :=
  u = ⟨0, n, 1⟩ ∨ ∃ p ∈ s.partitioned, Remains cfg p u

/-- What the primary thread has yet to queue. -/
def Doing.yet (cfg : Config) (maxSequentialSize : ℕ) : Doing → List ParallelTask
  | .testing task o =>
    if task.size ≤ cfg.kSingleLevelThreshold then []
    else (o.lookedAt.map (o.subtask task)).filter (ParallelTask.Kept cfg maxSequentialSize)
  | .queueing task o rest =>
    (rest.map (o.subtask task)).filter (ParallelTask.Kept cfg maxSequentialSize)
  | _ => []

/-- The small tasks of this call. -/
def Doing.smalls : Doing → List ParallelTask → List ParallelTask
  | .clearing, _ => []
  | _, tasks => tasks

/-- It does not change what is queued. -/
def Doing.Plain : Doing → Prop
  | .clearing | .testing _ _ | .queueing _ _ _ => False
  | _ => True

/-- It has nothing to do with the index of a small task. -/
def Doing.Bare : Doing → Prop
  | .clearing | .indexing _ | .sequential _ | .finished => False
  | _ => True

section
variable {cfg : Config} {maxSequentialSize : ℕ} {d : Doing}

theorem Doing.Plain.yet_eq (h : d.Plain) : d.yet cfg maxSequentialSize = [] := by
  cases d <;> first | rfl | exact h.elim

theorem Doing.Plain.smalls_eq (h : d.Plain) (tasks : List ParallelTask) :
    d.smalls tasks = tasks := by
  cases d <;> first | rfl | exact h.elim

theorem Doing.returned_plain (hd : d.Calls) (isPrimary : Bool) :
    d.Plain ∧ (d.returned isPrimary).Plain := by
  cases d <;> simp only [Doing.Calls] at hd
  case meeting => exact ⟨trivial, trivial⟩
  case partitioning =>
    simp only [Doing.returned]
    split_ifs <;> exact ⟨trivial, trivial⟩

/-- The buckets of a task, as far as they are queued. -/
theorem Outcome.Bounds.queued {task : ParallelTask} {o : Outcome} (h : o.Bounds task.size) :
    ((Doing.testing task o).yet cfg maxSequentialSize).Pairwise ParallelTask.Apart ∧
      ∀ u ∈ (Doing.testing task o).yet cfg maxSequentialSize, task.Contains u ∧ 0 < u.size := by
  rw [Doing.yet]
  split_ifs
  · exact ⟨.nil, fun u hu => nomatch hu⟩
  · have hpos : ∀ u : ParallelTask, u.Kept cfg maxSequentialSize → 0 < u.size := by
      rintro u (hu | hu) <;> omega
    constructor
    · rw [List.pairwise_filter, List.pairwise_map]
      refine List.Pairwise.imp_of_mem ?_ h.nodup_lookedAt
      intro c d hc hd hcd _ hkept
      exact h.apart (h.mem_lookedAt.mp hc).1 (h.mem_lookedAt.mp hd).1 hcd
        (hpos _ (of_decide_eq_true hkept))
    · intro u hu
      obtain ⟨hmem, hkept⟩ := List.mem_filter.mp hu
      obtain ⟨c, hc, rfl⟩ := List.mem_map.mp hmem
      have hsize := hpos _ (of_decide_eq_true hkept)
      exact ⟨h.contains (h.mem_lookedAt.mp hc).1 hsize, hsize⟩

/-- All buckets that remain are queued. -/
theorem Remains.mem_yet {task u : ParallelTask} {o : Outcome} (h : o.Bounds task.size)
    (hu : Remains cfg (task, o) u) : u ∈ (Doing.testing task o).yet cfg maxSequentialSize := by
  obtain ⟨hsize, c, hc, hequal, rfl, hbase⟩ := hu
  rw [Doing.yet, if_neg (Nat.not_le_of_lt hsize), List.mem_filter]
  exact ⟨List.mem_map_of_mem (h.mem_lookedAt.mpr ⟨hc, hequal⟩), decide_eq_true (.inr hbase)⟩

end

namespace TaskLoop

variable {ι : Type} (cfg : Config) (maxSequentialSize n : ℕ) (primary : ι)

/-- What is queued, and what is about to be queued. -/
def waiting (s : TaskLoop ι) : List ParallelTask :=
  s.bigTasks ++ ((s.worker primary).doing.smalls s.smallTasks ++
    (s.worker primary).doing.yet cfg maxSequentialSize)

/-- No task is lost, and none comes again. -/
structure Work (s : TaskLoop ι) : Prop where
  apart : (s.waiting cfg maxSequentialSize primary).Pairwise ParallelTask.Apart
  later : ∀ p ∈ s.partitioned, ∀ u ∈ s.waiting cfg maxSequentialSize primary,
    p.1.Apart u ∨ p.1.Contains u
  distinct : (s.partitioned.map Prod.fst).Nodup
  kept : ∀ u, s.Due cfg n u → u ∈ s.partitioned.map Prod.fst ∨
    u ∈ s.waiting cfg maxSequentialSize primary

section
variable {cfg maxSequentialSize n primary} {s s' : TaskLoop ι} {i : ι}

/-- What is queued comes in another order. -/
theorem Work.of_perm (h : s.Work cfg maxSequentialSize n primary)
    (hw : (s'.waiting cfg maxSequentialSize primary).Perm (s.waiting cfg maxSequentialSize primary))
    (hp : s'.partitioned = s.partitioned) : s'.Work cfg maxSequentialSize n primary := by
  refine ⟨(hw.pairwise_iff ParallelTask.Apart.symm).mpr h.apart, ?_, hp ▸ h.distinct, ?_⟩
  · rw [hp]
    exact fun p hmem u hu => h.later p hmem u (hw.mem_iff.mp hu)
  · rw [hp]
    exact fun u hu => (h.kept u (by rwa [Due, ← hp])).imp_right hw.mem_iff.mpr

variable [DecidableEq ι]

/-- A thread goes on that does not queue anything. -/
theorem Work.advance (h : s.Work cfg maxSequentialSize n primary) {w : Worker}
    (hworker : s'.worker = Function.update s.worker i w) (hbig : s'.bigTasks = s.bigTasks)
    (hsmall : s'.smallTasks = s.smallTasks) (hp : s'.partitioned = s.partitioned)
    (hd : w.doing = (s.worker i).doing ∨ (s.worker i).doing.Plain ∧ w.doing.Plain) :
    s'.Work cfg maxSequentialSize n primary := by
  refine h.of_perm (.of_eq ?_) hp
  rw [waiting, waiting, hbig, hsmall, hworker]
  rcases eq_or_ne primary i with rfl | hi
  · rw [Function.update_self]
    rcases hd with hd | ⟨hold, hnew⟩
    · rw [hd]
    · rw [hold.yet_eq, hnew.yet_eq, hold.smalls_eq, hnew.smalls_eq]
  · rw [Function.update_of_ne hi]

/-- A task that has been partitioned is replaced by its buckets. -/
theorem Work.pop (h : s.Work cfg maxSequentialSize n primary) {task : ParallelTask} {o : Outcome}
    (hd : (s.worker primary).doing = .popping task) (hlast : s.bigTasks.getLast? = some task)
    (ho : o.Bounds task.size) : Work cfg maxSequentialSize n primary ({ s with
      bigTasks := s.bigTasks.dropLast
      partitioned := s.partitioned ++ [(task, o)] }.goTo primary (.testing task o)) := by
  obtain ⟨hparts, hinside⟩ : ((Doing.testing task o).yet cfg maxSequentialSize).Pairwise
      ParallelTask.Apart ∧
      ∀ u ∈ (Doing.testing task o).yet cfg maxSequentialSize, task.Contains u ∧
      0 < u.size := ho.queued
  have hbig : s.bigTasks = s.bigTasks.dropLast ++ [task] := by
    obtain ⟨ys, hys⟩ := List.getLast?_eq_some_iff.mp hlast
    rw [hys, List.dropLast_concat]
  have hold : (s.waiting cfg maxSequentialSize primary).Perm
      (task :: (s.bigTasks.dropLast ++ s.smallTasks)) := by
    rw [waiting, hd]
    simp only [Doing.smalls, Doing.yet, List.append_nil]
    conv_lhs => rw [hbig]
    rw [List.append_assoc]
    exact List.perm_middle
  have hnew : waiting cfg maxSequentialSize primary ({ s with
      bigTasks := s.bigTasks.dropLast
      partitioned := s.partitioned ++ [(task, o)] }.goTo primary (.testing task o)) =
        (s.bigTasks.dropLast ++ s.smallTasks) ++ (Doing.testing task o).yet
        cfg maxSequentialSize := by
    simp only [waiting, bigTasks_goTo, smallTasks_goTo, worker_goTo, Function.update_self,
      Doing.smalls, List.append_assoc]
  have hapart := (hold.pairwise_iff ParallelTask.Apart.symm).mp h.apart
  obtain ⟨htask, hrest⟩ := List.pairwise_cons.mp hapart
  have hlater : ∀ p ∈ s.partitioned, p.1.Apart task ∨ p.1.Contains task := fun p hp =>
    h.later p hp task (hold.mem_iff.mpr List.mem_cons_self)
  have hkept : ∀ u, s.Due cfg n u →
      u ∈ s.partitioned.map Prod.fst ++ [task] ∨ u ∈ s.bigTasks.dropLast ++ s.smallTasks := by
    intro u hu
    rcases h.kept u hu with hmem | hmem
    · exact .inl (List.mem_append_left _ hmem)
    · rcases List.mem_cons.mp (hold.mem_iff.mp hmem) with rfl | hmem
      · exact .inl (List.mem_append_right _ List.mem_cons_self)
      · exact .inr hmem
  refine ⟨?_, fun p hp u hu => ?_, ?_, fun u hu => ?_⟩
  · rw [hnew, List.pairwise_append]
    refine ⟨hrest, hparts, fun t ht u hu => ?_⟩
    obtain ⟨hin, hsize⟩ := hinside u hu
    exact (htask t ht).symm.mono hin hsize
  · rw [hnew] at hu
    rcases List.mem_append.mp hp with hp | hp <;> rcases List.mem_append.mp hu with hu | hu
    · exact h.later p hp u (hold.mem_iff.mpr (List.mem_cons_of_mem _ hu))
    · obtain ⟨hin, hsize⟩ := hinside u hu
      exact (hlater p hp).imp (fun ha => ha.mono hin hsize) fun hc => hc.trans hin
    · obtain rfl := List.mem_singleton.mp hp
      exact .inl (htask u hu)
    · obtain rfl := List.mem_singleton.mp hp
      exact .inr (hinside u hu).1
  · simp only [partitioned_goTo, List.map_append, List.map_cons, List.map_nil]
    refine List.Nodup.append h.distinct (List.nodup_singleton _) fun t ht ht' => ?_
    obtain rfl := List.mem_singleton.mp ht'
    obtain ⟨p, hp, rfl⟩ := List.mem_map.mp ht
    rcases hlater p hp with ha | hc
    · exact ha.1 rfl
    · exact hc.ne rfl
  · rw [hnew, partitioned_goTo, List.map_append]
    rcases hu with hu | ⟨p, hp, hu⟩
    · exact (hkept u (.inl hu)).imp_right (List.mem_append_left _)
    · rcases List.mem_append.mp hp with hp | hp
      · exact (hkept u (.inr ⟨p, hp, hu⟩)).imp_right (List.mem_append_left _)
      · obtain rfl := List.mem_singleton.mp hp
        exact .inr (List.mem_append_right _ (Remains.mem_yet ho hu))

/-- A bucket is queued, or it is small. -/
theorem Work.queue (h : s.Work cfg maxSequentialSize n primary) {task : ParallelTask} {o : Outcome}
    {c : ℕ} {rest : List ℕ} (hd : (s.worker primary).doing = .queueing task o (c :: rest)) :
    Work cfg maxSequentialSize n primary
      ((s.queueTask cfg maxSequentialSize (o.subtask task c)).goTo primary
          (.queueing task o rest)) := by
  obtain ⟨hworker, -, hp, -, -⟩ := queueTask_eq (s := s) cfg maxSequentialSize (o.subtask task c)
  refine h.of_perm ?_ hp
  have hyet : ∀ l, (Doing.queueing task o l).yet cfg maxSequentialSize =
      (l.map (o.subtask task)).filter (ParallelTask.Kept cfg maxSequentialSize) := fun _ => rfl
  simp only [waiting, bigTasks_goTo, smallTasks_goTo, worker_goTo, Function.update_self,
    hd, Doing.smalls, hyet, List.map_cons, List.filter_cons, decide_eq_true_eq]
  unfold queueTask
  by_cases hbig : maxSequentialSize < (o.subtask task c).size
  · have hkept : (o.subtask task c).Kept cfg maxSequentialSize := .inl hbig
    rw [if_pos hbig, if_pos hkept, List.append_assoc, List.singleton_append]
    exact List.perm_middle.symm.append_left _
  by_cases hsmall : 2 * cfg.kBaseCaseSize < (o.subtask task c).size
  · have hkept : (o.subtask task c).Kept cfg maxSequentialSize := .inr hsmall
    rw [if_neg hbig, if_pos hsmall, if_pos hkept, List.append_assoc, List.singleton_append]
  · have hkept : ¬ (o.subtask task c).Kept cfg maxSequentialSize := fun hk => hk.elim hbig hsmall
    rw [if_neg hbig, if_neg hsmall, if_neg hkept]

/-- **A step loses no task**, and brings none again. -/
theorem Work.step [Fintype ι] (h : s.Work cfg maxSequentialSize n primary) (hr : s.Rounds primary)
    (hs : Step cfg maxSequentialSize primary i s s') : s'.Work cfg maxSequentialSize n primary := by
  have hplaced := hr.placed i
  cases hs with
  | clear hd =>
    simp only [Worker.Placed, hd] at hplaced
    obtain rfl := hplaced.1
    refine h.of_perm (.of_eq ?_) rfl
    simp only [waiting, bigTasks_goTo, smallTasks_goTo, worker_goTo, Function.update_self,
      hd, Doing.smalls, Doing.yet]
  | read hd hb => exact h.advance rfl rfl rfl rfl (.inr ⟨by rw [hd]; trivial, trivial⟩)
  | call hd hm =>
    refine h.advance rfl rfl rfl rfl ?_
    obtain ⟨hold, hnew⟩ := Doing.returned_plain hd (i = primary)
    split_ifs
    · exact .inr ⟨hold, hnew⟩
    · exact .inl rfl
  | sample hp => exact h.advance rfl rfl rfl rfl (.inl rfl)
  | set hd => exact h.advance rfl rfl rfl rfl (.inr ⟨by rw [hd]; trivial, trivial⟩)
  | pop hd ho =>
    simp only [Worker.Placed, hd] at hplaced
    obtain ⟨rfl, -, -, ht, -⟩ := hplaced
    exact h.pop hd (hr.last_eq (by rw [hd]; rfl) ht) ho
  | @test task o hd =>
    simp only [Worker.Placed, hd] at hplaced
    obtain ⟨rfl, -, -, -, hmembers⟩ := hplaced
    refine h.of_perm (.of_eq ?_) rfl
    simp only [waiting, bigTasks_goTo, smallTasks_goTo, worker_goTo,
      Function.update_self, hd, hmembers]
    rw [Doing.yet, ParallelTask.size]
    split_ifs <;> rfl
  | queue hd =>
    simp only [Worker.Placed, hd] at hplaced
    obtain ⟨rfl, -⟩ := hplaced
    exact h.queue hd
  | queued hd =>
    simp only [Worker.Placed, hd] at hplaced
    obtain ⟨rfl, -⟩ := hplaced
    refine h.of_perm (.of_eq ?_) rfl
    simp only [waiting, bigTasks_goTo, smallTasks_goTo, worker_goTo, Function.update_self,
      hd, Doing.smalls, Doing.yet, List.map_nil, List.filter_nil]
  | @sort tasks hd ht =>
    simp only [Worker.Placed, hd] at hplaced
    obtain ⟨rfl, -⟩ := hplaced
    have hperm : tasks.Perm s.smallTasks := by
      split_ifs at ht
      · exact ht.1
      · rw [ht]
    refine h.of_perm ?_ rfl
    simp only [waiting, bigTasks_goTo, smallTasks_goTo, worker_goTo, Function.update_self,
      hd, Doing.smalls, Doing.yet, List.append_nil]
    exact hperm.append_left _
  | decide hd =>
    refine h.advance rfl rfl rfl rfl (.inr ⟨by rw [hd]; trivial, ?_⟩)
    simp only
    split_ifs <;> trivial
  | fetch hd => exact h.advance rfl rfl rfl rfl (.inr ⟨by rw [hd]; trivial, trivial⟩)
  | index hd hk => exact h.advance rfl rfl rfl rfl (.inr ⟨by rw [hd]; trivial, trivial⟩)
  | finish hd hk => exact h.advance rfl rfl rfl rfl (.inr ⟨by rw [hd]; trivial, trivial⟩)
  | sorted hd => exact h.advance rfl rfl rfl rfl (.inr ⟨by rw [hd]; trivial, trivial⟩)

end

end TaskLoop

end Ps4o.InPlace
