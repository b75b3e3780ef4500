import Mathlib.Data.List.Chain
import Ps4o.ParallelCorrectness

/-!
# The stripes of a parallel sort

How many elements the threads classify in the partitions that a run of the parallel sort really
makes. A run is a list of states, each of which follows from the one before by a step.

## What is proved

* `Inv.manned` — whatever partitions return, a team has two threads at least, and elements.
* `neverShort_iff` — **in a run, no stripe is too short for the unrolled loop just when all its
  partitions are wide enough**.
* `Start.wide` — they are in every run, when the stripes of the whole range are wide compared with
  the number of threads.
-/

namespace Ps4o

open Ps4o.Program Ps4o.Storage Ps4o.Order Ps4o.Order.Stripes

variable {A α : Type}

/-! ### Big tasks -/

namespace Groups

variable {cfg : Config} {g : Groups} {id r : ℕ} {p : Parent} {q : Queued} {rest : List Queued}

/-- A bucket that is queued to a group: there are two threads at least, and elements. -/
def Manned : Queued → Prop
  | .small _ _ => True
  | .big threadBegin threadEnd task => threadBegin + 2 ≤ threadEnd ∧ task.begin < task.stop

/-- All big tasks have two threads at least, and elements, whatever the bucket boundaries were. -/
structure AllManned (g : Groups) : Prop where
  board : ∀ r, g.Outstanding r →
    2 ≤ (g.taskOf r).taskNumThreads ∧ (g.taskOf r).task.begin < (g.taskOf r).task.stop
  queueing : ∀ id p rest, g.queueing id = some (p, rest) → ∀ q ∈ rest, Manned q

theorem manned_of_mem {stripe id k size offset : ℕ} {flag eq : Bool} {nb : ℕ} {bss : ℕ → ℕ}
    (hq : q ∈ queueTasks cfg stripe id k size flag offset bss nb eq) : Manned q := by
  rw [queueTasks] at hq
  split_ifs at hq
  · cases hq
  · obtain ⟨b, hb, rfl⟩ := List.mem_map.mp hq
    have hlarge := (List.mem_filter.mp hb).2
    rw [decide_eq_true_iff] at hlarge
    rw [queueTask]
    split_ifs with hfew
    · trivial
    · exact ⟨by omega, by dsimp only; omega⟩

theorem Start.allManned (h : g.Start) : g.AllManned where
  board r hr := by
    have hnone := h.noTask r
    rw [hr.1] at hnone
    cases hnone
  queueing id p rest hq := by
    rw [h.queueing id] at hq
    cases hq

theorem AllManned.enter (h : g.AllManned) {stripe : ℕ} {eq : Bool} {nb : ℕ} {bss : ℕ → ℕ} :
    (g.enter cfg stripe p bss nb eq).AllManned := by
  constructor
  · intro r hr
    rw [taskOf_enter]
    obtain ⟨hout, htask⟩ := hasTask_reset hr.1
    have hsame : (g.enter cfg stripe p bss nb eq).board.bigTasks r = g.board.bigTasks r :=
      bigTasks_reset hout
    exact h.board r ⟨htask, hsame ▸ hr.2⟩
  · intro id p' rest hq q hmem
    rw [queueing_enter] at hq
    split_ifs at hq
    · obtain ⟨rfl, rfl⟩ := Prod.mk.inj (Option.some.inj hq)
      exact manned_of_mem hmem
    · exact h.queueing id p' rest hq q hmem

theorem AllManned.put (h : g.AllManned) (hq : g.queueing id = some (p, q :: rest)) :
    (g.put id p q rest).AllManned := by
  have hmanned := h.queueing id p _ hq q List.mem_cons_self
  constructor
  · intro r hr
    cases q with
    | small thread task => exact h.board r hr
    | big a b task =>
      by_cases htakes : Takes (.big a b task) r
      · have hentry : (g.put id p (.big a b task) rest).board.bigTasks r =
          ⟨task.begin, task.stop, r - a, a, task.inInputArray, true⟩ := if_pos htakes
        obtain ⟨-, hroot⟩ := hr
        rw [hentry] at hroot
        obtain rfl : a = r := hroot
        have hpool : (g.put id p (.big a b task) rest).board.threadPools a = b - a :=
          Function.update_self _ _ _
        rw [taskOf, hentry, hpool]
        exact ⟨Nat.le_sub_of_add_le' hmanned.1, hmanned.2⟩
      · have hsame : (g.put id p (.big a b task) rest).board.bigTasks r = g.board.bigTasks r :=
          bigTasks_put htakes
        have hne : r ≠ a := by
          rintro rfl
          exact htakes ⟨le_rfl, by have := hmanned.1; omega⟩
        have hpool : (g.put id p (.big a b task) rest).board.threadPools r =
            g.board.threadPools r := Function.update_of_ne hne _ _
        have hold := h.board r ⟨hsame ▸ hr.1, hsame ▸ hr.2⟩
        rw [taskOf, hsame, hpool]
        exact hold
  · intro id' p' rest' hq' q' hmem
    rw [queueing_put] at hq'
    split_ifs at hq'
    · obtain ⟨rfl, rfl⟩ := Prod.mk.inj (Option.some.inj hq')
      exact h.queueing id p _ hq q' (List.mem_cons_of_mem _ hmem)
    · exact h.queueing id' p' rest' hq' q' hmem

theorem AllManned.leave (h : g.AllManned) : (g.leave id).AllManned := by
  refine ⟨h.board, fun id' p' rest' hq' => ?_⟩
  rw [Groups.leave] at hq'
  dsimp only at hq'
  rw [Function.update_apply] at hq'
  split_ifs at hq'
  exact h.queueing id' p' rest' hq'

end Groups

namespace ParallelSort

variable {cfg : Config} {begin tmp : Ptr A} {oracle n : ℕ} {t : UInt64} {xs : List α}
  {s s' : ParallelSort A α t}

/-! ### Teams -/

/-- Every team has two threads at least, and elements. -/
structure Manned (s : ParallelSort A α t) : Prop where
  groups : s.groups.AllManned
  team : ∀ r w, s.team r = some w →
    2 ≤ w.parent.taskNumThreads ∧ w.parent.task.begin < w.parent.task.stop

theorem Manned.setTeam (h : s.Manned) {r : Fin t.toNat} {w : Option (TeamWork A α)}
    (hw : ∀ w', w = some w' →
      2 ≤ w'.parent.taskNumThreads ∧ w'.parent.task.begin < w'.parent.task.stop)
    {groups : Groups} (hgroups : groups.AllManned) {mem : Mem A α} {scheduler : Scheduler Task}
    {thread : Fin t.toNat → SortThread A α} :
    ParallelSort.Manned ⟨mem, groups, (s.setTeam r w).team, scheduler, thread⟩ := by
  refine ⟨hgroups, fun r' w' hw' => ?_⟩
  rcases eq_or_ne r' r with rfl | hne
  · exact hw w' (team_setTeam.symm.trans hw')
  · exact h.team r' w' ((team_setTeam_of_ne hne).symm.trans hw')

theorem Start.manned (h : s.Start begin xs) : s.Manned :=
  ⟨h.groups.allManned, fun r w hw => by rw [h.team r] at hw; cases hw⟩

/-! ### Runs -/

/-- In a state, `k` threads partition `m` elements, with `U` lanes in the loop: the whole range, as
the user has configured it; or a big task, as the default is. -/
inductive Partitions (cfg : Config) (s : ParallelSort A α t) : (U m k : ℕ) → Prop
  /-- The whole range. -/
  | whole {r : Fin t.toNat} {w : TeamWork A α} (hs : s.groups.started = false)
    (hw : s.team r = some w) : Partitions cfg s cfg.kUnrollClassifier
      (w.parent.task.stop - w.parent.task.begin) w.parent.taskNumThreads
  /-- A big task. -/
  | task {r : Fin t.toNat} {w : TeamWork A α} (hs : s.groups.started = true)
    (hw : s.team r = some w) : Partitions cfg s defaultConfig.kUnrollClassifier
      (w.parent.task.stop - w.parent.task.begin) w.parent.taskNumThreads

/-- No stripe is too short for the unrolled loop. -/
def NeverShort (cfg : Config) (s : ParallelSort A α t) : Prop :=
  ∀ U m k, s.Partitions cfg U m k → Unrollable U m k

/-- Every partition is wide enough. -/
def Wide (cfg : Config) (s : ParallelSort A α t) : Prop :=
  ∀ U m k, s.Partitions cfg U m k → WideEnough U m k

/-- What is partitioned has elements, and is partitioned by two threads at least. -/
theorem Manned.partitions (h : s.Manned) {U m k : ℕ} (hpart : s.Partitions cfg U m k) :
    2 ≤ k ∧ 0 < m := by
  cases hpart with
  | whole hs hw =>
    obtain ⟨htwo, hlt⟩ := h.team _ _ hw
    exact ⟨htwo, Nat.sub_pos_of_lt hlt⟩
  | task hs hw =>
    obtain ⟨htwo, hlt⟩ := h.team _ _ hw
    exact ⟨htwo, Nat.sub_pos_of_lt hlt⟩

section
variable [DecidableEq A] {comp : α → α → Bool}

/-- **Every step leaves teams with two threads and elements.** -/
theorem Manned.step (h : s.Manned) (ht : 2 ≤ t.toNat) (hn : 0 < n)
    (hstep : Step comp cfg begin tmp oracle n s s') : s'.Manned := by
  cases hstep with
  | start =>
    refine h.setTeam (fun w' hw' => ?_) h.groups
    obtain rfl := Option.some.inj hw'
    exact ⟨ht, hn⟩
  | join hr =>
    refine h.setTeam (fun w' hw' => ?_) h.groups
    obtain rfl := Option.some.inj hw'
    exact h.groups.board _ hr
  | @run r p team team' _ hw =>
    refine h.setTeam (fun w' hw' => ?_) h.groups
    obtain rfl := Option.some.inj hw'
    exact h.team r ⟨p, team⟩ hw
  | first =>
    refine h.setTeam (fun w' hw' => by cases hw') ?_
    have hstarted : Groups.AllManned { s.groups with started := true } :=
      ⟨h.groups.board, h.groups.queueing⟩
    rw [queueWhole]
    split_ifs
    · exact hstarted
    · exact hstarted.enter
  | partitioned => exact h.setTeam (fun w' hw' => by cases hw') h.groups.enter
  | put hq => exact ⟨h.groups.put hq, h.team⟩
  | leave => exact ⟨h.groups.leave, h.team⟩
  | processSmallTasks => exact ⟨h.groups, h.team⟩
  | schedule => exact ⟨h.groups, h.team⟩
  | call => exact ⟨h.groups, h.team⟩
  | exec => exact ⟨h.groups, h.team⟩
  | finish => exact ⟨h.groups, h.team⟩

/-- **When no stripe is too short**: in a run, all stripes are long enough in every state just when
in every state all partitions are wide enough for the threads that make them. -/
theorem neverShort_iff (ht : 2 ≤ t.toNat) (hn : 0 < n) (hs : s.Start begin xs)
    {run : List (ParallelSort A α t)}
    (hrun : (s :: run).IsChain (Step comp cfg begin tmp oracle n)) :
    (∀ s' ∈ s :: run, s'.NeverShort cfg) ↔ ∀ s' ∈ s :: run, s'.Wide cfg := by
  have hmanned : ∀ s' ∈ s :: run, s'.Manned :=
    hrun.induction ParallelSort.Manned _ (fun _ _ hstep h => h.step ht hn hstep) fun _ => hs.manned
  refine forall₂_congr fun s' hs' => forall₄_congr fun U m k hpart => ?_
  obtain ⟨htwo, hpos⟩ := (hmanned s' hs').partitions hpart
  exact unrollable_iff (by omega) hpos

/-- Wide stripes of the whole range make all partitions wide enough, in every run. -/
theorem Start.wide (h : s.Start begin xs) (hlarge : 2 * defaultConfig.kBaseCaseSize < xs.length)
    (hc : StrictWeak comp) (harr : begin.arr ≠ tmp.arr) (ht : 2 ≤ t.toNat)
    (hwide : 2 * defaultConfig.kUnrollClassifier + t.toNat ≤ width xs.length t.toNat)
    (hrun : Relation.ReflTransGen (Step comp defaultConfig begin tmp oracle xs.length) s s') :
    s'.Wide defaultConfig := by
  have hwide' : t.toNat + 2 ≤ width xs.length t.toNat :=
    le_trans (show t.toNat + 2 ≤ 2 * 7 + t.toNat by omega) hwide
  have hteams := (h.run_filled hlarge hc harr ht hwide' hrun).2.teams
  intro U m k hpart
  cases hpart with
  | whole hs hw => exact (hteams.partitionCall hw).wideEnough ht hwide hwide
  | task hs hw => exact (hteams.partitionCall hw).wideEnough ht hwide hwide

end

/-- When two threads sort the numbers, all stripes are long enough until both have returned. -/
theorem neverShort_twoThreads : ∃ (s' : ParallelSort Arr ℕ 2) (run : List (ParallelSort Arr ℕ 2)),
    (twoThreads :: run).IsChain (Step (fun a b => decide (a < b)) defaultConfig
      (⟨.input, 0⟩ : Ptr Arr) ⟨.tmp, 0⟩ 0 twoThreads.numbers.length) ∧
    s' ∈ twoThreads :: run ∧ s'.Done ∧ ∀ s ∈ twoThreads :: run, s.NeverShort defaultConfig := by
  obtain ⟨s', hrun, hdone⟩ := twoThreads.exists_done
  obtain ⟨run, hchain, hlast⟩ := List.exists_isChain_cons_of_relationReflTransGen hrun
  have hreached : ∀ s ∈ twoThreads :: run, Relation.ReflTransGen (Step (fun a b => decide (a < b))
      defaultConfig (⟨.input, 0⟩ : Ptr Arr) ⟨.tmp, 0⟩ 0 twoThreads.numbers.length) twoThreads s :=
    hchain.induction _ _ (fun _ _ hstep h => Relation.ReflTransGen.tail h hstep) fun _ => .refl
  refine ⟨s', run, hchain, hlast ▸ List.getLast_mem _, hdone, ?_⟩
  refine (neverShort_iff (by decide) (by rw [twoThreads.length_numbers]; decide) twoThreads.start
    hchain).mpr fun s hs => ?_
  exact twoThreads.start.wide (by rw [twoThreads.length_numbers]; decide)
    (StrictWeak.of_linearOrder ℕ) (by decide) (by decide)
    (by rw [twoThreads.length_numbers]; decide) (hreached s hs)

/-- Eight threads are about to sort fifty numbers. -/
def eightThreads : ParallelSort Arr ℕ 8 where
  mem := ⟨fun q => 100 - q.off, fun _ => 9⟩
  groups := Groups.idle
  team _ := none
  scheduler := ⟨[], 0⟩
  thread _ := ⟨none, .clear, Sorter.new (fun b => b) (fun b => 7 * b) 3, none⟩

/-- They are in the parallel path when every number has 2048 bytes, which is a block. Seven of them
have seven numbers each then, the last one has one. -/
theorem not_neverShort_fifty :
    Config.numThreadsFor 50 2048 8 = 8 ∧ 2 * defaultConfig.kBaseCaseSize < 50 ∧
    eightThreads.Start ⟨.input, 0⟩ ((List.range 50).map (100 - ·)) ∧
    ∃ s, Step (fun a b => decide (a < b)) defaultConfig (⟨.input, 0⟩ : Ptr Arr) ⟨.tmp, 0⟩ 0 50
      eightThreads s ∧ ¬ s.NeverShort defaultConfig := by
  have hnew : (Sorter.new (fun b => b) (fun b => 7 * b) 3 : Sorter ℕ).data.classifier.Empty :=
    Sorter.new_empty _ _ _
  refine ⟨by decide, by decide, ⟨⟨rfl, fun _ => rfl, fun _ => rfl, rfl⟩, fun _ => rfl, rfl,
    fun _ => ⟨rfl, rfl, rfl, hnew⟩, fun i v hv => ?_⟩, ?_⟩
  · rw [List.getElem?_map] at hv
    obtain ⟨j, hj, rfl⟩ := Option.map_eq_some_iff.mp hv
    obtain ⟨-, rfl⟩ := List.getElem?_eq_some_iff.mp hj
    simp [eightThreads]
  · let shared : SharedData ℕ := ⟨fun _ _ => 0, fun _ => 0, 0, false, (Sorter.new (fun b => b)
      (fun b => 7 * b) 3).data.classifier⟩
    let r : Fin (8 : UInt64).toNat := ⟨0, by decide⟩
    have hstart : Step (fun a b => decide (a < b)) defaultConfig (⟨.input, 0⟩ : Ptr Arr) ⟨.tmp, 0⟩
        0 50 eightThreads (eightThreads.setTeam r (some ⟨wholeRange 8 50,
          partitionTask _ defaultConfig (sequential _ defaultConfig 50) _ _ 0 ⟨0, 50, true⟩ r shared
            fun x => (eightThreads.thread x).sorter⟩)) :=
      .start rfl (fun _ => rfl) rfl hnew
    refine ⟨_, hstart, fun h => ?_⟩
    have hwide := (unrollable_iff (by decide) (by decide)).mp (h _ _ _ (.whole rfl team_setTeam))
    revert hwide
    decide

end ParallelSort

end Ps4o
