import Ps4o.ParallelSort
import Ps4o.UnrolledStripes

/-!
# Threads of the parallel sort

Who is where in the parallel sort, whatever is in the arrays.

## What is proved

* `Teams` — the teams at work are those of the whole range, or of big tasks.
* `Places` — a thread that is busy with others has not come to `processSmallTasks`, and one that has
  come there gets no big task.
* `Scheduled` — to the scheduler, the threads that have not come to `processSmallTasks` are like
  threads that execute a task: it works as it does on its own.
* Each of them is kept by every step, if what a team returns are bucket boundaries.
-/

namespace Ps4o

open Ps4o.Program Ps4o.Storage Ps4o.Order Ps4o.Order.Stripes

/-! ### Big tasks -/

/-- Where a range has been partitioned, the boundaries of the buckets do not decrease. -/
theorem Boundaries.bucketBounds {eq : Bool} {nb n : ℕ} {bss : ℕ → ℕ} (h : Boundaries eq nb n bss) :
    BucketBounds eq nb n bss :=
  ⟨h.pos, fun he => le_trans (by omega) (h.equal he).2.1, h.zero, h.last, h.step⟩

namespace Groups

variable {cfg : Config} {n t stripe stripe' : ℕ} {g g' : Groups} {r r' id : ℕ} {p : Parent}
  {q : Queued} {rest : List Queued} {eq : Bool} {nb : ℕ} {bss : ℕ → ℕ}

@[simp] theorem taskOf_enter (r : ℕ) : (g.enter cfg stripe p bss nb eq).taskOf r = g.taskOf r := by
  rw [taskOf, taskOf, enter, Board.reset]
  dsimp only
  split_ifs <;> rfl

/-- When the buckets of a big task are queued, it is not outstanding any more; the others are. -/
theorem Inv.outstanding_enter (h : Inv stripe t g) (hr : g.Outstanding r) :
    (g.enter cfg stripe' (g.taskOf r) bss nb eq).Outstanding r' ↔ g.Outstanding r' ∧ r' ≠ r := by
  obtain ⟨hgroup, -⟩ := h.grouped hr
  have htwo := hgroup.two
  by_cases hin : r ≤ r' ∧ r' < r + g.board.threadPools r
  · have hfalse : ((g.enter cfg stripe' (g.taskOf r) bss nb eq).board.bigTasks r').hasTask =
        false :=
      hasTask_reset_of (.inr hin)
    refine iff_of_false (fun ho => Bool.noConfusion (hfalse.symm.trans ho.1))
      fun ⟨ho, hne⟩ => hne ?_
    have hroot := ho.2
    rw [hgroup.hasTask hin.1 hin.2] at hroot
    exact hroot.symm
  · have hsame : (g.enter cfg stripe' (g.taskOf r) bss nb eq).board.bigTasks r' =
      g.board.bigTasks r' := bigTasks_reset hin
    rw [Outstanding, Outstanding, hsame]
    exact ⟨fun ho => ⟨ho, by rintro rfl; exact hin ⟨le_rfl, by omega⟩⟩, And.left⟩

/-- When a bucket is queued as a big task, this is outstanding; the others are as before. -/
theorem Queues.outstanding_put (h : Queues stripe t g id p (q :: rest)) :
    (g.put id p q rest).Outstanding r ↔ g.Outstanding r ∨ ∃ b task, q = .big r b task := by
  have hwithin := h.within q List.mem_cons_self
  by_cases htakes : Takes q r
  · have hfree := h.free q List.mem_cons_self r htakes
    cases q with
    | small => exact htakes.elim
    | big a b task =>
      have hentry : (g.put id p (.big a b task) rest).board.bigTasks r =
          ⟨task.begin, task.stop, r - a, a, task.inInputArray, true⟩ := if_pos htakes
      rw [Outstanding, hentry]
      constructor
      · intro ho
        rw [show r = a from ho.2.symm]
        exact .inr ⟨b, task, rfl⟩
      · rintro (⟨htask, -⟩ | ⟨b', task', heq⟩)
        · exact Bool.noConfusion (hfree.symm.trans htask)
        · obtain ⟨rfl, -, -⟩ := Queued.big.inj heq
          exact ⟨rfl, rfl⟩
  · have hsame : (g.put id p q rest).board.bigTasks r = g.board.bigTasks r := bigTasks_put htakes
    rw [Outstanding, Outstanding, hsame]
    refine (or_iff_left ?_).symm
    rintro ⟨b, task, rfl⟩
    obtain ⟨⟨-, hab, -⟩, -⟩ := hwithin
    exact htakes ⟨le_rfl, by omega⟩

theorem Queues.taskOf_put (h : Queues stripe t g id p (q :: rest)) (hr : g.Outstanding r) :
    (g.put id p q rest).taskOf r = g.taskOf r := by
  have hnot : ¬ Takes q r := fun htakes =>
    Bool.noConfusion ((h.free q List.mem_cons_self r htakes).symm.trans hr.1)
  have hsame : (g.put id p q rest).board.bigTasks r = g.board.bigTasks r := bigTasks_put hnot
  have hpool : (g.put id p q rest).board.threadPools r = g.board.threadPools r := by
    cases q with
    | small => rfl
    | big a b task =>
      refine Function.update_of_ne ?_ _ _
      rintro rfl
      obtain ⟨⟨-, hab, -⟩, -⟩ := h.within _ List.mem_cons_self
      exact hnot ⟨le_rfl, by omega⟩
  rw [taskOf, taskOf, hsame, hpool]

theorem Queues.taskOf_big {a b : ℕ} {task : Task}
    (h : Queues stripe t g id p (.big a b task :: rest)) :
    ((g.put id p (.big a b task) rest).taskOf a).task = task := by
  obtain ⟨⟨-, hab, -⟩, -⟩ := h.within _ List.mem_cons_self
  have hentry : (g.put id p (.big a b task) rest).board.bigTasks a =
      ⟨task.begin, task.stop, a - a, a, task.inInputArray, true⟩ := if_pos ⟨le_rfl, by omega⟩
  rw [taskOf, hentry]

end Groups

variable {A α : Type}

namespace ParallelSort

variable {t : UInt64} {n : ℕ} {s s' : ParallelSort A α t}

/-! ### Teams -/

/-- The teams at work. -/
structure Teams (n : ℕ) (s : ParallelSort A α t) : Prop where
  groups : s.groups.Reachable defaultConfig n t.toNat
  whole : ∀ r w, s.team r = some w → s.groups.started = false → r.val = 0 ∧
    w.parent = wholeRange t n
  big : ∀ r w, s.team r = some w → s.groups.started = true →
    s.groups.Outstanding r ∧ w.parent = s.groups.taskOf r ∧ s.groups.queueing r = none
  /-- A thread that queues buckets is one of those that have partitioned the task. -/
  queueing : ∀ id p rest, s.groups.queueing id = some (p, rest) → p.Involves id

section
variable {r : Fin t.toNat} {p : Parent} {q : Queued} {rest : List Queued} {eq : Bool} {nb : ℕ}
  {bss : ℕ → ℕ}

theorem Teams.inv (h : s.Teams n) (ht : 2 ≤ t.toNat) : s.groups.Inv (width n t.toNat) t.toNat :=
  h.groups.inv (by omega)

/-- A team comes, changes or goes. -/
theorem Teams.setTeam (h : s.Teams n) {w : Option (TeamWork A α)}
    (hwhole : ∀ w', w = some w' → s.groups.started = false → r.val = 0 ∧ w'.parent = wholeRange t n)
    (hbig : ∀ w', w = some w' → s.groups.started = true →
      s.groups.Outstanding r ∧ w'.parent = s.groups.taskOf r ∧ s.groups.queueing r = none) :
      (s.setTeam r w).Teams n := by
  refine ⟨h.groups, fun r' w' hw hs => ?_, fun r' w' hw hs => ?_, h.queueing⟩
  · rcases eq_or_ne r' r with rfl | hne
    · exact hwhole w' (by rwa [team_setTeam] at hw) hs
    · exact h.whole r' w' (by rwa [team_setTeam_of_ne hne] at hw) hs
  · rcases eq_or_ne r' r with rfl | hne
    · exact hbig w' (by rwa [team_setTeam] at hw) hs
    · exact h.big r' w' (by rwa [team_setTeam_of_ne hne] at hw) hs

/-- A thread that owns a team at work does not queue anything, and is one of the team. -/
theorem Teams.involves (h : s.Teams n) (ht : 2 ≤ t.toNat) {w : TeamWork A α}
    (hw : s.team r = some w) :
    w.parent.Involves r ∧ w.parent.id + w.parent.taskNumThreads ≤ t.toNat := by
  cases hs : s.groups.started with
  | false =>
    obtain ⟨hr, hp⟩ := h.whole r w hw hs
    rw [hp, hr]
    exact ⟨⟨le_rfl, by dsimp only; omega⟩, by dsimp only; omega⟩
  | true =>
    obtain ⟨hout, hp, -⟩ := h.big r w hw hs
    obtain ⟨hgroup, hle⟩ := (h.inv ht).grouped hout
    have htwo := hgroup.two
    rw [hp]
    exact ⟨⟨le_rfl, by simp only [Groups.taskOf]; omega⟩, hle⟩

/-- **The threads begin with the whole range.** -/
theorem Teams.start (h : s.Teams n) (hs : s.groups.started = false) (hr : r.val = 0)
    {team : SortingTeam A α t.toNat} : (s.setTeam r (some ⟨wholeRange t n, team⟩)).Teams n := by
  refine h.setTeam (fun w hw _ => ?_) fun w _ hs' => Bool.noConfusion (hs.symm.trans hs')
  obtain rfl := Option.some.inj hw
  exact ⟨hr, rfl⟩

/-- A thread that is at the head of the loop neither owns a team at work nor queues anything. -/
theorem Teams.idle (h : s.Teams n) (ht : 2 ≤ t.toNat) (hr : s.AtHead r) :
    s.team r = none ∧ s.groups.queueing r = none := by
  refine ⟨Option.eq_none_iff_forall_ne_some.mpr fun w hw => hr.free
    (.inl ⟨r, w, hw, (h.involves ht hw).1⟩), Option.eq_none_iff_forall_ne_some.mpr ?_⟩
  rintro ⟨p, rest⟩ hq
  exact hr.free (.inr ⟨r, p, rest, hq, h.queueing r p rest hq⟩)

theorem Teams.involves_owner (h : s.Teams n) (ht : 2 ≤ t.toNat) (hout : s.groups.Outstanding r) :
    (s.groups.taskOf r).Involves r := by
  have htwo : 2 ≤ (s.groups.taskOf r).taskNumThreads := ((h.inv ht).grouped hout).1.two
  exact ⟨le_rfl, show r.val < r.val + _ by omega⟩

/-- **The threads of a big task begin with it.** -/
theorem Teams.join (h : s.Teams n) (ht : 2 ≤ t.toNat) (hout : s.groups.Outstanding r)
    (hr : s.AtHead r) {team : SortingTeam A α (s.groups.taskOf r).taskNumThreads} :
    (s.setTeam r (some ⟨s.groups.taskOf r, team⟩)).Teams n := by
  refine h.setTeam (fun w _ hs => Bool.noConfusion (hs.symm.trans hr.started)) fun w hw _ => ?_
  obtain rfl := Option.some.inj hw
  exact ⟨hout, rfl, (h.idle ht hr).2⟩

/-- **A team goes on.** -/
theorem Teams.run (h : s.Teams n) {team team' : SortingTeam A α p.taskNumThreads}
    (hw : s.team r = some ⟨p, team⟩) {mem : Mem A α} :
    ({ s.setTeam r (some ⟨p, team'⟩) with mem } : ParallelSort A α t).Teams n := by
  have hteams : (s.setTeam r (some ⟨p, team'⟩)).Teams n := by
    refine h.setTeam (fun w hw' hs => ?_) fun w hw' hs => ?_
    · obtain rfl := Option.some.inj hw'
      exact h.whole r ⟨p, team⟩ hw hs
    · obtain rfl := Option.some.inj hw'
      exact h.big r ⟨p, team⟩ hw hs
  exact ⟨hteams.groups, hteams.whole, hteams.big, hteams.queueing⟩

/-- **The whole range has been partitioned.** -/
theorem Teams.first (h : s.Teams n) (ht : 2 ≤ t.toNat) (hs : s.groups.started = false)
    {w : TeamWork A α} (hw : s.team r = some w) (hb : BucketBounds eq nb n bss)
    {thread : Fin t.toNat → SortThread A α} :
    ({ s.setTeam r none with groups := queueWhole s.groups defaultConfig n t bss nb eq, thread } :
      ParallelSort A α t).Teams n := by
  obtain ⟨g₀, hstart, hrun⟩ := h.groups
  have hnone : ∀ r', (s.setTeam r none).team r' = none := fun r' => by
    rcases eq_or_ne r' r with rfl | hne
    · exact team_setTeam
    · refine (team_setTeam_of_ne hne).trans
        (Option.eq_none_iff_forall_ne_some.mpr fun w' hw' => hne (Fin.ext ?_))
      exact (h.whole r' w' hw' hs).1.trans (h.whole r w hw hs).1.symm
  refine ⟨⟨g₀, hstart, hrun.tail (.first hs hb)⟩,
    fun r' w' hw' => absurd ((hnone r').symm.trans hw') (nomatch ·),
    fun r' w' hw' => absurd ((hnone r').symm.trans hw') (nomatch ·), fun id p rest hq => ?_⟩
  rw [queueWhole] at hq
  split_ifs at hq
  · exact h.queueing id p rest hq
  · rw [Groups.queueing_enter] at hq
    split_ifs at hq with hid
    · obtain ⟨rfl, -⟩ := Prod.mk.inj (Option.some.inj hq)
      exact ⟨hid.ge, by dsimp only at hid ⊢; omega⟩
    · exact h.queueing id p rest hq

/-- **A big task has been partitioned.** -/
theorem Teams.partitioned (h : s.Teams n) (ht : 2 ≤ t.toNat) (hs : s.groups.started = true)
    {w : TeamWork A α} (hw : s.team r = some w)
    (hb : BucketBounds eq nb (w.parent.task.stop - w.parent.task.begin) bss) :
    ({ s.setTeam r none with
      groups := s.groups.enter defaultConfig (width n t.toNat) w.parent bss nb eq } :
          ParallelSort A α t).Teams n := by
  obtain ⟨hout, hp, hq⟩ := h.big r w hw hs
  obtain ⟨g₀, hstart, hrun⟩ := h.groups
  rw [hp] at hb ⊢
  have hne : ∀ r' w', (s.setTeam r none).team r' = some w' → r' ≠ r ∧ s.team r' = some w' :=
      fun r' w' hw' => by
    rcases eq_or_ne r' r with rfl | hne
    · exact absurd (team_setTeam.symm.trans hw') (nomatch ·)
    · exact ⟨hne, (team_setTeam_of_ne hne).symm.trans hw'⟩
  refine ⟨⟨g₀, hstart, hrun.tail (.partitioned hout hq hb)⟩, fun r' w' hw' hs' => ?_,
    fun r' w' hw' _ => ?_, fun id p rest hq' => ?_⟩
  · exact Bool.noConfusion (hs.symm.trans hs')
  · obtain ⟨hne, hw'⟩ := hne r' w' hw'
    obtain ⟨hout', hp', hq'⟩ := h.big r' w' hw' hs
    refine ⟨((h.inv ht).outstanding_enter hout).mpr ⟨hout', fun h => hne (Fin.ext h)⟩,
      hp'.trans (Groups.taskOf_enter _).symm, ?_⟩
    exact (Groups.queueing_enter _).trans ((if_neg fun h => hne (Fin.ext h)).trans hq')
  · rw [Groups.queueing_enter] at hq'
    split_ifs at hq' with hid
    · obtain ⟨rfl, -⟩ := Prod.mk.inj (Option.some.inj hq')
      rw [hid, ← hp]
      have hinvolves := (h.involves ht hw).1
      rwa [show w.parent.id = r by rw [hp]; rfl]
    · exact h.queueing id p rest hq'

/-- **A bucket is queued.** -/
theorem Teams.put (h : s.Teams n) (ht : 2 ≤ t.toNat)
    (hq : s.groups.queueing r = some (p, q :: rest)) {thread : Fin t.toNat → SortThread A α} :
    ({ s with groups := s.groups.put r p q rest, thread } : ParallelSort A α t).Teams n := by
  obtain ⟨g₀, hstart, hrun⟩ := h.groups
  have hqueues := (h.inv ht).queues r p _ hq
  refine ⟨⟨g₀, hstart, hrun.tail (.put hq)⟩, h.whole, fun r' w hw hs => ?_,
    fun id p' rest' hq' => ?_⟩
  · obtain ⟨hout, hp, hnone⟩ := h.big r' w hw hs
    refine ⟨hqueues.outstanding_put.mpr (.inl hout), hp.trans (hqueues.taskOf_put hout).symm, ?_⟩
    refine (Groups.queueing_put _).trans ((if_neg fun heq => ?_).trans hnone)
    rw [heq, hq] at hnone
    cases hnone
  · rw [Groups.queueing_put] at hq'
    split_ifs at hq' with hid
    · obtain ⟨rfl, -⟩ := Prod.mk.inj (Option.some.inj hq')
      exact hid ▸ h.queueing r p _ hq
    · exact h.queueing id p' rest' hq'

/-- A thread has queued all buckets. -/
theorem Teams.leave (h : s.Teams n) (hq : s.groups.queueing r = some (p, [])) :
    ({ s with groups := s.groups.leave r } : ParallelSort A α t).Teams n := by
  obtain ⟨g₀, hstart, hrun⟩ := h.groups
  refine ⟨⟨g₀, hstart, hrun.tail (.leave hq)⟩, h.whole, fun r' w hw hs => ?_,
    fun id p' rest hq' => ?_⟩
  · obtain ⟨hout, hp, hnone⟩ := h.big r' w hw hs
    refine ⟨hout, hp, ?_⟩
    refine (Function.update_apply _ _ _ _).trans ((if_neg fun heq => ?_).trans hnone)
    rw [heq, hq] at hnone
    cases hnone
  · have hq' : Function.update s.groups.queueing r none id = some (p', rest) := hq'
    rw [Function.update_apply] at hq'
    split_ifs at hq'
    exact h.queueing id p' rest hq'

/-- What a team partitions, and how many threads it has. -/
theorem Teams.partitionCall (h : s.Teams n) {w : TeamWork A α} (hw : s.team r = some w) :
    PartitionCall defaultConfig n t.toNat defaultConfig.kUnrollClassifier
      (w.parent.task.stop - w.parent.task.begin) w.parent.taskNumThreads := by
  cases hs : s.groups.started with
  | false =>
    rw [(h.whole r w hw hs).2]
    exact .whole
  | true =>
    obtain ⟨hout, hp, -⟩ := h.big r w hw hs
    rw [hp]
    exact .task h.groups hout

/-- **No thread is without elements**, when stripes are wide. -/
theorem Teams.stripesFilled (h : s.Teams n) (ht : 2 ≤ t.toNat)
    (hwide : t.toNat + 2 ≤ width n t.toNat) : s.StripesFilled :=
  fun _ _ hw => (h.partitionCall hw).filled ht hwide

end

/-! ### Where threads are -/

/-- Where threads are. -/
structure Places (s : ParallelSort A α t) : Prop where
  busy : ∀ x : Fin t.toNat, s.Busy x → (s.thread x).pc = none
  small : ∀ x, (s.thread x).pc ≠ none → s.groups.started = true ∧
    (s.groups.board.bigTasks x).hasTask = false
  call : ∀ x, (s.thread x).call ≠ none → ∃ j, (s.thread x).pc = some (.execute j)
  sorter : ∀ x, (s.thread x).sorter.data.classifier.Empty

section
variable {r x : Fin t.toNat} {p : Parent} {q : Queued} {rest : List Queued} {eq : Bool} {nb : ℕ}
  {bss : ℕ → ℕ} {w : TeamWork A α}

/-- Threads do not become busy, and those in `processSmallTasks` get no big task. -/
theorem Places.mono (h : s.Places)
    (hthread : ∀ x, (s'.thread x).pc = (s.thread x).pc ∧ (s'.thread x).call = (s.thread x).call ∧
      (s'.thread x).sorter.data.classifier.Empty)
    (hbusy : ∀ x : Fin t.toNat, s'.Busy x → s.Busy x ∨ (s.thread x).pc = none)
    (hsmall : ∀ x : Fin t.toNat, ¬ s.Busy x → s.groups.started = true →
      (s.groups.board.bigTasks x).hasTask = false →
      s'.groups.started = true ∧ (s'.groups.board.bigTasks x).hasTask = false) : s'.Places := by
  refine ⟨fun x hx => ?_, fun x hx => ?_, fun x hx => ?_, fun x => (hthread x).2.2⟩
  · rw [(hthread x).1]
    exact (hbusy x hx).elim (h.busy x) id
  · rw [(hthread x).1] at hx
    exact hsmall x (fun hb => hx (h.busy x hb)) (h.small x hx).1 (h.small x hx).2
  · rw [(hthread x).2.1] at hx
    rw [(hthread x).1]
    exact h.call x hx

/-- **A team comes.** -/
theorem Places.setTeam (h : s.Places)
    (hfree : ∀ x : Fin t.toNat, w.parent.Involves x → (s.thread x).pc = none) :
    (s.setTeam r (some w)).Places := by
  refine h.mono (fun x => ⟨rfl, rfl, h.sorter x⟩) (fun x hx => ?_) fun x _ hs htask => ⟨hs, htask⟩
  rcases hx with ⟨r', w', hw, hx⟩ | hq
  · rcases eq_or_ne r' r with rfl | hne
    · rw [team_setTeam] at hw
      obtain rfl := Option.some.inj hw
      exact .inr (hfree x hx)
    · exact .inl (.inl ⟨r', w', (team_setTeam_of_ne hne).symm.trans hw, hx⟩)
  · exact .inl (.inr hq)

/-- A team goes on. -/
theorem Places.run (h : s.Places) {team team' : SortingTeam A α p.taskNumThreads}
    (hw : s.team r = some ⟨p, team⟩) {mem : Mem A α} :
    ({ s.setTeam r (some ⟨p, team'⟩) with mem } : ParallelSort A α t).Places := by
  refine h.mono (fun x => ⟨rfl, rfl, h.sorter x⟩) (fun x hx => .inl ?_)
    fun x _ hs htask => ⟨hs, htask⟩
  rcases hx with ⟨r', w', hw', hx⟩ | hq
  · rcases eq_or_ne r' r with rfl | hne
    · obtain rfl := Option.some.inj (team_setTeam.symm.trans hw')
      exact .inl ⟨r', _, hw, hx⟩
    · exact .inl ⟨r', w', (team_setTeam_of_ne hne).symm.trans hw', hx⟩
  · exact .inr hq

/-- **A team goes**: its threads wait for the buckets of its task to be queued, or are free. -/
theorem Places.partitioned (h : s.Places) (hw : s.team r = some w) {groups : Groups}
    {thread : Fin t.toNat → SortThread A α}
    (hthread : ∀ x, (thread x).pc = (s.thread x).pc ∧ (thread x).call = (s.thread x).call ∧
      (thread x).sorter.data.classifier.Empty)
    (hqueueing : ∀ id p rest, groups.queueing id = some (p, rest) → s.groups.queueing id =
      some (p, rest) ∨ p = w.parent)
    (hsmall : ∀ x : Fin t.toNat, s.groups.started = true →
      (s.groups.board.bigTasks x).hasTask = false →
      groups.started = true ∧ (groups.board.bigTasks x).hasTask = false) :
    ({ s.setTeam r none with groups, thread } : ParallelSort A α t).Places := by
  refine h.mono hthread (fun x hx => .inl ?_) fun x _ => hsmall x
  rcases hx with ⟨r', w', hw', hx⟩ | ⟨id, p, rest, hq, hx⟩
  · rcases eq_or_ne r' r with rfl | hne
    · exact absurd (team_setTeam.symm.trans hw') (nomatch ·)
    · exact .inl ⟨r', w', (team_setTeam_of_ne hne).symm.trans hw', hx⟩
  · rcases hqueueing id p rest hq with hq | rfl
    · exact .inr ⟨id, p, rest, hq, hx⟩
    · exact .inl ⟨r, w, hw, hx⟩

/-- **A bucket is queued.** -/
theorem Places.put (h : s.Places) (hn : s.Teams n) (ht : 2 ≤ t.toNat)
    (hq : s.groups.queueing r = some (p, q :: rest)) : ({ s with
      groups := s.groups.put r p q rest
      thread := fun x => { s.thread x with queue := q.emplaceInto x (s.thread x).queue } } :
          ParallelSort A α t).Places := by
  have hqueues := (hn.inv ht).queues r p _ hq
  refine h.mono (fun x => ⟨rfl, rfl, h.sorter x⟩) (fun x hx => .inl ?_)
    fun x hx hs htask => ⟨hs, ?_⟩
  · rcases hx with hw | ⟨id, p', rest', hq', hx⟩
    · exact .inl hw
    · rw [Groups.queueing_put] at hq'
      split_ifs at hq' with hid
      · obtain ⟨rfl, rfl⟩ := Prod.mk.inj (Option.some.inj hq')
        exact .inr ⟨r, p, _, hq, hx⟩
      · exact .inr ⟨id, p', rest', hq', hx⟩
  · -- threads that get a big task are waiting for it
    have hnot : ¬ Groups.Takes q x := fun htakes => by
      have hwithin := hqueues.within q List.mem_cons_self
      cases q with
      | small => exact htakes
      | big a b task =>
        obtain ⟨⟨ha, -, hb⟩, -⟩ := hwithin
        exact hx (.inr ⟨r, p, _, hq, ha.trans htakes.1, htakes.2.trans_le hb⟩)
    exact (congrArg BigTask.hasTask (Groups.bigTasks_put hnot)).trans htask

/-- A thread has queued all buckets. -/
theorem Places.leave (h : s.Places) :
    ({ s with groups := s.groups.leave r } : ParallelSort A α t).Places := by
  refine h.mono (fun x => ⟨rfl, rfl, h.sorter x⟩) (fun x hx => .inl ?_)
    fun x _ hs htask => ⟨hs, htask⟩
  rcases hx with hw | ⟨id, p, rest, hq, hx⟩
  · exact .inl hw
  · have hq' : Function.update s.groups.queueing r none id = some (p, rest) := hq
    rw [Function.update_apply] at hq'
    split_ifs at hq'
    exact .inr ⟨id, p, rest, hq', hx⟩

/-- A thread that has come to `processSmallTasks`. -/
theorem Places.at_work (h : s.Places) (hpc : (s.thread x).pc ≠ none) :
    ¬ s.Busy x ∧ s.groups.started = true ∧ (s.groups.board.bigTasks x).hasTask = false :=
  ⟨fun hb => hpc (h.busy x hb), h.small x hpc⟩

/-- **A thread goes on.** -/
theorem Places.setThread (h : s.Places) (th : SortThread A α) (mem : Mem A α)
    (scheduler : Scheduler Task)
    (hfree : ¬ s.Busy x ∧ s.groups.started = true ∧ (s.groups.board.bigTasks x).hasTask = false)
    (hcall : th.call ≠ none → ∃ j, th.pc = some (.execute j))
    (hsorter : th.sorter.data.classifier.Empty) :
    ({ s.setThread x th with mem, scheduler } : ParallelSort A α t).Places := by
  have hthread : ∀ {y}, y ≠ x → (s.setThread x th).thread y = s.thread y := thread_setThread_of_ne
  refine ⟨fun y hy => ?_, fun y hy => ?_, fun y hy => ?_, fun y => ?_⟩
  · rcases eq_or_ne y x with rfl | hne
    · exact absurd hy hfree.1
    · exact (congrArg SortThread.pc (hthread hne)).trans (h.busy y hy)
  · rcases eq_or_ne y x with rfl | hne
    · exact hfree.2
    · exact h.small y fun hnone => hy ((congrArg SortThread.pc (hthread hne)).trans hnone)
  · rcases eq_or_ne y x with rfl | hne
    · simp only [thread_setThread] at hy ⊢
      exact hcall hy
    · simp only [hthread hne] at hy ⊢
      exact h.call y hy
  · rcases eq_or_ne y x with rfl | hne
    · simp only [thread_setThread]
      exact hsorter
    · simp only [hthread hne]
      exact h.sorter y

end

/-! ### The scheduler -/

end ParallelSort

/-- What the scheduler sees of a thread. -/
def SortThread.view (th : SortThread A α) : Thread Task :=
  ⟨th.pc.getD (.execute ⟨0, 0, true⟩), th.queue⟩

namespace ParallelSort

variable {t : UInt64} {n : ℕ} {s s' : ParallelSort A α t} {r x : Fin t.toNat} {p : Parent}
  {q : Queued} {rest : List Queued} {th : SortThread A α}

/-- The scheduler and the threads are in a state that they could be in if there was nothing else. -/
def Scheduled (s : ParallelSort A α t) : Prop :=
  ∃ emplaced returned, (⟨s.scheduler, fun x => (s.thread x).view, emplaced,
    returned⟩ : Sched Task t).Inv

theorem Scheduled.congr (h : s.Scheduled) (hscheduler : s'.scheduler = s.scheduler)
    (hview : ∀ x, (s'.thread x).view = (s.thread x).view) : s'.Scheduled := by
  obtain ⟨emplaced, returned, hinv⟩ := h
  refine ⟨emplaced, returned, ?_⟩
  rw [hscheduler, funext hview]
  exact hinv

/-- The scheduler does not see what a thread does with a task. -/
theorem Scheduled.setThread (h : s.Scheduled) (th : SortThread A α) (mem : Mem A α)
    (hview : th.view = (s.thread x).view) :
    ({ s.setThread x th with mem } : ParallelSort A α t).Scheduled := by
  refine h.congr rfl fun y => ?_
  have hthread : ∀ {y}, y ≠ x → (s.setThread x th).thread y = s.thread y := thread_setThread_of_ne
  rcases eq_or_ne y x with rfl | hne
  · simp only [thread_setThread]
    exact hview
  · simp only [hthread hne]

/-- **A step of a thread at the scheduler.** -/
theorem Scheduled.next (h : s.Scheduled) {new : Option Task} {e : Event Task} {c : Scheduler Task}
    (hstep : Thread.step t new s.scheduler (s.thread x).view = some (e, c, th.view)) :
    ({ s.setThread x th with scheduler := c } : ParallelSort A α t).Scheduled := by
  obtain ⟨emplaced, returned, hinv⟩ := h
  refine ⟨emplaced ++ e.emplacedJobs, returned ++ e.returnedJobs, ?_⟩
  have hview : (fun y => ((s.setThread x th).thread y).view) =
      Function.update (fun y => (s.thread y).view) x th.view := by
    refine funext fun y => ?_
    rcases eq_or_ne y x with rfl | hne
    · rw [thread_setThread, Function.update_self]
    · rw [thread_setThread_of_ne hne, Function.update_of_ne hne]
  have hnext : Sched.Step (⟨s.scheduler, fun x => (s.thread x).view,
      emplaced, returned⟩ : Sched Task t)
      ⟨c, Function.update (fun y => (s.thread y).view) x th.view, emplaced ++ e.emplacedJobs,
          returned ++ e.returnedJobs⟩ :=
    ⟨x, new, by rw [Sched.next, hstep]; rfl⟩
  rw [← hview] at hnext
  exact hinv.step hnext

/-- **A bucket is queued.** -/
theorem Scheduled.put (h : s.Scheduled) (hp : s.Places) (hn : s.Teams n) (ht : 2 ≤ t.toNat)
    (hq : s.groups.queueing r = some (p, q :: rest)) :
    ({ s with
      groups := s.groups.put r p q rest
      thread := fun x => { s.thread x with queue := q.emplaceInto x (s.thread x).queue } } :
          ParallelSort A α t).Scheduled := by
  have hqueues := (hn.inv ht).queues r p _ hq
  cases q with
  | big a b task => exact h.congr rfl fun x => rfl
  | small thread task =>
    obtain ⟨hle, hlt⟩ := hqueues.within _ List.mem_cons_self
    have hx : thread < t.toNat := hlt.trans_le hqueues.le
    -- the thread that gets the task is waiting, as one that executes something
    have hpc : (s.thread ⟨thread, hx⟩).pc = none :=
      hp.busy ⟨thread, hx⟩ (.inr ⟨r, p, _, hq, hle, hlt⟩)
    have hstep : Thread.step t (some task) s.scheduler (s.thread ⟨thread, hx⟩).view =
        some (.emplaced task, s.scheduler,
        ({ s.thread ⟨thread, hx⟩ with queue := (s.thread ⟨thread, hx⟩).queue.emplace task } :
          SortThread A α).view) := by
      simp only [SortThread.view, hpc]
      rfl
    refine (h.next hstep).congr rfl fun y => ?_
    rcases eq_or_ne y ⟨thread, hx⟩ with rfl | hne
    · simp only [thread_setThread, Queued.emplaceInto, if_true]
    · have hne' : ¬ y.val = thread := fun heq => hne (Fin.ext heq)
      simp only [thread_setThread_of_ne hne, Queued.emplaceInto, if_neg hne']

/-- A thread comes to `processSmallTasks`. -/
theorem Scheduled.processSmallTasks (h : s.Scheduled) (hpc : (s.thread x).pc = none) :
    (s.setThread x { s.thread x with pc := some .getJob }).Scheduled := by
  have hstep : Thread.step t none s.scheduler (s.thread x).view =
      some (.silent, s.scheduler, ({ s.thread x with pc := some .getJob } :
        SortThread A α).view) := by
    simp only [SortThread.view, hpc]
    rfl
  exact h.next hstep

/-- A thread that is finished with a task has put its buckets into its own queue. -/
theorem Scheduled.finish (h : s.Scheduled) {j : Task} (hpc : (s.thread x).pc = some (.execute j))
    (parts : List Task) (sorter : Sorter α)
    (call : Option (Act A α (Sorter α × PrivateQueue Task))) :
    (s.setThread x ⟨some .getJob, parts.foldl PrivateQueue.emplace (s.thread x).queue,
      sorter, call⟩).Scheduled := by
  induction parts generalizing s with
  | nil =>
    have hstep : Thread.step t none s.scheduler (s.thread x).view = some (.silent, s.scheduler,
        (⟨some .getJob, (s.thread x).queue, sorter, call⟩ : SortThread A α).view) := by
      simp only [SortThread.view, hpc]
      rfl
    exact h.next hstep
  | cons task parts ih =>
    have hstep : Thread.step t (some task) s.scheduler (s.thread x).view =
        some (.emplaced task, s.scheduler,
        ({ s.thread x with queue := (s.thread x).queue.emplace task } : SortThread A α).view) := by
      simp only [SortThread.view, hpc]
      rfl
    have h' := ih (h.next hstep) (by simpa using hpc)
    refine h'.congr rfl fun y => ?_
    rcases eq_or_ne y x with rfl | hne
    · simp only [thread_setThread, List.foldl_cons]
    · simp only [thread_setThread_of_ne hne]

end ParallelSort

end Ps4o
