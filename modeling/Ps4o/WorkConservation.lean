import Ps4o.RestingTasks

/-!
# Work conservation in the parallel sort

No part of the array is lost while it is sorted in parallel, and none is sorted by two threads.

## What is proved

* `Inv` — the threads are in their places, and no work is lost. Each step keeps it (`Inv.step`), one
  lemma for each kind of step: the tasks at rest and those under way are the same ones as before, or
  the step begins with one of them, goes on with one, or ends one.
* `work_conserved` — **each position of the array is finished or belongs to one of the outstanding
  tasks**, in every state of a run in which no thread of a team is without elements.
-/

namespace Ps4o

open Ps4o.Program Ps4o.Storage Ps4o.Order Ps4o.Order.Stripes Ps4o.Order.Work

variable {A α : Type} [DecidableEq A]

/-! ### What holds of every state -/

namespace ParallelSort

section
variable (comp : α → α → Bool) (begin tmp : Ptr A) (oracle : ℕ) {t : UInt64} (xs : List α)

/-- What holds in every state that can be reached when all stripes have elements. -/
structure Inv (s : ParallelSort A α t) : Prop where
  teams : s.Teams xs.length
  places : s.Places
  scheduled : s.Scheduled
  account : ∃ finished cur, Account comp defaultConfig begin tmp oracle xs.length xs
    (s.resting xs.length) (s.running comp begin tmp oracle) s.mem finished cur

end

section
variable {comp : α → α → Bool} {begin tmp : Ptr A} {oracle : ℕ} {t : UInt64} {xs : List α}
  {s s' : ParallelSort A α t} {r x : Fin t.toNat} {p : Parent} {q : Queued} {rest : List Queued}
  {eq : Bool} {nb : ℕ} {bss : ℕ → ℕ} {shared : SharedData α} {mem' : Mem A α}
  {resting : Multiset Task} {finished : ℕ → Bool} {cur : ℕ → α} {task : Task}

theorem running_congr (hteam : ∀ r, s'.team r = s.team r)
    (hthread : ∀ x, (s'.thread x).running comp begin tmp oracle =
      (s.thread x).running comp begin tmp oracle) :
    s'.running comp begin tmp oracle = s.running comp begin tmp oracle := by
  refine funext fun i => ?_
  rcases i with r | x
  · simp only [running, hteam]
  · exact hthread x

theorem running_eq_none (h : (s.thread x).call = none) :
    (s.thread x).running comp begin tmp oracle = none := by
  rw [SortThread.running, h, Option.bind_none]

/-- A team can be sure of what it needs to partition a task. -/
theorem upholds_team (hc : StrictWeak comp) (harr : begin.arr ≠ tmp.arr)
    (ha : Account comp defaultConfig begin tmp oracle xs.length xs (task ::ₘ resting)
      (s.running comp begin tmp oracle) s.mem
      finished cur) {k : ℕ} {one : Fin k} {sorter : Fin k → Sorter α}
        (hshared : shared.classifier.Empty)
    (hsorter : ∀ i, (sorter i).data.classifier.Empty)
    (hfilled : ∀ i < k, first (task.stop - task.begin) k i <
      first (task.stop - task.begin) k (i + 1)) :
    (partitionTask comp defaultConfig (sequential comp defaultConfig xs.length)
      begin tmp oracle task one shared
      sorter).Upholds (copies A α) (task.region begin tmp oracle) s.mem fun r m' =>
        (∀ i, (r.2.2.2 i).data.classifier.Empty) ∧
          task.Split comp defaultConfig begin tmp (task.elems cur) r.1 r.2.1 r.2.2.1 m' := by
  have hmem : task ∈ (task ::ₘ resting) + tasksOf begin tmp oracle
      (s.running comp begin tmp oracle) :=
    Multiset.mem_add.mpr (.inl (Multiset.mem_cons_self _ _))
  have hbound := (ha.conserved.bounded task hmem).2
  have hk := one.isLt
  have hlast := hfilled (k - 1) (by omega)
  have hle : first (task.stop - task.begin) k (k - 1 + 1) ≤ task.stop - task.begin := first_le
  exact upholds_partitionTask hc defaultConfig_sound harr (ha.large task hmem)
    (by omega) hshared hsorter (ha.inPlace task (Multiset.mem_cons_self _ _)) (by omega)

/-- The whole range is begun with. -/
theorem Inv.start (h : s.Inv comp begin tmp oracle xs) (hc : StrictWeak comp)
    (harr : begin.arr ≠ tmp.arr) (ht : 2 ≤ t.toNat) {one : Fin t.toNat}
    (hs : s.groups.started = false) (hteam : ∀ r, s.team r = none) (hr : r.val = 0)
    (hshared : shared.classifier.Empty) (hfilled : (wholeRange t xs.length).Filled) :
    (s.setTeam r (some ⟨wholeRange t xs.length, partitionTask comp defaultConfig
      (sequential comp defaultConfig xs.length) begin
      tmp oracle ⟨0, xs.length, true⟩ one shared fun x => (s.thread x).sorter⟩)).Inv
        comp begin tmp oracle xs := by
  obtain ⟨finished, cur, ha⟩ := h.account
  refine ⟨h.teams.start hs hr, h.places.setTeam fun x _ => ?_,
    h.scheduled.congr rfl fun x => rfl, finished, cur, ?_⟩
  · by_contra hpc
    exact Bool.noConfusion (hs.symm.trans (h.places.small x hpc).1)
  · rw [resting_start h.teams ht hs hteam (r := r), Multiset.singleton_add] at ha
    rw [running_setTeam]
    refine ha.start (congrArg (Option.map _) (hteam r)) rfl ?_
    exact upholds_team hc harr ha hshared h.places.sorter hfilled

/-- A big task is begun with. -/
theorem Inv.join (h : s.Inv comp begin tmp oracle xs) (hc : StrictWeak comp)
    (harr : begin.arr ≠ tmp.arr) (ht : 2 ≤ t.toNat) {one : Fin (s.groups.taskOf r).taskNumThreads}
    {sorter : Fin (s.groups.taskOf r).taskNumThreads → Sorter α} (hr : s.groups.Outstanding r)
    (hhead : ∀ x : Fin t.toNat, (s.groups.taskOf r).Involves x → s.AtHead x)
    (hshared : shared.classifier.Empty) (hsorter : ∀ i, (sorter i).data.classifier.Empty)
    (hfilled : (s.groups.taskOf r).Filled) :
    (s.setTeam r (some ⟨s.groups.taskOf r, partitionTask comp defaultConfig
      (sequential comp defaultConfig xs.length) begin tmp
      oracle (s.groups.taskOf r).task one shared sorter⟩)).Inv comp begin tmp oracle xs := by
  obtain ⟨finished, cur, ha⟩ := h.account
  have hfirst := hhead r (h.teams.involves_owner ht hr)
  have hnone := (h.teams.idle ht hfirst).1
  refine ⟨h.teams.join ht hr hfirst, h.places.setTeam fun x hx => (hhead x hx).pc,
    h.scheduled.congr rfl fun x => rfl, finished, cur, ?_⟩
  rw [resting_join hfirst.started hr hnone, Multiset.singleton_add] at ha
  rw [running_setTeam]
  refine ha.start (congrArg (Option.map _) hnone) rfl ?_
  exact upholds_team hc harr ha hshared hsorter hfilled

/-- A team goes on. -/
theorem Inv.run (h : s.Inv comp begin tmp oracle xs) (harr : begin.arr ≠ tmp.arr)
    {team team' : SortingTeam A α p.taskNumThreads} (hw : s.team r = some ⟨p, team⟩)
    (hstep : Team.Step (copies A α) (team, s.mem) (team', mem')) :
    ({ s.setTeam r (some ⟨p, team'⟩) with mem := mem' } : ParallelSort A α t).Inv
    comp begin tmp oracle xs := by
  obtain ⟨finished, cur, ha⟩ := h.account
  have hi : s.running comp begin tmp oracle (.inl r) =
      some (TeamWork.underWay comp begin tmp oracle ⟨p, team⟩) :=
    congrArg (Option.map _) hw
  obtain ⟨hok, hm⟩ := Team.Upholds.step (ha.ok _ _ hi) hstep
  refine ⟨h.teams.run hw, h.places.run hw, h.scheduled.congr rfl fun x => rfl,
    finished, cur, ?_⟩
  rw [resting_run hw]
  have hrunning : ({ s.setTeam r (some ⟨p, team'⟩) with mem := mem' } : ParallelSort A α t).running
      comp begin tmp oracle =
      Function.update (s.running comp begin tmp oracle) (.inl r)
      (some (TeamWork.underWay comp begin tmp oracle ⟨p, team'⟩)) :=
    (running_congr (fun _ => rfl) fun _ => rfl).trans running_setTeam
  rw [hrunning]
  exact ha.step harr hi hm rfl hok

/-- The whole range has been partitioned. -/
theorem Inv.first (h : s.Inv comp begin tmp oracle xs) (ht : 2 ≤ t.toNat)
    {sorter : Fin t.toNat → Sorter α} (hs : s.groups.started = false)
    (hw : s.team r = some ⟨wholeRange t xs.length, .done (eq, bss, nb, sorter)⟩) :
    ({ s.setTeam r none with
        groups := queueWhole s.groups defaultConfig xs.length t bss nb eq
        thread := fun x => { s.thread x with sorter := sorter x } } : ParallelSort A α t).Inv
            comp begin tmp oracle xs := by
  obtain ⟨finished, cur, ha⟩ := h.account
  have hr := (h.teams.whole r _ hw hs).1
  have hi : s.running comp begin tmp oracle (.inl r) = some (TeamWork.underWay comp begin tmp oracle
      ⟨wholeRange t xs.length, .done (eq, bss, nb, sorter)⟩) := congrArg (Option.map _) hw
  obtain ⟨hsorter, hsplit⟩ := ha.ok _ _ hi s.mem (.refl _ _ _)
  obtain ⟨hbounds, finished', cur', ha'⟩ := ha.split hi hsplit
  have hb : BucketBounds eq nb xs.length bss := hbounds.bucketBounds
  have hrunning : ({ s.setTeam r none with
      groups := queueWhole s.groups defaultConfig xs.length t bss nb eq
      thread := fun x => { s.thread x with sorter := sorter x } } : ParallelSort A α t).running
        comp begin tmp oracle = Function.update (s.running comp begin tmp oracle) (.inl r) none :=
    (running_congr (fun _ => rfl) fun _ => rfl).trans running_setTeam
  refine ⟨h.teams.first ht hs hw hb, ?_, ?_, finished', cur', ?_⟩
  · refine h.places.partitioned hw (fun x => ⟨rfl, rfl, hsorter x⟩) (fun id p rest hq => ?_)
        fun x hs' =>
      Bool.noConfusion (hs.symm.trans hs')
    rw [queueWhole] at hq
    split_ifs at hq
    · exact .inl hq
    · rw [Groups.queueing_enter] at hq
      split_ifs at hq
      · exact .inr (Prod.mk.inj (Option.some.inj hq)).1.symm
      · exact .inl hq
  · exact h.scheduled.congr rfl fun x => rfl
  · rw [hrunning, resting_first h.teams ht hs hw hr
      (fun x => { s.thread x with sorter := sorter x }) fun x => rfl]
    exact ha'

/-- A big task has been partitioned. -/
theorem Inv.partitioned (h : s.Inv comp begin tmp oracle xs) (ht : 2 ≤ t.toNat)
    {sorter : Fin p.taskNumThreads → Sorter α} (hs : s.groups.started = true)
    (hw : s.team r = some ⟨p, .done (eq, bss, nb, sorter)⟩) : ({ s.setTeam r none with
        groups := s.groups.enter defaultConfig (width xs.length t.toNat) p bss nb eq } :
          ParallelSort A α t).Inv comp begin tmp oracle xs := by
  obtain ⟨finished, cur, ha⟩ := h.account
  have hi : s.running comp begin tmp oracle (.inl r) = some (TeamWork.underWay comp begin tmp oracle
      ⟨p, .done (eq, bss, nb, sorter)⟩) := congrArg (Option.map _) hw
  obtain ⟨hsorter, hsplit⟩ := ha.ok _ _ hi s.mem (.refl _ _ _)
  obtain ⟨hbounds, finished', cur', ha'⟩ := ha.split hi hsplit
  have hrunning : ({ s.setTeam r none with
      groups := s.groups.enter defaultConfig (width xs.length t.toNat) p bss nb eq } : ParallelSort
        A α t).running comp begin tmp
        oracle = Function.update (s.running comp begin tmp oracle) (.inl r) none :=
    (running_congr (fun _ => rfl) fun _ => rfl).trans running_setTeam
  refine ⟨h.teams.partitioned ht hs hw hbounds.bucketBounds, ?_, ?_, finished', cur', ?_⟩
  · refine h.places.partitioned hw (fun x => ⟨rfl, rfl, h.places.sorter x⟩)
        (fun id p' rest hq => ?_) fun x hs' htask =>
      ⟨hs', Groups.hasTask_reset_of (.inl htask)⟩
    rw [Groups.queueing_enter] at hq
    split_ifs at hq
    · exact .inr (Prod.mk.inj (Option.some.inj hq)).1.symm
    · exact .inl hq
  · exact h.scheduled.congr rfl fun x => rfl
  · rw [resting_partitioned h.teams ht hs hw, hrunning]
    exact ha'

/-- A bucket is queued. -/
theorem Inv.put (h : s.Inv comp begin tmp oracle xs) (ht : 2 ≤ t.toNat)
    (hq : s.groups.queueing r = some (p, q :: rest)) : ({ s with
        groups := s.groups.put r p q rest
        thread := fun x => { s.thread x with queue := q.emplaceInto x (s.thread x).queue } } :
          ParallelSort A α t).Inv comp begin tmp oracle xs := by
  obtain ⟨finished, cur, ha⟩ := h.account
  have hqueues := (h.teams.inv ht).queues r p _ hq
  refine ⟨h.teams.put ht hq, h.places.put h.teams ht hq, h.scheduled.put h.places h.teams ht hq,
    finished, cur, ?_⟩
  have hrunning : ({ s with
      groups := s.groups.put r p q rest
      thread := fun x => { s.thread x with queue := q.emplaceInto x (s.thread x).queue } } :
        ParallelSort A α t).running comp begin tmp oracle = s.running comp begin tmp oracle := by
    refine running_congr (fun _ => rfl) fun x => ?_
    -- a thread that gets a task does not execute one
    cases hcall : (s.thread x).call with
    | none => simp only [SortThread.running, hcall, Option.bind_none]
    | some p' =>
      have hqueue : q.emplaceInto x (s.thread x).queue = (s.thread x).queue := by
        cases q with
        | big a b task => rfl
        | small thread task =>
          refine if_neg fun heq => ?_
          obtain ⟨hle, hlt⟩ := hqueues.within _ List.mem_cons_self
          have hpc := h.places.busy x (.inr ⟨r, p, _, hq, heq ▸ hle, heq ▸ hlt⟩)
          obtain ⟨j, hj⟩ := h.places.call x (by rw [hcall]; exact Option.some_ne_none _)
          cases hpc.symm.trans hj
      simp only [SortThread.running, SortThread.job, hqueue]
  rw [resting_put h.teams ht hq, hrunning]
  exact ha

/-- A thread has queued all buckets. -/
theorem Inv.leave (h : s.Inv comp begin tmp oracle xs) (hq : s.groups.queueing r = some (p, [])) :
    ({ s with groups := s.groups.leave r } : ParallelSort A α t).Inv comp begin tmp oracle xs := by
  obtain ⟨finished, cur, ha⟩ := h.account
  refine ⟨h.teams.leave hq, h.places.leave, h.scheduled.congr rfl fun x => rfl, finished, cur, ?_⟩
  rw [resting_leave hq]
  have hrunning : ({ s with groups := s.groups.leave r } : ParallelSort A α t).running
    comp begin tmp oracle =
      s.running comp begin tmp oracle := running_congr (fun _ => rfl) fun _ => rfl
  rw [hrunning]
  exact ha

omit [DecidableEq A] in
/-- Teams do not depend on threads and the scheduler. -/
theorem Teams.setThread {n : ℕ} (h : s.Teams n) {th : SortThread A α} {mem : Mem A α}
    {scheduler : Scheduler Task} :
    ({ s.setThread x th with mem, scheduler } : ParallelSort A α t).Teams n :=
  ⟨h.groups, h.whole, h.big, h.queueing⟩

/-- A thread that executes nothing goes on: nothing happens to the work. -/
theorem Inv.idle (h : s.Inv comp begin tmp oracle xs) {th : SortThread A α}
    {scheduler : Scheduler Task} (hcall : (s.thread x).call = none) (hth : th.call = none)
    (hsorter : th.sorter = (s.thread x).sorter)
    (hfree : ¬ s.Busy x ∧ s.groups.started = true ∧ (s.groups.board.bigTasks x).hasTask = false)
    (hscheduled : ({ s.setThread x th with scheduler } : ParallelSort A α t).Scheduled)
    (hjobs : (scheduler.mGlobQueue : Multiset Task) + th.resting =
    s.scheduler.mGlobQueue + (s.thread x).resting) :
    ({ s.setThread x th with scheduler } : ParallelSort A α t).Inv comp begin tmp oracle xs := by
  obtain ⟨finished, cur, ha⟩ := h.account
  refine ⟨h.teams.setThread, h.places.setThread th s.mem scheduler hfree (fun hne => absurd hth hne)
    (hsorter ▸ h.places.sorter x), hscheduled,
    finished, cur, ?_⟩
  have hrest : ({ s.setThread x th with scheduler } : ParallelSort A α t).resting xs.length + 0 =
      s.resting xs.length + 0 :=
    resting_setThread th s.mem scheduler (by rw [add_zero, add_zero]; exact hjobs)
  rw [add_zero, add_zero] at hrest
  have hnone : th.running comp begin tmp oracle = s.running comp begin tmp oracle (.inr x) := by
    rw [running, running_eq_none hcall, SortThread.running, hth, Option.bind_none]
  have hrunning : ({ s.setThread x th with scheduler } : ParallelSort A α t).running
      comp begin tmp oracle = s.running comp begin tmp oracle :=
    (running_setThread s.mem scheduler).trans (by rw [hnone, Function.update_eq_self])
  rw [hrunning, hrest]
  exact ha

/-- A thread has no big task, and calls `processSmallTasks`. -/
theorem Inv.processSmallTasks (h : s.Inv comp begin tmp oracle xs) (hx : s.AtHead x)
    (hnone : (s.groups.board.bigTasks x).hasTask = false) :
    (s.setThread x { s.thread x with pc := some .getJob }).Inv comp begin tmp oracle xs := by
  have hcall : (s.thread x).call = none := by
    by_contra hne
    obtain ⟨j, hj⟩ := h.places.call x hne
    exact nomatch hx.pc.symm.trans hj
  refine h.idle hcall hcall rfl ⟨hx.free, hx.started, hnone⟩
    (h.scheduled.processSmallTasks hx.pc) ?_
  simp only [SortThread.resting, SortThread.job, hcall, hx.pc, Option.bind_none,
    Option.bind_some, Pc.job]

/-- A step of a thread in `getJob` or `offerJob`. -/
theorem Inv.schedule (h : s.Inv comp begin tmp oracle xs) {pc : Pc Task} {e : Event Task}
    {c : Scheduler Task} {th : Thread Task} (hpc : (s.thread x).pc = some pc)
    (hne : ∀ j, pc ≠ .execute j)
    (hstep : Thread.step t none s.scheduler ⟨pc, (s.thread x).queue⟩ = some (e, c, th)) :
    ({ s.setThread x { s.thread x with pc := some th.pc, queue := th.queue } with scheduler := c } :
      ParallelSort A α t).Inv comp begin tmp oracle xs := by
  have hcall : (s.thread x).call = none := by
    by_contra hcall
    obtain ⟨j, hj⟩ := h.places.call x hcall
    exact hne j (Option.some.inj (hpc.symm.trans hj))
  obtain ⟨hjob, hemplaced⟩ := Thread.step_job hstep hne
  have hview : Thread.step t none s.scheduler (s.thread x).view = some (e, c,
      ({ s.thread x with pc := some th.pc, queue := th.queue } : SortThread A α).view) := by
    rw [SortThread.view, hpc]
    exact hstep
  refine h.idle hcall hcall rfl (h.places.at_work (by rw [hpc]; exact Option.some_ne_none _))
    (h.scheduled.next hview) ?_
  · -- what is taken from a queue is in hand
    have hperm := Multiset.coe_eq_coe.mpr (Thread.step_spec hstep).jobs
    have hjob' := congrArg (fun l : List Task => (l : Multiset Task)) hjob
    rw [hemplaced, List.append_nil] at hperm
    simp only [← Multiset.coe_add] at hperm hjob'
    simp only [SortThread.resting, SortThread.job, hcall, hpc, Option.bind_some, Option.isNone_none,
      if_true, ← Multiset.coe_add, hjob']
    calc _ = (e.returnedJobs : Multiset Task) + (c.mGlobQueue + th.queue.jobs) +
      pc.job.toList := by abel
      _ = _ := by rw [hperm]; abel

/-- A thread begins with a small task. -/
theorem Inv.call (h : s.Inv comp begin tmp oracle xs) (hc : StrictWeak comp)
    (harr : begin.arr ≠ tmp.arr) (hpc : (s.thread x).pc = some (.execute task))
    (hcall : (s.thread x).call = none) :
    (s.setThread x { s.thread x with
      call := some (processTask comp defaultConfig (sequential comp defaultConfig xs.length)
        begin tmp oracle task (s.thread x).queue (s.thread x).sorter) }).Inv
      comp begin tmp oracle xs := by
  obtain ⟨finished, cur, ha⟩ := h.account
  set p := processTask comp defaultConfig (sequential comp defaultConfig xs.length) begin tmp
    oracle task (s.thread x).queue (s.thread x).sorter
  refine ⟨h.teams.setThread, h.places.setThread _ s.mem s.scheduler
    (h.places.at_work (by rw [hpc]; exact Option.some_ne_none _))
    (fun _ => ⟨task, hpc⟩) (h.places.sorter x),
    h.scheduled.setThread { s.thread x with call := some p } s.mem rfl, finished, cur, ?_⟩
  · have hjob : (s.thread x).job = some task := by rw [SortThread.job, hpc]; rfl
    have hjob' : ({ s.thread x with call := some p } : SortThread A α).job = some task := hjob
    have hrest : (s.setThread x { s.thread x with call := some p }).resting xs.length + {task} =
        s.resting xs.length + 0 := by
      refine resting_setThread _ s.mem s.scheduler ?_
      simp only [SortThread.resting, hcall, hjob, hjob', Option.isNone_none, Option.isNone_some,
        Option.toList_some, if_true,
        Bool.false_eq_true, if_false, List.append_nil, ← Multiset.coe_add,
        Multiset.coe_singleton, add_zero]
      abel
    rw [add_zero, add_comm, Multiset.singleton_add] at hrest
    rw [← hrest] at ha
    have hmem : task ∈ (task ::ₘ (s.setThread x { s.thread x with call := some p }).resting
        xs.length) +
        tasksOf begin tmp oracle (s.running comp begin tmp oracle) :=
        Multiset.mem_add.mpr (.inl (Multiset.mem_cons_self _ _))
    have hbound := (ha.conserved.bounded task hmem).2
    have hrunning : ({ s.thread x with call := some p } : SortThread A α).running
        comp begin tmp oracle =
        some (task.executed comp begin tmp oracle (s.thread x).queue p) := by
      rw [SortThread.running, hjob']
      rfl
    rw [show (s.setThread x { s.thread x with call := some p }).running
      comp begin tmp oracle = _ from running_setThread s.mem s.scheduler, hrunning]
    refine ha.start (running_eq_none hcall) rfl ⟨Task.length_elems cur task, ?_⟩
    exact sat_processTask_split hc defaultConfig_sound harr (ha.large task hmem)
      (by omega) (h.places.sorter x) (ha.inPlace task (Multiset.mem_cons_self _ _))

/-- A thread that executes a task knows what is known of it. -/
theorem running_eq_some (h : s.Inv comp begin tmp oracle xs)
    {p : Act A α (Sorter α × PrivateQueue Task)} (hcall : (s.thread x).call = some p) :
    ∃ task, (s.thread x).pc = some (.execute task) ∧
      s.running comp begin tmp oracle (.inr x) =
        some (task.executed comp begin tmp oracle (s.thread x).queue p) := by
  obtain ⟨task, hpc⟩ := h.places.call x (by rw [hcall]; exact Option.some_ne_none _)
  refine ⟨task, hpc, ?_⟩
  simp only [running, SortThread.running, SortThread.job, hcall, hpc, Option.bind_some]
  rfl

/-- A thread does a command. -/
theorem Inv.exec (h : s.Inv comp begin tmp oracle xs) (harr : begin.arr ≠ tmp.arr) {o : Cmd A α}
    {k : o.Ans → Act A α (Sorter α × PrivateQueue Task)} {c : ℕ} {a : o.Ans}
    (hcall : (s.thread x).call = some (.cmd o k))
    (hexec : (copies A α).exec o c s.mem = some (a, mem')) :
    ({ s.setThread x { s.thread x with call := some (k a) } with mem := mem' } :
      ParallelSort A α t).Inv comp begin tmp oracle xs := by
  obtain ⟨finished, cur, ha⟩ := h.account
  obtain ⟨task, hpc, hi⟩ := running_eq_some h hcall
  obtain ⟨hlen, hfoot, hnext⟩ := ha.ok _ _ hi
  obtain ⟨a', m', hexec', hok⟩ := hnext c
  obtain ⟨rfl, rfl⟩ := Prod.mk.inj (Option.some.inj (hexec.symm.trans hexec'))
  have hm : (copies A α).AgreeOn (task.region begin tmp oracle)ᶜ s.mem mem' := fun l hl =>
    (copies A α).exec_frame hexec fun hf => hl (hfoot hf)
  refine ⟨h.teams.setThread, h.places.setThread _ mem' s.scheduler
    (h.places.at_work (by rw [hpc]; exact Option.some_ne_none _))
    (fun _ => ⟨task, hpc⟩) (h.places.sorter x),
    h.scheduled.setThread { s.thread x with call := some (k a) } mem' rfl, finished,
    cur, ?_⟩
  · have hrest : ({ s.setThread x { s.thread x with call := some (k a) } with mem := mem' } :
        ParallelSort A α t).resting xs.length + 0 = s.resting xs.length + 0 := by
      refine resting_setThread _ mem' s.scheduler ?_
      simp only [SortThread.resting, SortThread.job, hcall, Option.isNone_some]
    rw [add_zero, add_zero] at hrest
    have hrunning : ({ s.setThread x { s.thread x with call := some (k a) } with mem := mem' } :
        ParallelSort A α t).running comp begin tmp oracle =
          Function.update (s.running comp begin tmp oracle) (.inr x)
          (some (task.executed comp begin tmp oracle (s.thread x).queue (k a))) := by
      refine (running_setThread mem' s.scheduler).trans ?_
      simp only [SortThread.running, SortThread.job, hpc, Option.bind_some]
      rfl
    rw [hrest, hrunning]
    exact ha.step harr hi hm rfl ⟨hlen, hok⟩

/-- A thread is finished with a task. -/
theorem Inv.finish (h : s.Inv comp begin tmp oracle xs) {sorter : Sorter α}
    {queue : PrivateQueue Task} (hcall : (s.thread x).call = some (.ret (sorter, queue))) :
    (s.setThread x ⟨some .getJob, queue, sorter, none⟩).Inv comp begin tmp oracle xs := by
  obtain ⟨finished, cur, ha⟩ := h.account
  obtain ⟨task, hpc, hi⟩ := running_eq_some h hcall
  obtain ⟨hlen, hsorter, eq, bss, nb, rfl, hsplit⟩ := ha.ok _ _ hi
  obtain ⟨-, finished', cur', ha'⟩ := ha.split hi hsplit
  refine ⟨h.teams.setThread, h.places.setThread _ s.mem s.scheduler
    (h.places.at_work (by rw [hpc]; exact Option.some_ne_none _))
    (fun hne => absurd rfl hne) hsorter, h.scheduled.finish hpc _ sorter none, finished', cur', ?_⟩
  have hrest : (s.setThread x ⟨some .getJob,
      (emplaced defaultConfig task bss nb eq).foldl PrivateQueue.emplace (s.thread x).queue,
      sorter, none⟩).resting xs.length + 0 = s.resting xs.length +
      emplaced defaultConfig task bss nb eq := by
    refine resting_setThread _ s.mem s.scheduler ?_
    simp only [SortThread.resting, SortThread.job, hcall, jobs_foldl_emplace, Option.bind_some,
      Pc.job, Option.isNone_none,
      Option.isNone_some, Option.toList_none, if_true, Bool.false_eq_true, if_false,
      List.append_nil, ← Multiset.coe_add, add_zero]
    abel
  rw [add_zero, add_comm] at hrest
  rw [hrest, show (s.setThread x ⟨some .getJob, _, sorter, none⟩).running
    comp begin tmp oracle = _ from running_setThread s.mem s.scheduler]
  exact ha'

/-- **Every step keeps the invariant.** -/
theorem Inv.step (h : s.Inv comp begin tmp oracle xs) (hc : StrictWeak comp)
    (harr : begin.arr ≠ tmp.arr) (ht : 2 ≤ t.toNat)
    (hs : Step comp defaultConfig begin tmp oracle xs.length s s')
    (hfilled : s'.Teams xs.length → s'.StripesFilled) : s'.Inv comp begin tmp oracle xs := by
  cases hs with
  | start hs hteam hr hshared =>
    exact h.start hc harr ht hs hteam hr hshared (hfilled (h.teams.start hs hr) _ _ team_setTeam)
  | @join r _ _ _ hr hhead hshared hsorter =>
    have hfirst := hhead r (h.teams.involves_owner ht hr)
    exact h.join hc harr ht hr hhead hshared hsorter
      (hfilled (h.teams.join ht hr hfirst) _ _ team_setTeam)
  | run hw hstep => exact h.run harr hw hstep
  | first hs hw => exact h.first ht hs hw
  | partitioned hs hw => exact h.partitioned ht hs hw
  | put hq => exact h.put ht hq
  | leave hq => exact h.leave hq
  | processSmallTasks hx hnone => exact h.processSmallTasks hx hnone
  | schedule hpc hne hstep => exact h.schedule hpc hne hstep
  | call hpc hcall => exact h.call hc harr hpc hcall
  | exec hcall hexec => exact h.exec harr hcall hexec
  | finish hcall => exact h.finish hcall

omit [DecidableEq A] in
/-- No thread is anywhere, and no team. -/
theorem Start.idle (h : s.Start begin xs) : s.Teams xs.length ∧ s.Places ∧ s.Scheduled := by
  have hteam : ∀ r w, s.team r ≠ some w := fun r w => by simp [h.team r]
  have hqueueing : ∀ id q, s.groups.queueing id ≠ some q := fun id q => by
    simp [h.groups.queueing id]
  have hbusy : ∀ x, ¬ s.Busy x := by
    rintro x (⟨r, w, hw, -⟩ | ⟨id, p, rest, hq, -⟩)
    · exact hteam r w hw
    · exact hqueueing id _ hq
  refine ⟨⟨⟨s.groups, h.groups, .refl⟩, fun r w hw => absurd hw (hteam r w),
      fun r w hw => absurd hw (hteam r w), fun id p rest hq => absurd hq (hqueueing id _)⟩,
    ⟨fun x hx => absurd hx (hbusy x), fun x hx => absurd (h.thread x).1 hx,
      fun x hx => absurd (h.thread x).2.2.1 hx, fun x => (h.thread x).2.2.2⟩, [], [], ?_⟩
  · have hview : (fun x => (s.thread x).view) = fun x =>
        ⟨.execute ⟨0, 0, true⟩, (s.thread x).queue⟩ := funext fun x => by
      rw [SortThread.view, (h.thread x).1, Option.getD_none]
    rw [h.scheduler, hview]
    refine ⟨?_, fun x hx => Bool.noConfusion hx, fun hg => absurd rfl hg,
      fun x hx => Bool.noConfusion hx, ?_, fun x hx => by cases hx⟩
    · simp [Pc.counted]
    · simp [Sched.queued, (h.thread _).2.1]

omit [DecidableEq A] in
/-- In the beginning the whole range is the only task. -/
theorem Start.resting_eq (h : s.Start begin xs) : s.resting xs.length = {⟨0, xs.length, true⟩} := by
  have hwhole : s.restingWhole xs.length = {⟨0, xs.length, true⟩} :=
    if_pos ⟨h.groups.started, fun r => by rw [h.team r, Option.isNone_none]⟩
  have hthread : ∀ x, (s.thread x).resting = [] := fun x => by
    obtain ⟨hpc, hqueue, hcall, -⟩ := h.thread x
    simp [SortThread.resting, SortThread.job, hpc, hqueue]
  have hbuckets : ∀ r, restingBuckets s.groups r = [] := fun r => by
    rw [restingBuckets, h.groups.queueing r, Option.elim_none]
  have hbig : ∀ r, s.restingBig r = 0 :=
    fun r => if_neg fun ho => Bool.noConfusion ((h.groups.noTask r).symm.trans ho.1.1)
  rw [resting, hwhole, h.scheduler]
  simp [hthread, hbuckets, hbig]

theorem Start.inv (h : s.Start begin xs) (hlarge : 2 * defaultConfig.kBaseCaseSize < xs.length) :
    s.Inv comp begin tmp oracle xs := by
  obtain ⟨hteams, hplaces, hscheduled⟩ := h.idle
  have hrunning : ∀ i, s.running comp begin tmp oracle i = none := fun i => by
    rcases i with r | x
    · rw [running, h.team r, Option.map_none]
    · exact running_eq_none (h.thread x).2.2.1
  have htasks : tasksOf begin tmp oracle (s.running comp begin tmp oracle) = 0 :=
    Finset.sum_eq_zero fun i _ => by rw [hrunning i, Option.elim_none]
  have hxs : (List.range xs.length).map (fun i => s.mem.slot (begin + i)) = xs := by
    refine List.ext_getElem (by simp) fun i hi hi' => ?_
    simp only [List.getElem_map, List.getElem_range]
    exact h.has i _ (List.getElem?_eq_getElem hi')
  refine ⟨hteams, hplaces, hscheduled, fun _ => false, fun i => s.mem.slot (begin + i), ?_⟩
  rw [h.resting_eq]
  refine ⟨?_, fun task htask => ?_, fun x _ hx => Bool.noConfusion hx,
    fun task htask => ?_, fun i w hw => ?_⟩
  · rw [htasks, add_zero]
    refine ⟨fun task htask => ?_, fun x hx => ?_, .of_eq hxs, fun x y hxy hy htask => ?_⟩
    · obtain rfl := Multiset.mem_singleton.mp htask
      exact ⟨Nat.zero_le _, le_rfl⟩
    · have hcovers : Covers Task.begin Task.stop x ⟨0, xs.length, true⟩ := ⟨Nat.zero_le x, hx⟩
      rw [← Multiset.cons_zero, Multiset.countP_cons_of_pos _ hcovers]
      rfl
    · exact absurd ⟨Nat.zero_le x, hy⟩ (htask _ (Multiset.mem_singleton_self _))
  · rw [htasks, add_zero] at htask
    obtain rfl := Multiset.mem_singleton.mp htask
    exact hlarge
  · obtain rfl := Multiset.mem_singleton.mp htask
    exact fun x _ => rfl
  · cases (hrunning i).symm.trans hw

/-- **The invariant holds in every state that is reached** while all stripes have elements. -/
theorem Start.inv_of_run (h : s.Start begin xs)
    (hlarge : 2 * defaultConfig.kBaseCaseSize < xs.length) (hc : StrictWeak comp)
    (harr : begin.arr ≠ tmp.arr) (ht : 2 ≤ t.toNat)
    (hrun : Relation.ReflTransGen (fun s s' => Step comp defaultConfig begin tmp oracle xs.length s
    s' ∧ s'.StripesFilled) s s') : s'.Inv comp begin tmp oracle xs := by
  induction hrun with
  | refl => exact h.inv hlarge
  | tail _ hs ih => exact ih.step hc harr ht hs.1 fun _ => hs.2

/-- **Work is conserved**: in every state of a parallel sort each position of the array is finished,
or belongs to one of the outstanding tasks; finished elements are in the input array, those of a
task that nobody is partitioning are in the array that it names; every task is larger than what is
sorted at once; and elements that do not belong to the same task are in order. -/
theorem work_conserved (hc : StrictWeak comp) (harr : begin.arr ≠ tmp.arr) (ht : 2 ≤ t.toNat)
    (hlarge : 2 * defaultConfig.kBaseCaseSize < xs.length) (h : s.Start begin xs)
    (hrun : Relation.ReflTransGen (fun s s' => Step comp defaultConfig begin tmp oracle xs.length s
      s' ∧ s'.StripesFilled) s s') :
    ∃ (finished : ℕ → Bool) (cur : ℕ → α),
      Conserved Task.begin Task.stop comp xs.length xs finished (s'.outstanding xs.length) cur ∧
        (∀ x < xs.length, finished x = true → s'.mem.slot (begin + x) = cur x) ∧
        (∀ task ∈ s'.resting xs.length, task.InPlace begin tmp cur s'.mem) ∧
        ∀ task ∈ s'.outstanding xs.length, 2 * defaultConfig.kBaseCaseSize <
          task.stop - task.begin := by
  have hinv : s'.Inv comp begin tmp oracle xs := h.inv_of_run hlarge hc harr ht hrun
  have htasks : tasksOf begin tmp oracle (s'.running comp begin tmp oracle) = s'.underWay :=
    tasksOf_running
  obtain ⟨finished, cur, ha⟩ := hinv.account
  rw [outstanding, ← htasks]
  exact ⟨finished, cur, ha.conserved, ha.done, ha.inPlace, ha.large⟩

end

end ParallelSort

end Ps4o
