import Mathlib.Data.List.Sort
import Ps4o.InPlace.FetchedTasks

/-!
# The tasks of the task loop

Which subranges the task loop of the parallel in-place sort partitions and sorts, in all states that
can be reached.

## What is proved

* `taskLoop_sound` — **all threads partition the same tasks in the same order, and leave the loop
  together; what is queued is disjoint; every bucket that is not small has been partitioned or
  sorted, once, when the threads have finished**.
* `reaches_taking` — what threads reach that take turns (`advance`).
-/

namespace Ps4o.InPlace

/-! ### Runs -/

namespace TaskLoop

section
variable {ι : Type} [Fintype ι] [DecidableEq ι] {s s' : TaskLoop ι} {primary i : ι} {n : ℕ}

omit [Fintype ι] in
theorem Start.work {t : ℕ} {cfg : Config} {maxSequentialSize : ℕ} (h : s.Start primary n t) :
    s.Work cfg maxSequentialSize n primary := by
  have hwaiting : s.waiting cfg maxSequentialSize primary = [⟨0, n, 1⟩] := by
    rw [waiting, h.bigTasks, h.doing, if_pos rfl]
    rfl
  constructor
  · rw [hwaiting]
    exact List.pairwise_singleton _ _
  · simp [h.partitioned]
  · simp [h.partitioned]
  · rintro u (rfl | ⟨p, hp, -⟩)
    · rw [hwaiting]
      exact .inr List.mem_cons_self
    · rw [h.partitioned] at hp
      cases hp

omit [Fintype ι] in
theorem Start.fetched {t : ℕ} (h : s.Start primary n t) : s.Fetched := by
  refine .of_quiet (fun i hl => ?_) h.begun fun hc => ?_
  · rw [h.doing i] at hl
    split_ifs at hl <;> exact hl.elim
  · have := hc primary
    rw [h.doing, if_pos rfl] at this
    exact absurd rfl this

/-- **What holds in every reachable state.** -/
theorem Reachable.inv {cfg : Config} {kMinParallelBlocksPerThread kBlockSize : ℕ}
    (h : s.Reachable cfg kMinParallelBlocksPerThread kBlockSize primary n) : s.Rounds primary ∧
      s.Work cfg (maxSequentialSize kMinParallelBlocksPerThread kBlockSize n (Fintype.card ι))
        n primary ∧ s.Fetched := by
  obtain ⟨s₀, hstart, hrun⟩ := h
  induction hrun with
  | refl => exact ⟨hstart.rounds, hstart.work, hstart.fetched⟩
  | tail _ hnext ih =>
    obtain ⟨hr, hw, hf⟩ := ih
    cases hnext with
    | step hs => exact ⟨hr.step hs, hw.step hr hs, hf.step hr hs⟩
    | @spurious i m hs =>
      refine ⟨?_, hw.of_perm (.refl _) rfl,
        ⟨hf.distinct, hf.bound, hf.held, hf.all, hf.finished, hf.sequential, hf.quiet⟩⟩
      refine hr.advance (i := i) (w := _) (Function.update_eq_self i _).symm (hr.sync.spurious hs)
        (fun j _ => hs.other j) rfl rfl
        ((hr.placed i).congr (hs.other i).1 (hs.other i).2) (hr.took i) (hr.reads i)
          (hr.left i) fun hi => hi ▸ hr.popped

/-- The small tasks that have been sorted, or are being sorted. -/
def sortedTasks (s : TaskLoop ι) : List ParallelTask :=
  s.begun.filterMap fun e => s.smallTasks[e.2]?

/-- What the task loop does. -/
structure Sound (cfg : Config) (maxSequentialSize n : ℕ) (primary : ι) (s : TaskLoop ι) : Prop where
  /-- All threads work on the same big task in each round. -/
  same : ∀ i j (r : ℕ) t u, (s.worker i).took[r]? = some t → (s.worker j).took[r]? = some u → t = u
  /-- When one of them has left the loop, no other one has taken, or takes, another task. -/
  leave : ∀ i j, (s.worker i).doing.Left → (s.worker j).took = (s.worker i).took
  /-- What is queued is disjoint. -/
  disjoint : (s.bigTasks ++ (s.worker primary).doing.smalls s.smallTasks).Pairwise
    ParallelTask.Apart
  /-- No thread takes a big task twice. -/
  taken : ∀ i, (s.worker i).took.Nodup
  /-- No task is processed twice. -/
  once : (s.partitioned.map Prod.fst ++ s.sortedTasks).Nodup
  /-- What is due has been partitioned, or it is in a list, or about to be queued. -/
  kept : ∀ u, s.Due cfg n u → u ∈ s.partitioned.map Prod.fst ∨
    u ∈ s.waiting cfg maxSequentialSize primary
  /-- When all have finished, it has been partitioned by all threads, or sorted by one, and not
  both. -/
  processed : (∀ i, (s.worker i).doing = .finished) → ∀ u, s.Due cfg n u →
    ((∀ i, (s.worker i).took.count u = 1) ∧ s.sortedTasks.count u = 0) ∨
      ((∀ i, (s.worker i).took.count u = 0) ∧ s.sortedTasks.count u = 1)
  /-- While the primary thread changes the lists, nobody reads them. -/
  alone : (s.worker primary).doing.Queues → ∀ j, j ≠ primary →
    (∃ task, (s.worker j).doing = .partitioning task 5) ∨ (s.worker j).doing = .meeting
  /-- There is a task when one is read. -/
  reads : ∀ i, (s.worker i).doing = .reading → s.bigTasks ≠ []
  /-- The members that decide about the level are those of the task. -/
  level : ∀ i task o, (s.worker i).doing = .testing task o →
    (s.worker i).members = (task.begin, task.stop)
  /-- Some thread can go on, until all have finished. -/
  goesOn : (∀ i, (s.worker i).doing = .finished) ∨ ∃ i s', Step cfg maxSequentialSize primary i s s'

omit [DecidableEq ι] in
/-- The small tasks that have been sorted are different ones. -/
theorem nodup_processed {cfg : Config} {maxSequentialSize : ℕ} (hr : s.Rounds primary)
    (hw : s.Work cfg maxSequentialSize n primary) (hf : s.Fetched) :
    (s.partitioned.map Prod.fst ++ s.sortedTasks).Nodup := by
  by_cases hl : ∃ i, (s.worker i).doing.Left
  · obtain ⟨i, hi⟩ := hl
    have hsmalls : ∀ u ∈ s.smallTasks, u ∈ s.waiting cfg maxSequentialSize primary := by
      intro u hu
      have hnot : (s.worker primary).doing ≠ .clearing :=
        fun hc => hr.reads primary (by rw [hc]; trivial) (hr.left i hi)
      refine List.mem_append_right _ (List.mem_append_left _ ?_)
      cases hd : (s.worker primary).doing <;> first | exact hu | exact absurd hd hnot
    have hnodup : s.smallTasks.Nodup := by
      have hall := hw.apart
      have hnot : (s.worker primary).doing ≠ .clearing :=
        fun hc => hr.reads primary (by rw [hc]; trivial) (hr.left i hi)
      rw [waiting, List.pairwise_append, List.pairwise_append] at hall
      have hsmall : (s.worker primary).doing.smalls s.smallTasks = s.smallTasks := by
        cases hd : (s.worker primary).doing <;> first | rfl | exact absurd hd hnot
      rw [hsmall] at hall
      exact hall.2.1.1.imp And.left
    have hmap : s.sortedTasks = (s.begun.map Prod.snd).filterMap fun k => s.smallTasks[k]? := by
      rw [sortedTasks, List.filterMap_map]
      rfl
    refine List.Nodup.append hw.distinct ?_ fun t ht ht' => ?_
    · rw [hmap]
      refine hf.distinct.filterMap fun a b t ha hb => ?_
      obtain ⟨hlt, -⟩ := List.getElem?_eq_some_iff.mp ha
      exact (List.getElem?_inj hlt hnodup).mp (Eq.trans ha hb.symm)
    · obtain ⟨e, -, he⟩ := List.mem_filterMap.mp ht'
      obtain ⟨p, hp, rfl⟩ := List.mem_map.mp ht
      rcases hw.later p hp p.1 (hsmalls _ (List.mem_of_getElem? he)) with ha | hc
      · exact ha.1 rfl
      · exact hc.ne rfl
  · rw [sortedTasks, (hf.quiet fun i hi => hl ⟨i, hi⟩).1, List.filterMap_nil, List.append_nil]
    exact hw.distinct

omit [Fintype ι] [DecidableEq ι] in
/-- Every small task has been sorted when all threads have finished. -/
theorem Fetched.mem_sortedTasks (hf : s.Fetched) (hfinished : ∀ i, (s.worker i).doing = .finished)
    [Nonempty ι] {u : ParallelTask} (hu : u ∈ s.smallTasks) : u ∈ s.sortedTasks := by
  obtain ⟨k, hk⟩ := List.mem_iff_getElem?.mp hu
  obtain ⟨hlt, -⟩ := List.getElem?_eq_some_iff.mp hk
  obtain ⟨i⟩ := ‹Nonempty ι›
  have hindex := hlt.trans_le (hf.finished i (hfinished i))
  have hbegun := (hf.all (fun j => by rw [hfinished j]; simp) k hindex hlt).resolve_right
      fun ⟨j, hj⟩ => by
    rw [hfinished j] at hj
    cases hj
  obtain ⟨e, he, rfl⟩ := List.mem_map.mp hbegun
  exact List.mem_filterMap.mpr ⟨e, he, hk⟩

/-- **The task loop handles every subrange exactly once**, in any order of the threads' steps. -/
theorem taskLoop_sound {cfg : Config} {kMinParallelBlocksPerThread kBlockSize : ℕ}
    (h : s.Reachable cfg kMinParallelBlocksPerThread kBlockSize primary n) :
    s.Sound cfg (maxSequentialSize kMinParallelBlocksPerThread kBlockSize n (Fintype.card ι))
      n primary := by
  obtain ⟨hr, hw, hf⟩ := h.inv
  have hnodup := nodup_processed hr hw hf
  obtain ⟨hpartitioned, hsorted, hdisjoint⟩ := List.nodup_append'.mp hnodup
  have horder : s.order.Nodup := by
    rw [order]
    cases hl : s.bigTasks.getLast? with
    | none => simpa using hpartitioned
    | some t =>
      refine hpartitioned.append (List.nodup_singleton t) fun u hu hu' => ?_
      obtain rfl := List.mem_singleton.mp hu'
      obtain ⟨p, hp, rfl⟩ := List.mem_map.mp hu
      rcases hw.later p hp p.1 (List.mem_append_left _ (List.mem_of_getLast? hl)) with ha | hc
      · exact ha.1 rfl
      · exact hc.ne rfl
  have htook : ∀ i (r : ℕ) t, (s.worker i).took[r]? = some t → s.order[r]? = some t := by
    intro i r t ht
    obtain ⟨l, hl⟩ := h.inv.1.took i
    obtain ⟨hlt, -⟩ := List.getElem?_eq_some_iff.mp ht
    rw [← hl, List.getElem?_append_left hlt, ht]
  refine ⟨fun i j r t u ht hu => ?_, fun i j hi => ?_, ?_, fun i => ?_, hnodup,
    hw.kept, fun hall u hu => ?_,
    fun hq j hj => (hr.others hq hj).1, fun i hd => hr.reads i (by rw [hd]; trivial),
    fun i task o hd => ?_, hr.goesOn⟩
  · exact Option.some.inj ((htook i r t ht).symm.trans (htook j r u hu))
  · rw [hr.took_eq hi j, hr.took_eq hi i]
  · have hapart := hw.apart
    rw [waiting, ← List.append_assoc, List.pairwise_append] at hapart
    exact hapart.1
  · exact (hr.took i).sublist.nodup horder
  · have htake := hr.took_eq (i := primary) (by rw [hall]; trivial)
    have hwaiting : s.waiting cfg (maxSequentialSize kMinParallelBlocksPerThread kBlockSize n
      (Fintype.card ι)) primary =
        s.smallTasks := by
      rw [waiting, hall, hr.left primary (by rw [hall]; trivial)]
      simp only [Doing.smalls, Doing.yet, List.nil_append, List.append_nil]
    rcases hw.kept u hu with hmem | hmem
    · refine .inl ⟨fun i => ?_, List.count_eq_zero.mpr fun hs => hdisjoint hmem hs⟩
      rw [htake i]
      exact List.count_eq_one_of_mem hpartitioned hmem
    · have hs : u ∈ s.sortedTasks := haveI : Nonempty ι :=
        ⟨primary⟩; hf.mem_sortedTasks hall (hwaiting ▸ hmem)
      refine .inr ⟨fun i => ?_, List.count_eq_one_of_mem hsorted hs⟩
      rw [htake i]
      exact List.count_eq_zero.mpr fun hp => hdisjoint hp hs
  · have hplaced := hr.placed i
    simp only [Worker.Placed, hd] at hplaced
    exact hplaced.2.2.2.2

end

/-! ### Threads that take turns -/

section
variable {ι : Type} [DecidableEq ι] {cfg : Config} {maxSequentialSize : ℕ} {primary : ι}
  {split : ParallelTask → Outcome}

/-- The step of a thread in a call of the barrier, unless it is asleep. -/
def callStep (m : Meeting ι) (i : ι) : Option (Meeting ι) :=
  match (m.thread i).place with
  | .between =>
    match callAt (m.thread i).calls with
    | some .barrier => some (m.after i m.barrier.barrier)
    | some .single => some (m.after i m.barrier.single)
    | none => none
  | .running => some ((m.finish i).after i m.barrier.singleAfter)
  | .asleep _ => none
  | .awake f =>
    if f = m.barrier.flag then some (m.move i ⟨(m.thread i).calls, .asleep f⟩)
    else some (m.move i ⟨(m.thread i).calls + 1, .between⟩)
  | .notifying => some (m.notify i)

theorem callStep_sound {m m' : Meeting ι} (h : callStep m i = some m') :
    Meeting.Step callAt i m m' := by
  unfold callStep at h
  split at h
  · next hp =>
    split at h
    · next hk =>
      cases h
      exact .barrier hp hk
    · next hk =>
      cases h
      exact .single hp hk
    · cases h
  · next hp =>
    cases h
    exact .finish hp
  · cases h
  · next f hp =>
    split at h
    · next hf =>
      cases h
      exact .stay hp hf
    · next hf =>
      cases h
      exact .leave hp hf
  · next hp =>
    cases h
    exact .notify hp

/-- A step of a thread, unless it is asleep or has finished, when `split` says what the buckets
are. -/
def advance (cfg : Config) (maxSequentialSize : ℕ) (primary : ι) (split : ParallelTask → Outcome)
    (s : TaskLoop ι) (i : ι) : TaskLoop ι :=
  match (s.worker i).doing with
  | .clearing => { s with smallTasks := [], smallTaskIndex := 0 }.goTo i .reading
  | .reading => s.bigTasks.getLast?.elim s fun task =>
    s.set i { s.worker i with
      doing := .partitioning task 0
      took := (s.worker i).took ++ [task] }
  | .partitioning _ _ | .meeting => (callStep s.sync i).elim s fun m =>
    { s with sync := m }.goTo i
      (if (m.thread i).place = Place.between then (s.worker i).doing.returned (i = primary)
        else (s.worker i).doing)
  | .setting task =>
    s.set i { s.worker i with
      doing := .partitioning task 1
      members := (task.begin, task.stop) }
  | .popping task =>
    { s with
      bigTasks := s.bigTasks.dropLast
      partitioned := s.partitioned ++ [(task, split task)] }.goTo i (.testing task (split task))
  | .testing task o => s.goTo i
    (if (s.worker i).members.2 - (s.worker i).members.1 ≤ cfg.kSingleLevelThreshold then .sorting
      else .queueing task o o.lookedAt)
  | .queueing task o (c :: rest) =>
    (s.queueTask cfg maxSequentialSize (o.subtask task c)).goTo i (.queueing task o rest)
  | .queueing _ _ [] => s.goTo i .sorting
  | .sorting =>
    { s with
      smallTasks := if s.bigTasks = [] then s.smallTasks.insertionSort fun t u => u.size ≤ t.size
        else s.smallTasks }.goTo i .meeting
  | .deciding => s.goTo i (if s.bigTasks = [] then .fetching else .reading)
  | .fetching =>
    { s with smallTaskIndex := s.smallTaskIndex + 1 }.goTo i (.indexing s.smallTaskIndex)
  | .indexing k =>
    match s.smallTasks[k]? with
    | some task => { s with begun := s.begun ++ [(i, k)] }.goTo i (.sequential task)
    | none => s.goTo i .finished
  | .sequential _ => s.goTo i .fetching
  | .finished => s

theorem advance_eq_or_step (hsplit : ∀ task, (split task).Bounds task.size) (cfg : Config)
    (maxSequentialSize : ℕ) (primary i : ι) (s : TaskLoop ι) :
    s.advance cfg maxSequentialSize primary split i = s ∨
      Step cfg maxSequentialSize primary i s (s.advance cfg maxSequentialSize primary split i) := by
  have hcall : (s.worker i).doing.Calls → (callStep s.sync i).elim s (fun m =>
      { s with sync := m }.goTo i
        (if (m.thread i).place = Place.between then (s.worker i).doing.returned (i = primary)
          else (s.worker i).doing)) = s ∨
      Step cfg maxSequentialSize primary i s ((callStep s.sync i).elim s fun m =>
        { s with sync := m }.goTo i
          (if (m.thread i).place = Place.between then (s.worker i).doing.returned (i = primary)
            else (s.worker i).doing)) := by
    intro hd
    cases hm : callStep s.sync i with
    | none => exact .inl rfl
    | some m => exact .inr (.call hd (callStep_sound hm))
  unfold advance
  split
  · next hd => exact .inr (.clear hd)
  · next hd =>
    cases hb : s.bigTasks.getLast? with
    | none => exact .inl rfl
    | some task => exact .inr (.read hd hb)
  · next hd => exact hcall (by rw [hd]; trivial)
  · next hd => exact hcall (by rw [hd]; trivial)
  · next hd => exact .inr (.set hd)
  · next task hd => exact .inr (.pop hd (hsplit task))
  · next hd => exact .inr (.test hd)
  · next hd => exact .inr (.queue hd)
  · next hd => exact .inr (.queued hd)
  · next hd =>
    refine .inr (.sort hd ?_)
    split
    · have : Std.Total fun t u : ParallelTask => u.size ≤ t.size := ⟨fun t u => le_total _ _⟩
      have : IsTrans ParallelTask fun t u => u.size ≤ t.size := ⟨fun _ _ _ h h' => h'.trans h⟩
      exact ⟨List.perm_insertionSort _ _, List.pairwise_insertionSort _ _⟩
    · rfl
  · next hd => exact .inr (.decide hd)
  · next hd => exact .inr (.fetch hd)
  · next k hd =>
    split
    · next hk => exact .inr (.index hd hk)
    · next hk => exact .inr (.finish hd (List.getElem?_eq_none_iff.mp hk))
  · next hd => exact .inr (.sorted hd)
  · exact .inl rfl

/-- Whether a thread has finished. -/
def isFinished (s : TaskLoop ι) (i : ι) : Bool :=
  match (s.worker i).doing with
  | .finished => true
  | _ => false

/-- The threads take turns. -/
def taking (cfg : Config) (maxSequentialSize : ℕ) (primary : ι) (split : ParallelTask → Outcome)
    (turns : List ι) (s : TaskLoop ι) : TaskLoop ι :=
  turns.foldl (fun s i => s.advance cfg maxSequentialSize primary split i) s

theorem reaches_taking (hsplit : ∀ task, (split task).Bounds task.size) (turns : List ι)
    (s : TaskLoop ι) : Relation.ReflTransGen (Next cfg maxSequentialSize primary) s
      (s.taking cfg maxSequentialSize primary split turns) := by
  induction turns generalizing s with
  | nil => exact .refl
  | cons i turns ih =>
    have hrest := ih (s.advance cfg maxSequentialSize primary split i)
    rcases advance_eq_or_step hsplit cfg maxSequentialSize primary i s with heq | hstep
    · rw [heq] at hrest
      rwa [taking, List.foldl_cons, heq]
    · exact hrest.head (.step hstep)

end

/-- Two buckets, with three fifths of the elements in the first one. -/
def threeFifths (task : ParallelTask) : Outcome :=
  ⟨2, false, fun b => if b = 0 then 0 else if b = 1 then task.size * 3 / 5 else task.size⟩

theorem threeFifths_bounds (task : ParallelTask) : (threeFifths task).Bounds task.size where
  pos := show 1 ≤ 2 by decide
  two := nofun
  zero := rfl
  last := rfl
  step b hb := by
    have hb : b = 0 ∨ b = 1 := by
      change b < 2 at hb
      omega
    rcases hb with rfl | rfl
    · exact Nat.zero_le _
    · change task.size * 3 / 5 ≤ task.size
      omega
  even := nofun

/-- Two threads begin to sort 100000 elements; a small task of an earlier call is left. The primary
thread is `true`. -/
def twoStart : TaskLoop Bool :=
  ⟨.idle 2 true, [⟨0, 100000, 1⟩], [⟨5, 50, 2⟩], 1,
    fun i => ⟨if i then .clearing else .reading, (0, 0), []⟩, [], []⟩

theorem twoStart_start : Start true 100000 2 twoStart :=
  ⟨⟨true, rfl⟩, rfl, fun _ => rfl, fun _ => rfl, rfl, rfl⟩

/-- They partition all elements, and then the larger part of them again, and sort what is left. -/
def twoFinished : TaskLoop Bool :=
  twoStart.taking defaultConfig (maxSequentialSize 4 256 100000 2) true threeFifths
    (List.replicate 70 [true, false]).flatten

theorem twoFinished_sound :
    twoFinished.Sound defaultConfig (maxSequentialSize 4 256 100000 2) 100000 true ∧
      (∀ i, twoFinished.isFinished i = true) ∧
      (∀ i, (twoFinished.worker i).took = [⟨0, 100000, 1⟩, ⟨0, 60000, 2⟩]) ∧
      twoFinished.sortedTasks = [⟨60000, 100000, 2⟩, ⟨0, 36000, 3⟩, ⟨36000, 60000, 3⟩] :=
  ⟨taskLoop_sound ⟨twoStart, twoStart_start, reaches_taking threeFifths_bounds _ _⟩,
    by decide +kernel, by decide +kernel, by decide +kernel⟩

end TaskLoop

end Ps4o.InPlace
