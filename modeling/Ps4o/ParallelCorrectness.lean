import Ps4o.WorkConservation

/-!
# The parallel sort sorts

Before the threads begin, the sorter has made sure that there are several of them, that there are
enough elements for each, and that they are not sorted already; this changes nothing in memory.

## What is proved

* `Start.run_filled` — when the stripes of the whole range are wide enough, no team has a thread
  without elements, in any run.
* `parallelSort_sorts` — **when all threads have returned from `processSmallTasks`, the array is
  sorted**, whatever they have done in which order.
* `Start.exists_done` — there is a run in which they all return, for an array that is partitioned
  once: the team goes on to its result, and each thread finds that there is nothing to do.
-/

namespace Ps4o

open Ps4o.Program Ps4o.Storage Ps4o.Order Ps4o.Order.Stripes Ps4o.Order.Work

variable {A α : Type} [DecidableEq A]

namespace ParallelSort

section
variable {comp : α → α → Bool} {begin tmp : Ptr A} {oracle : ℕ} {t : UInt64} {xs : List α}
  {s s' : ParallelSort A α t}

/-- A run that never leaves a thread without elements. -/
theorem Start.run_filled (h : s.Start begin xs)
    (hlarge : 2 * defaultConfig.kBaseCaseSize < xs.length) (hc : StrictWeak comp)
    (harr : begin.arr ≠ tmp.arr) (ht : 2 ≤ t.toNat) (hwide : t.toNat + 2 ≤ width xs.length t.toNat)
    (hrun : Relation.ReflTransGen (Step comp defaultConfig begin tmp oracle xs.length) s s') :
    Relation.ReflTransGen
      (fun s s' => Step comp defaultConfig begin tmp oracle xs.length s s' ∧ s'.StripesFilled)
      s s' ∧ s'.Inv comp begin tmp oracle xs := by
  induction hrun with
  | refl => exact ⟨.refl, h.inv hlarge⟩
  | tail _ hstep ih =>
    have hinv := ih.2.step hc harr ht hstep fun hteams => hteams.stripesFilled ht hwide
    exact ⟨ih.1.tail ⟨hstep, hinv.teams.stripesFilled ht hwide⟩, hinv⟩

/-- **When all threads are done, nothing is left.** -/
theorem Inv.done (h : s.Inv comp begin tmp oracle xs) (ht : 2 ≤ t.toNat) (hdone : s.Done) :
    s.resting xs.length = 0 ∧ ∀ i, s.running comp begin tmp oracle i = none := by
  have hpc : ∀ x, (s.thread x).pc ≠ none := fun x => by rw [hdone x]; exact Option.some_ne_none _
  have hcall : ∀ x, (s.thread x).call = none := fun x => by
    by_contra hne
    obtain ⟨j, hj⟩ := h.places.call x hne
    exact nomatch (hdone x).symm.trans hj
  have hbusy : ∀ x : Fin t.toNat, ¬ s.Busy x := fun x hb => hpc x (h.places.busy x hb)
  have hteam : ∀ r, s.team r = none := fun r => Option.eq_none_iff_forall_ne_some.mpr fun w hw =>
    hbusy r (.inl ⟨r, w, hw, (h.teams.involves ht hw).1⟩)
  have hqueueing : ∀ r : Fin t.toNat, s.groups.queueing r = none :=
      fun r => Option.eq_none_iff_forall_ne_some.mpr fun e hq =>
    hbusy r (.inr ⟨r, e.1, e.2, hq, h.teams.queueing r e.1 e.2 hq⟩)
  obtain ⟨emplaced, returned, hsched⟩ := h.scheduled
  have hview : (s.thread ⟨0, by omega⟩).view.pc = .done := by
    rw [SortThread.view, hdone, Option.getD_some]
  obtain ⟨hglob, hseeking⟩ := hsched.stopped ⟨0, by omega⟩ hview
  have hqueue : ∀ x, (s.thread x).queue.jobs = [] := fun x => hsched.own x (hseeking x)
  have hthread : ∀ x, (s.thread x).resting = [] := fun x => by
    rw [SortThread.resting, hqueue x, SortThread.job, hdone x, hcall x]
    rfl
  have hstarted := (h.places.small ⟨0, by omega⟩ (hpc _)).1
  have hbig : ∀ r, s.restingBig r = 0 := fun r =>
    if_neg fun ho => Bool.noConfusion ((h.places.small r (hpc r)).2.symm.trans ho.1.1)
  have hbuckets : ∀ r : Fin t.toNat, restingBuckets s.groups r = [] := fun r => by
    rw [restingBuckets, hqueueing r, Option.elim_none]
  refine ⟨?_, fun i => ?_⟩
  · have hglob' : s.scheduler.mGlobQueue = [] := hglob
    rw [resting, restingWhole_started hstarted, hglob']
    simp [hthread, hbuckets, hbig]
  · rcases i with r | x
    · rw [running, hteam r, Option.map_none]
    · exact running_eq_none (hcall x)

omit [DecidableEq A] in
/-- As many elements as are needed for several threads leave wide stripes. -/
theorem wide_of_numThreadsFor {n k : ℕ} (hk : 2 ≤ k) (hk' : k ≤ 256)
    (hn : Config.numThreadsFor n 8 k = k) :
    2 * defaultConfig.kUnrollClassifier + k ≤ width n k ∧ 2 * defaultConfig.kBaseCaseSize < n := by
  have hblocks : 4 * k ≤ n * 8 / (2 <<< 10) := by
    by_contra hlt
    rw [Config.numThreadsFor, if_pos (Nat.lt_of_not_le hlt)] at hn
    omega
  have hsize : 1024 * k ≤ n := by
    have := Nat.div_mul_le_self (n * 8) (2 <<< 10)
    rw [show 2 <<< 10 = 2048 from rfl] at hblocks this
    omega
  refine ⟨?_, ?_⟩
  · rw [width, Nat.le_div_iff_mul_le (by omega)]
    have hmul : (2 * defaultConfig.kUnrollClassifier + k) * k ≤ 1024 * k :=
      Nat.mul_le_mul_right k (show 2 * 7 + k ≤ 1024 by omega)
    omega
  · change 2 * 16 < n
    omega

/-- **The parallel sort sorts**: with the default configuration, elements of eight bytes, at most
256 threads, and as many elements as `numThreadsFor` asks for, the array is sorted when all threads
have returned from `processSmallTasks`. -/
theorem parallelSort_sorts (hc : StrictWeak comp) (harr : begin.arr ≠ tmp.arr) (ht : 2 ≤ t.toNat)
    (ht' : t.toNat ≤ 256) (hn : Config.numThreadsFor xs.length 8 t.toNat = t.toNat)
    (h : s.Start begin xs)
    (hrun : Relation.ReflTransGen (Step comp defaultConfig begin tmp oracle xs.length) s s')
    (hdone : s'.Done) : ∃ ys : List α, ys.Perm xs ∧ Sorted comp ys ∧ Has s'.mem begin ys := by
  obtain ⟨hwide, hlarge⟩ := wide_of_numThreadsFor ht ht' hn
  have hinv := (h.run_filled hlarge hc harr ht
    (le_trans (show t.toNat + 2 ≤ 2 * 7 + t.toNat by omega) hwide) hrun).2
  obtain ⟨finished, cur, ha⟩ := hinv.account
  obtain ⟨hrest, hrunning⟩ := hinv.done ht hdone
  exact ha.sorted hrest hrunning

/-! ### A run in which all threads return -/

/-- A team goes on to the end. -/
theorem steps_of_team {r : Fin t.toNat} {p : Parent} {team : SortingTeam A α p.taskNumThreads}
    {e : SortingTeam A α p.taskNumThreads × Mem A α} (hw : s.team r = some ⟨p, team⟩)
    (hrun : Relation.ReflTransGen (Team.Step (copies A α)) (team, s.mem) e) :
    Relation.ReflTransGen (Step comp defaultConfig begin tmp oracle xs.length) s
      { s.setTeam r (some ⟨p, e.1⟩) with mem := e.2 } := by
  induction hrun with
  | refl =>
    have hs : ({ s.setTeam r (some ⟨p, team⟩) with mem := s.mem } : ParallelSort A α t) = s := by
      rw [setTeam, ← hw, Function.update_eq_self]
    rw [hs]
  | @tail e₁ e₂ _ hstep ih =>
    have hstep' : Step comp defaultConfig begin tmp oracle xs.length
        ({ s.setTeam r (some ⟨p, e₁.1⟩) with mem := e₁.2 } : ParallelSort A α t) _ :=
          .run team_setTeam hstep
    simp only [setTeam, Function.update_idem] at hstep' ih ⊢
    exact ih.tail hstep'

/-- Nothing is left to do. -/
structure Ending (s : ParallelSort A α t) : Prop where
  started : s.groups.started = true
  noTask : ∀ x, (s.groups.board.bigTasks x).hasTask = false
  free : ∀ x, ¬ s.Busy x
  glob : s.scheduler.mGlobQueue = []
  jobs : ∀ x, (s.thread x).queue.jobs = []

/-- A thread takes a step at the scheduler when nothing is left to do. -/
theorem Ending.schedule (h : s.Ending) {x : Fin t.toNat} {a b : Pc Task} {k : UInt64}
    (hpc : (s.thread x).pc = some a) (hne : ∀ j, a ≠ .execute j)
    (hstep : Thread.step t none s.scheduler ⟨a, (s.thread x).queue⟩ =
      some (.silent, ⟨[], k⟩, ⟨b, (s.thread x).queue⟩)) :
    ∃ s', Step comp defaultConfig begin tmp oracle xs.length s s' ∧ s'.Ending ∧
    (s'.thread x).pc = some b ∧ ∀ y, y ≠ x → (s'.thread y).pc = (s.thread y).pc := by
  refine ⟨_, .schedule hpc hne hstep, ⟨h.started, h.noTask, h.free, rfl, fun y => ?_⟩,
    ?_, fun y hy => ?_⟩
  · rcases eq_or_ne y x with rfl | hne
    · simp only [thread_setThread]
      exact h.jobs y
    · simp only [thread_setThread_of_ne hne]
      exact h.jobs y
  · simp only [thread_setThread]
  · simp only [thread_setThread_of_ne hy]

omit [DecidableEq A] in
theorem Ending.scheduler_eq (h : s.Ending) : s.scheduler = ⟨[], s.scheduler.mNumIdleThreads⟩ := by
  rw [← h.glob]

/-- A thread calls `processSmallTasks` when nothing is left to do. -/
theorem Ending.processSmallTasks (h : s.Ending) {x : Fin t.toNat} (hpc : (s.thread x).pc = none) :
    ∃ s', Step comp defaultConfig begin tmp oracle xs.length s s' ∧ s'.Ending ∧
    (s'.thread x).pc = some .getJob ∧ ∀ y, y ≠ x → (s'.thread y).pc = (s.thread y).pc := by
  refine ⟨_, .processSmallTasks ⟨h.started, hpc, h.free x⟩ (h.noTask x),
    ⟨h.started, h.noTask, h.free, h.glob, fun y => ?_⟩, ?_, fun y hy => ?_⟩
  · rcases eq_or_ne y x with rfl | hne
    · rw [thread_setThread]
      exact h.jobs y
    · rw [thread_setThread_of_ne hne]
      exact h.jobs y
  · rw [thread_setThread]
  · rw [thread_setThread_of_ne hy]

/-- When all threads look for something to do for the last time, all of them are counted. -/
theorem Inv.idle_eq (h : s.Inv comp begin tmp oracle xs)
    (hpc : ∀ x, (s.thread x).pc = some .checkIdle ∨ (s.thread x).pc = some .done) :
    s.scheduler.mNumIdleThreads = t := by
  obtain ⟨emplaced, returned, hsched⟩ := h.scheduled
  have hcounted : ∀ x, (s.thread x).view.pc.counted = true := fun x => by
    rw [SortThread.view]
    rcases hpc x with hx | hx <;> rw [hx] <;> rfl
  have hidle : s.scheduler.mNumIdleThreads.toNat = ∑ x, (s.thread x).view.pc.counted.toNat :=
    hsched.idle
  rw [Finset.sum_congr rfl fun x _ => by rw [hcounted x, Bool.toNat_true], Finset.sum_const,
    Finset.card_univ, Fintype.card_fin, smul_eq_mul, mul_one] at hidle
  exact UInt64.toNat_inj.mp hidle

section
variable (hc : StrictWeak comp) (harr : begin.arr ≠ tmp.arr) (ht : 2 ≤ t.toNat)
  (hwide : t.toNat + 2 ≤ width xs.length t.toNat)
include hc harr ht hwide

/-- When each thread can go on from one place to the next one, all of them can. -/
theorem Ending.advance (a b : Option (Pc Task)) (h : s.Ending)
    (hinv : s.Inv comp begin tmp oracle xs)
    (hstep : ∀ (s : ParallelSort A α t) x, s.Inv comp begin tmp oracle xs → s.Ending →
    (∀ y, (s.thread y).pc = a ∨ (s.thread y).pc = b) →
      (s.thread x).pc = a → ∃ s', Step comp defaultConfig begin tmp oracle xs.length s s' ∧
        s'.Ending ∧ (s'.thread x).pc = b ∧
        ∀ y, y ≠ x → (s'.thread y).pc = (s.thread y).pc)
    (ha : ∀ x, (s.thread x).pc = a) :
    ∃ s', Relation.ReflTransGen (Step comp defaultConfig begin tmp oracle xs.length) s s' ∧
      s'.Inv comp begin tmp oracle xs ∧ s'.Ending ∧ ∀ x, (s'.thread x).pc = b := by
  have hlist : ∀ l : List (Fin t.toNat), l.Nodup → ∃ s',
      Relation.ReflTransGen (Step comp defaultConfig begin tmp oracle xs.length) s s' ∧
        s'.Inv comp begin tmp oracle xs ∧ s'.Ending ∧
        (∀ x ∈ l, (s'.thread x).pc = b) ∧ ∀ x, x ∉ l → (s'.thread x).pc = a := by
    intro l
    induction l with
    | nil =>
      exact fun _ => ⟨s, .refl, hinv, h, fun x hx => absurd hx List.not_mem_nil, fun x _ => ha x⟩
    | cons x l ih =>
      intro hnodup
      obtain ⟨hx, hl⟩ := List.nodup_cons.mp hnodup
      obtain ⟨s₁, hrun, hinv₁, h₁, hb, ha₁⟩ := ih hl
      have hplace : ∀ y, (s₁.thread y).pc = a ∨ (s₁.thread y).pc = b := fun y =>
        (em (y ∈ l)).elim (fun hy => .inr (hb y hy)) fun hy => .inl (ha₁ y hy)
      obtain ⟨s₂, hs, h₂, hx₂, hother⟩ := hstep s₁ x hinv₁ h₁ hplace (ha₁ x hx)
      have hinv₂ := hinv₁.step hc harr ht hs fun hteams => hteams.stripesFilled ht hwide
      refine ⟨s₂, hrun.tail hs, hinv₂, h₂, fun y hy => ?_, fun y hy => ?_⟩
      · rcases List.mem_cons.mp hy with rfl | hy
        · exact hx₂
        · rw [hother y fun heq => hx (heq ▸ hy)]
          exact hb y hy
      · obtain ⟨hne, hy⟩ := not_or.mp (mt List.mem_cons.mpr hy)
        rw [hother y hne]
        exact ha₁ y hy
  obtain ⟨s', hrun, hinv', h', hb, -⟩ := hlist (List.finRange t.toNat) (List.nodup_finRange _)
  exact ⟨s', hrun, hinv', h', fun x => hb x (List.mem_finRange x)⟩

/-- **Threads that find nothing to do all return.** -/
theorem Ending.exists_done (h : s.Ending) (hinv : s.Inv comp begin tmp oracle xs)
    (hpc : ∀ x, (s.thread x).pc = none) :
    ∃ s', Relation.ReflTransGen (Step comp defaultConfig begin tmp oracle xs.length) s s' ∧
    s'.Done := by
  obtain ⟨s₁, hrun₁, hinv₁, h₁, hpc₁⟩ := h.advance hc harr ht hwide none (some .getJob) hinv
    (fun s x _ h _ hx => h.processSmallTasks hx) hpc
  obtain ⟨s₂, hrun₂, hinv₂, h₂, hpc₂⟩ :=
    h₁.advance hc harr ht hwide (some .getJob) (some .tryPop) hinv₁
    (fun s x _ h _ hx => h.schedule hx (by simp) (by
      rw [Thread.step, ← h.scheduler_eq]
      exact if_neg (by simpa using h.jobs x))) hpc₁
  obtain ⟨s₃, hrun₃, hinv₃, h₃, hpc₃⟩ :=
    h₂.advance hc harr ht hwide (some .tryPop) (some .signalIdle) hinv₂
    (fun s x _ h _ hx => h.schedule hx (by simp) (by
      rw [h.scheduler_eq]
      rfl)) hpc₂
  obtain ⟨s₄, hrun₄, hinv₄, h₄, hpc₄⟩ :=
    h₃.advance hc harr ht hwide (some .signalIdle) (some .checkIdle) hinv₃
    (fun s x _ h _ hx => h.schedule hx (by simp) (by
      rw [h.scheduler_eq]
      rfl)) hpc₃
  obtain ⟨s₅, hrun₅, -, -, hpc₅⟩ := h₄.advance hc harr ht hwide (some .checkIdle) (some .done) hinv₄
    (fun s x hinv h hall hx => h.schedule hx (by simp) (by
      rw [Thread.step, ← h.scheduler_eq]
      exact if_neg (by simpa using hinv.idle_eq hall))) hpc₄
  exact ⟨s₅, (((hrun₁.trans hrun₂).trans hrun₃).trans hrun₄).trans hrun₅, hpc₅⟩

end

omit [DecidableEq A] in
/-- When the array has been partitioned and nothing of it is left, the threads can all return. -/
theorem Start.ending (h : s.Start begin xs)
    (hlevel : xs.length ≤ defaultConfig.kSingleLevelThreshold) {r : Fin t.toNat} {m : Mem A α}
    {bss : ℕ → ℕ} {nb : ℕ} {eq : Bool} {sorter : Fin t.toNat → Sorter α} :
    Ending ({ s.setTeam r none with
      mem := m
      groups := queueWhole s.groups defaultConfig xs.length t bss nb eq
      thread := fun x => { s.thread x with sorter := sorter x } } : ParallelSort A α t) := by
  have hqueue : queueWhole s.groups defaultConfig xs.length t bss nb eq =
    { s.groups with started := true } := if_pos hlevel
  have hteam : ∀ y, (s.setTeam r none).team y = none := fun y => by
    rcases eq_or_ne y r with rfl | hne
    · exact team_setTeam
    · rw [team_setTeam_of_ne hne]
      exact h.team y
  refine ⟨by rw [hqueue], fun x => ?_, fun x hbusy => ?_, ?_, fun x => (h.thread x).2.1⟩
  · rw [hqueue]
    exact h.groups.noTask x
  · rw [hqueue] at hbusy
    rcases hbusy with ⟨y, w, hw, -⟩ | ⟨y, p, rest, hq, -⟩
    · exact nomatch (hteam y).symm.trans hw
    · exact nomatch (h.groups.queueing y).symm.trans hq
  · change s.scheduler.mGlobQueue = []
    rw [h.scheduler]

omit [DecidableEq A] in
/-- While the threads are at work on the whole range, nothing else is outstanding. -/
theorem Start.outstanding_team (h : s.Start begin xs) (ht : 2 ≤ t.toNat) (r : Fin t.toNat)
    {team : SortingTeam A α (wholeRange t xs.length).taskNumThreads} {mem : Mem A α} :
    ({ s.setTeam r (some ⟨wholeRange t xs.length, team⟩) with mem } :
      ParallelSort A α t).outstanding xs.length = {⟨0, xs.length, true⟩} := by
  have hresting : (s.setTeam r (some ⟨wholeRange t xs.length, team⟩)).resting xs.length = 0 := by
    have hstart := resting_start (w := ⟨wholeRange t xs.length, team⟩) (r := r) h.idle.1 ht
      h.groups.started h.team
    rw [h.resting_eq] at hstart
    exact add_eq_left.mp hstart.symm
  have hteams : ∑ r', ((s.setTeam r (some ⟨wholeRange t xs.length, team⟩)).team r').elim 0
      (fun w => ({w.parent.task} : Multiset Task)) = {⟨0, xs.length, true⟩} := by
    rw [Finset.sum_eq_single r]
    · rw [team_setTeam]
      rfl
    · intro r' _ hne
      rw [team_setTeam_of_ne hne, h.team, Option.elim_none]
    · intro hr
      exact absurd (Finset.mem_univ r) hr
  have hthreads : ∀ x, ((s.thread x).underWay : Multiset Task) = 0 := fun x => by
    rw [SortThread.underWay, (h.thread x).2.2.1]
    rfl
  have hunderWay : (s.setTeam r (some ⟨wholeRange t xs.length, team⟩)).underWay =
      {⟨0, xs.length, true⟩} := by
    rw [underWay, hteams]
    exact (congrArg _ (Finset.sum_eq_zero fun x _ => hthreads x)).trans (add_zero _)
  calc _ = (s.setTeam r (some ⟨wholeRange t xs.length, team⟩)).outstanding xs.length := rfl
    _ = {⟨0, xs.length, true⟩} := by rw [outstanding, hresting, hunderWay, zero_add]

/-- The threads partition the array, and have yet to return. -/
theorem Start.exists_distributed (h : s.Start begin xs) (tmp : Ptr A) (oracle : ℕ)
    (hlarge : 2 * defaultConfig.kBaseCaseSize < xs.length) (hc : StrictWeak comp)
    (harr : begin.arr ≠ tmp.arr) (ht : 2 ≤ t.toNat)
    (hwide : 2 * defaultConfig.kUnrollClassifier + t.toNat ≤ width xs.length t.toNat) :
    ∃ (r : Fin t.toNat) (m : Mem A α) (eq : Bool) (bss : ℕ → ℕ) (nb : ℕ)
      (sorter : Fin t.toNat → Sorter α),
      Relation.ReflTransGen (Step comp defaultConfig begin tmp oracle xs.length) s
        { s.setTeam r (some ⟨wholeRange t xs.length, .done (eq, bss, nb, sorter)⟩) with
          mem := m } := by
  let r : Fin t.toNat := ⟨0, by omega⟩
  let shared : SharedData α := ⟨fun _ _ => 0, fun _ => 0, 0, false,
    (s.thread r).sorter.data.classifier⟩
  let team := partitionTask comp defaultConfig (sequential comp defaultConfig xs.length) begin tmp
    oracle ⟨0, xs.length, true⟩ r shared fun x => (s.thread x).sorter
  have hstart : Step comp defaultConfig begin tmp oracle xs.length s
      (s.setTeam r (some ⟨wholeRange t xs.length, team⟩)) :=
    .start h.groups.started h.team rfl (h.thread r).2.2.2
  have hinPlace : (⟨0, xs.length, true⟩ : Task).InPlace begin tmp
    (fun i => s.mem.slot (begin + i)) s.mem := fun _ _ => rfl
  have hwhole : PartitionCall defaultConfig xs.length t.toNat _ xs.length t.toNat := .whole
  have hfilled : (t.toNat - 1) * width xs.length t.toNat < xs.length :=
    (hwhole.spread ht (by omega)).2.2
  have hlast : first xs.length t.toNat (t.toNat - 1) + defaultConfig.kUnrollClassifier ≤
      xs.length := by
    have hle := first_last_le ht hfilled hwide
    have hn : first xs.length t.toNat (t.toNat - 1) ≤ xs.length := first_le
    omega
  have hsat : team.Sat (copies A α)
      ((⟨0, xs.length, true⟩ : Task).region begin tmp oracle) s.mem _ :=
    sat_partitionTask hc defaultConfig_sound harr hlarge le_rfl (h.thread r).2.2.2
    (fun x => (h.thread x).2.2.2) hinPlace hlast
  obtain ⟨⟨eq, bss, nb, sorter⟩, m, hruns⟩ := hsat.exists_run
  have hteam : Relation.ReflTransGen (Step comp defaultConfig begin tmp oracle xs.length)
      (s.setTeam r (some ⟨wholeRange t xs.length, team⟩)) _ := steps_of_team team_setTeam hruns
  exact ⟨r, m, eq, bss, nb, sorter, by simpa only [setTeam,
    Function.update_idem] using hteam.head hstart⟩

/-- The threads partition the array, and return. -/
theorem Start.exists_partitioned (h : s.Start begin xs)
    (hlarge : 2 * defaultConfig.kBaseCaseSize < xs.length) (hc : StrictWeak comp)
    (harr : begin.arr ≠ tmp.arr) (ht : 2 ≤ t.toNat)
    (hwide : 2 * defaultConfig.kUnrollClassifier + t.toNat ≤ width xs.length t.toNat) :
    ∃ (r : Fin t.toNat) (m : Mem A α) (eq : Bool) (bss : ℕ → ℕ) (nb : ℕ)
      (sorter : Fin t.toNat → Sorter α),
      Relation.ReflTransGen (Step comp defaultConfig begin tmp oracle xs.length) s
        { s.setTeam r none with
        mem := m
        groups := queueWhole s.groups defaultConfig xs.length t bss nb eq
        thread := fun x => { s.thread x with sorter := sorter x } } := by
  obtain ⟨r, m, eq, bss, nb, sorter, hrun⟩ := h.exists_distributed tmp oracle hlarge hc harr
    ht hwide
  have hfirst := hrun.tail (.first h.groups.started team_setTeam)
  exact ⟨r, m, eq, bss, nb, sorter, by simpa only [setTeam, Function.update_idem] using hfirst⟩

/-- **There is a run in which all threads return**, for an array of which nothing is left when it
has been partitioned once. -/
theorem Start.exists_done (h : s.Start begin xs)
    (hlarge : 2 * defaultConfig.kBaseCaseSize < xs.length)
    (hlevel : xs.length ≤ defaultConfig.kSingleLevelThreshold) (hc : StrictWeak comp)
    (harr : begin.arr ≠ tmp.arr) (ht : 2 ≤ t.toNat)
    (hwide : 2 * defaultConfig.kUnrollClassifier + t.toNat ≤ width xs.length t.toNat) :
    ∃ s', Relation.ReflTransGen (Step comp defaultConfig begin tmp oracle xs.length) s s' ∧
    s'.Done := by
  have hwide' : t.toNat + 2 ≤ width xs.length t.toNat :=
    le_trans (show t.toNat + 2 ≤ 2 * 7 + t.toNat by omega) hwide
  obtain ⟨r, m, eq, bss, nb, sorter, hrun⟩ := h.exists_partitioned hlarge hc harr ht hwide
  have hinv := (h.run_filled hlarge hc harr ht hwide' hrun).2
  obtain ⟨s', hrun', hdone⟩ := (h.ending hlevel).exists_done hc harr ht hwide' hinv
    fun x => (h.thread x).1
  exact ⟨s', hrun.trans hrun', hdone⟩

end

/-- Two threads are about to sort 2048 numbers. -/
def twoThreads : ParallelSort Arr ℕ 2 where
  mem := ⟨fun q => q.off * 37 % 50, fun _ => 9⟩
  groups := Groups.idle
  team _ := none
  scheduler := ⟨[], 0⟩
  thread _ := ⟨none, .clear, Sorter.new (fun b => b) (fun b => 7 * b) 3, none⟩

/-- The numbers. -/
def twoThreads.numbers : List ℕ := (List.range 2048).map fun i => i * 37 % 50

theorem twoThreads.length_numbers : numbers.length = 2048 := by
  rw [numbers, List.length_map, List.length_range]

theorem twoThreads.start : twoThreads.Start ⟨.input, 0⟩ numbers where
  groups := ⟨rfl, fun _ => rfl, fun _ => rfl, rfl⟩
  team _ := rfl
  scheduler := rfl
  thread _ := ⟨rfl, rfl, rfl, Sorter.new_empty _ _ _⟩
  has i v hv := by
    rw [numbers, List.getElem?_map] at hv
    obtain ⟨j, hj, rfl⟩ := Option.map_eq_some_iff.mp hv
    obtain ⟨-, rfl⟩ := List.getElem?_eq_some_iff.mp hj
    simp [twoThreads]

/-- They come to an end. -/
theorem twoThreads.exists_done :
    ∃ s', Relation.ReflTransGen
    (Step (fun a b => decide (a < b)) defaultConfig (⟨.input, 0⟩ : Ptr Arr)
    ⟨.tmp, 0⟩ 0 numbers.length) twoThreads s' ∧ s'.Done :=
  start.exists_done (by rw [length_numbers]; decide) (by rw [length_numbers]; decide)
    (StrictWeak.of_linearOrder ℕ) (by decide) (by decide) (by rw [length_numbers]; decide)

/-- Two threads sort the numbers. -/
theorem parallelSort_sorts_twoThreads :
    ∃ s', Relation.ReflTransGen (Step (fun a b => decide (a < b)) defaultConfig
    (⟨.input, 0⟩ : Ptr Arr) ⟨.tmp, 0⟩ 0 twoThreads.numbers.length) twoThreads s' ∧ s'.Done ∧
      ∃ ys : List ℕ, ys.Perm twoThreads.numbers ∧ Sorted (fun a b => decide (a < b)) ys ∧
      Has s'.mem ⟨.input, 0⟩ ys := by
  obtain ⟨s', hrun, hdone⟩ := twoThreads.exists_done
  exact ⟨s', hrun, hdone, parallelSort_sorts (StrictWeak.of_linearOrder ℕ)
    (by decide) (by decide) (by decide)
    (by rw [twoThreads.length_numbers]; decide) twoThreads.start hrun hdone⟩

/-- No work is lost when they have distributed the numbers, and the whole range is still
outstanding. -/
theorem work_conserved_twoThreads :
    ∃ s' : ParallelSort Arr ℕ 2, s'.outstanding twoThreads.numbers.length =
      {⟨0, twoThreads.numbers.length, true⟩} ∧ ∃ (finished : ℕ → Bool) (cur : ℕ → ℕ),
    Conserved Task.begin Task.stop (fun a b => decide (a < b)) twoThreads.numbers.length
      twoThreads.numbers finished
        (s'.outstanding twoThreads.numbers.length) cur ∧
      (∀ x < twoThreads.numbers.length, finished x = true →
        s'.mem.slot ((⟨.input, 0⟩ : Ptr Arr) + x) = cur x) ∧
      (∀ task ∈ s'.resting twoThreads.numbers.length, task.InPlace
        ⟨.input, 0⟩ ⟨.tmp, 0⟩ cur s'.mem) ∧
      ∀ task ∈ s'.outstanding twoThreads.numbers.length, 2 * defaultConfig.kBaseCaseSize <
        task.stop - task.begin := by
  have hc := StrictWeak.of_linearOrder ℕ
  have hlarge : 2 * defaultConfig.kBaseCaseSize < twoThreads.numbers.length := by
    rw [twoThreads.length_numbers]; decide
  obtain ⟨r, m, eq, bss, nb, sorter, hrun⟩ := twoThreads.start.exists_distributed ⟨.tmp, 0⟩ 0
    hlarge hc (by decide) (by decide) (by rw [twoThreads.length_numbers]; decide)
  have hfilled := (twoThreads.start.run_filled hlarge hc (by decide) (by decide)
    (by rw [twoThreads.length_numbers]; decide) hrun).1
  exact ⟨_, twoThreads.start.outstanding_team (by decide) r,
    work_conserved hc (by decide) (by decide) hlarge twoThreads.start hfilled⟩

end ParallelSort

end Ps4o
