import Ps4o.ThreadPool

/-!
# The thread that hands work over

The steps of thread `0`, each of which keeps the invariant: it sets what the other threads read,
comes to the barrier, executes its part, and comes to the barrier again.

## What is proved

* `Inv.first`, `Inv.second` — the caller comes to the two barriers of a call.
* `Inv.returnRun` — when it returns, every id has been executed once.
* `Inv.callerStep` — every step of thread `0` keeps the invariant.
-/

namespace Ps4o

namespace ThreadPool

variable {k : ℕ}
variable {joining : Bool} {nums : List ℕ} {s s' : ThreadPool k} {i : Fin (k + 1)}

/-! ### Thread `0` -/

/-- Nothing has been executed in between. -/
structure Same (s s' : ThreadPool k) : Prop where
  began : s'.began = s.began
  ended : s'.ended = s.ended

/-- Nothing has been executed for call `j` in between. -/
structure SameAt (j : ℕ) (s s' : ThreadPool k) : Prop where
  began : s'.began j = s.began j
  ended : s'.ended j = s.ended j

theorem Same.sameAt (h : Same s s') (j : ℕ) : SameAt j s s' :=
  ⟨congrFun h.began j, congrFun h.ended j⟩

theorem SameAt.complete {j n : ℕ} (h : SameAt j s s') (hj : s.Complete j n) : s'.Complete j n := by
  rw [Complete, h.began, h.ended]
  exact hj

theorem SameAt.untouched {j : ℕ} (h : SameAt j s s') (hj : s.Untouched j) : s'.Untouched j := by
  rw [Untouched, h.began, h.ended]
  exact hj

theorem SameAt.begin {f id j : ℕ} (h : j ≠ f) : SameAt j s (s.begin f id) :=
  ⟨Function.update_of_ne h _ _, rfl⟩

theorem SameAt.finish {f id j : ℕ} (h : j ≠ f) : SameAt j s (s.finish f id) :=
  ⟨rfl, Function.update_of_ne h _ _⟩

/-- Thread `0` goes on without the barrier, when the others are on their way to it. -/
theorem Inv.prepare (h : Inv joining nums s) (hf : s.Free 0) (hp : s.caller.parity = 0)
    (hb : s'.poolBarrier = s.poolBarrier) (hw : s'.worker = s.worker) (hp' : s'.caller.parity = 0)
    (hok : CallerOk joining nums s' s'.caller)
    (hpast : ∀ j < s'.caller.returned nums, ∀ num, nums[j]? = some num →
      s'.Complete j (threadsFor (k + 1) num))
    (hcurrent : Current nums s' s'.caller)
    (hfuture : ∀ j, s'.caller.returned nums < j → s'.Untouched j) : Inv joining nums s' := by
  have hfree : ∀ i, s'.Free i ↔ s.Free i := fun i => by rw [Free, Free, hb]
  refine ⟨by rw [hb]; exact h.barrier, by rw [hb, h.callerParity, hp, hp'],
    fun i hi => by rw [hb, hw]; exact h.workerParity i hi,
    fun hn => absurd ((hfree 0).mpr hf) hn, fun i hi hn => ?_, hok, fun i hi => ?_,
    hpast, hcurrent, hfuture, fun hover => ?_⟩
  · rw [hw]
    exact h.workerWaits i hi fun hf => hn ((hfree i).mpr hf)
  · rw [hw]
    rcases h.resting hf hp i hi with hi | hi <;> rw [hi] <;> trivial
  · rw [hover] at hp'
    cases hp'

/-- Thread `0` goes on with a call, without executing anything. -/
theorem Inv.prepareRun (h : Inv joining nums s) (hf : s.Free 0) (hp : s.caller.parity = 0)
    (hb : s'.poolBarrier = s.poolBarrier) (hw : s'.worker = s.worker) (hsame : Same s s')
    (hr : s'.caller.returned nums = s.caller.returned nums) (hp' : s'.caller.parity = 0)
    (hok : CallerOk joining nums s' s'.caller) (hcurrent : s.Untouched (s.caller.returned nums))
    (hcurrent' : s'.Untouched (s'.caller.returned nums) → Current nums s' s'.caller) :
    Inv joining nums s' :=
  h.prepare hf hp hb hw hp' hok
    (fun j hj num hnum => (hsame.sameAt j).complete (h.past j (hr ▸ hj) num hnum))
    (hcurrent' (hr ▸ (hsame.sameAt _).untouched hcurrent))
    fun j hj => (hsame.sameAt j).untouched (h.future j (hr ▸ hj))

theorem begin_self (f id : ℕ) : (s.begin f id).began f id = s.began f id + 1 := by
  rw [begin]
  dsimp only
  rw [Function.update_self, Function.update_self]

theorem begin_of_ne {f id j x : ℕ} (h : j ≠ f ∨ x ≠ id) :
    (s.begin f id).began j x = s.began j x := by
  rw [begin]
  dsimp only
  rw [Function.update_apply]
  split_ifs with hj
  · rw [Function.update_of_ne (h.resolve_left (not_not_intro hj)), hj]
  · rfl

theorem finish_self (f id : ℕ) : (s.finish f id).ended f id = s.ended f id + 1 :=
  begin_self (s := { s with began := s.ended }) f id

theorem finish_of_ne {f id j x : ℕ} (h : j ≠ f ∨ x ≠ id) :
    (s.finish f id).ended j x = s.ended j x :=
  begin_of_ne (s := { s with began := s.ended }) h

/-- `numThreads()` is the number of threads, if `operator()` of a `ThreadJoiningThreadPool` is
called only once. -/
theorem Inv.size_eq (h : Inv joining nums s) (hone : joining = true → nums.length ≤ 1) {j num : ℕ}
    (hpc : s.caller = .next j) (hj : nums[j]? = some num) : s.size joining = k + 1 := by
  have hok := h.callerOk
  rw [hpc] at hok
  rw [size]
  split_ifs with hjoin
  · have hlt := (List.getElem?_eq_some_iff.mp hj).1
    have := hone hjoin
    exact hok.2.2 hjoin (by omega)
  · rfl

theorem getElem?_none_eq {j : ℕ} (hj : nums[j]? = none) (hle : j ≤ nums.length) : nums.length = j :=
  le_antisymm (List.getElem?_eq_none_iff.mp hj) hle

/-- Thread `0` comes to the barrier. -/
theorem Inv.callerArrive (h : Inv joining nums s) (hf : s.Free 0) {pc : CallerPc}
    (hpar : pc.parity = (s.caller.parity + 1) % 2) (hwaits : pc.Waits)
    (hr : pc.returned nums = s.caller.returned nums) (hok : CallerOk joining nums s pc)
    (hworker : ∀ i ≠ 0, WorkerOk { s.arrive 0 with caller := pc } i (s.worker i))
    (hcurrent : Current nums { s.arrive 0 with caller := pc } pc) :
    Inv joining nums { s.arrive 0 with caller := pc } := by
  have harr := Meeting.arrivals_arrive hf
  have hthread : ∀ i ≠ 0, (s.poolBarrier.after 0 s.poolBarrier.barrier.barrier).thread i =
      s.poolBarrier.thread i :=
    fun i hi => (Meeting.thread_arrive i).trans (if_neg hi)
  refine ⟨h.barrier.barrier hf rfl, ?_, fun i hi => ?_, fun _ => hwaits, fun i hi hn => ?_,
    ?_, hworker, fun j hj => ?_, hcurrent, fun j hj => ?_, fun _ i hi => ?_⟩
  · refine (congrArg (· % 2) (harr 0)).trans ?_
    rw [if_pos rfl, hpar, ← h.callerParity]
    omega
  · refine (congrArg (· % 2) (harr i)).trans ?_
    rw [if_neg hi]
    exact h.workerParity i hi
  · refine h.workerWaits i hi fun hf => hn ?_
    rw [Free, arrive]
    dsimp only
    rw [hthread i hi]
    exact hf
  · cases pc <;> exact hok
  · exact h.past j (hr ▸ hj)
  · exact h.future j (hr ▸ hj)
  · refine ((harr i).trans_le ?_).trans (harr 0).ge
    rw [if_neg hi, if_pos rfl]
    rcases h.arrivals_of_free hf i with heq | ⟨heq, -⟩ <;> omega

theorem Current.busy {j n : ℕ} {stage : RunStage} (h : stage.busy = true) :
    Current nums s (.run j n stage) ↔
    (s.began j 0, s.ended j 0) = stage.log ∧
    (∀ i : Fin (k + 1), i ≠ 0 → (s.began j i, s.ended j i) = s.workerLog n i) ∧
      ∀ id, k < id → s.began j id = 0 ∧ s.ended j id = 0 := iff_of_eq (if_pos h)

theorem workerLog_congr {n : ℕ} (hb : s'.poolBarrier = s.poolBarrier) (hl : s'.lag = s.lag)
    {i : Fin (k + 1)} (hw : s'.worker i = s.worker i) : s'.workerLog n i = s.workerLog n i := by
  rw [workerLog, workerLog, hb, hl, hw]

/-- The others do not depend on how far thread `0` is while it waits for them. -/
theorem WorkerOk.stage {pc : WorkerPc} (h : WorkerOk s i pc) {j n : ℕ} {stage stage' : RunStage}
    (hc : s.caller = .run j n stage) (hc' : s'.caller = .run j n stage')
    (hbusy : stage'.busy = true) (hfunc : s'.func = s.func) (hnum : s'.numThreads = s.numThreads) :
    WorkerOk s' i pc := by
  have hb : s'.Busy := ⟨j, n, stage', hc', hbusy⟩
  cases pc with
  | loop => trivial
  | checkDone => trivial
  | checkNumThreads => exact hb
  | call => exact ⟨hb, hnum ▸ h.2⟩
  | inside f n => exact ⟨hb, hfunc ▸ h.2.1, hnum ▸ h.2.2⟩
  | second => exact hb
  | left => exact absurd (hc.symm.trans h) (by simp)

/-- Thread `0` executes a function. -/
theorem Inv.execute (h : Inv joining nums s) (hf : s.Free 0) {j n : ℕ} {stage stage' : RunStage}
    (hc : s.caller = .run j n stage) (hstage : stage ≠ .ending ∧ stage.busy = true)
    (hb : s'.poolBarrier = s.poolBarrier) (hw : s'.worker = s.worker)
    (hc' : s'.caller = .run j n stage') (hstage' : stage' ≠ .ending ∧ stage'.busy = true)
    (hfunc : s'.func = s.func) (hnum : s'.numThreads = s.numThreads)
    (hok : CallerOk joining nums s' (.run j n stage'))
    (hlog : (s'.began j 0, s'.ended j 0) = stage'.log)
    (hframe : ∀ j' x, j' ≠ j ∨ x ≠ 0 → s'.began j' x = s.began j' x ∧
    s'.ended j' x = s.ended j' x) : Inv joining nums s' := by
  have hfree : ∀ i, s'.Free i ↔ s.Free i := fun i => by rw [Free, Free, hb]
  have hpar : ∀ stage : RunStage, stage ≠ .ending ∧ stage.busy = true →
      (CallerPc.run j n stage).parity = 1 := by
    intro stage h
    cases stage <;> first | rfl | exact absurd h.2 Bool.noConfusion | exact absurd rfl h.1
  have hlag : ∀ {s : ThreadPool k} {stage : RunStage}, s.caller = .run j n stage →
      stage ≠ .ending → s.lag = 0 := by
    intro s stage hc hne
    rw [lag, hc]
    cases stage <;> first | rfl | exact absurd rfl hne
  have hcur := h.current
  have hpast := h.past
  have hfuture := h.future
  rw [hc] at hcur hpast hfuture
  obtain ⟨-, hworkers, hnone⟩ := (Current.busy hstage.2).mp hcur
  refine ⟨by rw [hb]; exact h.barrier, ?_, fun i hi => by rw [hb, hw]; exact h.workerParity i hi,
    fun hn => absurd ((hfree 0).mpr hf) hn, fun i hi hn => ?_, by rw [hc']; exact hok,
    fun i hi => ?_, ?_, ?_, ?_, fun hover => absurd (hc'.symm.trans hover) (by simp)⟩
  · rw [hb, h.callerParity, hc, hc', hpar _ hstage, hpar _ hstage']
  · rw [hw]
    exact h.workerWaits i hi fun hf => hn ((hfree i).mpr hf)
  · rw [hw]
    exact (h.workerOk i hi).stage hc hc' hstage'.2 hfunc hnum
  · rw [hc']
    intro j' hj' num hj id
    obtain ⟨hbegan, hended⟩ := hframe j' id (.inl (Nat.ne_of_lt hj'))
    rw [hbegan, hended]
    exact hpast j' hj' num hj id
  · rw [hc']
    refine (Current.busy hstage'.2).mpr ⟨hlog, fun i hi => ?_, fun id hid => ?_⟩
    · obtain ⟨hbegan, hended⟩ := hframe j i (.inr fun h0 => hi (Fin.ext h0))
      rw [hbegan, hended, workerLog_congr hb ((hlag hc' hstage'.1).trans (hlag hc hstage.1).symm)
        (congrFun hw i)]
      exact hworkers i hi
    · obtain ⟨hbegan, hended⟩ := hframe j id (.inr (Nat.ne_of_gt (Nat.zero_lt_of_lt hid)))
      rw [hbegan, hended]
      exact hnone id hid
  · rw [hc']
    intro j' hj' id
    obtain ⟨hbegan, hended⟩ := hframe j' id (.inl (Nat.ne_of_gt hj'))
    rw [hbegan, hended]
    exact hfuture j' hj' id

/-- Thread `0` calls a function without the others. -/
theorem Inv.alone (h : Inv joining nums s) (hone : joining = true → nums.length ≤ 1) {j num : ℕ}
    (hf : s.Free 0) (hpc : s.caller = .next j) (hj : nums[j]? = some num)
    (hn : ¬ 1 < min num (s.size joining)) :
    Inv joining nums { s.begin j 0 with caller := .alone j } := by
  have hok := h.callerOk
  have hcur := h.current
  rw [hpc] at hok hcur
  have hfuture := h.future
  have hpast := h.past
  rw [hpc] at hfuture hpast
  rw [h.size_eq hone hpc hj] at hn
  refine h.prepare hf (by rw [hpc]; rfl) rfl rfl rfl ⟨hok.1, num, hj, hn⟩
    (fun j' hj' num' hnum => ?_) (fun id => ?_) fun j' hj' => ?_
  · exact (SameAt.begin (Nat.ne_of_lt hj')).complete (hpast j' hj' num' hnum)
  · obtain ⟨hzero, hended⟩ : s.began j id = 0 ∧ s.ended j id = 0 := hcur id
    refine ⟨?_, hended⟩
    by_cases hid : id = 0
    · rw [hid] at hzero ⊢
      exact (begin_self j 0).trans (congrArg (· + 1) hzero)
    · rw [if_neg hid]
      exact (begin_of_ne (.inr hid)).trans hzero
  · exact (SameAt.begin (Nat.ne_of_gt hj')).untouched (hfuture j' hj')

/-- That function returns. -/
theorem Inv.returnAlone (h : Inv joining nums s) {j : ℕ} (hf : s.Free 0)
    (hpc : s.caller = .alone j) :
    Inv joining nums { s.finish j 0 with caller := .next (j + 1) } := by
  have hok := h.callerOk
  have hcur := h.current
  rw [hpc] at hok hcur
  have hfuture := h.future
  have hpast := h.past
  rw [hpc] at hfuture hpast
  obtain ⟨hdone, num, hj, hn⟩ := hok
  have hlt := (List.getElem?_eq_some_iff.mp hj).1
  refine h.prepare hf (by rw [hpc]; rfl) rfl rfl rfl
    ⟨hdone, hlt, fun _ h0 => absurd h0 (Nat.succ_ne_zero j)⟩
    (fun j' hj' num' hnum => ?_) ?_ fun j' hj' => ?_
  · rcases Nat.lt_succ_iff_lt_or_eq.mp hj' with hj' | rfl
    · exact (SameAt.finish (Nat.ne_of_lt hj')).complete (hpast j' hj' num' hnum)
    · obtain rfl : num = num' := Option.some.inj (hj.symm.trans hnum)
      rw [threadsFor, if_neg hn]
      intro id
      obtain ⟨hbegan, hzero⟩ := hcur id
      refine ⟨hbegan.trans (if_congr Nat.lt_one_iff.symm rfl rfl), ?_⟩
      by_cases hid : id = 0
      · rw [hid] at hzero ⊢
        exact (finish_self j' 0).trans (congrArg (· + 1) hzero)
      · rw [if_neg (mt Nat.lt_one_iff.mp hid)]
        exact (finish_of_ne (.inr hid)).trans hzero
  · exact (SameAt.finish (Nat.succ_ne_self j)).untouched (hfuture (j + 1) (Nat.lt_succ_self j))
  · have hgt := (Nat.lt_succ_self j).trans hj'
    exact (SameAt.finish (Nat.ne_of_gt hgt)).untouched (hfuture j' hgt)

/-- Thread `0` releases the others. -/
theorem Inv.first (h : Inv joining nums s) {j n : ℕ} (hf : s.Free 0)
    (hpc : s.caller = .run j n .first) :
    Inv joining nums { s.arrive 0 with caller := .run j n .call } := by
  have hok := h.callerOk
  have hcur := h.current
  rw [hpc] at hok hcur
  obtain ⟨hdone, hnum, hn, hfunc, hthreads, -⟩ := hok
  have hrest := h.resting hf (by rw [hpc]; rfl)
  refine h.callerArrive hf (by rw [hpc]; rfl) trivial (by rw [hpc]; rfl)
    ⟨hdone, hnum, hn, fun _ => hfunc (by simp), fun _ _ => hthreads (by simp) (by simp),
      fun f hf => by cases hf⟩
    (fun i hi => ?_) ((Current.busy rfl).mpr ⟨?_, fun i hi => ?_, fun id _ => hcur id⟩)
  · rcases hrest i hi with hi | hi <;> rw [hi] <;> trivial
  · exact Prod.ext (hcur 0).1 (hcur 0).2
  · have hlog : (s.worker i).log (if i.val < n then 1 else 0) = (0, 0) := by
      rcases hrest i hi with hw | hw <;> rw [hw] <;> rfl
    have harr := Meeting.arrivals_arrive hf
    refine (Prod.ext (hcur i).1 (hcur i).2 : (s.began j i, s.ended j i) = (0, 0)).trans ?_
    rw [workerLog]
    dsimp only [arrive]
    rw [harr, harr, if_pos rfl, if_neg hi, show lag _ = 0 from rfl]
    rcases h.arrivals_of_free hf i with heq | ⟨heq, -⟩
    · rw [WorkerPc.logAt_lt (by omega)]
    · rw [WorkerPc.logAt_eq (by omega), hlog]

/-- Thread `0` waits for the others. -/
theorem Inv.second (h : Inv joining nums s) {j n : ℕ} (hf : s.Free 0)
    (hpc : s.caller = .run j n .second) :
    Inv joining nums { s.arrive 0 with caller := .run j n .ending } := by
  have hok := h.callerOk
  have hcur := h.current
  rw [hpc] at hok hcur
  obtain ⟨hdone, hnum, hn, hfunc, hthreads, -⟩ := hok
  obtain ⟨hlog, hworkers, hnone⟩ := (Current.busy rfl).mp hcur
  have hlag : s.lag = 0 := by rw [lag, hpc]
  refine h.callerArrive hf (by rw [hpc]; exact (Nat.mod_self 2).symm) trivial (by rw [hpc]; rfl)
    ⟨hdone, hnum, hn, fun _ => hfunc (by simp), fun _ _ => hthreads (by simp) (by simp),
      fun f hf => by cases hf⟩
    (fun i hi => (h.workerOk i hi).stage hpc rfl rfl rfl rfl)
    ((Current.busy rfl).mpr ⟨hlog, fun i hi => (hworkers i hi).trans ?_, hnone⟩)
  have harr := Meeting.arrivals_arrive hf
  rw [workerLog, workerLog, hlag]
  dsimp only [arrive]
  rw [harr, harr, if_pos rfl, if_neg hi, show lag _ = 1 from rfl, WorkerPc.logAt, WorkerPc.logAt]
  simp only [Nat.add_zero, Nat.add_lt_add_iff_right]

/-- All threads have executed the function. -/
theorem Inv.returnRun (h : Inv joining nums s) {j n : ℕ} (hf : s.Free 0)
    (hpc : s.caller = .run j n .ending) : Inv joining nums { s with caller := .next (j + 1) } := by
  have hok := h.callerOk
  have hcur := h.current
  rw [hpc] at hok hcur
  obtain ⟨hdone, ⟨num, hj, hnum⟩, hn, -⟩ := hok
  obtain ⟨hlog, hworkers, hnone⟩ := (Current.busy rfl).mp hcur
  obtain ⟨hbegan, hended⟩ := Prod.mk.inj hlog
  have hfuture := h.future
  have hpast := h.past
  rw [hpc] at hfuture hpast
  refine h.prepare hf (by rw [hpc]; rfl) rfl rfl rfl
    ⟨hdone, (List.getElem?_eq_some_iff.mp hj).1, fun _ h0 => absurd h0 (Nat.succ_ne_zero j)⟩
    (fun j' hj' num' hnum' id => ?_) (hfuture (j + 1) (Nat.lt_succ_self j))
    fun j' hj' => hfuture j' ((Nat.lt_succ_self j).trans hj')
  rcases Nat.lt_succ_iff_lt_or_eq.mp hj' with hj' | rfl
  · exact hpast j' hj' num' hnum' id
  · obtain rfl : num = num' := Option.some.inj (hj.symm.trans hnum')
    rw [threadsFor, ← hnum, if_pos hn]
    have hle : n ≤ k + 1 := hnum ▸ min_le_right _ _
    rcases Nat.lt_trichotomy id 0 with h0 | rfl | hpos
    · exact absurd h0 (Nat.not_lt_zero id)
    · rw [if_pos (Nat.zero_lt_of_lt hn)]
      exact ⟨hbegan, hended⟩
    · rcases Nat.lt_or_ge k id with hgt | hle'
      · rw [if_neg (by omega)]
        exact hnone id hgt
      · have hi : (⟨id, Nat.lt_succ_of_le hle'⟩ : Fin (k + 1)) ≠ 0 := fun h0 => by
          have := congrArg Fin.val h0
          exact absurd this (Nat.ne_of_gt hpos)
        have hw := hworkers _ hi
        have hlag : s.lag = 1 := by rw [lag, hpc]
        have hahead : (s.poolBarrier.thread 0).arrivals <
            (s.poolBarrier.thread ⟨id, Nat.lt_succ_of_le hle'⟩).arrivals + 1 := by
          rcases h.arrivals_of_free hf ⟨id, Nat.lt_succ_of_le hle'⟩ with heq | ⟨heq, -⟩ <;> omega
        rw [workerLog, hlag, WorkerPc.logAt_gt hahead] at hw
        exact Prod.mk.inj hw

/-- **Thread `0` keeps the invariant.** -/
theorem Inv.callerStep (h : Inv joining nums s) (hone : joining = true → nums.length ≤ 1)
    (hs : CallerStep joining nums s s') : Inv joining nums s' := by
  have hok := h.callerOk
  have hcur := h.current
  cases hs with
  | @run j num hf hpc hj hn =>
    rw [hpc] at hok hcur
    refine h.prepareRun hf (by rw [hpc]; rfl) rfl rfl ⟨rfl, rfl⟩ (by rw [hpc]; rfl) rfl
      ⟨hok.1, ⟨num, hj, by rw [h.size_eq hone hpc hj]⟩, hn, fun hne => absurd rfl hne,
        fun hne => absurd rfl hne, fun f hf => by cases hf⟩ (by rw [hpc]; exact hcur) id
  | alone hf hpc hj hn => exact h.alone hone hf hpc hj hn
  | @noMore j hf hpc hj =>
    rw [hpc] at hok hcur
    have hlen := getElem?_none_eq hj hok.2.1
    exact h.prepareRun hf (by rw [hpc]; rfl) rfl rfl ⟨rfl, rfl⟩ (by rw [hpc]; exact hlen) rfl hok.1
      (by rw [hpc]; exact hcur) id
  | returnAlone hf hpc => exact h.returnAlone hf hpc
  | @setFunc j n hf hpc =>
    rw [hpc] at hok hcur
    obtain ⟨hdone, hnum, hn, -⟩ := hok
    exact h.prepareRun hf (by rw [hpc]; rfl) rfl rfl ⟨rfl, rfl⟩ (by rw [hpc]; rfl) rfl
      ⟨hdone, hnum, hn, fun _ => rfl, fun _ hne => absurd rfl hne, fun f hf => by cases hf⟩
        (by rw [hpc]; exact hcur) id
  | @setNumThreads j n hf hpc =>
    rw [hpc] at hok hcur
    obtain ⟨hdone, hnum, hn, hfunc, -⟩ := hok
    exact h.prepareRun hf (by rw [hpc]; rfl) rfl rfl ⟨rfl, rfl⟩ (by rw [hpc]; rfl) rfl
      ⟨hdone, hnum, hn, fun _ => hfunc (by simp), fun _ _ => rfl, fun f hf => by cases hf⟩
        (by rw [hpc]; exact hcur) id
  | @setSync j n hf hpc =>
    rw [hpc] at hok hcur
    obtain ⟨hdone, hnum, hn, hfunc, hthreads, -⟩ := hok
    exact h.prepareRun hf (by rw [hpc]; rfl) rfl rfl ⟨rfl, rfl⟩ (by rw [hpc]; rfl) rfl
      ⟨hdone, hnum, hn, fun _ => hfunc (by simp), fun _ _ => hthreads (by simp) (by simp),
        fun f hf => by cases hf⟩
      (by rw [hpc]; exact hcur) id
  | first hf hpc => exact h.first hf hpc
  | @call j n f hf hpc hfunc =>
    rw [hpc] at hok hcur
    obtain ⟨hdone, hnum, hn, hfunc', hthreads, -⟩ := hok
    obtain rfl : f = j := Option.some.inj (hfunc.symm.trans (hfunc' (by simp)))
    obtain ⟨hlog, -, -⟩ := (Current.busy rfl).mp hcur
    obtain ⟨hbegan, hended⟩ := Prod.mk.inj hlog
    refine h.execute hf hpc ⟨by simp, rfl⟩ rfl rfl rfl ⟨by simp, rfl⟩ rfl rfl
      ⟨hdone, hnum, hn, fun _ => hfunc, fun _ _ => hthreads (by simp) (by simp),
        fun g hg => (RunStage.inside.inj hg).symm⟩
      (Prod.ext ((begin_self f 0).trans (congrArg (· + 1) hbegan)) hended)
      fun j' x hne => ⟨begin_of_ne hne, rfl⟩
  | @returnCall j n f hf hpc =>
    rw [hpc] at hok hcur
    obtain ⟨hdone, hnum, hn, hfunc, hthreads, hinside⟩ := hok
    obtain rfl := hinside f rfl
    obtain ⟨hlog, -, -⟩ := (Current.busy rfl).mp hcur
    obtain ⟨hbegan, hended⟩ := Prod.mk.inj hlog
    refine h.execute hf hpc ⟨by simp, rfl⟩ rfl rfl rfl ⟨by simp, rfl⟩ rfl rfl
      ⟨hdone, hnum, hn, fun _ => hfunc (by simp), fun _ _ => hthreads (by simp) (by simp),
        fun g hg => by cases hg⟩
      (Prod.ext hbegan ((finish_self f 0).trans (congrArg (· + 1) hended)))
      fun j' x hne => ⟨rfl, finish_of_ne hne⟩
  | second hf hpc => exact h.second hf hpc
  | returnRun hf hpc => exact h.returnRun hf hpc
  | queueTasks hf hpc =>
    rw [hpc] at hok hcur
    exact h.prepareRun hf (by rw [hpc]; rfl) rfl rfl ⟨rfl, rfl⟩ (by rw [hpc]; rfl) rfl hok
      (by rw [hpc]; exact hcur) id
  | setDone hf hpc =>
    rw [hpc] at hok hcur
    exact h.prepareRun hf (by rw [hpc]; rfl) rfl rfl ⟨rfl, rfl⟩ (by rw [hpc]; rfl) rfl rfl
      (by rw [hpc]; exact hcur) id
  | last hf hpc =>
    rw [hpc] at hok hcur
    refine h.callerArrive hf (by rw [hpc]; rfl) trivial (by rw [hpc]; rfl) hok (fun i hi => ?_) hcur
    rcases h.resting hf (by rw [hpc]; rfl) i hi with hi | hi <;> rw [hi] <;> trivial

end ThreadPool

end Ps4o
