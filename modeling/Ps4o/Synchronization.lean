import Ps4o.Barriers

/-!
# Meeting at a barrier

What threads can rely on that call `barrier` and `single`.

## What is proved

* `Inv.step` — every step keeps the invariant.
* `single_barrier_protocol` — **no thread leaves a call before all have entered it, one thread
  executes a function and nobody leaves before, the counter counts all threads when they are between
  calls, and no thread misses its release**.
-/

namespace Ps4o

namespace Meeting

variable {ι : Type}
variable {kind : ℕ → Option Call} {s : Meeting ι} {i : ι}
variable [Fintype ι]

/-! ### Steps -/

section
variable [DecidableEq ι] {b : Barrier} {pl : Place}

omit [Fintype ι] in
theorem thread_after (j : ι) :
    (s.after i (b, pl)).thread j = if j = i then ⟨(s.thread i).calls, pl⟩ else s.thread j :=
  Function.update_apply _ _ _ _

omit [Fintype ι] in
/-- A thread has come, or goes on waiting; nobody is released. -/
theorem Core.arrive (h : Core kind s) (hi : (s.thread i).calls = s.released)
    (hb : b.flag = s.barrier.flag) (hpl : pl = .running ∨ pl = .asleep s.barrier.flag)
    (hold : (s.thread i).place ≠ .notifying) : Core kind (s.after i (b, pl)) := by
  have hreleased : (s.after i (b, pl)).released = s.released :=
    if_neg (by rcases hpl with rfl | rfl <;> simp)
  have hexecutes : ∀ k ≠ s.released, (s.after i (b, pl)).executes k = s.executes k := by
    intro k hk
    rw [after]
    dsimp only
    split_ifs
    · rw [hi, Function.update_of_ne hk]
    · rfl
  refine ⟨fun j => ?_, fun j hj => ?_, fun k hk => ?_, fun k hk => ?_⟩
  · rw [hreleased, show (s.after i (b, pl)).barrier.flag = s.barrier.flag from hb, thread_after]
    split_ifs
    · exact .inl ⟨hi, hpl.elim (fun h => .inr (.inl h)) fun h => .inr (.inr (.inl h))⟩
    · exact h.phase j
  · rw [show (s.after i (b, pl)).barrier.flag = s.barrier.flag from hb, thread_after] at hj
    split_ifs at hj
    · rcases hpl with rfl | rfl <;> simp at hj
    · obtain ⟨k, hk⟩ := h.notified j hj
      have hki : k ≠ i := by
        rintro rfl
        exact hold hk
      exact ⟨k, by rwa [thread_after, if_neg hki]⟩
  · rw [hreleased] at hk
    rw [Done, hexecutes k hk.ne]
    exact h.past k hk
  · rw [hreleased] at hk
    rw [hexecutes k hk.ne']
    exact h.future k hk

theorem came_arrive (hi : (s.thread i).calls = s.released) (hpl : pl ≠ .between)
    (hpl' : pl ≠ .notifying) : (s.after i (b, pl)).came = insert i s.came := by
  have hreleased : (s.after i (b, pl)).released = s.released := if_neg hpl'
  ext j
  rw [mem_came, hreleased, thread_after, Finset.mem_insert, mem_came]
  by_cases hj : j = i
  · rw [if_pos hj]
    exact ⟨fun _ => .inl hj, fun _ => ⟨hi, hpl⟩⟩
  · rw [if_neg hj]
    exact ⟨.inr, fun h => h.resolve_left hj⟩

/-- The last thread has come. -/
theorem Core.release (h : Core kind s) (hi : (s.thread i).calls = s.released)
    (hcame : insert i s.came = Finset.univ) (hrun : ∀ j ≠ i, (s.thread j).place ≠ .running)
    (hdone : Done kind s s.released) :
    Core kind (s.after i s.barrier.notifyAll) ∧ (s.after i s.barrier.notifyAll).came = ∅ := by
  have hreleased : (s.after i s.barrier.notifyAll).released = s.released + 1 := rfl
  have hothers : ∀ j ≠ i, (s.thread j).calls = s.released ∧
      ((s.thread j).place = .asleep s.barrier.flag ∨ (s.thread j).place =
        .awake s.barrier.flag) := by
    intro j hj
    have hmem := mem_came.mp ((Finset.mem_insert.mp (hcame ▸ Finset.mem_univ j)).resolve_left hj)
    rcases h.phase j with ⟨hc, hb | hr | hw⟩ | ⟨hc, -⟩
    · exact absurd hb hmem.2
    · exact absurd hr (hrun j hj)
    · exact ⟨hc, hw⟩
    · exact absurd hmem.1 (by omega)
  have hthread : ∀ j, (s.after i s.barrier.notifyAll).thread j =
      if j = i then ⟨(s.thread i).calls, .notifying⟩ else s.thread j := thread_after
  refine ⟨⟨fun j => ?_, fun j hj => ⟨i, by rw [hthread, if_pos rfl]⟩,
    fun k hk => ?_, fun k hk => ?_⟩, ?_⟩
  · rw [hthread]
    split_ifs with hj
    · exact .inr ⟨congrArg (· + 1) hi, .inl rfl⟩
    · obtain ⟨hc, hw⟩ := hothers j hj
      refine .inr ⟨congrArg (· + 1) hc, .inr ?_⟩
      rw [show (s.after i s.barrier.notifyAll).barrier.flag = !s.barrier.flag
        from rfl, Bool.not_not]
      exact hw
  · rcases Nat.lt_succ_iff_lt_or_eq.mp hk with hk | rfl
    · exact h.past k hk
    · exact hdone
  · exact h.future k (Nat.lt_of_succ_lt hk)
  · refine Finset.filter_eq_empty_iff.mpr fun j _ hj => ?_
    have hcalls : ((s.after i s.barrier.notifyAll).thread j).calls = s.released := by
      rw [hthread]
      split_ifs with hji
      · exact hi
      · exact (hothers j hji).1
    exact absurd (hcalls.symm.trans hj.1) (Nat.succ_ne_self _).symm

omit [Fintype ι] in
theorem place_after (j : ι) : ((s.after i (b, pl)).thread j).place = if j = i then pl
    else (s.thread j).place := by
  rw [thread_after]
  split_ifs <;> rfl

/-- Nobody has come to the next call. -/
theorem Inv.of_release (h : Core kind s) (hinit : s.barrier.initCount = Fintype.card ι)
    (hi : (s.thread i).calls = s.released) (hcame : insert i s.came = Finset.univ)
    (hrun : ∀ j ≠ i, (s.thread j).place ≠ .running) (hdone : Done kind s s.released) :
    Inv kind (s.after i s.barrier.notifyAll) := by
  obtain ⟨hcore, hempty⟩ := h.release hi hcame hrun hdone
  have hfuture := h.future (s.released + 1) (Nat.lt_succ_self _)
  refine ⟨hcore, hinit, ?_, .empty hempty hfuture fun j => ?_⟩
  · have hcount : (s.after i s.barrier.notifyAll).barrier.hitCount = s.barrier.initCount := rfl
    have hexecuted : (s.after i s.barrier.notifyAll).executed
      (s.after i s.barrier.notifyAll).released = [] := hfuture.2
    rw [hcount, hinit, hempty, hexecuted]
    exact (Int.sub_zero _).symm
  · have hplace : ((s.after i s.barrier.notifyAll).thread j).place =
        if j = i then .notifying else (s.thread j).place := place_after j
    rw [hplace]
    split_ifs with hj
    · exact fun h => nomatch h
    · exact hrun j hj

/-- Nobody is missing when the numbers are equal. -/
theorem insert_came_eq (hi : i ∉ s.came) :
    insert i s.came = Finset.univ ↔ s.came.card + 1 = Fintype.card ι := by
  rw [← Finset.card_eq_iff_eq_univ, Finset.card_insert_of_notMem hi]

omit [DecidableEq ι] in
theorem card_came_lt (hi : i ∉ s.came) : s.came.card < Fintype.card ι := by
  rw [← Finset.card_univ]
  exact Finset.card_lt_card ((Finset.ssubset_univ_iff).mpr fun h => hi (h ▸ Finset.mem_univ i))

omit [DecidableEq ι] in
theorem notMem_came (hp : (s.thread i).place = .between) : i ∉ s.came :=
  fun h => (mem_came.mp h).2 hp

/-- A thread waits. -/
theorem Inv.of_wait (h : Core kind s) (hinit : s.barrier.initCount = Fintype.card ι)
    (hi : (s.thread i).calls = s.released) (hold : (s.thread i).place ≠ .notifying)
    (hb : b.initCount = s.barrier.initCount) (hflag : b.flag = s.barrier.flag)
    (hcount : b.hitCount = Fintype.card
      ι - ((insert i s.came).card + (s.executed s.released).length : ℕ))
    (hstage : ∀ s' : Meeting ι, s'.released = s.released → s'.came = insert i s.came →
      s'.executes = s.executes →
      s'.executed = s.executed →
        (∀ j, (s'.thread j).place = .running ↔ j ≠ i ∧ (s.thread j).place = .running) →
        Stage kind s') : Inv kind (s.after i b.wait) := by
  have hcame : (s.after i (b, .asleep b.flag)).came = insert i s.came :=
    came_arrive hi (by simp) (by simp)
  have hplace : ∀ j, ((s.after i (b, .asleep b.flag)).thread j).place = .running ↔
      j ≠ i ∧ (s.thread j).place = .running := by
    intro j
    rw [place_after]
    split_ifs with hj
    · exact iff_of_false (fun h => nomatch h) fun h => h.1 hj
    · exact (and_iff_right hj).symm
  refine ⟨h.arrive hi hflag (.inr (by rw [hflag])) hold, hb.trans hinit, ?_,
    hstage _ rfl hcame rfl rfl hplace⟩
  refine Eq.trans ?_ (congrArg (fun c : Finset ι => (Fintype.card ι : ℤ) - (c.card + _ : ℕ))
    hcame.symm)
  exact hcount

/-- A thread calls `barrier`. -/
theorem Inv.barrier (h : Inv kind s) (hp : (s.thread i).place = .between)
    (hk : kind (s.thread i).calls = some .barrier) : Inv kind (s.after i s.barrier.barrier) := by
  have hi : (s.thread i).calls = s.released := h.calls_eq (.inl hp)
  have hmem : i ∉ s.came := notMem_came hp
  rw [hi] at hk
  obtain ⟨hx, hr⟩ : (s.executes s.released = [] ∧ s.executed s.released = []) ∧
      ∀ j, (s.thread j).place ≠ .running := by
    cases h.stage with
    | empty _ hx hr => exact ⟨hx, hr⟩
    | waiting _ _ hx hr => exact ⟨hx, hr⟩
    | running _ hk' => exact absurd (hk.symm.trans hk') (by simp)
    | ran _ hk' => exact absurd (hk.symm.trans hk') (by simp)
  have hcount : s.barrier.hit.hitCount = s.barrier.hitCount - 1 := rfl
  rw [h.count, hx.2, List.length_nil, Nat.add_zero] at hcount
  have hlt := card_came_lt hmem
  have hcard := Finset.card_insert_of_notMem hmem
  rw [Barrier.barrier]
  split_ifs with hzero
  · exact Inv.of_release h.toCore h.init hi ((insert_came_eq hmem).mpr (by omega))
      (fun j _ => hr j) (.inr ⟨hk, hx⟩)
  · refine Inv.of_wait h.toCore h.init hi (by rw [hp]; simp) rfl rfl ?_
      fun s' hs hc hx₁ hx₂ hr' => ?_
    · rw [hx.2, List.length_nil, hcard]
      omega
    · refine .waiting (hs ▸ hk) ?_ (by rwa [hs, hx₁, hx₂]) fun j hj => hr j ((hr' j).mp hj).2
      rw [hc, Ne, insert_came_eq hmem]
      omega

/-- A thread calls `single`. -/
theorem Inv.single (h : Inv kind s) (hp : (s.thread i).place = .between)
    (hk : kind (s.thread i).calls = some .single) : Inv kind (s.after i s.barrier.single) := by
  have hi : (s.thread i).calls = s.released := h.calls_eq (.inl hp)
  have hmem : i ∉ s.came := notMem_came hp
  rw [hi] at hk
  have hcount := h.count
  have hhit : s.barrier.hit.hitCount = s.barrier.hitCount - 1 := rfl
  have hinit := h.init
  have hlt := card_came_lt hmem
  have hcard := Finset.card_insert_of_notMem hmem
  rw [Barrier.single]
  cases h.stage with
  | empty hc hx hr =>
    rw [hc, hx.2, Finset.card_empty, List.length_nil] at hcount
    rw [if_pos (by omega)]
    have hcame : (s.after i (s.barrier.hit, .running)).came = insert i s.came :=
      came_arrive hi (by simp) (by simp)
    have hexecutes : (s.after i (s.barrier.hit, .running)).executes s.released = [i] := by
      rw [after]
      dsimp only
      rw [if_pos rfl, hi, Function.update_self, hx.1]
    refine ⟨h.toCore.arrive hi rfl (.inl rfl) (by rw [hp]; simp), hinit, ?_,
      .running i hk ?_ ⟨hexecutes, hx.2⟩ fun j => ?_⟩
    · rw [hcame, hcard, hc]
      refine hhit.trans ?_
      rw [show (s.after i (s.barrier.hit, .running)).executed
        (s.after i (s.barrier.hit, .running)).released = [] from hx.2,
        hcount, List.length_nil, Finset.card_empty]
      omega
    · rw [hcame]
      exact Finset.mem_insert_self i _
    · rw [place_after]
      split_ifs with hj
      · exact iff_of_true rfl hj
      · exact iff_of_false (hr j) hj
  | waiting hk' => exact absurd (hk.symm.trans hk') (by simp)
  | running j _ hj hx hr =>
    have hpos := Finset.card_pos.mpr ⟨j, hj⟩
    rw [hx.2, List.length_nil] at hcount
    rw [if_neg (by omega), Barrier.singleEnd, if_neg (by omega)]
    refine Inv.of_wait h.toCore hinit hi (by rw [hp]; simp) rfl rfl ?_
      fun s' hs hc hx₁ hx₂ hr' => ?_
    · rw [hx.2, List.length_nil, hcard]
      omega
    · refine .running j (hs ▸ hk) (hc ▸ Finset.mem_insert_of_mem hj)
        (by rwa [hs, hx₁, hx₂]) fun l => ?_
      rw [hr', hr]
      refine and_iff_right_of_imp fun hl => ?_
      rintro rfl
      exact hmem (hl ▸ hj)
  | ran j _ hj _ hx hr =>
    rw [hx.2, List.length_singleton] at hcount
    rw [if_neg (by omega), Barrier.singleEnd]
    split_ifs with hneg
    · have hcame : insert i s.came = Finset.univ := (insert_came_eq hmem).mpr (by omega)
      exact Inv.of_release (s := s) h.toCore hinit hi hcame (fun l _ => hr l) (.inl ⟨hk, j, hx⟩)
    · refine Inv.of_wait h.toCore hinit hi (by rw [hp]; simp) rfl rfl ?_
        fun s' hs hc hx₁ hx₂ hr' => ?_
      · rw [hx.2, List.length_singleton, hcard]
        omega
      · refine .ran j (hs ▸ hk) (hc ▸ Finset.mem_insert_of_mem hj) ?_ (by rwa [hs, hx₁, hx₂])
            fun l hl =>
          hr l ((hr' l).mp hl).2
        rw [hc, Ne, insert_came_eq hmem]
        omega

/-- A thread has executed the function. -/
theorem Inv.finish (h : Inv kind s) (hp : (s.thread i).place = .running) :
    Inv kind ((s.finish i).after i s.barrier.singleAfter) := by
  have hi : (s.thread i).calls = s.released := h.calls_eq (.inr hp)
  have hcount := h.count
  have hhit : s.barrier.hit.hitCount = s.barrier.hitCount - 1 := rfl
  have hinit := h.init
  obtain ⟨hk, hmem, hx, hr⟩ : kind s.released = some .single ∧ i ∈ s.came ∧
      (s.executes s.released = [i] ∧ s.executed s.released = []) ∧
      ∀ j, (s.thread j).place = .running ↔ j = i := by
    cases h.stage with
    | empty _ _ hr => exact absurd hp (hr i)
    | waiting _ _ _ hr => exact absurd hp (hr i)
    | running j hk hj hx hr =>
      obtain rfl := (hr i).mp hp
      exact ⟨hk, hj, hx, hr⟩
    | ran _ _ _ _ _ hr => exact absurd hp (hr i)
  rw [hx.2, List.length_nil, Nat.add_zero] at hcount
  have hexecuted : (s.finish i).executed s.released = [i] := by
    rw [Meeting.finish]
    dsimp only
    rw [hi, Function.update_self, hx.2]
  have hother : ∀ k ≠ s.released, (s.finish i).executed k = s.executed k := fun k hk' => by
    rw [Meeting.finish]
    dsimp only
    rw [hi, Function.update_of_ne hk']
  have hcore : Core kind (s.finish i) := by
    refine ⟨h.phase, h.notified, fun k hk' => ?_, fun k hk' => ?_⟩
    · rw [Done, hother k hk'.ne]
      exact h.past k hk'
    · rw [hother k hk'.ne']
      exact h.future k hk'
  have hcame : insert i (s.finish i).came = s.came := Finset.insert_eq_of_mem hmem
  have hcard : s.came.card ≤ Fintype.card ι := Finset.card_le_univ s.came
  rw [Barrier.singleAfter, Barrier.singleEnd]
  split_ifs with hneg
  · refine Inv.of_release hcore hinit hi ?_ (fun j hj hrun => hj ((hr j).mp hrun))
      (.inl ⟨hk, i, hx.1, hexecuted⟩)
    rw [hcame, ← Finset.card_eq_iff_eq_univ]
    omega
  · refine Inv.of_wait hcore hinit hi (show (s.thread i).place ≠ _ by rw [hp]; simp) rfl rfl ?_
      fun s' hs hc hx₁ hx₂ hr' => ?_
    · rw [hcame, show (s.finish i).executed (s.finish i).released = [i] from hexecuted,
        List.length_singleton]
      omega
    · rw [hcame] at hc
      refine .ran i (hs ▸ hk) (hc ▸ hmem) ?_
          ⟨by rw [hx₁, hs]; exact hx.1, by rw [hx₂, hs]; exact hexecuted⟩ fun j hj =>
        ((hr' j).mp hj).1 ((hr j).mp ((hr' j).mp hj).2)
      rw [hc, Ne, ← Finset.card_eq_iff_eq_univ]
      omega

/-- A thread goes somewhere else. -/
theorem Inv.move (h : Inv kind s) {c : Caller}
    (hc : c.Current s.released s.barrier.flag ∨ c.Leaving s.released s.barrier.flag)
    (hentered : c.Entered s.released ↔ (s.thread i).Entered s.released)
    (hold : (s.thread i).place ≠ .running ∧ (s.thread i).place ≠ .notifying)
    (hnew : c.place ≠ .running ∧ c.place ≠ .asleep (!s.barrier.flag)) : Inv kind (s.move i c) := by
  have hthread : ∀ j, Function.update s.thread i c j = if j = i then c else s.thread j :=
    fun j => Function.update_apply _ _ _ _
  refine h.of_thread (fun j => ?_) (fun j => ?_) (fun j => ?_) fun j hj => ?_
  · rw [hthread]
    split_ifs
    · exact hc
    · exact h.phase j
  · rw [hthread]
    split_ifs with hj
    · rwa [hj]
    · rfl
  · rw [hthread]
    split_ifs with hj
    · rw [hj]
      exact iff_of_false hnew.1 hold.1
    · rfl
  · rw [hthread] at hj
    split_ifs at hj
    · exact absurd hj hnew.2
    · obtain ⟨k, hk⟩ := h.notified j hj
      have hki : k ≠ i := by
        rintro rfl
        exact hold.2 hk
      exact ⟨k, by rwa [hthread, if_neg hki]⟩

omit [DecidableEq ι] in
/-- A thread that waits has seen the flag as it is now, or is being released. -/
theorem Inv.seen (h : Inv kind s) {f : Bool}
    (hp : (s.thread i).place = .asleep f ∨ (s.thread i).place = .awake f) :
    ((s.thread i).calls = s.released ∧ f = s.barrier.flag) ∨
    ((s.thread i).calls + 1 = s.released ∧ f = !s.barrier.flag) := by
  rcases h.phase i with ⟨hc, hplace⟩ | ⟨hc, hplace⟩
  · refine .inl ⟨hc, ?_⟩
    rcases hp with hp | hp <;> rw [hp] at hplace <;> simpa using hplace
  · refine .inr ⟨hc, ?_⟩
    rcases hp with hp | hp <;> rw [hp] at hplace <;> simpa using hplace

/-- A thread wakes the others. -/
theorem Inv.notify (h : Inv kind s) (hp : (s.thread i).place = .notifying) :
    Inv kind (s.notify i) := by
  have hthread : ∀ j, Function.update (fun j => (s.thread j).wake) i
    ⟨(s.thread i).calls + 1, .between⟩ j =
      if j = i then ⟨(s.thread i).calls + 1, .between⟩ else (s.thread j).wake :=
        fun j => Function.update_apply _ _ _ _
  have hcalls : (s.thread i).calls + 1 = s.released := by
    rcases h.phase i with ⟨-, hc⟩ | ⟨hc, -⟩
    · rw [hp] at hc
      simp at hc
    · exact hc
  have hwake : ∀ j f, (s.thread j).place = .asleep f → (s.thread j).wake =
      ⟨(s.thread j).calls, .awake f⟩ := by
    intro j f hj
    rw [Caller.wake, hj]
  have hstay : ∀ j, (∀ f, (s.thread j).place ≠ .asleep f) → (s.thread j).wake = s.thread j := by
    intro j hj
    rw [Caller.wake]
    split
    · next f hf => exact absurd hf (hj f)
    · rfl
  have hcase : ∀ j, (∃ f, (s.thread j).place = .asleep f) ∨ ∀ f, (s.thread j).place ≠ .asleep f :=
      fun j => by
    by_cases hj : ∃ f, (s.thread j).place = .asleep f
    · exact .inl hj
    · exact .inr fun f hf => hj ⟨f, hf⟩
  refine h.of_thread (fun j => ?_) (fun j => ?_) (fun j => ?_) fun j hj => ?_
  · rw [hthread]
    split_ifs
    · exact .inl ⟨hcalls, .inl rfl⟩
    · rcases hcase j with ⟨f, hf⟩ | hf
      · rw [hwake j f hf]
        rcases h.seen (.inl hf) with ⟨hc, rfl⟩ | ⟨hc, rfl⟩
        · exact .inl ⟨hc, .inr (.inr (.inr rfl))⟩
        · exact .inr ⟨hc, .inr (.inr rfl)⟩
      · rw [hstay j hf]
        exact h.phase j
  · rw [hthread]
    split_ifs with hj
    · subst hj
      exact iff_of_false (fun h => h.2 rfl) fun h => absurd h.1 (by omega)
    · rcases hcase j with ⟨f, hf⟩ | hf
      · rw [hwake j f hf, Caller.Entered, Caller.Entered, hf]
        simp
      · rw [hstay j hf]
  · rw [hthread]
    split_ifs with hj
    · subst hj
      rw [hp]
      exact iff_of_false (fun h => nomatch h) fun h => nomatch h
    · rcases hcase j with ⟨f, hf⟩ | hf
      · rw [hwake j f hf, hf]
        exact iff_of_false (fun h => nomatch h) fun h => nomatch h
      · rw [hstay j hf]
  · rw [hthread] at hj
    split_ifs at hj
    · rcases hcase j with ⟨f, hf⟩ | hf
      · rw [hwake j f hf] at hj
        cases hj
      · rw [hstay j hf] at hj
        exact absurd hj (hf _)

/-- **Every step keeps the invariant.** -/
theorem Inv.step {s' : Meeting ι} (h : Inv kind s) (hs : Step kind i s s') : Inv kind s' := by
  cases hs with
  | barrier hp hk => exact h.barrier hp hk
  | single hp hk => exact h.single hp hk
  | finish hp => exact h.finish hp
  | @leave f hp hf =>
    obtain ⟨hc, rfl⟩ := (h.seen (.inr hp)).resolve_left fun hc => hf hc.2
    refine h.move (.inl ⟨hc, .inl rfl⟩)
      (iff_of_false (fun h => h.2 rfl) fun h => absurd h.1 (by omega)) ?_ ?_
    · rw [hp]
      simp
    · simp
  | @stay f hp hf =>
    obtain ⟨hc, -⟩ := (h.seen (.inr hp)).resolve_right fun hc => by
      rw [hc.2] at hf
      simp at hf
    subst hf
    refine h.move (.inl ⟨hc, .inr (.inr (.inl rfl))⟩)
      (iff_of_true ⟨hc, by simp⟩ ⟨hc, by rw [hp]; simp⟩) ?_ ?_
    · rw [hp]
      simp
    · simp
  | notify hp => exact h.notify hp

theorem Inv.spurious {s' : Meeting ι} (h : Inv kind s) (hs : Spurious i s s') : Inv kind s' := by
  cases hs with
  | @wake f hp =>
    refine h.move ?_ ?_ ⟨by rw [hp]; simp, by rw [hp]; simp⟩ ⟨by simp, by simp⟩
    · rcases h.seen (.inl hp) with ⟨hc, rfl⟩ | ⟨hc, rfl⟩
      · exact .inl ⟨hc, .inr (.inr (.inr rfl))⟩
      · exact .inr ⟨hc, .inr (.inr rfl)⟩
    · rw [Caller.Entered, Caller.Entered, hp]
      simp

theorem Inv.next {s' : Meeting ι} (h : Inv kind s) (hs : Next kind s s') : Inv kind s' := by
  obtain ⟨i, hs | hs⟩ := hs
  · exact h.step hs
  · exact h.spurious hs

theorem Reachable.inv (h : Reachable kind (Fintype.card ι) s) : Inv kind s := by
  induction h with
  | refl => exact idle_inv false
  | tail _ hs ih => exact ih.next hs

omit [Fintype ι] in
/-- What a step of a thread is for the others. -/
theorem Step.other {s' : Meeting ι} (hs : Step kind i s s') {j : ι} (hj : j ≠ i) :
    (s'.thread j).calls = (s.thread j).calls ∧
    ((s'.thread j).place = .between ↔ (s.thread j).place = .between) := by
  cases hs with
  | barrier => simp [after, Function.update_of_ne hj]
  | single => simp [after, Function.update_of_ne hj]
  | finish => simp [after, Meeting.finish, Function.update_of_ne hj]
  | leave => simp [Meeting.move, Function.update_of_ne hj]
  | stay => simp [Meeting.move, Function.update_of_ne hj]
  | notify =>
    simp only [Meeting.notify, Function.update_of_ne hj, Caller.wake]
    cases hp : (s.thread j).place <;> simp [hp]

omit [Fintype ι] in
/-- A thread is in a call, or returns from it. -/
theorem Step.self {s' : Meeting ι} (hs : Step kind i s s') :
    ((s'.thread i).calls = (s.thread i).calls ∧ (s'.thread i).place ≠ .between) ∨
      s'.thread i = ⟨(s.thread i).calls + 1, .between⟩ := by
  cases hs with
  | barrier =>
    refine .inl ?_
    simp only [after, Function.update_self, Barrier.barrier, Barrier.notifyAll, Barrier.wait]
    split_ifs <;> simp
  | single =>
    refine .inl ?_
    simp only [after, Function.update_self, Barrier.single, Barrier.singleEnd,
      Barrier.notifyAll, Barrier.wait]
    split_ifs <;> simp
  | finish =>
    refine .inl ?_
    simp only [after, Meeting.finish, Function.update_self, Barrier.singleAfter,
      Barrier.singleEnd, Barrier.notifyAll, Barrier.wait]
    split_ifs <;> simp
  | leave => exact .inr (Function.update_self _ _ _)
  | stay => simp [Meeting.move]
  | notify =>
    right
    simp only [Meeting.notify, Function.update_self]

omit [Fintype ι] in
theorem Spurious.other {s' : Meeting ι} (hs : Spurious i s s') (j : ι) :
    (s'.thread j).calls = (s.thread j).calls ∧
    ((s'.thread j).place = .between ↔ (s.thread j).place = .between) := by
  obtain ⟨hp⟩ := hs
  rcases eq_or_ne j i with rfl | hj
  · simp [Meeting.move, hp]
  · simp [Meeting.move, Function.update_of_ne hj]

omit [DecidableEq ι] in
/-- A function is executed in a call of `single`. -/
theorem Inv.single_of_running (h : Inv kind s) (hp : (s.thread i).place = .running) :
    kind (s.thread i).calls = some .single := by
  rw [h.calls_eq (.inr hp)]
  cases h.stage with
  | empty _ _ hr => exact absurd hp (hr i)
  | waiting _ _ _ hr => exact absurd hp (hr i)
  | running _ hk => exact hk
  | ran _ _ _ _ _ hr => exact absurd hp (hr i)

/-! ### The protocol -/

/-- A thread has entered call `k`; it may have returned. -/
def HasEntered (s : Meeting ι) (k : ℕ) (i : ι) : Prop :=
  k < (s.thread i).calls ∨ (s.thread i).Entered k

/-- What threads can rely on that all call the same. -/
structure Protocol (calls : List Call) (s : Meeting ι) : Prop where
  /-- No thread leaves a call before all have entered it. -/
  together : ∀ k i j, k < (s.thread i).calls → s.HasEntered k j
  /-- A function is executed at most once, in a call of `single`. -/
  atMostOnce : ∀ k, s.executes k = [] ∨ (calls[k]? = some .single ∧ ∃ j, s.executes k = [j])
  /-- One thread has executed it when somebody leaves. -/
  once : ∀ k i, calls[k]? = some .single → k < (s.thread i).calls →
    ∃ j, s.executes k = [j] ∧ s.executed k = [j]
  /-- A thread that executes a function is the one that is recorded. -/
  recorded : ∀ i, (s.thread i).place = .running → s.executes (s.thread i).calls = [i] ∧
    s.executed (s.thread i).calls = []
  /-- Between calls the counter counts all threads. -/
  count : (∀ i, (s.thread i).place = .between) → s.barrier.hitCount = s.barrier.initCount
  /-- A thread that waits in a call for which all threads have come will see that the flag has
  changed, and will not sleep on. -/
  released : ∀ i f, (s.thread i).place = .asleep f ∨ (s.thread i).place = .awake f →
    (∀ j, s.HasEntered (s.thread i).calls j) →
    (calls[(s.thread i).calls]? = some .single → s.executed (s.thread i).calls ≠ []) →
      f ≠ s.barrier.flag ∧ ((s.thread i).place = .asleep f → ∃ j, (s.thread j).place = .notifying)
  /-- Some thread can go on, until all have returned from all calls. -/
  goesOn : (∀ i, s.thread i = ⟨calls.length, .between⟩) ∨ ∃ i s', Step (calls[·]?) i s s'

omit [DecidableEq ι] in
/-- Nobody is ahead of the call that has not been released, and nobody has yet to enter the last
one. -/
theorem Inv.hasEntered (h : Inv kind s) {k : ℕ} (hk : k < s.released) (j : ι) :
    s.HasEntered k j := by
  rcases h.phase j with ⟨hc, -⟩ | ⟨hc, hp⟩
  · exact .inl (by omega)
  · rcases Nat.lt_or_ge k (s.thread j).calls with hlt | hge
    · exact .inl hlt
    · exact .inr ⟨by omega, fun hb => by simp [hb] at hp⟩

omit [DecidableEq ι] in
theorem Inv.calls_le (h : Inv kind s) (i : ι) : (s.thread i).calls ≤ s.released := by
  rcases h.phase i with ⟨hc, -⟩ | ⟨hc, -⟩ <;> omega

omit [DecidableEq ι] in
/-- When all threads have come, and the function has been executed, the threads have been
released. -/
theorem Inv.calls_lt (h : Inv kind s) (hall : ∀ j, s.HasEntered (s.thread i).calls j)
    (hran : kind (s.thread i).calls = some .single → s.executed (s.thread i).calls ≠ []) :
    (s.thread i).calls < s.released := by
  refine (h.calls_le i).lt_of_ne fun hi => ?_
  have hcame : s.came = Finset.univ := Finset.filter_true_of_mem fun j _ => by
    rcases hall j with hj | hj
    · have := h.calls_le j
      omega
    · rwa [hi] at hj
  have hmem : i ∈ s.came := hcame ▸ Finset.mem_univ i
  rw [hi] at hran
  cases h.stage with
  | empty hc => exact Finset.notMem_empty i (hc ▸ hmem)
  | waiting _ hc => exact hc hcame
  | running _ hk _ hx => exact hran hk hx.2
  | ran _ _ _ hc => exact hc hcame

theorem Inv.goesOn {calls : List Call} (h : Inv (calls[·]?) s) :
    (∀ i, s.thread i = ⟨calls.length, .between⟩) ∨ ∃ i s', Step (calls[·]?) i s s' := by
  by_contra hnot
  obtain ⟨hleft, hstuck⟩ := not_or.mp hnot
  have hstuck : ∀ i s', ¬ Step (calls[·]?) i s s' := fun i s' hs => hstuck ⟨i, s', hs⟩
  have hplace : ∀ i, (s.thread i).place = .between ∨ ∃ f, (s.thread i).place = .asleep f := by
    intro i
    cases hp : (s.thread i).place with
    | between => exact .inl rfl
    | running => exact absurd (.finish hp) (hstuck i _)
    | asleep f => exact .inr ⟨f, rfl⟩
    | awake f =>
      by_cases hf : f = s.barrier.flag
      · exact absurd (.stay hp hf) (hstuck i _)
      · exact absurd (.leave hp hf) (hstuck i _)
    | notifying => exact absurd (.notify hp) (hstuck i _)
  have hcalls : ∀ i, (s.thread i).calls = s.released := by
    intro i
    rcases hplace i with hp | ⟨f, hp⟩
    · exact h.calls_eq (.inl hp)
    · rcases h.seen (.inl hp) with hc | hc
      · exact hc.1
      · obtain ⟨j, hj⟩ := h.notified i (hc.2 ▸ hp)
        exact absurd (.notify hj) (hstuck j _)
  have hend : ∀ i, (s.thread i).place = .between → calls[s.released]? = none := by
    intro i hp
    cases hk : calls[s.released]? with
    | none => rfl
    | some c =>
      rw [← hcalls i] at hk
      cases c with
      | barrier => exact absurd (.barrier hp hk) (hstuck i _)
      | single => exact absurd (.single hp hk) (hstuck i _)
  have hlen : s.released ≤ calls.length := by
    by_contra hlt
    rcases h.past calls.length (Nat.lt_of_not_le hlt) with hk | hk <;> simp at hk
  have hcall : ∀ i, (s.thread i).place ≠ .between → calls[s.released]? ≠ none ∧
      s.came ≠ Finset.univ := by
    intro i hp
    have hmem : i ∈ s.came := mem_came.mpr ⟨hcalls i, hp⟩
    cases h.stage with
    | empty hc => exact absurd (hc ▸ hmem) (Finset.notMem_empty i)
    | waiting hk hc => exact ⟨by simp [hk], hc⟩
    | running j _ _ _ hr =>
      have hj := (hr j).mpr rfl
      exact absurd (.finish hj) (hstuck j _)
    | ran _ hk _ hc => exact ⟨by simp [hk], hc⟩
  refine hleft fun i => ?_
  have hbetween : (s.thread i).place = .between := by
    by_contra hp
    refine (hcall i hp).2 (Finset.filter_true_of_mem fun j _ => ⟨hcalls j, fun hj => ?_⟩)
    exact (hcall i hp).1 (hend j hj)
  have hge := List.getElem?_eq_none_iff.mp (hend i hbetween)
  have hi := hcalls i
  rcases hc : s.thread i with ⟨c, p⟩
  rw [hc] at hbetween hi
  dsimp only at hbetween hi
  rw [hbetween, hi, le_antisymm hlen hge]

/-- **The barrier and `single`.** -/
theorem single_barrier_protocol {calls : List Call} (h : Reachable (calls[·]?) (Fintype.card ι) s) :
    s.Protocol calls := by
  have hinv := h.inv
  refine ⟨fun k i j hk => hinv.hasEntered (hk.trans_le (hinv.calls_le i)) j,
    fun k => ?_, fun k i hk hi => ?_,
    fun i hp => ?_, fun hall => ?_, fun i f hp hcome hran => ?_, hinv.goesOn⟩
  · rcases lt_trichotomy k s.released with hlt | rfl | hgt
    · rcases hinv.past k hlt with ⟨hk, j, hj⟩ | ⟨-, hj⟩
      · exact .inr ⟨hk, j, hj.1⟩
      · exact .inl hj.1
    · cases hinv.stage with
      | empty _ hx => exact .inl hx.1
      | waiting _ _ hx => exact .inl hx.1
      | running j hk _ hx => exact .inr ⟨hk, j, hx.1⟩
      | ran j hk _ _ hx => exact .inr ⟨hk, j, hx.1⟩
    · exact .inl (hinv.future k hgt).1
  · rcases hinv.past k (hi.trans_le (hinv.calls_le i)) with ⟨-, hj⟩ | ⟨hk', -⟩
    · exact hj
    · exact absurd (hk.symm.trans hk') (by simp)
  · rw [hinv.calls_eq (.inr hp)]
    cases hinv.stage with
    | empty _ _ hr => exact absurd hp (hr i)
    | waiting _ _ _ hr => exact absurd hp (hr i)
    | running j _ _ hx hr =>
      obtain rfl := (hr i).mp hp
      exact hx
    | ran _ _ _ _ _ hr => exact absurd hp (hr i)
  · have hempty : s.came = ∅ := Finset.filter_eq_empty_iff.mpr fun i _ hi => hi.2 (hall i)
    have hexecuted : s.executed s.released = [] := by
      cases hinv.stage with
      | empty _ hx => exact hx.2
      | waiting _ _ hx => exact hx.2
      | running _ _ _ hx => exact hx.2
      | ran j _ hj => exact absurd (hempty ▸ hj) (Finset.notMem_empty j)
    rw [hinv.count, hempty, hexecuted, hinv.init]
    exact Int.sub_zero _
  · have hlt := hinv.calls_lt hcome hran
    obtain ⟨-, rfl⟩ := (hinv.seen hp).resolve_left fun hc => by omega
    exact ⟨by simp, fun hp => hinv.notified i hp⟩

end

/-- Two threads have come to a `single`, and the first one has executed the function: it is about to
wake the other one. -/
def twoReleased : Meeting (Fin 2) :=
  let s := (start 2).after 0 (Barrier.new 2).single
  let s := s.after 1 s.barrier.single
  (s.finish 0).after 0 s.barrier.singleAfter

theorem twoReleased_protocol : twoReleased.Protocol [.single, .barrier] ∧ twoReleased.released = 1 ∧
    (twoReleased.thread 1).place = .asleep false ∧ twoReleased.barrier.flag = true := by
  refine ⟨single_barrier_protocol ?_, by decide, by decide, by decide⟩
  exact ((Relation.ReflTransGen.single ⟨0, .inl (.single rfl rfl)⟩).tail
    ⟨1, .inl (.single rfl rfl)⟩).tail ⟨0, .inl (.finish rfl)⟩

end Meeting

end Ps4o
