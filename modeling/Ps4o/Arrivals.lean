import Ps4o.Synchronization

/-!
# Coming to barriers

A thread that comes to the same barrier again and again is ahead of the others by one at most. So
the number of times that it has come says where it is.

## What is proved

* `Inv.arrivals_mem` — a thread has come as often as the barrier has been released, or once more.
* `Step.arrivals`, `arrivals_arrive` — which step is one that comes to the barrier.
-/

namespace Ps4o

/-- How often a thread has come. -/
def Caller.arrivals (c : Caller) : ℕ := c.calls + if c.place = .between then 0 else 1

theorem Caller.arrivals_between {c : Caller} (h : c.place = .between) : c.arrivals = c.calls := by
  rw [arrivals, if_pos h, Nat.add_zero]

theorem Caller.arrivals_waiting {c : Caller} (h : c.place ≠ .between) :
    c.arrivals = c.calls + 1 := by
  rw [arrivals, if_neg h]

namespace Meeting

variable {ι : Type} {kind : ℕ → Option Call} {s s' : Meeting ι} {i j : ι}

section
variable [Fintype ι]

theorem Inv.arrivals_eq (h : Inv kind s) (hp : (s.thread i).place = .between) :
    (s.thread i).arrivals = s.released :=
  (Caller.arrivals_between hp).trans (h.calls_eq (.inl hp))

/-- No thread is ahead of another one by more than one barrier. -/
theorem Inv.arrivals_mem (h : Inv kind s) (i : ι) : (s.thread i).arrivals = s.released ∨
    ((s.thread i).arrivals = s.released + 1 ∧ (s.thread i).place ≠ .between) := by
  by_cases hp : (s.thread i).place = .between
  · exact .inl (h.arrivals_eq hp)
  · rw [Caller.arrivals_waiting hp]
    rcases h.phase i with ⟨hc, -⟩ | ⟨hc, -⟩
    · exact .inr ⟨congrArg (· + 1) hc, hp⟩
    · exact .inl hc

end

section
variable [DecidableEq ι]

theorem place_barrier (b : Barrier) : b.barrier.2 ≠ .between := by
  rw [Barrier.barrier]
  split_ifs
  · simp [Barrier.notifyAll]
  · simp [Barrier.wait]

/-- A thread comes. -/
theorem thread_arrive (j : ι) : (s.after i s.barrier.barrier).thread j =
    if j = i then ⟨(s.thread i).calls, s.barrier.barrier.2⟩ else s.thread j :=
  Function.update_apply _ _ _ _

theorem arrivals_arrive (hp : (s.thread i).place = .between) (j : ι) :
    ((s.after i s.barrier.barrier).thread j).arrivals = (s.thread j).arrivals +
    if j = i then 1 else 0 := by
  rw [thread_arrive]
  split_ifs with hj
  · rw [hj, Caller.arrivals_waiting (place_barrier _), Caller.arrivals_between hp]
  · rfl

theorem arrivals_wake (c : Caller) :
    c.wake.arrivals = c.arrivals ∧ (c.wake.place = .between ↔ c.place = .between) := by
  rw [Caller.wake]
  split
  · next f hf =>
    have hc : c.place ≠ .between := by simp [hf]
    exact ⟨by rw [Caller.arrivals_waiting hc]; rfl, iff_of_false (by simp) hc⟩
  · exact ⟨rfl, .rfl⟩

/-- A thread that has come does not come again before it goes on. -/
theorem Step.arrivals (h : Step kind i s s') (hp : (s.thread i).place ≠ .between)
    (hr : ∀ j, (s.thread j).place ≠ .running) (j : ι) :
    (s'.thread j).arrivals = (s.thread j).arrivals ∧
      ((s.thread j).place = .between → (s'.thread j).place = .between) := by
  have hmove : ∀ c : Caller, c.arrivals = (s.thread i).arrivals → ((s.move i c).thread j).arrivals =
      (s.thread j).arrivals ∧ ((s.thread j).place = .between →
        ((s.move i c).thread j).place = .between) := by
    intro c hc
    have hthread : (s.move i c).thread j = if j = i then c else s.thread j :=
      Function.update_apply _ _ _ _
    rw [hthread]
    split_ifs with hj
    · rw [hj]
      exact ⟨hc, fun hb => absurd hb hp⟩
    · exact ⟨rfl, id⟩
  cases h with
  | barrier hb => exact absurd hb hp
  | single hb => exact absurd hb hp
  | finish hrun => exact absurd hrun (hr i)
  | leave => exact hmove _ (Caller.arrivals_waiting hp).symm
  | stay => exact hmove _ (Caller.arrivals_waiting hp).symm
  | notify =>
    have hthread : (s.notify i).thread j = if j = i then ⟨(s.thread i).calls + 1, .between⟩
        else (s.thread j).wake :=
      Function.update_apply (fun j => (s.thread j).wake) i _ j
    rw [hthread]
    split_ifs with hj
    · rw [hj]
      exact ⟨(Caller.arrivals_waiting hp).symm, fun hb => absurd hb hp⟩
    · obtain ⟨hw, hb⟩ := arrivals_wake (s.thread j)
      exact ⟨hw, hb.mpr⟩

theorem Spurious.arrivals (h : Spurious i s s') (j : ι) :
    (s'.thread j).arrivals = (s.thread j).arrivals ∧
    ((s.thread j).place = .between → (s'.thread j).place = .between) := by
  cases h with
  | @wake f hp =>
    have hthread : (s.move i ⟨(s.thread i).calls, .awake f⟩).thread j =
        if j = i then ⟨(s.thread i).calls, .awake f⟩ else s.thread j :=
          Function.update_apply _ _ _ _
    rw [hthread]
    have hc : (s.thread i).place ≠ .between := by simp [hp]
    split_ifs with hj
    · rw [hj]
      exact ⟨(Caller.arrivals_waiting hc).symm, fun hb => absurd hb hc⟩
    · exact ⟨rfl, id⟩

end

/-- Where there is no `single`, nothing is executed. -/
theorem Inv.not_running [Fintype ι] (h : Inv kind s) (hk : ∀ k, kind k ≠ some .single) (i : ι) :
    (s.thread i).place ≠ .running := by
  cases h.stage with
  | empty _ _ hr => exact hr i
  | waiting _ _ _ hr => exact hr i
  | running _ hk' => exact absurd hk' (hk _)
  | ran _ hk' => exact absurd hk' (hk _)

end Meeting

end Ps4o
