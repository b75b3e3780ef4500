import Ps4o.InPlace.BlockPointers

/-!
# Where the blocks are after one step of the block permutation

A block moves from one place, a slot or a swap block, to another one that is empty; so it stays in
one place.

## What is proved

* `Inv.places_step` — each block is in one place after a step.
* `Inv.overflow_step` — the block in the overflow block is the one for the slot that reaches beyond
  the end of the array.
-/

namespace Ps4o.InPlace

/-! ### One step: the places -/

section
variable {t : ℕ} {β : Type} {B n nb : ℕ} {bss full : ℕ → ℕ} {classify : Option β → ℕ}
  {s₀ s s' : Permuting t β}

/-- A block has been moved to an empty place. -/
theorem inOnePlace_of_move {l₁ l₂ : Place t} (hne : l₁ ≠ l₂) (hempty : s.content l₂ = none)
    (h₁ : s'.content l₁ = none) (h₂ : s'.content l₂ = s.content l₁)
    (ho : ∀ l, l ≠ l₁ → l ≠ l₂ → s'.content l = s.content l) {x : β} (h : InOnePlace s x) :
    InOnePlace s' x := by
  obtain ⟨l, hl, huniq⟩ := h
  -- the block is where it was, unless it has been moved
  have hother : ∀ l', s'.content l' = some x → l' ≠ l₂ → s.content l' = some x ∧ l' ≠ l₁ := by
    intro l' hl' hne₂
    have hne₁ : l' ≠ l₁ := by
      rintro rfl
      rw [h₁] at hl'
      cases hl'
    exact ⟨(ho l' hne₁ hne₂).symm.trans hl', hne₁⟩
  rcases eq_or_ne l l₁ with rfl | hll₁
  · refine ⟨l₂, h₂.trans hl, fun l' hl' => ?_⟩
    by_contra hne₂
    obtain ⟨hl'', hne₁⟩ := hother l' hl' hne₂
    exact hne₁ (huniq l' hl'')
  · have hll₂ : l ≠ l₂ := by
      rintro rfl
      rw [hempty] at hl
      cases hl
    refine ⟨l, (ho l hll₁ hll₂).trans hl, fun l' hl' => ?_⟩
    rcases eq_or_ne l' l₂ with rfl | hne₂
    · exact absurd (huniq l₁ (h₂.symm.trans hl')).symm hll₁
    · exact huniq l' (hother l' hl' hne₂).1

/-- Only a slot that the thread has claimed changes. -/
theorem step_slot_of_not_claims {i : Fin t} {p : ℤ} (h : ∀ k, ¬ s.Claims p i k) :
    (step B n nb classify i s).slot p = s.slot p := by
  unfold Permuting.Claims at h
  cases hpc : (s.threads i).pc with
  | readBlock q | writeBlock d c q | swapOut d c q new | swapIn d c q new =>
    rw [hpc] at h
    simp only [step, hpc]
    exact Function.update_of_ne (fun heq => h _ (by rw [heq]; rfl)) ..
  | isReading d c q =>
    simp only [step, hpc]
    split <;> rfl
  | finished => simp only [step, hpc]
  | tryRead | decRead | noBlock | stopRead | incWrite | classify | writeOverflow =>
    simp only [step, hpc]
    rfl

/-- What a thread has that is not changed. -/
theorem update_thread_eq {γ : Type} {i : Fin t} (f : Thread β → γ) (th : Thread β)
    (hf : f th = f (s.threads i)) (j : Fin t) :
    f (Function.update s.threads i th j) = f (s.threads j) := by
  rw [Function.update_apply]
  split
  · next heq => rw [hf, heq]
  · rfl

/-- The swap blocks apart from the one that is changed. -/
theorem update_swap_eq {i j : Fin t} {th : Thread β} {c c' : Bool} {v : Option β}
    (hth : th.swap = Function.update (s.threads i).swap c v) (hne : ¬ (j = i ∧ c' = c)) :
    (Function.update s.threads i th j).swap c' = (s.threads j).swap c' := by
  rw [Function.update_apply]
  split
  · next heq =>
    subst heq
    rw [hth, Function.update_of_ne fun hc => hne ⟨rfl, hc⟩]
  · rfl

section
variable {x : β} (hx : InOnePlace s x)
include hx

/-- Neither the slots nor what the threads have change. -/
theorem inOnePlace_of_same (h₁ : s'.slot = s.slot)
    (h₂ : ∀ j, (s'.threads j).swap = (s.threads j).swap)
    (h₃ : ∀ j, (s'.threads j).overflow = (s.threads j).overflow) : InOnePlace s' x := by
  have hcontent : s'.content = s.content := by
    funext l
    cases l with
    | slot p => exact congrFun h₁ p
    | swap j c => exact congrFun (h₂ j) c
    | overflow j => exact h₃ j
  unfold InOnePlace
  rwa [hcontent]

variable {i : Fin t} {q : ℤ} {th : Thread β} {c : Bool}

/-- A block is read from a slot. -/
theorem inOnePlace_of_read (hth : th.swap = Function.update (s.threads i).swap c (s.slot q))
    (hov : th.overflow = (s.threads i).overflow) (hnone : (s.threads i).swap c = none) :
    InOnePlace (s.write q none i th) x := by
  refine @inOnePlace_of_move _ _ _ _ (.slot q) (.swap i c) nofun hnone ?_ ?_ ?_ x hx
  · simp only [Permuting.content, Permuting.write, Function.update_self]
  · simp only [Permuting.content, Permuting.write, Function.update_self, hth]
  · intro l h₁ h₂
    cases l with
    | slot p => exact Function.update_of_ne (fun heq => h₁ (congrArg Place.slot heq)) ..
    | swap j c' => exact update_swap_eq hth fun hjc => h₂ (by rw [hjc.1, hjc.2])
    | overflow j => exact update_thread_eq Thread.overflow th hov j

/-- A block is written to a slot. -/
theorem inOnePlace_of_write (hth : th.swap = Function.update (s.threads i).swap c none)
    (hov : th.overflow = (s.threads i).overflow) (hnone : s.slot q = none) :
    InOnePlace (s.write q ((s.threads i).swap c) i th) x := by
  refine @inOnePlace_of_move _ _ _ _ (.swap i c) (.slot q) nofun hnone ?_ ?_ ?_ x hx
  · simp only [Permuting.content, Permuting.write, Function.update_self, hth]
  · simp only [Permuting.content, Permuting.write, Function.update_self]
  · intro l h₁ h₂
    cases l with
    | slot p => exact Function.update_of_ne (fun heq => h₂ (congrArg Place.slot heq)) ..
    | swap j c' => exact update_swap_eq hth fun hjc => h₁ (by rw [hjc.1, hjc.2])
    | overflow j => exact update_thread_eq Thread.overflow th hov j

/-- A block is written to the overflow block. -/
theorem inOnePlace_of_spill (hth : th.swap = Function.update (s.threads i).swap c none)
    (hov : th.overflow = (s.threads i).swap c) (hnone : (s.threads i).overflow = none) :
    InOnePlace (s.continue i th) x := by
  refine @inOnePlace_of_move _ _ _ _ (.swap i c) (.overflow i) nofun hnone ?_ ?_ ?_ x hx
  · simp only [Permuting.content, Permuting.continue, Function.update_self, hth]
  · simp only [Permuting.content, Permuting.continue, Function.update_self, hov]
  · intro l h₁ h₂
    cases l with
    | slot p => rfl
    | swap j c' => exact update_swap_eq hth fun hjc => h₁ (by rw [hjc.1, hjc.2])
    | overflow j =>
      have hji : j ≠ i := fun heq => h₂ (congrArg Place.overflow heq)
      simp only [Permuting.content, Permuting.continue, Function.update_of_ne hji]

end

variable (h : Boundaries false nb n bss) (hB : 1 ≤ B)
include h hB

/-- **Every block is in one place, in one step.** -/
theorem Inv.places_step [Fintype β] (hI : Inv B n nb bss classify s₀ s)
    (hcl : Classified B n nb bss full classify s₀) (i : Fin t) (x : β) :
    InOnePlace (step B n nb classify i s) x := by
  have hplace := hI.places x
  have hok := hI.threads i
  unfold Thread.Ok at hok
  cases hpc : (s.threads i).pc with
  | finished =>
    simp only [step, hpc]
    exact hplace
  | tryRead | decRead | noBlock | stopRead | incWrite | classify =>
    simp only [step, hpc]
    exact inOnePlace_of_same hplace rfl (update_thread_eq Thread.swap _ rfl)
      (update_thread_eq Thread.overflow _ rfl)
  | isReading d c q =>
    simp only [step, hpc]
    split
    · exact hplace
    · exact inOnePlace_of_same hplace rfl (update_thread_eq Thread.swap _ rfl)
        (update_thread_eq Thread.overflow _ rfl)
  | readBlock q =>
    rw [hpc] at hok
    simp only [step, hpc]
    exact inOnePlace_of_read hplace rfl rfl (hok.1 false)
  | swapOut d c q new =>
    rw [hpc] at hok
    simp only [step, hpc]
    exact inOnePlace_of_read hplace rfl rfl hok.2.1
  | writeBlock d c q | swapIn d c q new =>
    have hk : s.Claims q i .fill := congrArg Pc.claim hpc
    obtain ⟨b, -, -, hb⟩ := hI.claimed h hcl hk
    obtain ⟨-, -, hnone, -⟩ := hb.fill hk
    simp only [step, hpc]
    exact inOnePlace_of_write hplace rfl rfl hnone
  | writeOverflow d c q =>
    obtain ⟨-, hover⟩ := hI.overflow_of_spill h hB hcl (i := i) (congrArg Pc.claim hpc)
    simp only [step, hpc]
    exact inOnePlace_of_spill hplace rfl rfl (hover i)

/-! ### One step: the overflow block -/

/-- A slot that a thread claims anew has not been written. -/
theorem Inv.new_claim [Fintype β] (hI : Inv B n nb bss classify s₀ s)
    (hcl : Classified B n nb bss full classify s₀) {i j : Fin t} {p : ℤ} {k : Claim}
    (hk : (step B n nb classify i s).Claims p j k) :
    (∃ k', s.Claims p j k') ∨ ∃ b < nb, InBucket B bss b p ∧ (s.pointers b).w ≤ p := by
  rcases eq_or_ne j i with rfl | hne
  swap
  · unfold Permuting.Claims at hk ⊢
    rw [step_threads_of_ne hne] at hk
    exact .inl ⟨k, hk⟩
  have hin := hI.readBucket_lt h.pos j
  unfold Permuting.Claims at hk ⊢
  cases hpc : (s.threads j).pc with
  | finished | tryRead | stopRead | readBlock | writeBlock | writeOverflow | swapIn =>
    simp only [step, hpc, Permuting.set, Permuting.write, Permuting.continue,
      Function.update_self] at hk
    cases hk
  | noBlock =>
    simp only [step, hpc, Permuting.set, Function.update_self, loop_claim] at hk
    cases hk
  | decRead =>
    have hread : (s.pointers (s.threads j).readBucket).read B =
        (s.pointers (s.threads j).readBucket).r :=
      Int.ediv_mul_cancel (hI.dvd_r _ hin)
    simp only [step, hpc, hread, Permuting.set, Function.update_self] at hk
    split at hk
    · cases hk
    · next hfull =>
      obtain rfl : (s.pointers (s.threads j).readBucket).r = p :=
        congrArg Prod.fst (Option.some.inj hk)
      exact .inr ⟨_, hin, ⟨hI.dvd_r _ hin, (hI.le_w _ hin).trans (by omega),
        hI.r_lt _ hin⟩, by omega⟩
  | incWrite d c =>
    obtain ⟨hd, hroom⟩ := hI.write_lt h hB hcl hpc
    simp only [step, hpc, Permuting.set, Function.update_self] at hk
    have hp : (s.pointers d).w = p := by
      split at hk
      · split at hk <;> exact congrArg Prod.fst (Option.some.inj hk)
      · exact congrArg Prod.fst (Option.some.inj hk)
    subst hp
    exact .inr ⟨d, hd, ⟨hI.dvd_w d hd, hI.le_w d hd, hroom⟩, le_rfl⟩
  | isReading d c q =>
    simp only [step, hpc] at hk
    split at hk
    · rw [hpc] at hk
      exact .inl ⟨k, hk⟩
    · simp only [Permuting.continue, Function.update_self] at hk
      obtain rfl : q = p := congrArg Prod.fst (Option.some.inj hk)
      exact .inl ⟨.wait, rfl⟩
  | classify d c q =>
    simp only [step, hpc, Permuting.continue, Function.update_self] at hk
    split at hk
    · cases hk
    · obtain rfl : q = p := congrArg Prod.fst (Option.some.inj hk)
      exact .inl ⟨.hold, rfl⟩
  | swapOut d c q new =>
    simp only [step, hpc, Permuting.write, Function.update_self] at hk
    obtain rfl : q = p := congrArg Prod.fst (Option.some.inj hk)
    exact .inl ⟨.hold, rfl⟩

variable (B n nb classify s) in
omit h hB in
/-- An overflow block stays as it is, unless the thread writes it. -/
theorem step_overflow (i j : Fin t) :
    ((step B n nb classify i s).threads j).overflow = (s.threads j).overflow ∨
      j = i ∧ ∃ d c q, (s.threads i).pc = .writeOverflow d c q ∧
        ((step B n nb classify i s).threads j).overflow = (s.threads i).swap c := by
  rcases eq_or_ne j i with rfl | hne
  swap
  · rw [step_threads_of_ne hne]
    exact .inl rfl
  cases hpc : (s.threads j).pc with
  | writeOverflow d c q =>
    refine .inr ⟨rfl, d, c, q, rfl, ?_⟩
    simp only [step, hpc, Permuting.continue, Function.update_self]
  | isReading d c q =>
    refine .inl ?_
    simp only [step, hpc]
    split
    · rfl
    · simp only [Permuting.continue, Function.update_self]
  | _ =>
    refine .inl ?_
    simp only [step, hpc, Permuting.set, Permuting.write, Permuting.continue, Function.update_self]

/-- **The overflow block, in one step.** -/
theorem Inv.overflow_step [Fintype β] (hI : Inv B n nb bss classify s₀ s)
    (hcl : Classified B n nb bss full classify s₀) (i j : Fin t) (x : β)
    (hx : ((step B n nb classify i s).threads j).overflow = some x) :
    InBucket B bss (classify (some x)) (maxOff B n) ∧
      maxOff B n < ((step B n nb classify i s).pointers (classify (some x))).w ∧
      (∀ j k, ¬ (step B n nb classify i s).Claims (maxOff B n) j k) ∧
      ∀ j' y, ((step B n nb classify i s).threads j').overflow = some y → j' = j := by
  -- nobody claims the slot anew once it is below the write pointer
  have hclaims : InBucket B bss (classify (some x)) (maxOff B n) →
      maxOff B n < (s.pointers (classify (some x))).w →
      (∀ j k, s.Claims (maxOff B n) j k → j = i) →
      (∀ k, ¬ (step B n nb classify i s).Claims (maxOff B n) i k) →
      ∀ j k, ¬ (step B n nb classify i s).Claims (maxOff B n) j k := by
    intro hin hw hold hi j k hk
    rcases hI.new_claim h hB hcl hk with ⟨k', hk'⟩ | ⟨b, hb, hin', hw'⟩
    · obtain rfl := hold j k' hk'
      exact hi k hk
    · obtain rfl := hin'.eq h hB hb (hcl.bucket x) hin
      omega
  have hmono := step_w_le B n nb classify s i (classify (some x))
  rcases step_overflow B n nb classify s i j with heq | ⟨rfl, d, c, q, hpc, heq⟩
  · obtain ⟨hin, hw, hno, huniq⟩ := hI.overflow j x (heq ▸ hx)
    refine ⟨hin, hw.trans_le hmono, ?_, fun j' y hy => ?_⟩
    · intro j k hk
      rcases hI.new_claim h hB hcl hk with ⟨k', hk'⟩ | ⟨b, hb, hin', hw'⟩
      · exact hno j k' hk'
      · obtain rfl := hin'.eq h hB hb (hcl.bucket x) hin
        omega
    · rcases step_overflow B n nb classify s i j' with heq' | ⟨-, d, c, q, hpc, -⟩
      · exact huniq j' y (heq' ▸ hy)
      · -- the overflow block is not written twice
        have := (hI.overflow_of_spill h hB hcl (i := i) (p := q) (congrArg Pc.claim hpc)).2 j
        rw [← heq, hx] at this
        cases this
  · have hk : s.Claims q j .spill := congrArg Pc.claim hpc
    obtain ⟨rfl, hover⟩ := hI.overflow_of_spill h hB hcl hk
    have hok := hI.threads j
    unfold Thread.Ok at hok
    rw [hpc] at hok
    obtain ⟨⟨y, hy, hyd⟩, -, hin⟩ := hok
    obtain rfl : y = x := Option.some.inj (hy.symm.trans (heq.symm.trans hx))
    rw [← hyd] at hin
    obtain ⟨hw, -, -, hc⟩ := (hI.slots _ (hcl.bucket y) _ hin).spill hk
    refine ⟨hin, hw.trans_le hmono, hclaims hin hw (fun j' k hk => ((hc j' k).mp hk).1) ?_,
      fun j' y' hy' => ?_⟩
    · intro k hk'
      unfold Permuting.Claims at hk'
      simp only [step, hpc, Permuting.continue, Function.update_self] at hk'
      cases hk'
    · rcases step_overflow B n nb classify s j j' with heq' | ⟨rfl, -⟩
      · rw [heq', hover j'] at hy'
        cases hy'
      · rfl

end

end Ps4o.InPlace
