import Ps4o.InPlace.BlockClaims

/-!
# The slots in one step of the block permutation

A step of a thread changes the state of at most one slot: the one that it has claimed, or the one
that it claims. The other slots see that a pointer moves, or nothing at all (`SlotOk.other`,
`SlotOk.elsewhere`).

## What is proved

* `Inv.slots_decRead`, `Inv.slots_incWrite`, `Inv.slots_isReading` — what the accesses to the
  pointers do to the slots.
* `Inv.slots_step` — every slot is in one of the nine states after a step.
-/

namespace Ps4o.InPlace

/-! ### The slots -/

section
variable {t : ℕ} {β : Type} {B n nb : ℕ} {bss full : ℕ → ℕ} {classify : Option β → ℕ}
  {s₀ s s' : Permuting t β} {i : Fin t} {th : Thread β} {b : ℕ} {p : ℤ}

/-- The pointers of a bucket are between its boundaries, and no slot is claimed by the thread: it
stays in its state. -/
theorem SlotOk.other (h : SlotOk B n classify s₀ s b p)
    (hth : s'.threads = Function.update s.threads i th) (hslot : s'.slot p = s.slot p)
    (hw : p < (s'.pointers b).w ↔ p < (s.pointers b).w)
    (hr : (s.pointers b).w ≤ p → p ≤ (s.pointers b).r → p ≤ (s'.pointers b).r)
    (hr' : (s.pointers b).r < p → (s'.pointers b).r < p) (hc : ∀ k, ¬ s.Claims p i k)
    (hc' : ∀ k, th.pc.claim ≠ some (p, k))
    (ho : ∀ x, (s.threads i).overflow = some x → th.overflow = some x) :
    SlotOk B n classify s₀ s' b p := by
  refine h.frame hslot hw hr hr' (claims_same hth fun k => iff_of_false (hc' k) (hc k))
    fun j x hx => ?_
  rw [hth, Function.update_apply]
  split
  · next heq => exact ho x (heq ▸ hx)
  · exact hx

/-- A thread that is about to use a slot has not claimed another one. -/
theorem not_claims_of_ne {q : ℤ} {k : Claim}
    (hq : (s.threads i).pc.claim = some (q, k)) (hne : p ≠ q) (k' : Claim) : ¬ s.Claims p i k' := by
  intro hk
  exact hne (congrArg Prod.fst (Option.some.inj (hk.symm.trans hq)))

theorem not_claims_of_none (hn : (s.threads i).pc.claim = none) (k : Claim) : ¬ s.Claims p i k := by
  intro hk
  rw [Permuting.Claims, hn] at hk
  cases hk

theorem claim_ne {q : ℤ} {k : Claim} (hne : p ≠ q) (k' : Claim) : some (q, k) ≠ some (p, k') :=
  fun hk => hne (congrArg Prod.fst (Option.some.inj hk)).symm

/-- The thread uses another slot. -/
theorem SlotOk.elsewhere (h : SlotOk B n classify s₀ s b p)
    (hth : s'.threads = Function.update s.threads i th) (hp : s'.pointers = s.pointers)
    (hslot : s'.slot p = s.slot p) {q : ℤ} {k₀ : Claim}
    (hq : (s.threads i).pc.claim = some (q, k₀)) (hne : p ≠ q)
    (hc' : ∀ k, th.pc.claim ≠ some (p, k))
    (ho : ∀ x, (s.threads i).overflow = some x → th.overflow = some x) :
    SlotOk B n classify s₀ s' b p :=
  h.other hth hslot (by rw [hp]) (fun _ h => hp ▸ h) (fun h => hp ▸ h) (not_claims_of_ne hq hne)
    hc' ho

theorem claims_of_claim (hth : s'.threads = Function.update s.threads i th) {k₀ : Claim}
    (hc : ∀ j k, s.Claims p j k ↔ j = i ∧ k = k₀) {k₁ : Claim} (hc' : th.pc.claim = some (p, k₁))
    (j : Fin t) (k : Claim) : s'.Claims p j k ↔ j = i ∧ k = k₁ := by
  rw [claims_of_update hth]
  split
  · next heq =>
    rw [hc', Option.some.injEq, Prod.mk.injEq]
    exact ⟨fun hk => ⟨heq, hk.2.symm⟩, fun hk => ⟨rfl, hk.2.symm⟩⟩
  · next hne =>
    rw [hc]
    exact ⟨fun hk => absurd hk.1 hne, fun hk => absurd hk.1 hne⟩

theorem not_claims_of_claim (hth : s'.threads = Function.update s.threads i th) {k₀ : Claim}
    (hc : ∀ j k, s.Claims p j k ↔ j = i ∧ k = k₀) (hc' : ∀ k, th.pc.claim ≠ some (p, k)) (j : Fin t)
    (k : Claim) : ¬ s'.Claims p j k := by
  rw [claims_of_update hth]
  split
  · exact hc' k
  · next hne =>
    rw [hc]
    exact fun hk => hne hk.1

theorem claims_of_not_claims (hth : s'.threads = Function.update s.threads i th)
    (hc : ∀ j k, ¬ s.Claims p j k) {k₁ : Claim} (hc' : th.pc.claim = some (p, k₁)) (j : Fin t)
    (k : Claim) : s'.Claims p j k ↔ j = i ∧ k = k₁ := by
  rw [claims_of_update hth]
  split
  · next heq =>
    rw [hc', Option.some.injEq, Prod.mk.injEq]
    exact ⟨fun hk => ⟨heq, hk.2.symm⟩, fun hk => ⟨rfl, hk.2.symm⟩⟩
  · next hne => exact ⟨fun hk => absurd hk (hc j k), fun hk => absurd hk.1 hne⟩

/-- The thread reads the block: the slot is empty. -/
theorem SlotOk.of_read (h : SlotOk B n classify s₀ s b p)
    (hth : s'.threads = Function.update s.threads i th) (hp : s'.pointers = s.pointers)
    (hk : s.Claims p i .read) (hslot : s'.slot p = none)
    (hlt : ∀ x, s₀.slot p = some x → p < maxOff B n) (hc' : ∀ k, th.pc.claim ≠ some (p, k)) :
    SlotOk B n classify s₀ s' b p := by
  obtain ⟨hr, x, -, h₀, ⟨hw, hc⟩ | ⟨hw, i', hne, hc⟩⟩ := h.read hk
  · exact .free (hp ▸ hw) (hp ▸ hr) hslot (not_claims_of_claim hth hc hc')
  · refine .empty i' .wait (hp ▸ hw) (hlt x h₀) hslot (.inl rfl) fun j k => ?_
    rw [claims_of_update hth]
    split
    · next heq => exact iff_of_false (hc' k) fun hj => hne (hj.1.symm.trans heq)
    · next hji =>
      rw [hc]
      exact ⟨fun hj => hj.resolve_right fun hj => hji hj.1, .inl⟩

/-- The thread writes a block of the bucket. -/
theorem SlotOk.of_fill (h : SlotOk B n classify s₀ s b p)
    (hth : s'.threads = Function.update s.threads i th) (hp : s'.pointers = s.pointers)
    (hk : s.Claims p i .fill) {x : β} (hslot : s'.slot p = some x) (hb : classify (some x) = b)
    (hc' : ∀ k, th.pc.claim ≠ some (p, k)) : SlotOk B n classify s₀ s' b p := by
  obtain ⟨hw, -, -, hc⟩ := h.fill hk
  exact .placed x (hp ▸ hw) hslot hb (not_claims_of_claim hth hc hc')

/-- The thread takes the slot at the write pointer. -/
theorem SlotOk.of_incWrite (h : SlotOk B n classify s₀ s b p)
    (hth : s'.threads = Function.update s.threads i th) (hw : (s.pointers b).w = p)
    (hw' : p < (s'.pointers b).w) (hr : (s'.pointers b).r = (s.pointers b).r)
    (hslot : s'.slot = s.slot) (hi : ∀ k, ¬ s.Claims p i k)
    (hlt : ∀ x, s₀.slot p = some x → p < maxOff B n)
    (hc' : th.pc.claim = some (p, if (s.pointers b).r < p then if maxOff B n ≤ p then .spill
    else .wait else .hold)) : SlotOk B n classify s₀ s' b p := by
  cases h with
  | holding _ _ h | waiting _ _ _ h | empty _ _ h | placed _ h | spilling _ h | spilled h => omega
  | unread x _ hr' hx h₀ hc =>
    rw [if_neg (by omega)] at hc'
    exact .holding x i hw' (hslot ▸ hx) h₀ (claims_of_not_claims hth hc hc')
  | reading x i' _ hr' hx h₀ hc =>
    have hlt' := hlt x h₀
    rw [if_pos hr', if_neg (by omega)] at hc'
    refine .waiting x i i' hw' (hr ▸ hr') (hslot ▸ hx) h₀ fun j k => ?_
    have hi' : i ≠ i' := by
      rintro rfl
      exact hi .read ((hc i .read).mpr ⟨rfl, rfl⟩)
    rw [claims_of_update hth]
    split
    · next heq =>
      rw [hc', Option.some.injEq, Prod.mk.injEq, heq]
      exact ⟨fun hk => .inl ⟨rfl, hk.2.symm⟩,
        fun hk => ⟨rfl, (hk.resolve_right fun hk => hi' hk.1).2.symm⟩⟩
    · next hne =>
      rw [hc]
      exact ⟨.inr, fun hk => hk.resolve_left fun hk => hne hk.1⟩
  | free _ hr' hx hc =>
    rw [if_pos hr'] at hc'
    split at hc'
    · next hle => exact .spilling i hw' hle (hslot ▸ hx) (claims_of_not_claims hth hc hc')
    · next hle =>
      exact .empty i .wait hw' (by omega) (hslot ▸ hx) (.inl rfl) (claims_of_not_claims hth hc hc')

end

/-! ### One step: the slots -/

section
variable {t : ℕ} {β : Type} {B n nb : ℕ} {bss full : ℕ → ℕ} {classify : Option β → ℕ}
  {s₀ s : Permuting t β}

@[simp] theorem loop_claim (count : ℕ) : (loop count).claim = none := by
  unfold loop
  split <;> rfl

theorem Permuting.set_w {i : Fin t} {th : Thread β} {b : ℕ} {bp : BucketPointers}
    (h : bp.w = (s.pointers b).w) (c : ℕ) :
    ((s.set b bp i th).pointers c).w = (s.pointers c).w := by
  simp only [Permuting.set, Function.update_apply]
  split
  · next heq => rw [h, heq]
  · rfl

theorem Permuting.set_r {i : Fin t} {th : Thread β} {b : ℕ} {bp : BucketPointers}
    (h : bp.r = (s.pointers b).r) (c : ℕ) :
    ((s.set b bp i th).pointers c).r = (s.pointers c).r := by
  simp only [Permuting.set, Function.update_apply]
  split
  · next heq => rw [h, heq]
  · rfl

theorem Permuting.set_self {i : Fin t} {th : Thread β} {b : ℕ} {bp : BucketPointers} :
    (s.set b bp i th).pointers b = bp := Function.update_self ..

theorem Permuting.set_of_ne {i : Fin t} {th : Thread β} {b c : ℕ} {bp : BucketPointers}
    (h : c ≠ b) : (s.set b bp i th).pointers c = s.pointers c := Function.update_of_ne h ..

theorem Classified.lt_maxOff [Fintype β] (hcl : Classified B n nb bss full classify s₀) {p : ℤ}
    {x : β} (hx : s₀.slot p = some x) (hB : 1 ≤ B) : p < maxOff B n := by
  obtain ⟨b, hb, k, hk, rfl⟩ := (hcl.slot p).mp (Option.isSome_of_eq_some hx)
  have harr := hcl.inArray b hb (by omega)
  have hle : (k : ℤ) * B + B ≤ full b * B := by
    rw [← add_one_mul]
    exact mul_le_mul_of_nonneg_right (by omega) (Int.natCast_nonneg B)
  have hend := le_alignToNextBlock hB (n + 1)
  unfold maxOff
  omega

theorem Inv.readBucket_lt (hI : Inv B n nb bss classify s₀ s) (hnb : 1 ≤ nb) (i : Fin t) :
    (s.threads i).readBucket < nb := by
  rw [(hI.visited i).readBucket]
  exact Nat.mod_lt _ hnb

/-- A thread that has been counted makes the bucket one that is being read. -/
theorem Inv.isReading (hI : Inv B n nb bss classify s₀ s) {i : Fin t}
    (hlt : (s.threads i).readBucket < nb) (hc : (s.threads i).pc.counted) :
    (s.pointers (s.threads i).readBucket).isReading = true := by
  have hone : (1 : ℤ) ≤ (s.pointers (s.threads i).readBucket).numReading := by
    rw [hI.reading _ hlt]
    refine le_trans (le_of_eq (if_pos ⟨hc, rfl⟩).symm)
      (Finset.single_le_sum (f := fun j => (s.threads j).counts (s.threads i).readBucket)
        (fun j _ => ?_) (Finset.mem_univ i))
    unfold Thread.counts
    split <;> decide
  exact decide_eq_true (by omega)

variable (h : Boundaries false nb n bss) (hB : 1 ≤ B)
include h

/-- A slot that a thread has claimed is in a bucket. -/
theorem Inv.claimed [Fintype β] (hI : Inv B n nb bss classify s₀ s)
    (hcl : Classified B n nb bss full classify s₀) {i : Fin t} {p : ℤ} {k : Claim}
    (hk : s.Claims p i k) : ∃ b < nb, InBucket B bss b p ∧ SlotOk B n classify s₀ s b p := by
  have hmem : ∃ b < nb, InBucket B bss b p := by
    by_cases hread : k = .read
    · subst hread
      have hok := hI.threads i
      unfold Thread.Ok at hok
      unfold Permuting.Claims at hk
      cases hpc : (s.threads i).pc with
      | readBlock q =>
        rw [hpc] at hk hok
        obtain rfl : q = p := congrArg Prod.fst (Option.some.inj hk)
        exact ⟨_, hI.readBucket_lt h.pos i, hok.2⟩
      | _ =>
        rw [hpc] at hk
        cases hk
    · obtain ⟨d, c, -, ⟨x, -, hxd⟩, hin⟩ := (hI.threads i).carries hk hread
      exact ⟨d, hxd ▸ hcl.bucket x, hin⟩
  obtain ⟨b, hb, hin⟩ := hmem
  exact ⟨b, hb, hin, hI.slots b hb p hin⟩

include hB in
/-- A thread that is about to write the overflow block is the first one. -/
theorem Inv.overflow_of_spill [Fintype β] (hI : Inv B n nb bss classify s₀ s)
    (hcl : Classified B n nb bss full classify s₀) {i : Fin t} {p : ℤ} (hk : s.Claims p i .spill) :
    p = maxOff B n ∧ ∀ j, (s.threads j).overflow = none := by
  obtain ⟨b, hb, hin, hslot⟩ := hI.claimed h hcl hk
  obtain ⟨-, hle, -, -⟩ := hslot.spill hk
  have hp := hin.eq_maxOff h hB hb hle
  refine ⟨hp, fun j => Option.eq_none_iff_forall_not_mem.mpr fun y hy => ?_⟩
  exact (hI.overflow j y hy).2.2.1 i .spill (hp ▸ hk)

include hB

section
variable [Fintype β] (hI : Inv B n nb bss classify s₀ s)
  (hcl : Classified B n nb bss full classify s₀) {i : Fin t} {b : ℕ} (hb : b < nb) {p : ℤ}
  (hp : InBucket B bss b p)
include hI hb hp

omit [Fintype β] hcl in
/-- The slots when a thread takes the last block that has not been read, or finds none. -/
theorem Inv.slots_decRead (hpc : (s.threads i).pc = .decRead) :
    SlotOk B n classify s₀ (step B n nb classify i s) b p := by
  have hslot := hI.slots b hb p hp
  have hin := hI.readBucket_lt h.pos i
  have hnone : ∀ k, ¬ s.Claims p i k := not_claims_of_none (by rw [hpc]; rfl)
  have hread : (s.pointers (s.threads i).readBucket).read B =
      (s.pointers (s.threads i).readBucket).r :=
    Int.ediv_mul_cancel (hI.dvd_r _ hin)
  simp only [step, hpc, hread]
  split
  · next hempty =>
    refine hslot.other rfl rfl (by rw [Permuting.set_w (by rfl)]) ?_ ?_
      hnone nofun (fun _ h => h)
    · rcases eq_or_ne b (s.threads i).readBucket with rfl | hne
      · intro h₁ h₂
        omega
      · rw [Permuting.set_of_ne hne]
        exact fun _ h => h
    · rcases eq_or_ne b (s.threads i).readBucket with rfl | hne
      · rw [Permuting.set_self]
        dsimp only [BucketPointers.decRead]
        omega
      · rw [Permuting.set_of_ne hne]
        exact fun h => h
  · next hfull =>
    have hq : InBucket B bss (s.threads i).readBucket (s.pointers (s.threads i).readBucket).r :=
      ⟨hI.dvd_r _ hin, (hI.le_w _ hin).trans (by omega), hI.r_lt _ hin⟩
    rcases eq_or_ne p (s.pointers (s.threads i).readBucket).r with heq | hne
    · obtain rfl : b = (s.threads i).readBucket := hp.eq h hB hb hin (heq ▸ hq)
      cases hslot with
      | reading _ _ _ hr | free _ hr | waiting _ _ _ _ hr => omega
      | holding _ _ hw | empty _ _ hw | placed _ hw | spilling _ hw | spilled hw => omega
      | unread x hw hr hx h₀ hc =>
        refine .reading x i (by rwa [Permuting.set_w (by rfl)]) ?_ hx h₀ ?_
        · rw [Permuting.set_self]
          dsimp only [BucketPointers.decRead]
          omega
        · exact claims_of_not_claims rfl hc (by rw [heq]; rfl)
    · refine hslot.other rfl rfl (by rw [Permuting.set_w (by rfl)]) ?_ ?_ hnone
        (claim_ne hne) (fun _ h => h)
      · rcases eq_or_ne b (s.threads i).readBucket with rfl | hne'
        · rw [Permuting.set_self]
          intro _ h₂
          refine le_of_lt_add_block hp.1 (Int.dvd_sub hq.1 (Int.dvd_refl _)) ?_
          dsimp only [BucketPointers.decRead]
          omega
        · rw [Permuting.set_of_ne hne']
          exact fun _ h => h
      · rcases eq_or_ne b (s.threads i).readBucket with rfl | hne'
        · rw [Permuting.set_self]
          dsimp only [BucketPointers.decRead]
          omega
        · rw [Permuting.set_of_ne hne']
          exact fun h => h

include hcl

/-- The slots when a thread takes the next slot of the bucket that its block belongs to. -/
theorem Inv.slots_incWrite {d : ℕ} {c : Bool} (hpc : (s.threads i).pc = .incWrite d c) :
    SlotOk B n classify s₀ (step B n nb classify i s) b p := by
  have hslot := hI.slots b hb p hp
  have hok := hI.threads i
  have hlt : ∀ x, s₀.slot p = some x → p < maxOff B n := fun x hx => hcl.lt_maxOff hx hB
  have hnone : ∀ k, ¬ s.Claims p i k := not_claims_of_none (by rw [hpc]; rfl)
  unfold Thread.Ok at hok
  rw [hpc] at hok
  obtain ⟨hd, hroom⟩ := hI.write_lt h hB hcl hpc
  have hq : InBucket B bss d (s.pointers d).w := ⟨hI.dvd_w d hd, hI.le_w d hd, hroom⟩
  simp only [step, hpc]
  rcases eq_or_ne p (s.pointers d).w with rfl | hne
  · obtain rfl : b = d := hp.eq h hB hb hd hq
    refine hslot.of_incWrite rfl rfl ?_ ?_ rfl hnone hlt ?_
    · rw [Permuting.set_self]
      dsimp only [BucketPointers.incWrite]
      omega
    · rw [Permuting.set_self]
      rfl
    · dsimp only
      split
      · split <;> rfl
      · rfl
  · refine hslot.other rfl rfl ?_ ?_ ?_ hnone ?_ (fun _ h => h)
    · rcases eq_or_ne b d with rfl | hne'
      · rw [Permuting.set_self]
        dsimp only [BucketPointers.incWrite]
        have := le_of_lt_add_block hp.1 hq.1
        omega
      · rw [Permuting.set_of_ne hne']
    · rw [Permuting.set_r (by rfl)]
      exact fun _ h => h
    · rw [Permuting.set_r (by rfl)]
      exact fun h => h
    · dsimp only
      split
      · split <;> exact claim_ne hne
      · exact claim_ne hne

/-- The slots when a thread waits until nobody reads the slot that it has taken. -/
theorem Inv.slots_isReading {d : ℕ} {c : Bool} {q : ℤ}
    (hpc : (s.threads i).pc = .isReading d c q) :
    SlotOk B n classify s₀ (step B n nb classify i s) b p := by
  have hslot := hI.slots b hb p hp
  have hok := hI.threads i
  have hq : (s.threads i).pc.claim = some (q, .wait) := by rw [hpc]; rfl
  unfold Thread.Ok at hok
  rw [hpc] at hok
  simp only [step, hpc]
  split
  · exact hslot
  · next hnot =>
    rcases eq_or_ne p q with rfl | hne
    · rcases hslot.wait (congrArg Pc.claim hpc) with ⟨j, hj⟩ | ⟨hw, hmax, hx, hc⟩
      · -- the reader has been counted
        have hokj := hI.threads j
        unfold Thread.Ok at hokj
        unfold Permuting.Claims at hj
        cases hpcj : (s.threads j).pc with
        | readBlock q =>
          rw [hpcj] at hj hokj
          obtain rfl : q = p := congrArg Prod.fst (Option.some.inj hj)
          obtain ⟨⟨x, -, hxd⟩, -, hpd⟩ := hok
          have hjb := hokj.2.eq h hB (hI.readBucket_lt h.pos j) (hxd ▸ hcl.bucket x) hpd
          have := hI.isReading (hI.readBucket_lt h.pos j) (by rw [hpcj]; rfl)
          rw [hjb] at this
          exact absurd this hnot
        | _ =>
          rw [hpcj] at hj
          cases hj
      · exact .empty i .fill hw hmax hx (.inr rfl) (claims_of_claim rfl hc rfl)
    · exact hslot.elsewhere rfl rfl rfl hq hne (claim_ne hne) fun _ h => h

end

/-- **The slots in one step.** -/
theorem Inv.slots_step [Fintype β] (hI : Inv B n nb bss classify s₀ s)
    (hcl : Classified B n nb bss full classify s₀) (i : Fin t) {b : ℕ} (hb : b < nb) {p : ℤ}
    (hp : InBucket B bss b p) : SlotOk B n classify s₀ (step B n nb classify i s) b p := by
  have hslot := hI.slots b hb p hp
  have hok := hI.threads i
  have hlt : ∀ x, s₀.slot p = some x → p < maxOff B n := fun x hx => hcl.lt_maxOff hx hB
  unfold Thread.Ok at hok
  cases hpc : (s.threads i).pc with
  | finished =>
    simp only [step, hpc]
    exact hslot
  | tryRead | noBlock | stopRead =>
    simp only [step, hpc]
    refine hslot.other rfl rfl ?_ ?_ ?_ (not_claims_of_none (by rw [hpc]; rfl)) ?_ (fun _ h => h)
    · rw [Permuting.set_w (by rfl)]
    · rw [Permuting.set_r (by rfl)]
      exact fun _ h => h
    · rw [Permuting.set_r (by rfl)]
      exact fun h => h
    · intro k hk
      simp only [loop_claim] at hk
      cases hk
  | decRead => exact hI.slots_decRead h hB hb hp hpc
  | readBlock q =>
    simp only [step, hpc]
    rcases eq_or_ne p q with rfl | hne
    · exact hslot.of_read rfl rfl (congrArg Pc.claim hpc) (Function.update_self ..) hlt nofun
    · exact hslot.elsewhere rfl rfl (Function.update_of_ne hne ..) (congrArg Pc.claim hpc) hne nofun
        fun _ h => h
  | incWrite d c => exact hI.slots_incWrite h hB hcl hb hp hpc
  | isReading d c q => exact hI.slots_isReading h hB hcl hb hp hpc
  | writeBlock d c q | swapIn d c q new =>
    rw [hpc] at hok
    simp only [step, hpc]
    rcases eq_or_ne p q with rfl | hne
    · obtain ⟨⟨x, hx, hxd⟩, -, hpd⟩ := hok
      exact hslot.of_fill rfl rfl (congrArg Pc.claim hpc) ((Function.update_self ..).trans hx)
        (hxd.trans (hpd.eq h hB (hxd ▸ hcl.bucket x) hb hp)) nofun
    · exact hslot.elsewhere rfl rfl (Function.update_of_ne hne ..) (congrArg Pc.claim hpc) hne nofun
        fun _ h => h
  | writeOverflow d c q =>
    rw [hpc] at hok
    obtain ⟨⟨x, hx, hxd⟩, -, hpd⟩ := hok
    have hd : d < nb := hxd ▸ hcl.bucket x
    have hk : s.Claims q i .spill := congrArg Pc.claim hpc
    obtain ⟨-, hover⟩ := hI.overflow_of_spill h hB hcl hk
    simp only [step, hpc]
    rcases eq_or_ne p q with rfl | hne
    · obtain ⟨hw, hle, hx', hc⟩ := hslot.spill hk
      refine .spilled hw hle hx' ⟨i, x, ?_, hxd.trans (hpd.eq h hB hd hb hp)⟩
        (not_claims_of_claim rfl hc nofun)
      dsimp only [Permuting.continue]
      rwa [Function.update_self]
    · refine hslot.elsewhere rfl rfl rfl (congrArg Pc.claim hpc) hne nofun fun y hy => ?_
      rw [hover i] at hy
      cases hy
  | classify d c q =>
    rw [hpc] at hok
    simp only [step, hpc]
    rcases eq_or_ne p q with rfl | hne
    · obtain ⟨⟨y, -, hyd⟩, -, hpd⟩ := hok
      obtain ⟨hw, ⟨x, hx, h₀⟩, hc⟩ := hslot.hold (congrArg Pc.claim hpc)
      rw [hx]
      split
      · next heq =>
        exact .placed x hw hx (heq.trans (hpd.eq h hB (hyd ▸ hcl.bucket y) hb hp))
          (not_claims_of_claim rfl hc nofun)
      · exact .holding x i hw hx h₀ (claims_of_claim rfl hc rfl)
    · refine hslot.elsewhere rfl rfl rfl (congrArg Pc.claim hpc) hne ?_ fun _ h => h
      dsimp only
      split
      · exact nofun
      · exact claim_ne hne
  | swapOut d c q new =>
    simp only [step, hpc]
    rcases eq_or_ne p q with rfl | hne
    · obtain ⟨hw, ⟨x, hx, h₀⟩, hc⟩ := hslot.hold (congrArg Pc.claim hpc)
      exact .empty i .fill hw (hlt x h₀) (Function.update_self ..) (.inr rfl)
        (claims_of_claim rfl hc rfl)
    · exact hslot.elsewhere rfl rfl (Function.update_of_ne hne ..) (congrArg Pc.claim hpc) hne
        (claim_ne hne) fun _ h => h

end

end Ps4o.InPlace
