import Mathlib.Algebra.Order.BigOperators.Group.Finset
import Mathlib.Algebra.Order.Ring.Int
import Ps4o.InPlace.BlockPermutation

/-!
# Blocks and the threads that claim them

At each moment of the block permutation a slot is in one of nine states (`SlotOk`), which says where
it is relative to the pointers of its bucket, what it holds, and which threads are about to read or
write it. What a thread is about to do with which slot is its claim (`Pc.claim`). `Inv` puts
together what holds in every state.

## What is proved

* `SlotOk.frame` — the state of a slot depends on what it holds, on the pointers of its bucket and
  on the claims on it.
* `Inv.write_lt` — the write pointer of a bucket is within the bucket when a thread is about to
  write a block of it: each slot below it accounts for another block of the bucket.
* `SlotOk.read` and its siblings — what a claim of each kind says about the slot.
-/

namespace Ps4o.InPlace

/-! ### Claims -/

/-- What a thread is about to do with a slot. -/
inductive Claim where
  /-- Read the block in it. -/
  | read
  /-- Keep the block in it, or read it. -/
  | hold
  /-- Write it when nobody reads. -/
  | wait
  /-- Write it. -/
  | fill
  /-- Write the overflow block instead. -/
  | spill
  deriving DecidableEq

/-- The slot that a thread is about to read or write. -/
def Pc.claim : Pc → Option (ℤ × Claim)
  | .readBlock read => some (read, .read)
  | .classify _ _ write | .swapOut _ _ write _ => some (write, .hold)
  | .isReading _ _ write => some (write, .wait)
  | .writeBlock _ _ write | .swapIn _ _ write _ => some (write, .fill)
  | .writeOverflow _ _ write => some (write, .spill)
  | .tryRead | .decRead | .noBlock | .stopRead | .incWrite _ _ | .finished => none

/-- The bucket and the swap block of the block that a thread is about to write. -/
def Pc.carried : Pc → Option (ℕ × Bool)
  | .incWrite dest current | .isReading dest current _ | .writeBlock dest current
    _ | .writeOverflow dest current _
  | .classify dest current _ | .swapOut dest current _ _ | .swapIn dest current _ _ =>
    some (dest, current)
  | .tryRead | .decRead | .noBlock | .readBlock _ | .stopRead | .finished => none

/-- Whether the thread has been counted as reading. -/
def Pc.counted : Pc → Bool
  | .decRead | .noBlock | .readBlock _ | .stopRead => true
  | _ => false

section
variable {t : ℕ} {β : Type}

/-- Thread `i` is about to do `k` with slot `p`. -/
def Permuting.Claims (s : Permuting t β) (p : ℤ) (i : Fin t) (k : Claim) : Prop :=
  (s.threads i).pc.claim = some (p, k)

variable (B n nb : ℕ) (bss : ℕ → ℕ) (classify : Option β → ℕ) (s₀ s : Permuting t β)

/-- `p` is a slot of bucket `b`. -/
def InBucket (b : ℕ) (p : ℤ) : Prop :=
  (B : ℤ) ∣ p ∧ startBlock B bss b ≤ p ∧ p < startBlock B bss (b + 1)

/-- The state of slot `p` of bucket `b`. -/
inductive SlotOk (b : ℕ) (p : ℤ) : Prop where
  /-- Between the pointers. -/
  | unread (x : β) (hw : (s.pointers b).w ≤ p) (hr : p ≤ (s.pointers b).r) (h : s.slot p = some x)
      (h₀ : s₀.slot p = some x) (hc : ∀ j k, ¬ s.Claims p j k)
  /-- Thread `i` is about to read the block. -/
  | reading (x : β) (i : Fin t) (hw : (s.pointers b).w ≤ p) (hr : (s.pointers b).r < p)
      (h : s.slot p = some x)
      (h₀ : s₀.slot p = some x) (hc : ∀ j k, s.Claims p j k ↔ j = i ∧ k = .read)
  /-- There is no block, and nobody needs the slot. -/
  | free (hw : (s.pointers b).w ≤ p) (hr : (s.pointers b).r < p) (h : s.slot p = none)
    (hc : ∀ j k, ¬ s.Claims p j k)
  /-- Thread `i` looks at the block. -/
  | holding (x : β) (i : Fin t) (hw : p < (s.pointers b).w) (h : s.slot p = some x)
      (h₀ : s₀.slot p = some x) (hc : ∀ j k, s.Claims p j k ↔ j = i ∧ k = .hold)
  /-- Thread `i` waits until thread `i'` has read the block. -/
  | waiting (x : β) (i i' : Fin t) (hw : p < (s.pointers b).w) (hr : (s.pointers b).r < p)
      (h : s.slot p = some x)
      (h₀ : s₀.slot p = some x) (hc : ∀ j k, s.Claims p j k ↔ j = i ∧
        k = .wait ∨ j = i' ∧ k = .read)
  /-- Thread `i` writes the slot, perhaps after it has found that nobody reads. -/
  | empty (i : Fin t) (k₀ : Claim) (hw : p < (s.pointers b).w)
      (hlt : p < maxOff B n) (h : s.slot p = none)
      (hk : k₀ = .wait ∨ k₀ = .fill) (hc : ∀ j k, s.Claims p j k ↔ j = i ∧ k = k₀)
  /-- There is a block of the bucket. -/
  | placed (x : β) (hw : p < (s.pointers b).w) (h : s.slot p = some x) (hb : classify (some x) = b)
      (hc : ∀ j k, ¬ s.Claims p j k)
  /-- Thread `i` writes the overflow block, as the slot reaches beyond the end of the array. -/
  | spilling (i : Fin t) (hw : p < (s.pointers b).w) (hle : maxOff B n ≤ p) (h : s.slot p = none)
      (hc : ∀ j k, s.Claims p j k ↔ j = i ∧ k = .spill)
  /-- The block for the slot is in an overflow block. -/
  | spilled (hw : p < (s.pointers b).w) (hle : maxOff B n ≤ p) (h : s.slot p = none)
      (ho : ∃ i x, (s.threads i).overflow = some x ∧ classify (some x) = b)
        (hc : ∀ j k, ¬ s.Claims p j k)

/-- A swap block holds a block of bucket `b`. -/
def Thread.Carries (th : Thread β) (b : ℕ) (c : Bool) : Prop :=
  ∃ x, th.swap c = some x ∧ classify (some x) = b

/-- What a thread has in its swap blocks, and which slots it is about to read or write. -/
def Thread.Ok (th : Thread β) : Prop :=
  match th.pc with
  | .tryRead | .decRead | .noBlock | .finished => ∀ c, th.swap c = none
  | .readBlock read => (∀ c, th.swap c = none) ∧ InBucket B bss th.readBucket read
  | .stopRead => (∃ x, th.swap false = some x) ∧ th.swap true = none
  | .incWrite dest current => th.Carries classify dest current ∧ th.swap (!current) = none
  | .isReading dest current write | .writeBlock dest current write
  | .writeOverflow dest current write | .classify dest current write =>
    th.Carries classify dest current ∧ th.swap (!current) = none ∧ InBucket B bss dest write
  | .swapOut dest current write new =>
    th.Carries classify dest current ∧ th.swap (!current) = none ∧ InBucket B bss dest write ∧
      new = classify (s₀.slot write)
  | .swapIn dest current write new =>
    th.Carries classify dest current ∧ th.Carries classify new (!current) ∧
      InBucket B bss dest write

/-- A thread counts for a bucket while it reads there. -/
def Thread.counts (th : Thread β) (b : ℕ) : ℤ := if th.pc.counted ∧ th.readBucket = b then 1 else 0

/-- How far thread `i` has come in the loop: the read pointers of the buckets that it has been
through are below the write pointers. -/
structure Visited (i : Fin t) : Prop where
  count_le : (s.threads i).count ≤ nb
  readBucket : (s.threads i).readBucket = (startBucket nb t i + (nb - (s.threads i).count)) % nb
  finished : (s.threads i).count = 0 ↔ (s.threads i).pc = .finished
  noBlock : (s.threads i).pc = .noBlock →
    (s.pointers (s.threads i).readBucket).r < (s.pointers (s.threads i).readBucket).w
  visited : ∀ k < nb - (s.threads i).count,
    (s.pointers ((startBucket nb t i + k) % nb)).r < (s.pointers ((startBucket nb t i + k) % nb)).w

/-- What holds in every state that the threads can come to. -/
structure Inv : Prop where
  dvd_w : ∀ b < nb, (B : ℤ) ∣ (s.pointers b).w
  dvd_r : ∀ b < nb, (B : ℤ) ∣ (s.pointers b).r
  le_w : ∀ b < nb, startBlock B bss b ≤ (s.pointers b).w
  w_le : ∀ b < nb, (s.pointers b).w ≤ startBlock B bss (b + 1)
  r_lt : ∀ b < nb, (s.pointers b).r < startBlock B bss (b + 1)
  slots : ∀ b < nb, ∀ p, InBucket B bss b p → SlotOk B n classify s₀ s b p
  outside : ∀ p, (∀ b < nb, ¬ InBucket B bss b p) → s.slot p = none
  threads : ∀ i, (s.threads i).Ok B bss classify s₀
  /-- The read counter counts the threads that are reading. -/
  reading : ∀ b < nb, (s.pointers b).numReading = ∑ i, (s.threads i).counts b
  places : ∀ x, InOnePlace s x
  /-- A block has been written to an overflow block in place of the slot at the end of the array. -/
  overflow : ∀ i x, (s.threads i).overflow = some x →
    InBucket B bss (classify (some x)) (maxOff B n) ∧
      maxOff B n < (s.pointers (classify (some x))).w ∧
      (∀ j k, ¬ s.Claims (maxOff B n) j k) ∧ ∀ j y, (s.threads j).overflow = some y → j = i
  visited : ∀ i, Visited nb s i

end

/-! ### Slots and buckets -/

section
variable {B n nb : ℕ} {bss : ℕ → ℕ}

/-- Multiples of the block size that are less than a block apart. -/
theorem le_of_lt_add_block {p q : ℤ} (hp : (B : ℤ) ∣ p) (hq : (B : ℤ) ∣ q) (h : p < q + B) :
    p ≤ q := by
  obtain ⟨i, rfl⟩ := hp
  obtain ⟨j, rfl⟩ := hq
  rw [← mul_add_one] at h
  exact mul_le_mul_of_nonneg_left
    (Int.lt_add_one_iff.mp (lt_of_mul_lt_mul_left h (Int.natCast_nonneg B)))
    (Int.natCast_nonneg B)

theorem dvd_startBlock (b : ℕ) : (B : ℤ) ∣ startBlock B bss b :=
  Int.natCast_dvd_natCast.mpr (dvd_alignToNextBlock B _)

theorem dvd_maxOff : (B : ℤ) ∣ maxOff B n :=
  Int.dvd_sub (Int.natCast_dvd_natCast.mpr (dvd_alignToNextBlock B _)) (Int.dvd_refl _)

variable (h : Boundaries false nb n bss) (hB : 1 ≤ B)
include h hB

theorem startBlock_mono {b c : ℕ} (hbc : b ≤ c) (hc : c ≤ nb) :
    startBlock B bss b ≤ startBlock B bss c :=
  Int.ofNat_le.mpr (alignToNextBlock_mono hB (h.mono hbc hc))

/-- A slot is in one bucket. -/
theorem InBucket.eq {b c : ℕ} {p : ℤ} (hb : b < nb) (hc : c < nb) (h₁ : InBucket B bss b p)
    (h₂ : InBucket B bss c p) : b = c := by
  obtain ⟨-, h₁, h₁'⟩ := h₁
  obtain ⟨-, h₂, h₂'⟩ := h₂
  rcases lt_trichotomy b c with hlt | heq | hlt
  · have := startBlock_mono h hB (show b + 1 ≤ c from hlt) hc.le
    omega
  · exact heq
  · have := startBlock_mono h hB (show c + 1 ≤ b from hlt) hb.le
    omega

/-- Only the last slot can reach beyond the end of the array. -/
theorem InBucket.eq_maxOff {b : ℕ} {p : ℤ} (hb : b < nb) (hp : InBucket B bss b p)
    (hle : maxOff B n ≤ p) : p = maxOff B n := by
  obtain ⟨hdvd, -, hlt⟩ := hp
  have hend : startBlock B bss (b + 1) ≤ alignToNextBlock B (n + 1) :=
    Int.ofNat_le.mpr (alignToNextBlock_mono hB ((h.end_le hb).trans (Nat.le_succ n)))
  refine le_antisymm (le_of_lt_add_block hdvd dvd_maxOff ?_) hle
  unfold maxOff
  omega

end

/-! ### One thread moves on -/

section
variable {t : ℕ} {β : Type} {B n nb : ℕ} {bss : ℕ → ℕ} {classify : Option β → ℕ}
  {s₀ s s' : Permuting t β}

/-- The claims of the other threads are as before. -/
theorem claims_of_update {i : Fin t} {th : Thread β}
    (h : s'.threads = Function.update s.threads i th) {p : ℤ} {j : Fin t} {k : Claim} :
    s'.Claims p j k ↔ if j = i then th.pc.claim = some (p, k) else s.Claims p j k := by
  unfold Permuting.Claims
  rw [h, Function.update_apply]
  split <;> rfl

theorem claims_same {i : Fin t} {th : Thread β} (h : s'.threads = Function.update s.threads i th)
    {p : ℤ} (hp : ∀ k, th.pc.claim = some (p, k) ↔ s.Claims p i k) (j : Fin t) (k : Claim) :
    s'.Claims p j k ↔ s.Claims p j k := by
  rw [claims_of_update h]
  split
  · next heq => rw [heq, hp]
  · rfl

/-- A slot stays in its state when what it depends on stays as it is. -/
theorem SlotOk.frame {b : ℕ} {p : ℤ} (h : SlotOk B n classify s₀ s b p)
    (hslot : s'.slot p = s.slot p) (hw : p < (s'.pointers b).w ↔ p < (s.pointers b).w)
    (hr : (s.pointers b).w ≤ p → p ≤ (s.pointers b).r → p ≤ (s'.pointers b).r)
    (hr' : (s.pointers b).r < p → (s'.pointers b).r < p)
    (hc : ∀ j k, s'.Claims p j k ↔ s.Claims p j k)
    (ho : ∀ j x, (s.threads j).overflow = some x → (s'.threads j).overflow = some x) :
    SlotOk B n classify s₀ s' b p := by
  have hw' : (s.pointers b).w ≤ p → (s'.pointers b).w ≤ p := fun hle => by omega
  cases h with
  | unread x h₁ h₂ h₃ h₄ h₅ =>
    exact .unread x (hw' h₁) (hr h₁ h₂) (hslot ▸ h₃) h₄ fun j k => by
      rw [hc]
      exact h₅ j k
  | reading x i h₁ h₂ h₃ h₄ h₅ =>
    exact .reading x i (hw' h₁) (hr' h₂) (hslot ▸ h₃) h₄ fun j k => (hc j k).trans (h₅ j k)
  | free h₁ h₂ h₃ h₄ =>
    exact .free (hw' h₁) (hr' h₂) (hslot ▸ h₃) fun j k => by
      rw [hc]
      exact h₄ j k
  | holding x i h₁ h₂ h₃ h₄ =>
    exact .holding x i (hw.mpr h₁) (hslot ▸ h₂) h₃ fun j k => (hc j k).trans (h₄ j k)
  | waiting x i i' h₁ h₂ h₃ h₄ h₅ =>
    exact .waiting x i i' (hw.mpr h₁) (hr' h₂) (hslot ▸ h₃) h₄ fun j k => (hc j k).trans (h₅ j k)
  | empty i k₀ h₁ h₂ h₃ h₄ h₅ =>
    exact .empty i k₀ (hw.mpr h₁) h₂ (hslot ▸ h₃) h₄ fun j k => (hc j k).trans (h₅ j k)
  | placed x h₁ h₂ h₃ h₄ =>
    exact .placed x (hw.mpr h₁) (hslot ▸ h₂) h₃ fun j k => by
      rw [hc]
      exact h₄ j k
  | spilling i h₁ h₂ h₃ h₄ =>
    exact .spilling i (hw.mpr h₁) h₂ (hslot ▸ h₃) fun j k => (hc j k).trans (h₄ j k)
  | spilled h₁ h₂ h₃ h₄ h₅ =>
    obtain ⟨i, x, hx, hb⟩ := h₄
    exact .spilled (hw.mpr h₁) h₂ (hslot ▸ h₃) ⟨i, x, ho i x hx, hb⟩ fun j k => by
      rw [hc]
      exact h₅ j k

end

/-! ### Room for one more block -/

section
variable {t : ℕ} {β : Type} {B n nb : ℕ} {bss full : ℕ → ℕ} {classify : Option β → ℕ}
  {s₀ s : Permuting t β}

/-- Where the block is for which a slot below the write pointer has been taken. -/
inductive Accounts (B n : ℕ) (s : Permuting t β) (p : ℤ) : Place t → Prop where
  /-- In the slot. -/
  | slot : Accounts B n s p (.slot p)
  /-- Some thread is about to write it. -/
  | swap (j : Fin t) (k : Claim) (d : ℕ) (c : Bool) (hp : s.Claims p j k)
      (hc : (s.threads j).pc.carried = some (d, c)) :
      Accounts B n s p (.swap j c)
  /-- It has been written to the overflow block. -/
  | overflow (j : Fin t) (hp : p = maxOff B n) : Accounts B n s p (.overflow j)

theorem Accounts.eq {p q : ℤ} {l : Place t} (hp : Accounts B n s p l) (hq : Accounts B n s q l) :
    p = q := by
  cases hp with
  | slot =>
    cases hq with
    | slot => rfl
  | swap j k d c hp hc =>
    cases hq with
    | swap j k' d' c hq hc' => exact congrArg Prod.fst (Option.some.inj (hp.symm.trans hq))
  | overflow j hp =>
    cases hq with
    | overflow j hq => rw [hp, hq]

/-- A thread that is about to write a slot has the block for it. -/
theorem Thread.Ok.carries {th : Thread β} (h : th.Ok B bss classify s₀) {p : ℤ} {k : Claim}
    (hk : th.pc.claim = some (p, k)) (hne : k ≠ .read) :
    ∃ d c, th.pc.carried = some (d, c) ∧ th.Carries classify d c ∧ InBucket B bss d p := by
  unfold Thread.Ok at h
  cases hpc : th.pc with
  | tryRead | decRead | noBlock | stopRead | incWrite | finished => simp [hpc, Pc.claim] at hk
  | readBlock read =>
    rw [hpc] at hk
    exact absurd (congrArg Prod.snd (Option.some.inj hk)).symm hne
  | isReading d c q | writeBlock d c q | writeOverflow d c q | classify d c q =>
    rw [hpc] at h hk
    obtain rfl : q = p := congrArg Prod.fst (Option.some.inj hk)
    exact ⟨d, c, rfl, h.1, h.2.2⟩
  | swapOut d c q new =>
    rw [hpc] at h hk
    obtain rfl : q = p := congrArg Prod.fst (Option.some.inj hk)
    exact ⟨d, c, rfl, h.1, h.2.2.1⟩
  | swapIn d c q new =>
    rw [hpc] at h hk
    obtain rfl : q = p := congrArg Prod.fst (Option.some.inj hk)
    exact ⟨d, c, rfl, h.1, h.2.2⟩

variable (h : Boundaries false nb n bss) (hB : 1 ≤ B)
include h hB

/-- Every slot below the write pointer accounts for a block of the bucket. -/
theorem Inv.accounts [Fintype β] (hI : Inv B n nb bss classify s₀ s)
    (hcl : ∀ x, classify (some x) < nb) {b : ℕ} (hb : b < nb) {p : ℤ} (hp : InBucket B bss b p)
    (hw : p < (s.pointers b).w) :
    ∃ l x, Accounts B n s p l ∧ s.content l = some x ∧ classify (some x) = b := by
  have hclaimed : ∀ j k, s.Claims p j k → k ≠ .read →
      ∃ l x, Accounts B n s p l ∧ s.content l = some x ∧ classify (some x) = b := by
    intro j k hk hne
    obtain ⟨d, c, hcar, ⟨x, hx, hd⟩, hin⟩ := (hI.threads j).carries hk hne
    have hdb := hin.eq h hB (hd ▸ hcl x) hb hp
    exact ⟨.swap j c, x, .swap j k d c hk hcar, hx, hd.trans hdb⟩
  cases hI.slots b hb p hp with
  | unread x hw' => omega
  | reading x i hw' => omega
  | free hw' => omega
  | holding x i _ _ _ hc => exact hclaimed i .hold ((hc i .hold).mpr ⟨rfl, rfl⟩) nofun
  | waiting x i i' _ _ _ _ hc => exact hclaimed i .wait ((hc i .wait).mpr (.inl ⟨rfl, rfl⟩)) nofun
  | empty i k₀ _ _ _ hk hc =>
    refine hclaimed i k₀ ((hc i k₀).mpr ⟨rfl, rfl⟩) ?_
    rintro rfl
    rcases hk with hk | hk <;> cases hk
  | placed x _ hx hd => exact ⟨.slot p, x, .slot, hx, hd⟩
  | spilling i _ _ _ hc => exact hclaimed i .spill ((hc i .spill).mpr ⟨rfl, rfl⟩) nofun
  | spilled _ hle _ ho =>
    obtain ⟨i, x, hx, hd⟩ := ho
    exact ⟨.overflow i, x, .overflow i (hp.eq_maxOff h hB hb hle), hx, hd⟩

/-- The slots below the write pointer, and a block of the bucket for each of them. -/
theorem Inv.exists_accounts [Fintype β] (hI : Inv B n nb bss classify s₀ s)
    (hcl : ∀ x, classify (some x) < nb) {b : ℕ} (hb : b < nb) :
    ∃ (m : ℕ) (l : Fin m → Place t) (y : Fin m → β), (s.pointers b).w =
    startBlock B bss b + (m : ℕ) * B ∧
      Function.Injective y ∧ ∀ k : Fin m, Accounts B n s (startBlock B bss b + (k : ℕ) * B) (l k) ∧
      s.content (l k) = some (y k) ∧ classify (some (y k)) = b := by
  obtain ⟨m, hm⟩ : ∃ m : ℕ, (s.pointers b).w = startBlock B bss b + (m : ℕ) * B := by
    obtain ⟨m, hm⟩ := Int.dvd_sub (hI.dvd_w b hb) (@dvd_startBlock B bss b)
    have hpos : 0 ≤ (B : ℤ) * m := by
      have := hI.le_w b hb
      omega
    have hm₀ : 0 ≤ m := le_of_mul_le_mul_left (by rwa [mul_zero]) (Int.natCast_pos.mpr hB)
    refine ⟨m.toNat, ?_⟩
    rw [Int.toNat_of_nonneg hm₀, mul_comm m]
    omega
  have hle := hI.w_le b hb
  have hslot : ∀ k : Fin m, ∃ l y, Accounts B n s (startBlock B bss b + (k : ℕ) * B) l ∧
      s.content l = some y ∧
      classify (some y) = b := by
    intro k
    have hk : ((k : ℕ) : ℤ) * B + B ≤ (m : ℕ) * B := by
      rw [← add_one_mul]
      exact mul_le_mul_of_nonneg_right (by omega) (Int.natCast_nonneg B)
    have hk₀ : (0 : ℤ) ≤ (k : ℕ) * B := mul_nonneg (Int.natCast_nonneg _) (Int.natCast_nonneg B)
    have hB' : (1 : ℤ) ≤ B := by omega
    exact hI.accounts h hB hcl hb ⟨Int.dvd_add (dvd_startBlock b)
      (Int.dvd_mul_left _ _), by omega, by omega⟩ (by omega)
  choose l y hl hy hyb using hslot
  refine ⟨m, l, y, hm, fun k k' heq => ?_, fun k => ⟨hl k, hy k, hyb k⟩⟩
  have hll := (hI.places _).unique (hy k) (heq ▸ hy k')
  have hp := (hl k).eq (hll ▸ hl k')
  exact Fin.ext (Int.ofNat.inj (mul_right_cancel₀ (show (B : ℤ) ≠ 0 by omega) (add_left_cancel hp)))

/-- **The write pointer stays in its bucket**: when a thread has a block of a bucket, there is room
for it. -/
theorem Inv.write_lt [Fintype β] (hI : Inv B n nb bss classify s₀ s)
    (hcl : Classified B n nb bss full classify s₀) {i : Fin t} {d : ℕ} {c : Bool}
    (hpc : (s.threads i).pc = .incWrite d c) :
    d < nb ∧ (s.pointers d).w < startBlock B bss (d + 1) := by
  have hok := hI.threads i
  unfold Thread.Ok at hok
  rw [hpc] at hok
  obtain ⟨⟨x, hx, hxd⟩, -⟩ := hok
  have hd : d < nb := hxd ▸ hcl.bucket x
  refine ⟨hd, ?_⟩
  classical
  obtain ⟨m, l, y, hm, hinj, hslot⟩ := hI.exists_accounts h hB hcl.bucket hd
  have hnew : x ∉ Finset.univ.image y := by
    intro hmem
    obtain ⟨k, -, hk⟩ := Finset.mem_image.mp hmem
    have hll : l k = .swap i c := (hI.places x).unique (hk ▸ (hslot k).2.1) hx
    have hacc := hll ▸ (hslot k).1
    cases hacc with
    | swap _ k' _ _ hp _ =>
      unfold Permuting.Claims at hp
      rw [hpc] at hp
      cases hp
  have hcard : m + 1 ≤ (Finset.univ.filter fun z => classify (some z) = d).card := by
    have hsub : insert x (Finset.univ.image y) ⊆ Finset.univ.filter fun z =>
        classify (some z) = d := by
      intro z hz
      rw [Finset.mem_filter]
      rcases Finset.mem_insert.mp hz with rfl | hz
      · exact ⟨Finset.mem_univ _, hxd⟩
      · obtain ⟨k, -, rfl⟩ := Finset.mem_image.mp hz
        exact ⟨Finset.mem_univ _, (hslot k).2.2⟩
    have := Finset.card_le_card hsub
    rwa [Finset.card_insert_of_notMem hnew, Finset.card_image_of_injective _ hinj, Finset.card_univ,
      Fintype.card_fin] at this
  have hroom := (Nat.mul_le_mul_right B hcard).trans (hcl.room d hd)
  have hstep := h.step d hd
  have hstart := alignToNextBlock_lt hB (bss d)
  have hend := le_alignToNextBlock hB (bss (d + 1))
  rw [Nat.succ_mul] at hroom
  rw [hm]
  unfold startBlock
  have hcast : ((m : ℕ) : ℤ) * B = ((m * B : ℕ) : ℤ) := (Nat.cast_mul m B).symm
  omega

end

/-! ### What a claim says about a slot -/

section
variable {t : ℕ} {β : Type} {B n : ℕ} {classify : Option β → ℕ} {s₀ s : Permuting t β} {b : ℕ}
  {p : ℤ} {i : Fin t}

theorem SlotOk.read (h : SlotOk B n classify s₀ s b p) (hk : s.Claims p i .read) :
    (s.pointers b).r < p ∧ ∃ x, s.slot p = some x ∧ s₀.slot p = some x ∧
      ((s.pointers b).w ≤ p ∧ (∀ j k, s.Claims p j k ↔ j = i ∧ k = .read) ∨
        p < (s.pointers b).w ∧ ∃ i', i' ≠ i ∧ ∀ j k, s.Claims p j k ↔ j = i' ∧
        k = .wait ∨ j = i ∧ k = .read) := by
  cases h with
  | unread _ _ _ _ _ hc | free _ _ _ hc | placed _ _ _ _ hc | spilled _ _ _ _ hc =>
    exact absurd hk (hc _ _)
  | holding _ _ _ _ _ hc | spilling _ _ _ _ hc => cases ((hc _ _).mp hk).2
  | empty _ k₀ _ _ _ hk₀ hc =>
    obtain ⟨-, rfl⟩ := (hc _ _).mp hk
    rcases hk₀ with hk₀ | hk₀ <;> cases hk₀
  | reading x i' hw hr hx h₀ hc =>
    obtain ⟨rfl, -⟩ := (hc _ _).mp hk
    exact ⟨hr, x, hx, h₀, .inl ⟨hw, hc⟩⟩
  | waiting x i₁ i₂ hw hr hx h₀ hc =>
    rcases (hc _ _).mp hk with ⟨-, hk'⟩ | ⟨rfl, -⟩
    · cases hk'
    · refine ⟨hr, x, hx, h₀, .inr ⟨hw, i₁, ?_, hc⟩⟩
      rintro rfl
      have hwait : s.Claims p i₁ .wait := (hc _ _).mpr (.inl ⟨rfl, rfl⟩)
      cases congrArg Prod.snd (Option.some.inj (hk.symm.trans hwait))

theorem SlotOk.hold (h : SlotOk B n classify s₀ s b p) (hk : s.Claims p i .hold) :
    p < (s.pointers b).w ∧ (∃ x, s.slot p = some x ∧ s₀.slot p = some x) ∧ ∀ j k, s.Claims p j k ↔
    j = i ∧ k = .hold := by
  cases h with
  | unread _ _ _ _ _ hc | free _ _ _ hc | placed _ _ _ _ hc | spilled _ _ _ _ hc =>
    exact absurd hk (hc _ _)
  | reading _ _ _ _ _ _ hc | spilling _ _ _ _ hc => cases ((hc _ _).mp hk).2
  | waiting _ _ _ _ _ _ _ hc => rcases (hc _ _).mp hk with ⟨-, hk'⟩ | ⟨-, hk'⟩ <;> cases hk'
  | empty _ k₀ _ _ _ hk₀ hc =>
    obtain ⟨-, rfl⟩ := (hc _ _).mp hk
    rcases hk₀ with hk₀ | hk₀ <;> cases hk₀
  | holding x i' hw hx h₀ hc =>
    obtain ⟨rfl, -⟩ := (hc _ _).mp hk
    exact ⟨hw, ⟨x, hx, h₀⟩, hc⟩

theorem SlotOk.wait (h : SlotOk B n classify s₀ s b p) (hk : s.Claims p i .wait) :
    (∃ i', s.Claims p i' .read) ∨
      p < (s.pointers b).w ∧ p < maxOff B n ∧ s.slot p = none ∧ ∀ j k, s.Claims p j k ↔
      j = i ∧ k = .wait := by
  cases h with
  | unread _ _ _ _ _ hc | free _ _ _ hc | placed _ _ _ _ hc | spilled _ _ _ _ hc =>
    exact absurd hk (hc _ _)
  | reading _ _ _ _ _ _ hc | holding _ _ _ _ _ hc | spilling _ _ _ _ hc => cases ((hc _ _).mp hk).2
  | waiting _ _ i₂ _ _ _ _ hc => exact .inl ⟨i₂, (hc _ _).mpr (.inr ⟨rfl, rfl⟩)⟩
  | empty i' k₀ hw hlt hx _ hc =>
    obtain ⟨rfl, rfl⟩ := (hc _ _).mp hk
    exact .inr ⟨hw, hlt, hx, hc⟩

theorem SlotOk.fill (h : SlotOk B n classify s₀ s b p) (hk : s.Claims p i .fill) :
    p < (s.pointers b).w ∧ p < maxOff B n ∧ s.slot p = none ∧ ∀ j k, s.Claims p j k ↔
    j = i ∧ k = .fill := by
  cases h with
  | unread _ _ _ _ _ hc | free _ _ _ hc | placed _ _ _ _ hc | spilled _ _ _ _ hc =>
    exact absurd hk (hc _ _)
  | reading _ _ _ _ _ _ hc | holding _ _ _ _ _ hc | spilling _ _ _ _ hc => cases ((hc _ _).mp hk).2
  | waiting _ _ _ _ _ _ _ hc => rcases (hc _ _).mp hk with ⟨-, hk'⟩ | ⟨-, hk'⟩ <;> cases hk'
  | empty i' k₀ hw hlt hx _ hc =>
    obtain ⟨rfl, rfl⟩ := (hc _ _).mp hk
    exact ⟨hw, hlt, hx, hc⟩

theorem SlotOk.spill (h : SlotOk B n classify s₀ s b p) (hk : s.Claims p i .spill) :
    p < (s.pointers b).w ∧ maxOff B n ≤ p ∧ s.slot p = none ∧ ∀ j k, s.Claims p j k ↔
    j = i ∧ k = .spill := by
  cases h with
  | unread _ _ _ _ _ hc | free _ _ _ hc | placed _ _ _ _ hc | spilled _ _ _ _ hc =>
    exact absurd hk (hc _ _)
  | reading _ _ _ _ _ _ hc | holding _ _ _ _ _ hc => cases ((hc _ _).mp hk).2
  | waiting _ _ _ _ _ _ _ hc => rcases (hc _ _).mp hk with ⟨-, hk'⟩ | ⟨-, hk'⟩ <;> cases hk'
  | empty _ k₀ _ _ _ hk₀ hc =>
    obtain ⟨-, rfl⟩ := (hc _ _).mp hk
    rcases hk₀ with hk₀ | hk₀ <;> cases hk₀
  | spilling i' hw hle hx hc =>
    obtain ⟨rfl, -⟩ := (hc _ _).mp hk
    exact ⟨hw, hle, hx, hc⟩

end

end Ps4o.InPlace
