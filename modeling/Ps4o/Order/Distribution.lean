import Mathlib.Data.Fintype.EquivFin
import Mathlib.Data.List.Basic
import Mathlib.Data.List.Perm.Basic
import Mathlib.Data.List.Count

/-!
# Stable distribution

Distributing elements into buckets by a list of keys, one for each element: bucket after
bucket, the elements of a bucket in the order in which they come. `start` is where a
bucket begins, `seen` how many elements of a bucket come before a position, `dest` where
an element goes.

## What is proved

* `dest_inj`, `dest_surj` — every position is the destination of exactly one element.
* `distributed_dest` — the element at a destination is the one that goes there.
* `distributed_perm` — distributing permutes.
-/

namespace Ps4o.Order

variable {α : Type} (ks : List ℕ)

/-- Where bucket `b` begins: the number of smaller keys. -/
def start (b : ℕ) : ℕ := ks.countP fun k => k < b

/-- How many of the first `j` keys are `b`. -/
def seen (j b : ℕ) : ℕ := (ks.take j).count b

/-- Where the `j`-th element goes. -/
def dest (j : ℕ) : ℕ := start ks (ks.getD j 0) + seen ks j (ks.getD j 0)

/-- The elements of a bucket, in order. -/
def bucket (xs : List α) (b : ℕ) : List α := ((ks.zip xs).filter fun p => p.1 == b).map Prod.snd

/-- All buckets, one after the other. -/
def distributed (xs : List α) (nb : ℕ) : List α := (List.range nb).flatMap (bucket ks xs)

variable {ks}

/-! ### Counting keys -/

@[simp] theorem start_zero : start ks 0 = 0 := by simp [start]

theorem start_succ (b : ℕ) : start ks (b + 1) = start ks b + ks.count b := by
  induction ks with
  | nil => rfl
  | cons k ks ih =>
    simp only [start, List.countP_cons, List.count_cons] at ih ⊢
    rw [ih]
    rcases lt_trichotomy k b with h | rfl | h
    · simp [h, Nat.lt_succ_of_lt h, Nat.ne_of_lt h]
      omega
    · simp
      omega
    · simp [Nat.not_lt_of_lt h, show ¬ k < b + 1 by omega, Nat.ne_of_gt h]

theorem start_le_succ (b : ℕ) : start ks b ≤ start ks (b + 1) := by
  rw [start_succ]
  omega

variable (ks) in
theorem start_mono {b c : ℕ} (h : b ≤ c) : start ks b ≤ start ks c :=
  monotone_nat_of_le_succ start_le_succ h

theorem start_eq_length {nb : ℕ} (h : ∀ k ∈ ks, k < nb) : start ks nb = ks.length := by
  rw [start, List.countP_eq_length]
  simpa using h

theorem start_le_length (b : ℕ) : start ks b ≤ ks.length := List.countP_le_length

@[simp] theorem seen_zero (b : ℕ) : seen ks 0 b = 0 := by simp [seen]

theorem seen_succ {j b : ℕ} (h : ks[j]? = some b) (c : ℕ) :
    seen ks (j + 1) c = seen ks j c + if c = b then 1 else 0 := by
  rw [seen, List.take_add_one, h, Option.toList_some, List.count_append, seen, List.count_singleton]
  by_cases hc : c = b
  · simp [hc]
  · simp [hc, Ne.symm hc]

variable (ks) in
theorem seen_mono {i j : ℕ} (h : i ≤ j) (b : ℕ) : seen ks i b ≤ seen ks j b :=
  (List.take_sublist_take_left h).count_le b

theorem seen_length (b : ℕ) : seen ks ks.length b = ks.count b := by rw [seen, List.take_length]

/-- After a key it has been seen once more. -/
theorem seen_lt {i j b : ℕ} (h : ks[i]? = some b) (hij : i < j) : seen ks i b < seen ks j b := by
  have hle := seen_mono ks (Nat.succ_le_of_lt hij) b
  rw [seen_succ h, if_pos rfl] at hle
  omega

theorem seen_lt_count {i b : ℕ} (h : ks[i]? = some b) : seen ks i b < ks.count b := by
  rw [← seen_length]
  exact seen_lt h (List.getElem?_eq_some_iff.mp h).1

/-! ### Destinations -/

theorem dest_eq {j b : ℕ} (h : ks[j]? = some b) : dest ks j = start ks b + seen ks j b := by
  simp [dest, h]

/-- An element goes into its bucket. -/
theorem dest_mem {j b : ℕ} (h : ks[j]? = some b) :
    start ks b ≤ dest ks j ∧ dest ks j < start ks (b + 1) := by
  have := seen_lt_count h
  rw [dest_eq h, start_succ]
  omega

theorem dest_lt {j : ℕ} (hj : j < ks.length) : dest ks j < ks.length :=
  (dest_mem (List.getElem?_eq_getElem hj)).2.trans_le (start_le_length _)

/-- **No two elements go to the same place.** -/
theorem dest_inj {i j : ℕ} (hi : i < ks.length) (hj : j < ks.length) (h : dest ks i = dest ks j) :
    i = j := by
  have hib := List.getElem?_eq_getElem hi
  have hjb := List.getElem?_eq_getElem hj
  have hb : ks[i] = ks[j] := by
    obtain ⟨hi₁, hi₂⟩ := dest_mem hib
    obtain ⟨hj₁, hj₂⟩ := dest_mem hjb
    rcases lt_trichotomy ks[i] ks[j] with hlt | heq | hlt
    · have := start_mono ks (Nat.succ_le_of_lt hlt)
      simp only [Nat.succ_eq_add_one] at this
      omega
    · exact heq
    · have := start_mono ks (Nat.succ_le_of_lt hlt)
      simp only [Nat.succ_eq_add_one] at this
      omega
  rw [dest_eq hib, dest_eq hjb, hb, Nat.add_left_cancel_iff] at h
  rw [hb] at hib
  rcases lt_trichotomy i j with hlt | heq | hlt
  · have := seen_lt hib hlt
    omega
  · exact heq
  · have := seen_lt hjb hlt
    omega

/-- **Every place is some element's destination.** -/
theorem dest_surj {i : ℕ} (hi : i < ks.length) : ∃ j < ks.length, dest ks j = i := by
  let f (j : Fin ks.length) : Fin ks.length := ⟨dest ks j, dest_lt j.2⟩
  have hf : Function.Injective f := fun a b h => Fin.ext (dest_inj a.2 b.2 (congrArg Fin.val h))
  obtain ⟨j, hj⟩ := Finite.surjective_of_injective hf ⟨i, hi⟩
  exact ⟨j, j.2, congrArg Fin.val hj⟩

/-! ### Buckets -/

theorem length_bucket {xs : List α} (h : ks.length = xs.length) (b : ℕ) :
    (bucket ks xs b).length = ks.count b := by
  rw [bucket, List.length_map, ← List.countP_eq_length_filter]
  induction ks generalizing xs with
  | nil => rfl
  | cons k ks ih =>
    obtain ⟨x, xs, rfl⟩ := List.exists_cons_of_length_eq_add_one h.symm
    rw [List.zip_cons_cons, List.countP_cons, List.count_cons, ih (by simpa using h)]

/-- The elements of a bucket stand in it in order. -/
theorem bucket_seen {xs : List α} {j b : ℕ} {x : α} (hk : ks[j]? = some b) (hx : xs[j]? = some x) :
    (bucket ks xs b)[seen ks j b]? = some x := by
  induction ks generalizing xs j with
  | nil => simp at hk
  | cons k ks ih =>
    cases xs with
    | nil => simp at hx
    | cons y xs =>
      cases j with
      | zero =>
        obtain rfl : k = b := by simpa using hk
        obtain rfl : y = x := by simpa using hx
        simp [bucket]
      | succ j =>
        have ih := ih (by simpa using hk) (by simpa using hx)
        rw [bucket, List.zip_cons_cons, List.filter_cons, seen,
          List.take_succ_cons, List.count_cons]
        rw [bucket, seen] at ih
        by_cases hkb : k = b
        · simpa [hkb] using ih
        · simpa [hkb] using ih

/-- With keys computed from the elements, a bucket is a filter. -/
theorem bucket_map (f : α → ℕ) (xs : List α) (b : ℕ) :
    bucket (xs.map f) xs b = xs.filter fun x => f x == b := by
  induction xs with
  | nil => rfl
  | cons x xs ih =>
    rw [bucket, List.map_cons, List.zip_cons_cons, List.filter_cons, List.filter_cons]
    split
    · rw [List.map_cons]
      exact congrArg _ ih
    · exact ih

/-- The key of an element that goes into a bucket's range. -/
theorem key_of_dest_mem {j b : ℕ} (hj : j < ks.length) (h₁ : start ks b ≤ dest ks j)
    (h₂ : dest ks j < start ks (b + 1)) : ks[j]? = some b := by
  have hb := List.getElem?_eq_getElem hj
  obtain ⟨hd₁, hd₂⟩ := dest_mem hb
  rcases lt_trichotomy ks[j] b with hlt | heq | hlt
  · have := start_mono ks (Nat.succ_le_of_lt hlt)
    simp only [Nat.succ_eq_add_one] at this
    omega
  · rw [hb, heq]
  · have := start_mono ks (Nat.succ_le_of_lt hlt)
    simp only [Nat.succ_eq_add_one] at this
    omega

theorem mem_of_mem_bucket {xs : List α} {b : ℕ} {x : α} (hx : x ∈ bucket ks xs b) : x ∈ xs := by
  obtain ⟨⟨k, y⟩, hky, rfl⟩ := List.mem_map.mp hx
  exact (List.of_mem_zip (List.mem_of_mem_filter hky)).2

/-- The elements of a bucket are those that go to its range. -/
theorem exists_of_mem_bucket {xs : List α} (h : ks.length = xs.length) {b i : ℕ} {x : α}
    (hx : (bucket ks xs b)[i]? = some x) :
    ∃ j, xs[j]? = some x ∧ ks[j]? = some b ∧ dest ks j = start ks b + i := by
  have hi := (List.getElem?_eq_some_iff.mp hx).1
  rw [length_bucket h] at hi
  have hlt : start ks b + i < start ks (b + 1) := by rw [start_succ]; omega
  obtain ⟨j, hj, hd⟩ := dest_surj (hlt.trans_le (start_le_length _))
  have hb := key_of_dest_mem (b := b) hj (by omega) (by omega)
  have hseen : seen ks j b = i := by
    rw [dest_eq hb] at hd
    omega
  have hxj : xs[j]? = some (xs.get ⟨j, h ▸ hj⟩) := by simp [h ▸ hj]
  refine ⟨j, ?_, hb, hd⟩
  rw [hxj, ← bucket_seen hb hxj, hseen, hx]

theorem distributed_succ (xs : List α) (nb : ℕ) :
    distributed ks xs (nb + 1) = distributed ks xs nb ++ bucket ks xs nb := by
  simp [distributed, List.range_succ]

theorem length_distributed {xs : List α} (h : ks.length = xs.length) (b : ℕ) :
    (distributed ks xs b).length = start ks b := by
  induction b with
  | zero => simp [distributed]
  | succ b ih => rw [distributed_succ, List.length_append, ih, length_bucket h, start_succ]

/-- The element at a destination. -/
theorem distributed_dest {xs : List α} (h : ks.length = xs.length) {nb j b : ℕ} {x : α}
    (hb : b < nb) (hk : ks[j]? = some b) (hx : xs[j]? = some x) :
    (distributed ks xs nb)[dest ks j]? = some x := by
  induction nb with
  | zero => omega
  | succ nb ih =>
    rw [distributed_succ]
    obtain ⟨hd₁, hd₂⟩ := dest_mem hk
    rcases Nat.lt_succ_iff_lt_or_eq.mp hb with hlt | rfl
    · have := start_mono ks (Nat.succ_le_of_lt hlt)
      rw [List.getElem?_append_left (by rw [length_distributed h]; exact hd₂.trans_le this), ih hlt]
    · rw [List.getElem?_append_right (by rwa [length_distributed h]),
        length_distributed h, dest_eq hk, Nat.add_sub_cancel_left, bucket_seen hk hx]

/-- Distributing permutes. -/
theorem distributed_perm {xs : List α} (h : ks.length = xs.length) {nb : ℕ}
    (hnb : ∀ k ∈ ks, k < nb) : (distributed ks xs nb).Perm xs := by
  suffices hp : ∀ nb, (distributed ks xs nb).Perm
      (((ks.zip xs).filter fun p => p.1 < nb).map Prod.snd) by
    refine (hp nb).trans ?_
    rw [List.filter_eq_self.mpr fun p hp => by simpa using hnb p.1 (List.of_mem_zip hp).1,
      List.map_snd_zip (by omega)]
  intro nb
  induction nb with
  | zero => simp [distributed]
  | succ nb ih =>
    rw [distributed_succ]
    refine (ih.append_right _).trans ?_
    rw [bucket, ← List.map_append]
    refine List.Perm.map _ ?_
    induction ks.zip xs with
    | nil => rfl
    | cons p l ihl =>
      rcases lt_trichotomy p.1 nb with hlt | heq | hgt
      · simpa [List.filter_cons, hlt, hlt.le, Nat.lt_succ_of_lt hlt, Nat.ne_of_lt hlt] using ihl
      · simp only [List.filter_cons, heq, lt_irrefl, decide_false, Bool.false_eq_true,
          if_false, beq_self_eq_true, if_true, Nat.lt_succ_self, decide_true]
        exact List.perm_middle.trans (List.Perm.cons p ihl)
      · simpa [List.filter_cons, Nat.not_lt_of_lt hgt, not_le_of_gt hgt,
          show ¬ p.1 < nb + 1 by omega, Nat.ne_of_gt hgt] using ihl

end Ps4o.Order
