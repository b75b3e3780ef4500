import Ps4o.InPlace.Classification

/-!
# Classification through buffers

A stripe is classified in groups: the buckets of a group of elements are computed before any of them
goes to its buffer, and full buffers are written back over elements of the stripe (`classifyLocally`
in `local_classification.hpp`, `classifyUnrolled` in `classifier.hpp`). A stripe that has fewer
elements than a group is declared unreachable.

## The model

`classifyUpTo` is the loop of `classifyLocally`, watched: it is stopped after some elements, and
keeps a record of the buffers it flushes.

## What is proved

* `classifyUpTo_all` — the watched loop does what the loop does.
* `sat_classifyUpTo` — **no element is overwritten that has not been classified**: after any number
  of elements, the elements classified are those in the blocks that have been flushed, and those in
  the buffers.
* `neverOverwrites_iff` — this, and what `classifyLocally` returns, is as it should be just when the
  stripe has a group of elements.
-/

namespace Ps4o.InPlace

open Ps4o.Program Ps4o.Storage Ps4o.Order

variable {α : Type} (comp : α → α → Bool)

/-! ### Watching the loop -/

/-- Where a buffer was flushed to, and which element was being processed. -/
structure Flush where
  write : Ptr Area
  it : Ptr Area

/-- The callback, watched: from the element `stop` on it is left out. -/
def watched (kInitializedStorage : Bool) (kBlockSize : ℕ) (p stop : Ptr Area) (bucket : ℕ)
    (it : Ptr Area) (r : (ℕ × LocalData α) × List Flush) :
    Act Area α ((ℕ × LocalData α) × List Flush) :=
  if it.off < stop.off then do
    let r' ← classified kInitializedStorage kBlockSize p bucket it r.1
    pure (r', if r.1.2.buffers.isFull bucket then r.2 ++ [⟨p + r.1.1, it⟩] else r.2)
  else
    pure r

/-- The loop of `classifyLocally`, until `j` elements have been processed. -/
def classifyUpTo (cfg : Config) (kInitializedStorage : Bool) (kBlockSize : ℕ) (kEqualBuckets : Bool)
    (p : Ptr Area) (myBegin n j : ℕ) (s : Sorter α) : Act Area α ((ℕ × LocalData α) × List Flush) :=
  classifyRange comp kEqualBuckets cfg.kUnrollClassifier s.data.classifier (p + myBegin) n
    (watched kInitializedStorage kBlockSize p (p + myBegin + j)) ((myBegin, s.data), [])

section
variable {comp} {β γ : Type} {f : β → γ}

/-- A loop that also keeps something that is forgotten in the end. -/
theorem loop_map {body : ℕ → β → Act Area α β} {body' : ℕ → γ → Act Area α γ} {n : ℕ}
    (h : ∀ i < n, ∀ b, f <$> body i b = body' i (f b)) (b : β) :
    f <$> Prog.loop body n b = Prog.loop body' n (f b) := by
  induction n with
  | zero => rfl
  | succ n ih =>
    rw [Prog.loop, Prog.loop, ← ih fun i hi => h i (Nat.lt_succ_of_lt hi), map_bind, bind_map_left]
    exact bind_congr fun b' => h n (Nat.lt_succ_self n) b'

/-- Classifying a range with a callback that also keeps something that is forgotten in the end. -/
theorem classifyRange_map {eq : Bool} {kUnroll n : ℕ} {c : Classifier α} {p : Ptr Area}
    {yield : ℕ → Ptr Area → β → Act Area α β} {yield' : ℕ → Ptr Area → γ → Act Area α γ}
    (h : ∀ j < n, ∀ b s, f <$> yield b (p + j) s = yield' b (p + j) (f s)) (s : β) :
    f <$> classifyRange comp eq kUnroll c p n yield s =
      classifyRange comp eq kUnroll c p n yield' (f s) := by
  rw [classifyRange, classifyRange]
  split_ifs with hlog
  · rw [classifyUnrolled, classifyUnrolled]
    split_ifs with hn
    · rfl
    · have hmul : n / kUnroll * kUnroll + n % kUnroll = n := Nat.div_add_mod' _ _
      rw [map_bind, ← loop_map (f := f) (fun round hround s => ?_) s, bind_map_left]
      · refine bind_congr fun s => loop_map (fun i hi s => ?_) s
        rw [map_bind]
        exact bind_congr fun b => h (n / kUnroll * kUnroll + i) (by omega) _ s
      · have hle : (round + 1) * kUnroll ≤ n :=
          (Nat.mul_le_mul_right _ hround).trans (Nat.div_mul_le_self _ _)
        rw [Nat.succ_mul] at hle
        rw [map_bind]
        refine bind_congr fun b => loop_map (fun i hi s => ?_) s
        exact h (round * kUnroll + i) (by omega) _ s
  · rfl

/-- A stripe that is too short for a group of elements is declared unreachable. -/
theorem classifyRange_short {eq : Bool} {kUnroll n : ℕ} {c : Classifier α} {p : Ptr Area}
    {yield : ℕ → Ptr Area → β → Act Area α β} {s : β} (hn : n < kUnroll) :
    classifyRange comp eq kUnroll c p n yield s = undefined := by
  rw [classifyRange]
  split_ifs with hlog
  · rw [classifyUnrolled, if_pos (.inr hn)]
  · rfl

/-- **The watched loop does what the loop does**, until the end of the stripe. -/
theorem classifyUpTo_all {cfg : Config} {init : Bool} {B : ℕ} {eq : Bool} {p : Ptr Area} {lo n : ℕ}
    {s : Sorter α} : Prod.fst <$> classifyUpTo comp cfg init B eq p lo n n s =
      classifyRange comp eq cfg.kUnrollClassifier s.data.classifier (p + lo) n (classified init B p)
        (lo, s.data) := by
  refine classifyRange_map (fun j hj b r => ?_) _
  have hlt : (p + lo + j).off < (p + lo + n).off := Nat.add_lt_add_left hj _
  rw [watched, if_pos hlt, map_bind]
  exact bind_pure _

end

/-! ### After some elements -/

section
variable {comp} {init : Bool} {B nb kMaxBuckets lo i j : ℕ} {key : α → ℕ} {p : Ptr Area}
  {xs : List α} {d₀ : LocalData α} {r : (ℕ × LocalData α) × List Flush} {m : Mem Area (Slot α)}
  {blocks : List (List α)} {buf : ℕ → List α}

/-- Buffers were flushed to where elements had been classified. -/
def Behind (B : ℕ) (flushes : List Flush) : Prop := ∀ f ∈ flushes, f.write.off + B ≤ f.it.off

/-- What is noted of an element keeps behind it. -/
theorem Classifying.behind (h : Classifying init B nb kMaxBuckets key p lo xs j d₀ r.1 m blocks buf)
    (hnb : nb ≤ kMaxBuckets) (hj : j ≤ xs.length) {b : ℕ} (hb : b < nb) (hr : Behind B r.2) :
    Behind B (if r.1.2.buffers.isFull b then r.2 ++ [⟨p + r.1.1, p + lo + j⟩] else r.2) := by
  rw [(h.holds b (hb.trans_le hnb)).isFull]
  split_ifs with hfull
  · intro f hf
    rcases List.mem_append.mp hf with hf | hf
    · exact hr f hf
    · have hle := h.length_le hj hb
      have hlen : (buf b).length = B := of_decide_eq_true hfull
      rw [List.mem_singleton.mp hf]
      simp only [Ptr.add_off, h.write]
      omega
  · exact hr

end

section
variable {comp} {cfg : Config} {init : Bool} {B k : ℕ} {eq : Bool} {p : Ptr Area}
  {xs splitters : List α} {m : Mem Area (Slot α)} {s : Sorter α}
  (h : Sampled comp cfg init B k eq splitters s m) (hcfg : cfg.Admitted) (hB : 1 ≤ B)
  (hp : p.arr = .input)
include h hcfg hB hp

/-- **After any number of elements**, these are in the blocks that have been flushed and in the
buffers. -/
theorem sat_classifyUpTo {lo j : ℕ} (hn : cfg.kUnrollClassifier ≤ xs.length)
    (hm : Has m (p + lo) (xs.map .full)) (hj : j ≤ xs.length) :
    Sat (slots Area α init) (seg (p + lo) xs.length ∪ bufferSpace cfg.kMaxBuckets B)
      (classifyUpTo comp cfg init B eq p lo xs.length j s) m fun r m' =>
        Behind B r.2 ∧ ∃ blocks buf,
        Classifying init B s.numBuckets cfg.kMaxBuckets
          (Classifier.bucketOf comp eq splitters) p lo xs j s.data r.1 m' blocks buf := by
  set key := Classifier.bucketOf comp eq splitters
  refine (sat_classifyRange h.weak h.sorted h.built (h.log_le.trans hcfg.log_le) hcfg.unroll_pos
    hn Set.subset_union_left
    (fun i (r : (ℕ × LocalData α) × List Flush) m' => Behind B r.2 ∧ ∃ blocks buf,
      Classifying init B s.numBuckets cfg.kMaxBuckets key p lo xs (min i j) s.data r.1 m'
      blocks buf ∧ Lazy key blocks buf)
    ?_ ?_ ?_).imp ?_
  · rintro i r m' ⟨-, blocks, buf, hI, -⟩ i' x hi hx
    exact hI.rest i' x (by omega) hx
  · rw [Nat.zero_min]
    exact ⟨nofun, [], fun _ => [], h.classifying hm, nofun⟩
  · rintro i hi ⟨r, flushes⟩ m' ⟨hbehind, blocks, buf, hI, hlazy⟩
    rcases Nat.lt_or_ge i j with hlt | hge
    · have hmin : min i j = i := min_eq_left hlt.le
      have hmin' : min (i + 1) j = i + 1 := min_eq_left hlt
      rw [hmin] at hI
      rw [watched, if_pos (by simpa using hlt), hmin', sat_bind]
      refine (hI.sat_classified hlazy hB hp h.num_le (List.getElem?_eq_getElem hi) (h.key_lt _)).imp
        fun r' m'' h' => ?_
      exact ⟨hI.behind (r := (r, flushes)) h.num_le hi.le (h.key_lt _) hbehind, h'⟩
    · have hmin : min i j = j := min_eq_right hge
      have hmin' : min (i + 1) j = j := min_eq_right (by omega)
      rw [hmin] at hI
      rw [watched, if_neg (by simpa using hge), hmin']
      exact ⟨hbehind, blocks, buf, hI, hlazy⟩
  · rintro r m' ⟨hbehind, blocks, buf, hI, -⟩
    rw [min_eq_right hj] at hI
    exact ⟨hbehind, blocks, buf, hI⟩

end

/-! ### The whole stripe -/

/-- **Unread input is never overwritten**: after each element, the elements that have been processed
are in the blocks before the write pointer and in the buffers; in the end, they have been
counted. -/
structure NeverOverwrites (comp : α → α → Bool) (cfg : Config) (init : Bool) (B : ℕ) (eq : Bool)
    (splitters : List α) (p : Ptr Area) (lo : ℕ) (xs : List α) (s : Sorter α)
    (m : Mem Area (Slot α)) : Prop where
  upTo : ∀ j ≤ xs.length, Sat (slots Area α init)
    (seg (p + lo) xs.length ∪ bufferSpace cfg.kMaxBuckets B)
    (classifyUpTo comp cfg init B eq p lo xs.length j s) m fun r m' => Behind B r.2 ∧ ∃ blocks buf,
      Classifying init B s.numBuckets cfg.kMaxBuckets
        (Classifier.bucketOf comp eq splitters) p lo xs j s.data r.1 m'
        blocks buf ∧ ∀ b < s.numBuckets, (buf b).length ≤ B
  done : Sat (slots Area α init) (seg (p + lo) xs.length ∪ bufferSpace cfg.kMaxBuckets B)
    (classifyLocally comp cfg init B eq p lo xs.length s) m fun r _ =>
      (∀ b < s.numBuckets, r.2.data.bucketSize b = xs.countP fun x =>
        Classifier.bucketOf comp eq splitters x = b) ∧
        ∃ blocks, r.1 = lo + blocks * B

section
variable {comp} {cfg : Config} {init : Bool} {B k lo : ℕ} {eq : Bool} {p : Ptr Area}
  {xs splitters : List α} {m : Mem Area (Slot α)} {s : Sorter α}

/-- **When unread input is never overwritten.** -/
theorem neverOverwrites_iff (h : Sampled comp cfg init B k eq splitters s m) (hcfg : cfg.Admitted)
    (hB : 1 ≤ B) (hp : p.arr = .input) (hm : Has m (p + lo) (xs.map .full)) :
    NeverOverwrites comp cfg init B eq splitters p lo xs s m ↔
    cfg.kUnrollClassifier ≤ xs.length := by
  constructor
  · intro hnever
    by_contra hshort
    have hdone := hnever.done
    rw [classifyLocally, classifyRange_short (not_le.mp hshort)] at hdone
    exact hdone
  · intro hn
    refine ⟨fun j hj => (sat_classifyUpTo h hcfg hB hp hn hm hj).imp ?_,
      (sat_classifyLocally h hcfg hB hp hn hm).imp ?_⟩
    · rintro r m' ⟨hbehind, blocks, buf, hI⟩
      exact ⟨hbehind, blocks, buf, hI, fun b hb => (hI.holds b (hb.trans_le h.num_le)).le⟩
    · rintro ⟨write, s'⟩ m' ⟨d, blocks, buf, hI, -, rfl⟩
      refine ⟨fun b hb => ?_, blocks.length, hI.write⟩
      simp only [if_pos hb, keysOf, List.count, List.countP_map]
      rfl

end

/-- A classifier with one splitter, and empty buffers. -/
theorem exists_sampled (B : ℕ) (xs : List ℕ) : ∃ s : Sorter ℕ,
    Sampled (fun a b => decide (a < b)) { kLogBuckets := 8 } false B 1 true [24] s
      (Mem.ofList ⟨.input, 0⟩ xs fun _ => 0) := by
  obtain ⟨c, hc⟩ := exists_built 24
  refine ⟨⟨⟨fun _ => 0, .start B, fun _ => .set 0 0, c⟩, 4, fun _ => 0, false⟩, ?_⟩
  exact
    { weak := StrictWeak.of_linearOrder ℕ
      sorted := List.pairwise_singleton _ _
      built := hc
      log_le := by decide
      equal := fun _ => rfl
      num := rfl
      empty := fun b _ => Buffers.start_holds fun _ => raw_ofList _ _ (by simp [Buffers.data]) _
      zero := fun _ _ => rfl }

/-- A stripe of 49 numbers, and blocks of four. -/
theorem neverOverwrites_fortyNine : ∃ s : Sorter ℕ, NeverOverwrites (fun a b => decide (a < b))
    { kLogBuckets := 8 } false 4 true [24]
    ⟨.input, 0⟩ 0 (List.range 49) s (Mem.ofList ⟨.input, 0⟩ (List.range 49) fun _ => 0) := by
  obtain ⟨s, hs⟩ := exists_sampled 4 (List.range 49)
  exact ⟨s, (neverOverwrites_iff hs ⟨by decide, by decide, by decide, by decide⟩ (by decide) rfl
    (has_ofList _ (List.range 49) _)).mpr (by decide)⟩

/-- The first stripe of 64 numbers, one in a block, that 16 threads classify. -/
theorem not_neverOverwrites_four : ∃ s : Sorter ℕ,
    Sampled (fun a b => decide (a < b)) { kLogBuckets := 8 } false 1 1 true [24] s
        (Mem.ofList ⟨.input, 0⟩ (List.range 64) fun _ => 0) ∧
      ¬ NeverOverwrites (fun a b => decide (a < b)) { kLogBuckets := 8 } false 1 true [24]
        ⟨.input, 0⟩ 0 (List.range 4) s (Mem.ofList ⟨.input, 0⟩ (List.range 64) fun _ => 0) := by
  obtain ⟨s, hs⟩ := exists_sampled 1 (List.range 64)
  refine ⟨s, hs, fun hnever => ?_⟩
  have hdone := hnever.done
  rw [classifyLocally, List.length_range, classifyRange_short (by decide)] at hdone
  exact hdone

end Ps4o.InPlace
