import Strn.Partition.Makespan

/-
  What each worker iterates over in one epoch.

  `lenList` is the `len_list` that `main` hands to `random_split` when the training set is
  partitioned (both files): `W - 1` copies of `int((N + W) / W)` and the rest. Python's `/` is
  float division; for `N + W < 2^53` the correctly rounded quotient truncates to the integer
  quotient, which is what `lenList` computes. A worker then runs one step per batch of its
  loader: `ceil(len / batch_size)` for the CIFAR loaders, `floor(len / 2)` for the
  `drop_last` loaders of bert and gpt.

  `getBatch` and `bpttBatches` are `get_batch` and the `range(0, L - 1, bptt)` loop of the
  lstm and transformer runs (`Worker.run_worker`, `Tester.test_model`). A batchified source is
  a list of rows; `source[a:b]` is `pySlice` and `reshape(-1)` flattens rows.
-/

namespace Strn

/-! ## The per-worker split -/

/-- `len_list` for `N` training items and `W` workers. -/
def lenList (N W : ℕ) : List ℤ :=
  List.replicate (W - 1) (((N + W) / W : ℕ) : ℤ) ++ [(N : ℤ) - ((W - 1 : ℕ) : ℤ) * ((N + W) / W : ℕ)]

/-- Batches per epoch of `DataLoader(ds, batch_size=b)`: `ceil(len / b)`. -/
def loaderBatches (len b : ℕ) : ℕ := (len + b - 1) / b

/-- Batches per epoch with `drop_last=True`: `floor(len / b)`. -/
def dropLastBatches (len b : ℕ) : ℕ := len / b

theorem lenList_sum (N W : ℕ) : (lenList N W).sum = N := by
  simp [lenList, List.sum_replicate]

theorem lenList_length {N W : ℕ} (hW : 1 ≤ W) : (lenList N W).length = W := by
  simp [lenList]
  omega

/-- The split is not equal: the last part falls short of the others, at worst below zero. -/
theorem lenList_last_lt {N W : ℕ} (hW : 1 ≤ W) :
    (N : ℤ) - ((W - 1 : ℕ) : ℤ) * ((N + W) / W : ℕ) < ((N + W) / W : ℕ) := by
  have h := Nat.lt_div_mul_add (a := N + W) (show 0 < W by omega)
  have hq : (N + W) / W * W = (N + W) / W * (W - 1) + (N + W) / W := by
    rw [← Nat.mul_succ]; congr 1; omega
  zify [show 1 ≤ W by omega] at h hq ⊢
  linarith

/-- The split: `len_list` has `W` entries summing to `N`; the first `W - 1` are the same `q`
    and the last is below `q`, so with entries as dataset lengths the last worker runs at most
    as many batches per epoch as each other worker. -/
theorem lenList_split (N W : ℕ) (hW : 1 ≤ W) :
    (lenList N W).sum = N ∧ (lenList N W).length = W ∧
      (lenList N W).dropLast = List.replicate (W - 1) (((N + W) / W : ℕ) : ℤ) ∧
      ∃ last : ℤ, (lenList N W).getLast? = some last ∧ last < ((N + W) / W : ℕ) ∧
        ∀ b, loaderBatches last.toNat b ≤ loaderBatches ((N + W) / W) b ∧
          dropLastBatches last.toNat b ≤ dropLastBatches ((N + W) / W) b := by
  refine ⟨lenList_sum N W, lenList_length hW, by simp [lenList], _,
    by simp [lenList], lenList_last_lt hW, fun b => ?_⟩
  have hle : ((N : ℤ) - ((W - 1 : ℕ) : ℤ) * ((N + W) / W : ℕ)).toNat ≤ (N + W) / W := by
    exact Int.toNat_le.mpr (lenList_last_lt hW).le
  exact ⟨Nat.div_le_div_right (by omega), Nat.div_le_div_right hle⟩

theorem lenList_split_cifar_four :
    1 ≤ 4 ∧ (lenList 50000 4).sum = 50000 ∧ (lenList 50000 4).length = 4 ∧
      (lenList 50000 4).dropLast = List.replicate (4 - 1) (((50000 + 4) / 4 : ℕ) : ℤ) ∧
      ∃ last : ℤ, (lenList 50000 4).getLast? = some last ∧ last < ((50000 + 4) / 4 : ℕ) ∧
        ∀ b, loaderBatches last.toNat b ≤ loaderBatches ((50000 + 4) / 4) b ∧
          dropLastBatches last.toNat b ≤ dropLastBatches ((50000 + 4) / 4) b :=
  ⟨by decide, lenList_split 50000 4 (by decide)⟩

/-- The workers' step counts can differ: on the bert/gpt split of the BBC training set
    (1780 items) over two workers `len_list = [891, 889]`, and with `batch_size=2,
    drop_last=True` the two workers run 445 and 444 steps per epoch. -/
theorem lenList_unequal_steps :
    lenList 1780 2 = [891, 889] ∧
      (lenList 1780 2).map (fun x => dropLastBatches x.toNat 2) = [445, 444] := by
  decide

/-! ## BPTT windows -/

section Bptt
variable {β : Type}

/-- `l[a:b]` for `0 ≤ a ≤ b`: Python clamps both ends to the list. -/
def pySlice (l : List β) (a b : ℕ) : List β := (l.drop a).take (b - a)

/-- `range(start, stop, step)` for `step > 0`: `ceil((stop - start) / step)` values. -/
def pyRange (start stop step : ℕ) : List ℕ :=
  List.range' start ((stop - start + step - 1) / step) step

/-- `get_batch(source, i, bptt)`: `seq_len = min(bptt, len(source) - 1 - i)` rows of data from
    row `i`, and the rows one later flattened as targets. -/
def getBatch (source : List (List β)) (i bptt : ℕ) : List (List β) × List β :=
  let seqLen := min bptt (source.length - 1 - i)
  (pySlice source i (i + seqLen), (pySlice source (i + 1) (i + 1 + seqLen)).flatten)

/-- One pass of `for i in range(0, len(source) - 1, bptt): get_batch(source, i, bptt)`. -/
def bpttBatches (source : List (List β)) (bptt : ℕ) : List (List (List β) × List β) :=
  (pyRange 0 (source.length - 1) bptt).map fun i => getBatch source i bptt

theorem pyRange_of_le {start stop step : ℕ} (hstep : 0 < step) (h : stop ≤ start) :
    pyRange start stop step = [] := by
  simp [pyRange, Nat.div_eq_of_lt (by omega : stop - start + step - 1 < step)]

theorem pyRange_cons {start stop step : ℕ} (hstep : 0 < step) (h : start < stop) :
    pyRange start stop step = start :: pyRange (start + step) stop step := by
  simp only [pyRange]
  rw [← List.range'_succ]
  congr 1
  by_cases hs : start + step ≤ stop
  · rw [show stop - start + step - 1 = (stop - (start + step) + step - 1) + step by omega,
      Nat.add_div_right _ hstep]
  · rw [show stop - (start + step) + step - 1 = step - 1 by omega,
      Nat.div_eq_of_lt (by omega : step - 1 < step),
      Nat.div_eq_of_lt_le (k := 1) (by omega) (by omega)]

theorem mem_pyRange {x start stop step : ℕ} (hstep : 0 < step) (h : x ∈ pyRange start stop step) :
    start ≤ x ∧ x < stop := by
  induction' hm : stop - start using Nat.strong_induction_on with m ih generalizing start
  by_cases hs : start < stop
  · rw [pyRange_cons hstep hs, List.mem_cons] at h
    rcases h with rfl | h
    · exact ⟨le_rfl, hs⟩
    · have := ih (stop - (start + step)) (by omega) h rfl
      exact ⟨by omega, this.2⟩
  · rw [pyRange_of_le hstep (by omega)] at h
    simp at h

/-- The windows `r[j : j + min(bptt, m - j)]`, for `j` in `range(i, m, bptt)`, tile `r[i:m]`. -/
theorem windows_flatten (r : List (List β)) {bptt : ℕ} (hb : 0 < bptt) (m i : ℕ) :
    ((pyRange i m bptt).map fun j => pySlice r j (j + min bptt (m - j))).flatten = pySlice r i m := by
  induction' hm : m - i using Nat.strong_induction_on with d ih generalizing i
  by_cases hs : i < m
  · rw [pyRange_cons hb hs, List.map_cons, List.flatten_cons, ih (m - (i + bptt)) (by omega) _ rfl]
    simp only [pySlice, List.drop_drop]
    by_cases hle : bptt ≤ m - i
    · rw [min_eq_left hle, show m - i = bptt + (m - (i + bptt)) by omega, List.take_add,
        List.drop_drop]
      congr 3
      omega
    · rw [min_eq_right (by omega), show m - (i + bptt) = 0 by omega, List.take_zero,
        List.append_nil]
      congr 1; omega
  · rw [pyRange_of_le hb (by omega)]
    simp only [List.map_nil, List.flatten_nil, pySlice, show m - i = 0 by omega, List.take_zero]

/-- BPTT coverage: every window is non-empty, its `seq_len` rows of data and of targets lie
    inside the source, the data windows tile rows `0 .. L-2` in order with no overlap and no
    gap, the target windows are rows `1 .. L-1` flattened, and the `seq_len` weights sum to
    `L - 1`, the divisor of the tester's loss. -/
theorem bptt_windows_cover (source : List (List β)) {bptt : ℕ} (hb : 0 < bptt) :
    (∀ i ∈ pyRange 0 (source.length - 1) bptt,
      1 ≤ min bptt (source.length - 1 - i) ∧
      i + 1 + min bptt (source.length - 1 - i) ≤ source.length ∧
      (getBatch source i bptt).1.length = min bptt (source.length - 1 - i) ∧
      (pySlice source (i + 1) (i + 1 + min bptt (source.length - 1 - i))).length =
        min bptt (source.length - 1 - i)) ∧
    ((bpttBatches source bptt).map Prod.fst).flatten = source.take (source.length - 1) ∧
    ((bpttBatches source bptt).map Prod.snd).flatten = (source.drop 1).flatten ∧
    ((bpttBatches source bptt).map fun b => b.1.length).sum = source.length - 1 := by
  have hdata : ((bpttBatches source bptt).map Prod.fst).flatten = source.take (source.length - 1) := by
    have h := windows_flatten source hb (source.length - 1) 0
    rw [pySlice, List.drop_zero, Nat.sub_zero] at h
    rw [← h, bpttBatches, List.map_map]
    rfl
  refine ⟨fun i hi => ?_, hdata, ?_, ?_⟩
  · have := mem_pyRange hb hi
    simp only [getBatch, pySlice, List.length_take, List.length_drop]
    refine ⟨by omega, by omega, by omega, by omega⟩
  · have ht := windows_flatten (source.drop 1) hb (source.length - 1) 0
    simp only [pySlice, List.drop_zero, Nat.sub_zero] at ht
    rw [List.take_of_length_le (by simp)] at ht
    rw [← ht, List.flatten_flatten, bpttBatches, List.map_map, List.map_map]
    congr 2
    funext j
    simp only [Function.comp, getBatch, pySlice, List.drop_drop]
    rw [Nat.add_sub_cancel_left, Nat.add_sub_cancel_left, Nat.add_comm 1 j]
  · have hlen := congrArg List.length hdata
    rw [List.length_flatten, List.map_map, List.length_take] at hlen
    rw [show (fun b : List (List β) × List β => b.1.length) = List.length ∘ Prod.fst from rfl, hlen]
    omega

/-- Six rows with `bptt = 2`: windows at rows `0`, `2` and `4`, the last one row long. -/
theorem bptt_windows_cover_six_rows :
    let source : List (List ℕ) := [[0], [1], [2], [3], [4], [5]]
    0 < 2 ∧
    (∀ i ∈ pyRange 0 (source.length - 1) 2,
      1 ≤ min 2 (source.length - 1 - i) ∧
      i + 1 + min 2 (source.length - 1 - i) ≤ source.length ∧
      (getBatch source i 2).1.length = min 2 (source.length - 1 - i) ∧
      (pySlice source (i + 1) (i + 1 + min 2 (source.length - 1 - i))).length =
        min 2 (source.length - 1 - i)) ∧
    ((bpttBatches source 2).map Prod.fst).flatten = source.take (source.length - 1) ∧
    ((bpttBatches source 2).map Prod.snd).flatten = (source.drop 1).flatten ∧
    ((bpttBatches source 2).map fun b => b.1.length).sum = source.length - 1 :=
  ⟨by decide, bptt_windows_cover _ (by decide)⟩

end Bptt

end Strn
