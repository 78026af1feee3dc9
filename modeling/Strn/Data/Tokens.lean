import Strn.Data.Loaders

/-
  The token stream of the language models and its BPTT windows (`bptt_next_token`).

  For `lstm` and `transformer`, `run_worker` and the tester turn the text into one stream of
  token ids (`data_process`), cut it into `bsz` columns (`batchify`: `narrow` to
  `nbatch * bsz` ids, `view(bsz, -1)`, `.t()`), and step through the rows with `get_batch`.
  Row `r`, column `c` of the batched source is stream position `c * nbatch + r`
  (`batchify_eq`): column `c` is the `c`-th run of `nbatch` ids. So in every window, the target
  of the input at offset `q`, column `c` is the stream id right after it, and the pair never
  crosses from one column's run into the next; the last `len % bsz` ids are never read.
-/

namespace Strn

/-! ## The stream and its columns -/

section Stream
variable {σ : Type}

/-- `data_process`: each text's token ids, empty ones dropped, concatenated; `torch.cat` of no
    tensor raises, here `none`. -/
def dataProcess (encode : σ → List ℕ) (texts : List σ) : Option (List ℕ) :=
  let data := (texts.map encode).filter fun t => 0 < t.length
  if data = [] then none else some data.flatten

theorem flatten_filter_nonempty (l : List (List ℕ)) :
    (l.filter fun t => 0 < t.length).flatten = l.flatten := by
  induction l with
  | nil => rfl
  | cons x xs ih =>
    by_cases hx : 0 < x.length
    · rw [List.filter_cons_of_pos (by simpa using hx), List.flatten_cons, List.flatten_cons, ih]
    · rw [List.filter_cons_of_neg (by simpa using hx), ih, List.flatten_cons,
        List.eq_nil_of_length_eq_zero (by omega : x.length = 0), List.nil_append]

/-- Dropping the empty tensors changes nothing in the stream. -/
theorem dataProcess_eq_some {encode : σ → List ℕ} {texts : List σ} {stream : List ℕ}
    (h : dataProcess encode texts = some stream) : stream = (texts.map encode).flatten := by
  simp only [dataProcess] at h
  split_ifs at h
  cases h
  exact flatten_filter_nonempty _

end Stream

/-- `data.view(bsz, -1)` of `bsz * nbatch` ids: row `c` is the `c`-th run of `nbatch`. -/
def viewRows (data : List ℕ) (bsz nbatch : ℕ) : List (List ℕ) :=
  (List.range bsz).map fun c => pySlice data (c * nbatch) ((c + 1) * nbatch)

/-- `.t()` of a `bsz × nbatch` matrix. -/
def transposeT (m : List (List ℕ)) (bsz nbatch : ℕ) : List (List ℕ) :=
  (List.range nbatch).map fun r => (List.range bsz).map fun c => (m.getD c []).getD r 0

/-- `batchify(data, bsz)`; `none` for `bsz = 0`, where `//` raises. -/
def batchify (data : List ℕ) (bsz : ℕ) : Option (List (List ℕ)) :=
  if bsz = 0 then none
  else
    let nbatch := data.length / bsz
    some (transposeT (viewRows (data.take (nbatch * bsz)) bsz nbatch) bsz nbatch)

section Index
variable {τ : Type}

theorem getD_pySlice (l : List τ) (a b : ℕ) (d : τ) {q : ℕ} (hq : q < b - a) :
    (pySlice l a b).getD q d = l.getD (a + q) d := by
  simp [pySlice, List.getD_eq_getElem?_getD, List.getElem?_take_of_lt hq, List.getElem?_drop]

/-- Reading the flattening of rows of width `n`. -/
theorem getD_flatten_of_length {n : ℕ} (d : τ) :
    ∀ (l : List (List τ)), (∀ x ∈ l, x.length = n) → ∀ q {c : ℕ}, c < n →
      l.flatten.getD (q * n + c) d = (l.getD q []).getD c d
  | [], _, q, c, _ => by simp
  | x :: xs, hl, q, c, hc => by
    have hx := hl x (List.mem_cons_self _ _)
    rw [List.flatten_cons]
    cases q with
    | zero => rw [Nat.zero_mul, Nat.zero_add, List.getD_append _ _ _ _ (hx ▸ hc)]; rfl
    | succ q =>
      rw [List.getD_append_right _ _ _ _ (by rw [hx, Nat.succ_mul]; omega), hx,
        show (q + 1) * n + c - n = q * n + c by rw [Nat.succ_mul]; omega,
        getD_flatten_of_length d xs (fun y hy => hl y (List.mem_cons_of_mem _ hy)) q hc]
      rfl

end Index

/-- Row `r`, column `c` of the batched stream is stream position `c * nbatch + r`. -/
theorem batchify_eq (data : List ℕ) {bsz : ℕ} (hbsz : 0 < bsz) :
    batchify data bsz = some ((List.range (data.length / bsz)).map fun r =>
      (List.range bsz).map fun c => data.getD (c * (data.length / bsz) + r) 0) := by
  rw [batchify, if_neg (by omega)]
  refine congrArg some (List.map_congr_left fun r hr => List.map_congr_left fun c hc => ?_)
  rw [List.mem_range] at hr hc
  have hcr : c * (data.length / bsz) + r < data.length / bsz * bsz := by
    calc c * (data.length / bsz) + r < (c + 1) * (data.length / bsz) := by rw [Nat.succ_mul]; omega
      _ ≤ bsz * (data.length / bsz) := Nat.mul_le_mul_right _ hc
      _ = data.length / bsz * bsz := Nat.mul_comm _ _
  have hrow : (viewRows (data.take (data.length / bsz * bsz)) bsz (data.length / bsz)).getD c [] =
      pySlice (data.take (data.length / bsz * bsz)) (c * (data.length / bsz))
        ((c + 1) * (data.length / bsz)) := by
    simp [viewRows, List.getD_eq_getElem?_getD, List.getElem?_range hc]
  rw [hrow, getD_pySlice _ _ _ _ (by rw [Nat.succ_mul]; omega)]
  simp [List.getD_eq_getElem?_getD, List.getElem?_take_of_lt hcr]

/-! ## BPTT windows read the stream in order -/

/-- Next-token alignment. With `bsz ≥ 1` and `bptt ≥ 1`, `batchify` returns `nbatch =
    len(stream) // bsz` rows, and in every window `i` of `range(0, nbatch - 1, bptt)`, at every
    offset `q < seq_len` and column `c < bsz`: the data id is stream position
    `c * nbatch + i + q`, the target at `q * bsz + c` of the flattened targets is the stream id
    right after it, and `i + q + 1 < nbatch`, so both lie in column `c`'s run of the stream. -/
theorem bptt_next_token (stream : List ℕ) {bsz : ℕ} (hbsz : 0 < bsz) {bptt : ℕ} (hbptt : 0 < bptt) :
    ∃ src, batchify stream bsz = some src ∧ src.length = stream.length / bsz ∧
      ∀ i ∈ pyRange 0 (src.length - 1) bptt, ∀ q < min bptt (src.length - 1 - i), ∀ c < bsz,
        i + q + 1 < src.length ∧
        ((getBatch src i bptt).1.getD q []).getD c 0 = stream.getD (c * src.length + (i + q)) 0 ∧
        (getBatch src i bptt).2.getD (q * bsz + c) 0 =
          stream.getD (c * src.length + (i + q) + 1) 0 := by
  set nb := stream.length / bsz
  set src := (List.range nb).map fun r => (List.range bsz).map fun c => stream.getD (c * nb + r) 0
  have hlen : src.length = nb := by simp [src]
  -- row `r`, column `c` of the batched source
  have hcell : ∀ r < nb, ∀ c < bsz, (src.getD r []).getD c 0 = stream.getD (c * nb + r) 0 :=
    fun r hr c hc => by
      simp [src, List.getD_eq_getElem?_getD, List.getElem?_range hr, List.getElem?_range hc]
  refine ⟨src, batchify_eq stream hbsz, hlen, fun i hi q hq c hc => ?_⟩
  have hi' := (mem_pyRange hbptt hi).2
  rw [hlen] at hi' hq ⊢
  have hq' : q + 1 < nb - i := by omega
  refine ⟨by omega, ?_, ?_⟩
  · rw [getBatch, hlen, getD_pySlice _ _ _ _ (by omega), hcell _ (by omega) _ hc]
  · have hwidth : ∀ x ∈ pySlice src (i + 1) (i + 1 + min bptt (nb - 1 - i)), x.length = bsz := by
      intro x hx
      obtain ⟨r, hr, rfl⟩ := List.getElem_of_mem hx
      simp only [pySlice, List.getElem_take, List.getElem_drop, src, List.getElem_map,
        List.length_map, List.length_range]
    rw [getBatch, hlen, getD_flatten_of_length 0 _ hwidth q hc, getD_pySlice _ _ _ _ (by omega),
      hcell _ (by omega) _ hc]
    exact congrArg (stream.getD · 0) (by omega)

/-- Ten ids in two columns, windows of two. -/
theorem bptt_next_token_ten_ids :
    0 < 2 ∧ 0 < 2 ∧
    ∃ src, batchify (List.range 10) 2 = some src ∧ src.length = (List.range 10).length / 2 ∧
      ∀ i ∈ pyRange 0 (src.length - 1) 2, ∀ q < min 2 (src.length - 1 - i), ∀ c < 2,
        i + q + 1 < src.length ∧
        ((getBatch src i 2).1.getD q []).getD c 0 = (List.range 10).getD (c * src.length + (i + q)) 0 ∧
        (getBatch src i 2).2.getD (q * 2 + c) 0 =
          (List.range 10).getD (c * src.length + (i + q) + 1) 0 :=
  ⟨by decide, by decide, bptt_next_token _ (by decide) (by decide)⟩

end Strn
