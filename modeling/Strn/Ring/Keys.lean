import Strn.Ring.Async
import Strn.Partition.Layout

/-
  The ring job seen parameter by parameter (`ring_key_allreduce`).

  `main` places the model's names on the workers with the partition loop (`wrk_pkey_lists`,
  `wrk_pkey_locs`, `wrkPkeyPartition`) and gives both to every worker. In each iteration a
  worker builds `grad_lists` as lists of `None` shaped like `wrk_pkey_lists`, writes every named
  parameter's gradient at its `wrk_pkey_locs` slot, runs both exchange loops on the slices, and
  reads every name's gradient back from its slot before `optimizer.step()`.

  `RingSetup.ofPkeys` is the ring job whose slot `(i, p)` holds a worker's gradient for the
  name `wrk_pkey_lists[i][p]`. The worker's scatter into the `None` lists builds exactly the
  slices this job starts an iteration with (`scatter_noneLists`), and in every state the job
  can reach, a worker about to update reads, for every name, the sum over all workers of their
  gradients for that name at the lockstep model.
-/

namespace Strn

variable {κ μ α β : Type}

/-! ## Slots -/

/-- The slots of a list of lists built by ranges. -/
theorem slot_map_range (n : ℕ) (len : ℕ → ℕ) (f : ℕ → ℕ → β) (i j : ℕ) :
    slot ((List.range n).map fun i => (List.range (len i)).map (f i)) i j =
      if i < n ∧ j < len i then some (f i j) else none := by
  simp only [slot, List.getElem?_map]
  by_cases hi : i < n
  · by_cases hj : j < len i
    · simp [List.getElem?_range hi, List.getElem?_range hj, hi, hj]
    · simp [List.getElem?_range hi, hj,
        List.getElem?_eq_none (by simpa using Nat.le_of_not_lt hj : (List.range (len i)).length ≤ j)]
  · simp [hi, List.getElem?_eq_none (by simpa using Nat.le_of_not_lt hi : (List.range n).length ≤ i)]

/-- The lengths of a list of lists, read index by index. -/
theorem map_length_range_getD (l : List (List β)) :
    (List.range l.length).map (fun i => (l.getD i []).length) = l.map List.length := by
  refine List.ext_getElem (by simp) fun i h₁ _ => ?_
  simp [List.getElem?_eq_getElem (by simpa using h₁ : i < l.length)]

theorem slot_isSome_lt {l : List (List β)} {i j : ℕ} (h : (slot l i j).isSome) :
    i < l.length ∧ j < (l.getD i []).length := by
  obtain ⟨hi, hj⟩ := (slot_isSome_iff l).mp h
  exact ⟨hi, by rw [List.getD_eq_getElem _ _ hi]; exact hj⟩

/-! ## The ring job on the name partition -/

section Pkeys
variable [AddCommMonoid α]

/-- `[[None for _ in range(len(wrk_pkey_lists[i]))] for i in range(ring_wrk_num)]`: `main` gives
    every worker `ring_wrk_num` lists, so no index is out of range. -/
def noneLists (pkeyLists : List (List κ)) (wrkNum : ℕ) : List (List (Option α)) :=
  (List.range wrkNum).map fun i => (List.range (pkeyLists.getD i []).length).map fun _ => none

/-- The ring job on the name partition `s`: slice `i` has `len(wrk_pkey_lists[i])` slots, and
    worker `w`'s slot `(i, p)` at iteration `t` from model `m` holds its gradient
    `grad w t m key` for the name `key = wrk_pkey_lists[i][p]`. -/
def RingSetup.ofPkeys (s : Partition κ κ) (wrkNum : ℕ) (iters : ℕ → ℕ)
    (grad : ℕ → ℕ → μ → κ → α) (optStep : μ → List (List α) → μ) (model : μ) : RingSetup μ α where
  wrkNum := wrkNum
  iters := iters
  sliceLen i := (s.paramLists.getD i []).length
  backward w t m i p := ((slot s.paramLists i p).map (grad w t m)).getD 0
  optStep := optStep
  model := model

variable {s : Partition κ κ} {W : ℕ} {iters : ℕ → ℕ} {grad : ℕ → ℕ → μ → κ → α}
  {optStep : μ → List (List α) → μ} {model : μ}

theorem ofPkeys_backward {w t : ℕ} {m : μ} {i p : ℕ} {k : κ} (h : slot s.paramLists i p = some k) :
    (RingSetup.ofPkeys s W iters grad optStep model).backward w t m i p = grad w t m k := by
  simp [RingSetup.ofPkeys, h]

theorem slot_prepareGradLists_ofPkeys (hlen : s.paramLists.length = W) (w t : ℕ) (m : μ) (i p : ℕ) :
    slot ((RingSetup.ofPkeys s W iters grad optStep model).prepareGradLists w t m) i p =
      (slot s.paramLists i p).map (grad w t m) := by
  rw [RingSetup.prepareGradLists, slot_map_range]
  split_ifs with hc
  · obtain ⟨hi, hp⟩ := hc
    change i < W at hi
    change p < (s.paramLists.getD i []).length at hp
    obtain ⟨k, hk⟩ := Option.isSome_iff_exists.mp ((slot_isSome_iff s.paramLists).mpr
      ⟨hlen ▸ hi, by rwa [List.getD_eq_getElem _ _ (hlen ▸ hi)] at hp⟩)
    rw [hk, ofPkeys_backward hk]
    rfl
  · cases hsl : slot s.paramLists i p with
    | none => rfl
    | some k =>
      have hlt := slot_isSome_lt (l := s.paramLists) (i := i) (j := p) (by simp [hsl])
      exact absurd ⟨hlen ▸ hlt.1, hlt.2⟩ hc

theorem prepareGradLists_ofPkeys_length (hlen : s.paramLists.length = W) (w t : ℕ) (m : μ) :
    ((RingSetup.ofPkeys s W iters grad optStep model).prepareGradLists w t m).map List.length =
      s.paramLists.map List.length := by
  subst hlen
  rw [← map_length_range_getD s.paramLists, RingSetup.prepareGradLists, List.map_map]
  exact List.map_congr_left fun i _ => by simp [RingSetup.ofPkeys]

variable [DecidableEq κ]

/-- The worker's scatter into the `None` lists builds exactly the slices the ring job starts an
    iteration with. -/
theorem scatter_noneLists {names : List κ} (h : LayoutBij id names s)
    (hlen : s.paramLists.length = W) (w t : ℕ) (m : μ) :
    scatterGrads s.paramLocs (fun k => some (grad w t m k)) names (noneLists s.paramLists W) =
      some (((RingSetup.ofPkeys s W iters grad optStep model).prepareGradLists w t m).map
        (·.map some)) := by
  have hshape : (noneLists (α := α) s.paramLists W).map List.length =
      s.paramLists.map List.length := by
    subst hlen
    simpa [noneLists, Function.comp_def] using map_length_range_getD s.paramLists
  obtain ⟨l', hl', hshape', hslot⟩ := h.scatterGrads_id hshape fun k => some (grad w t m k)
  rw [hl']
  refine congrArg some (slot_ext ?_ fun i j => ?_)
  · simp only [hshape', hshape, List.map_map, Function.comp_def, List.length_map]
    exact (prepareGradLists_ofPkeys_length hlen w t m).symm
  · simp only [hslot, slot_map_map, slot_prepareGradLists_ofPkeys hlen, Option.map_map]
    rfl

end Pkeys

/-! ## Every name's gradient is summed over all workers -/

section Main
variable [AddCommMonoid α] [DecidableEq κ]

/-- Per-parameter ring all-reduce. On distinct names and `W ≥ 1` workers the partition of `main`
    returns, and in the ring job on it: each worker's scatter of its named gradients into the
    `None` lists builds the slices the job exchanges, and in every state the job can reach,
    under any interleaving, a worker about to update (`param.grad = grad_lists[loc[0]][loc[1]]`)
    finds in the `wrk_pkey_locs` slot of every name the sum over all `W` workers of their
    gradients for that name, computed at the lockstep model of its iteration. -/
theorem ring_key_allreduce (items : List (κ × ℕ)) (hnames : (items.map Prod.fst).Nodup) {W : ℕ}
    (hW : 0 < W) (iters : ℕ → ℕ) (grad : ℕ → ℕ → μ → κ → α) (optStep : μ → List (List α) → μ)
    (model : μ) :
    ∃ s, wrkPkeyPartition items W = some s ∧
      (∀ w t m, scatterGrads s.paramLocs (fun k => some (grad w t m k)) (items.map Prod.fst)
          (noneLists s.paramLists W) =
        some (((RingSetup.ofPkeys s W iters grad optStep model).prepareGradLists w t m).map
          (·.map some))) ∧
      ∀ st, RingReachable (RingSetup.ofPkeys s W iters grad optStep model) st →
        ∀ w < W, (st w).pc = .update → ∀ k ∈ items.map Prod.fst, ∃ i p, s.locOf k = some (i, p) ∧
          slot (st w).gradLists i p = some (((List.range W).map fun u => grad u ((st w).iterCount - 1)
            ((RingSetup.ofPkeys s W iters grad optStep model).lockModel ((st w).iterCount - 1)) k).sum) := by
  obtain ⟨s, hs, hlen, hbij⟩ := exists_layoutBij_partitionParams id items hnames hW
  refine ⟨s, hs, fun w t m => scatter_noneLists hbij hlen w t m, fun st hst w hw hpc k hk => ?_⟩
  obtain ⟨i, p, hloc, hslot⟩ := hbij.mapsTo k hk
  have hlt := slot_isSome_lt (by simp [hslot] : (slot s.paramLists i p).isSome)
  have hin := ((reachable_ringInv hst).worker w hw).installing hpc
  refine ⟨i, p, hloc, ?_⟩
  rw [hin.gradLists, ringLock_exchNum _ _ hw, RingSetup.summedGrads, slot_map_range,
    if_pos ⟨hlen ▸ hlt.1, hlt.2⟩]
  exact congrArg some (congrArg List.sum (List.map_congr_left fun u _ => ofPkeys_backward hslot))

/-- Three names on two workers, each worker's gradient `w + key`. -/
theorem ring_key_allreduce_three_names :
    (([(0, 5), (1, 7), (2, 3)] : List (ℕ × ℕ)).map Prod.fst).Nodup ∧ 0 < 2 ∧
    ∃ s, wrkPkeyPartition [(0, 5), (1, 7), (2, 3)] 2 = some s ∧
      (∀ w t m, scatterGrads s.paramLocs (fun k => some (w + k)) ([(0, 5), (1, 7), (2, 3)].map Prod.fst)
          (noneLists s.paramLists 2) =
        some (((RingSetup.ofPkeys s 2 (fun _ => 1) (fun w _ _ k => w + k) (fun _ _ => ()) ()).prepareGradLists
          w t m).map (·.map some))) ∧
      ∀ st, RingReachable (RingSetup.ofPkeys s 2 (fun _ => 1) (fun w _ _ k => w + k) (fun _ _ => ()) ()) st →
        ∀ w < 2, (st w).pc = .update → ∀ k ∈ [(0, 5), (1, 7), (2, 3)].map Prod.fst,
          ∃ i p, s.locOf k = some (i, p) ∧
            slot (st w).gradLists i p = some (((List.range 2).map fun u => u + k).sum) :=
  ⟨by decide, by decide, ring_key_allreduce _ (by decide) (by decide) _ _ _ _⟩

end Main

end Strn
