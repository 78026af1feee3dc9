import Strn.Ring.Exchange
import Strn.Schedule

/-
  The all-reduce job (`new_models/all_reduce`): `wrk_num` workers in a ring, each a separate
  process running `Worker.run_worker`. An iteration computes the gradients and scatters them
  into `grad_lists` by the ring layout (slice `i` holds the keys of `wrk_pkey_lists[i]`), runs
  the reduce-scatter and all-gather loops, and installs `grad_lists` as the gradients before
  `optimizer.step()`. In each exchange a worker puts its send slice on its own `aggr_msg_q` and
  takes one slice from its predecessor's queue through `get_gradient_slice`, which blocks while
  that queue is empty.

  The job is a state machine whose steps are the workers' actions, one at a time and in any
  order (`RingSetup.step`, `RingReachable`). A worker's position in `run_worker` is a `RingPc`
  and its queue a list, head first. `backward w t m i j` is the gradient worker `w` computes at
  its iteration `t` with model `m` for the parameter in slot `j` of slice `i`, standing for its
  batch and the forward and backward pass; the scatter fills every slot, as `Partition.Layout`
  proves of the layout loop. A queue holds each slice as it was when put (`.cpu()` copies it
  off the GPU).

  After each iteration a worker asks the tester for its stop flag. Here `get_stop_flag`
  answers `False`, as `Tester.get_stop_flag` does (`stop_flag` is set to `False` in
  `__init__` and nothing sets it again), so a worker leaves its loop only when its loader is
  exhausted. The model is of the workers' `run_worker` calls once `set_wrk_rrefs_and_tester_rref`
  has given them their predecessor and the tester; the shipped `main` calls an undefined
  `set_ps_worker_rrefs_and_tester_rref` instead and never starts them, and nothing here is about
  `wait_all`.

  `lockModel` is what the job is for: data-parallel SGD, in which every step installs, in every
  slot, the sum over the workers of their gradients computed from the same model.
-/

namespace Strn

/-! ## Workers and the job -/

/-- Where a worker is in `run_worker`: at the head of the training loop; about to put its send
    slice of exchange `idx` of reduce-scatter (`ag = false`) or all-gather (`ag = true`); in
    `get_gradient_slice` on its predecessor in that exchange; about to install `grad_lists` and
    step; out of the loop, taking no further part (`run_worker` returns, or, when its loader is
    empty, raises `UnboundLocalError` at `if stop_flag`). -/
inductive RingPc
  | compute
  | send (ag : Bool) (idx : ℕ)
  | recv (ag : Bool) (idx : ℕ)
  | update
  | finished
deriving DecidableEq

/-- A worker: `iter_count`, its model, `grad_lists`, where it is, and `aggr_msg_q`. -/
structure RingWorker (μ α : Type) where
  iterCount : ℕ
  model : μ
  gradLists : List (List α)
  pc : RingPc
  aggrMsgQ : List (List α)

/-- What the job runs with: `wrk_num`; the iterations of each worker's training loop
    (`epoch_num` times the batches of its loader); `len(wrk_pkey_lists[i])`; the workers'
    gradients; installing `grad_lists` and `optimizer.step()`; the model the manager sends. -/
structure RingSetup (μ α : Type) where
  wrkNum : ℕ
  iters : ℕ → ℕ
  sliceLen : ℕ → ℕ
  backward : ℕ → ℕ → μ → ℕ → ℕ → α
  optStep : μ → List (List α) → μ
  model : μ

variable {μ α : Type}

/-- `grad_lists` after worker `w`'s backward pass at iteration `t` with model `m`:
    `[[None] * len(wrk_pkey_lists[i]) for i in range(ring_wrk_num)]` with every slot filled. -/
def RingSetup.prepareGradLists (e : RingSetup μ α) (w t : ℕ) (m : μ) : List (List α) :=
  (List.range e.wrkNum).map fun i => (List.range (e.sliceLen i)).map (e.backward w t m i)

/-- The exchanges of one iteration: `ring_wrk_num - 1` in each loop. -/
def RingSetup.exchNum (e : RingSetup μ α) : ℕ := 2 * (e.wrkNum - 1)

/-- Exchange `idx` of a loop, counted within its iteration. -/
def exchOf (W : ℕ) (ag : Bool) (idx : ℕ) : ℕ := (if ag then W - 1 else 0) + idx

/-- The position after exchange `idx - 1` of a loop, or at its entry for `idx = 0`: exchange
    `idx` while `idx < W - 1`; then the all-gather loop after reduce-scatter, and the update
    after all-gather. -/
def loopPc (W : ℕ) (ag : Bool) (idx : ℕ) : RingPc :=
  if idx < W - 1 then .send ag idx
  else if ag then .update
  else if 0 < W - 1 then .send true 0
  else .update

/-- Where a loop goes after an exchange: the next exchange of the same loop, the entry of
    all-gather (which comes right after reduce-scatter), or the update once all `2 (W - 1)`
    exchanges are done. -/
theorem loopPc_cases {W idx : ℕ} (ag : Bool) (hidx : idx ≤ W - 1) :
    (idx < W - 1 ∧ loopPc W ag idx = .send ag idx) ∨
    (0 < W - 1 ∧ loopPc W ag idx = .send true 0 ∧ exchOf W ag idx = exchOf W true 0) ∨
    (loopPc W ag idx = .update ∧ exchOf W ag idx = 2 * (W - 1)) := by
  unfold loopPc
  split_ifs with h1 h2 h3
  · exact .inl ⟨h1, rfl⟩
  · exact .inr (.inr ⟨rfl, by simp only [exchOf, h2, if_true]; omega⟩)
  · simp only [Bool.not_eq_true] at h2
    exact .inr (.inl ⟨h3, rfl, by simp only [exchOf, h2, if_true, Bool.false_eq_true, if_false]; omega⟩)
  · simp only [Bool.not_eq_true] at h2
    exact .inr (.inr ⟨rfl, by simp only [exchOf, h2, Bool.false_eq_true, if_false]; omega⟩)

/-- What a worker does with the slice it takes: reduce-scatter adds it into its own slice
    (`grad_list_to_add[i] += recv_grad_slice[i]`, an `IndexError` when the received slice is
    shorter), all-gather puts it in place. -/
def mergeRecv [Add α] : Bool → List α → List α → Option (List α)
  | false, own, recv => if own.length ≤ recv.length then some (mergeSlice false own recv) else none
  | true, _, recv => some recv

theorem mergeRecv_eq_some [Add α] (ag : Bool) {own recv : List α} (h : own.length ≤ recv.length) :
    mergeRecv ag own recv = some (mergeSlice ag own recv) := by
  cases ag <;> simp [mergeRecv, mergeSlice, h]

/-- The job at launch: every worker with the manager's model, before its first iteration
    (`grad_lists` is `None`, here empty) and with an empty queue. -/
def RingSetup.init (e : RingSetup μ α) : ℕ → RingWorker μ α :=
  fun _ => ⟨0, e.model, [], .compute, []⟩

section Step
variable [Add α] (e : RingSetup μ α)

/-- Worker `w`'s next action, or `none` when it cannot take one: it is no worker, it has left
    its loop, it waits in `get_gradient_slice` on an empty queue, or reduce-scatter raises. -/
def RingSetup.step (s : ℕ → RingWorker μ α) (w : ℕ) : Option (ℕ → RingWorker μ α) :=
  if w < e.wrkNum then
    let wk := s w
    match wk.pc with
    | .compute =>
      if wk.iterCount < e.iters w then
        some (Function.update s w { wk with
          iterCount := wk.iterCount + 1
          gradLists := e.prepareGradLists w wk.iterCount wk.model
          pc := loopPc e.wrkNum false 0 })
      else some (Function.update s w { wk with pc := .finished })
    | .send ag idx =>
      some (Function.update s w { wk with
        aggrMsgQ := wk.aggrMsgQ ++ [wk.gradLists.getD (sendSliceId e.wrkNum w idx ag) []]
        pc := .recv ag idx })
    | .recv ag idx =>
      let pre := preWrk e.wrkNum w
      match (s pre).aggrMsgQ with
      | m :: rest =>
        let r := recvSliceId e.wrkNum w idx ag
        (mergeRecv ag (wk.gradLists.getD r []) m).map fun slice =>
          Function.update (Function.update s pre { s pre with aggrMsgQ := rest }) w { wk with
            gradLists := wk.gradLists.set r slice
            pc := loopPc e.wrkNum ag (idx + 1) }
      | [] => none
    | .update =>
      some (Function.update s w { wk with
        model := e.optStep wk.model wk.gradLists
        pc := .compute })
    | .finished => none
  else none

/-- The states the job can reach, in any interleaving of the workers' actions. -/
inductive RingReachable : (ℕ → RingWorker μ α) → Prop
  | init : RingReachable e.init
  | step {s s' : ℕ → RingWorker μ α} (w : ℕ) : RingReachable s → e.step s w = some s' →
      RingReachable s'

variable {e} {s s' : ℕ → RingWorker μ α} {w : ℕ}

/-- A schedule of workers' actions taken one after another from a reachable state, as long as
    each can be taken, ends in a reachable state. -/
theorem RingReachable.foldlM (hs : RingReachable e s) (ws : List ℕ)
    (h : (ws.foldlM e.step s).isSome) : RingReachable e ((ws.foldlM e.step s).getD s) :=
  foldlM_getD_of_step RingReachable.step hs ws h

/-! ## What each action does -/

theorem step_lt (h : e.step s w = some s') : w < e.wrkNum := by
  by_contra hw
  simp [RingSetup.step, hw] at h

theorem step_compute (h : e.step s w = some s') (hpc : (s w).pc = .compute) :
    ((s w).iterCount < e.iters w ∧ s' = Function.update s w { s w with
        iterCount := (s w).iterCount + 1
        gradLists := e.prepareGradLists w (s w).iterCount (s w).model
        pc := loopPc e.wrkNum false 0 }) ∨
      (e.iters w ≤ (s w).iterCount ∧ s' = Function.update s w { s w with pc := .finished }) := by
  have hw := step_lt h
  simp only [RingSetup.step, hw, if_true, hpc] at h
  split_ifs at h with hc
  · exact .inl ⟨hc, (Option.some.inj h).symm⟩
  · exact .inr ⟨Nat.le_of_not_lt hc, (Option.some.inj h).symm⟩

theorem step_send {ag : Bool} {idx : ℕ} (h : e.step s w = some s') (hpc : (s w).pc = .send ag idx) :
    s' = Function.update s w { s w with
      aggrMsgQ := (s w).aggrMsgQ ++ [(s w).gradLists.getD (sendSliceId e.wrkNum w idx ag) []]
      pc := .recv ag idx } := by
  have hw := step_lt h
  simp only [RingSetup.step, hw, if_true, hpc] at h
  exact (Option.some.inj h).symm

theorem step_recv {ag : Bool} {idx : ℕ} (h : e.step s w = some s') (hpc : (s w).pc = .recv ag idx) :
    ∃ m rest slice, (s (preWrk e.wrkNum w)).aggrMsgQ = m :: rest ∧
      mergeRecv ag ((s w).gradLists.getD (recvSliceId e.wrkNum w idx ag) []) m = some slice ∧
      s' = Function.update (Function.update s (preWrk e.wrkNum w)
          { s (preWrk e.wrkNum w) with aggrMsgQ := rest }) w { s w with
        gradLists := (s w).gradLists.set (recvSliceId e.wrkNum w idx ag) slice
        pc := loopPc e.wrkNum ag (idx + 1) } := by
  have hw := step_lt h
  simp only [RingSetup.step, hw, if_true, hpc] at h
  split at h
  · obtain ⟨slice, hs, rfl⟩ := Option.map_eq_some'.mp h
    exact ⟨_, _, slice, ‹_›, hs, rfl⟩
  · cases h

theorem step_update (h : e.step s w = some s') (hpc : (s w).pc = .update) :
    s' = Function.update s w { s w with
      model := e.optStep (s w).model (s w).gradLists
      pc := .compute } := by
  have hw := step_lt h
  simp only [RingSetup.step, hw, if_true, hpc] at h
  exact (Option.some.inj h).symm

theorem step_finished (hpc : (s w).pc = .finished) : e.step s w = none := by
  simp [RingSetup.step, hpc]

end Step

/-! ## Data-parallel SGD -/

section Spec
variable [AddCommMonoid α] (e : RingSetup μ α)

/-- What every worker should install at iteration `t` from model `m`: in every slot, the sum
    over the `wrk_num` workers of their gradients for it. -/
def RingSetup.summedGrads (t : ℕ) (m : μ) : List (List α) :=
  (List.range e.wrkNum).map fun i => (List.range (e.sliceLen i)).map fun j =>
    ((List.range e.wrkNum).map fun w => e.backward w t m i j).sum

/-- Data-parallel SGD: the model after `t` steps, each installing the summed gradients computed
    from the model before it. -/
def RingSetup.lockModel (e : RingSetup μ α) : ℕ → μ
  | 0 => e.model
  | t + 1 => e.optStep (e.lockModel t) (e.summedGrads t (e.lockModel t))

/-- The slices the workers exchange at step `t` of the lockstep run: slice `i` of worker `w`'s
    `grad_lists`, computed from the lockstep model. -/
def RingSetup.stepGrads (t : ℕ) (w i : ℕ) : List α :=
  (e.prepareGradLists w t (e.lockModel t)).getD i []

theorem stepGrads_length (t : ℕ) {w i : ℕ} (hi : i < e.wrkNum) :
    (e.stepGrads t w i).length = e.sliceLen i := by
  simp [RingSetup.stepGrads, RingSetup.prepareGradLists, hi]

/-- `grad_lists` is its slices: the lockstep exchange starts from each worker's own. -/
theorem prepareGradLists_eq (t : ℕ) (w : ℕ) :
    e.prepareGradLists w t (e.lockModel t) =
      (List.range e.wrkNum).map (ringLock e.wrkNum (e.stepGrads t) 0 w) := by
  refine List.ext_getElem (by simp [RingSetup.prepareGradLists]) fun i h₁ h₂ => ?_
  simp only [List.getElem_map, List.getElem_range, ringLock, RingSetup.stepGrads,
    List.getD_eq_getElem _ _ h₁]

/-- The all-reduce sum of the lockstep slices is the spec's sum. -/
theorem allSum_stepGrads (t : ℕ) {i : ℕ} (hi : i < e.wrkNum) :
    allSum e.wrkNum (e.sliceLen i) (e.stepGrads t) i = (e.summedGrads t (e.lockModel t)).getD i [] := by
  simp only [allSum, sliceSum, RingSetup.stepGrads, RingSetup.prepareGradLists,
    RingSetup.summedGrads, List.getD_eq_getElem?_getD, List.getElem?_map, List.getElem?_range hi,
    Option.map_some', Option.getD_some, List.map_map, Function.comp_def]
  refine List.map_congr_left fun j hj => congrArg List.sum (List.map_congr_left fun w _ => ?_)
  simp [List.getElem?_range (List.mem_range.mp hj)]

end Spec

end Strn
