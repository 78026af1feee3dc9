import Strn.Ring.Worker

/-
  What every schedule of the ring job keeps (`RingInv`), and what a deadlock takes
  (`ring_stuck_shorter_loader`).

  `gets` and `puts` count the slices a worker has taken from its predecessor's queue and put on
  its own; both follow from where it is, since each exchange puts one slice and then takes one.
  Message `n` of worker `u` is the slice it puts at exchange `n % E` of iteration `n / E`
  (`E = 2 (W - 1)`), and `sentVal` is that slice in the lockstep exchange of `Exchange`.
  `RingInv` says that a worker in iteration `t` holds what the lockstep exchange of step `t`
  holds after as many exchanges, computed from the lockstep model after `t` steps, and that a
  queue holds, in order, its owner's messages from the next one its successor takes to the last
  one put. So a worker always takes the slice its predecessor put in the same exchange of the
  same iteration, which is the one the lockstep exchange merges (`AllReduce` states it).

  No reachable state has every unfinished worker blocked when all loaders have the same length
  (`RingInv.exists_step`): a blocked worker waits on a predecessor that has put no more slices
  than it has taken, so a predecessor that is blocked too has taken fewer, and the unfinished
  worker that has taken fewest is not blocked.
-/

namespace Strn

variable {μ α : Type}

/-! ## Counting slices -/

section Counters
variable (e : RingSetup μ α)

/-- How many slices worker `wk` has taken from its predecessor's queue. -/
def RingSetup.gets (wk : RingWorker μ α) : ℕ :=
  match wk.pc with
  | .send ag idx | .recv ag idx => (wk.iterCount - 1) * e.exchNum + exchOf e.wrkNum ag idx
  | .compute | .update | .finished => wk.iterCount * e.exchNum

/-- How many slices worker `wk` has put on its own queue: one more than it has taken while it
    waits in `get_gradient_slice`. -/
def RingSetup.puts (wk : RingWorker μ α) : ℕ :=
  match wk.pc with
  | .recv _ _ => e.gets wk + 1
  | .compute | .send _ _ | .update | .finished => e.gets wk

theorem exchOf_lt {W idx : ℕ} (ag : Bool) (h : idx < W - 1) : exchOf W ag idx < 2 * (W - 1) := by
  cases ag <;> simp only [exchOf, if_true, Bool.false_eq_true, if_false] <;> omega

theorem exchAg_exchOf {W idx : ℕ} (ag : Bool) (h : idx < W - 1) : exchAg W (exchOf W ag idx) = ag := by
  cases ag <;> simp only [exchAg, exchOf, if_true, Bool.false_eq_true, if_false, decide_eq_true_eq,
    decide_eq_false_iff_not] <;> omega

theorem exchIdx_exchOf {W idx : ℕ} (ag : Bool) (h : idx < W - 1) :
    exchIdx W (exchOf W ag idx) = idx := by
  cases ag <;> simp only [exchIdx, exchOf, if_true, Bool.false_eq_true, if_false] <;> split_ifs <;>
    omega

theorem loopPc_ne_recv (W : ℕ) (ag : Bool) (idx : ℕ) (ag' : Bool) (idx' : ℕ) :
    loopPc W ag idx ≠ .recv ag' idx' := by
  unfold loopPc; split_ifs <;> simp

variable {e}

theorem puts_eq_gets {wk : RingWorker μ α} (h : ∀ ag idx, wk.pc ≠ .recv ag idx) :
    e.puts wk = e.gets wk := by
  unfold RingSetup.puts; split
  · exact absurd ‹_› (h _ _)
  all_goals rfl

theorem puts_of_recv {wk : RingWorker μ α} {ag : Bool} {idx : ℕ} (h : wk.pc = .recv ag idx) :
    e.puts wk = e.gets wk + 1 := by
  simp [RingSetup.puts, h]

/-- Entering exchange `idx` of a loop, or the position after it, counts as `exchOf`. -/
theorem gets_of_loopPc {wk : RingWorker μ α} {ag : Bool} {idx : ℕ}
    (hpc : wk.pc = loopPc e.wrkNum ag idx) (hidx : idx ≤ e.wrkNum - 1) (h0 : 0 < wk.iterCount) :
    e.gets wk = (wk.iterCount - 1) * e.exchNum + exchOf e.wrkNum ag idx := by
  have hsucc : wk.iterCount * e.exchNum = (wk.iterCount - 1) * e.exchNum + e.exchNum := by
    rw [← Nat.succ_mul, Nat.succ_eq_add_one, Nat.sub_add_cancel h0]
  rcases loopPc_cases ag hidx with ⟨-, h⟩ | ⟨-, h, hk⟩ | ⟨h, hk⟩ <;> rw [h] at hpc <;>
    simp only [RingSetup.gets, hpc]
  · rw [hk]
  · rw [hk, hsucc]; rfl

end Counters

theorem getD_map_range {f : ℕ → List α} {n i : ℕ} (hi : i < n) :
    ((List.range n).map f).getD i [] = f i := by
  simp [List.getD_eq_getElem?_getD, List.getElem?_range hi]

/-! ## The messages -/

section Messages
variable [AddCommMonoid α] (e : RingSetup μ α)

/-- Message `n` of worker `u`: its send slice at exchange `n % E` of step `n / E` of the
    lockstep run. -/
def RingSetup.sentVal (u n : ℕ) : List α :=
  ringLock e.wrkNum (e.stepGrads (n / e.exchNum)) (n % e.exchNum) u
    (sendSliceId e.wrkNum u (exchIdx e.wrkNum (n % e.exchNum)) (exchAg e.wrkNum (n % e.exchNum)))

theorem sentVal_exchOf {u t idx : ℕ} (ag : Bool) (h : idx < e.wrkNum - 1) :
    e.sentVal u (t * e.exchNum + exchOf e.wrkNum ag idx) =
      ringLock e.wrkNum (e.stepGrads t) (exchOf e.wrkNum ag idx) u (sendSliceId e.wrkNum u idx ag) := by
  have hk : exchOf e.wrkNum ag idx < e.exchNum := exchOf_lt ag h
  have hdiv : (t * e.exchNum + exchOf e.wrkNum ag idx) / e.exchNum = t := by
    rw [add_comm, Nat.add_mul_div_right _ _ (by omega), Nat.div_eq_of_lt hk, zero_add]
  have hmod : (t * e.exchNum + exchOf e.wrkNum ag idx) % e.exchNum = exchOf e.wrkNum ag idx := by
    rw [add_comm, Nat.add_mul_mod_self_right, Nat.mod_eq_of_lt hk]
  rw [RingSetup.sentVal, hdiv, hmod, exchIdx_exchOf ag h, exchAg_exchOf ag h]

/-- After all `E` exchanges every worker holds the spec's summed gradients. -/
theorem ringLock_exchNum (t : ℕ) {w : ℕ} (hw : w < e.wrkNum) :
    (List.range e.wrkNum).map (ringLock e.wrkNum (e.stepGrads t) e.exchNum w) =
      e.summedGrads t (e.lockModel t) := by
  refine List.ext_getElem (by simp [RingSetup.summedGrads]) fun i h₁ h₂ => ?_
  have hi : i < e.wrkNum := by simpa using h₁
  rw [List.getElem_map, List.getElem_range, RingSetup.exchNum,
    ringLock_allreduce (g := e.stepGrads t) (by omega) (fun _ _ _ hi' => stepGrads_length e t hi') hw hi,
    allSum_stepGrads e t hi, List.getD_eq_getElem _ _ h₂]

end Messages

/-! ## The invariant -/

section Invariant
variable [AddCommMonoid α] (e : RingSetup μ α)

/-- Worker `wk` (`w`) in iteration `t` (`iter_count = t + 1`) after `k` of its exchanges: it
    computed from the lockstep model after `t` steps and holds the slices of the lockstep
    exchange of step `t` after `k` exchanges. -/
structure InStep (w k : ℕ) (wk : RingWorker μ α) : Prop where
  started : 0 < wk.iterCount
  model : wk.model = e.lockModel (wk.iterCount - 1)
  gradLists : wk.gradLists =
    (List.range e.wrkNum).map (ringLock e.wrkNum (e.stepGrads (wk.iterCount - 1)) k w)

/-- Where worker `w` can be: between iterations it holds the lockstep model after the iterations
    it ran; in an iteration it is `InStep` at its exchange. -/
def RingWorkerOk (w : ℕ) (wk : RingWorker μ α) : Prop :=
  wk.iterCount ≤ e.iters w ∧
  match wk.pc with
  | .compute => wk.model = e.lockModel wk.iterCount
  | .send ag idx | .recv ag idx => idx < e.wrkNum - 1 ∧ InStep e w (exchOf e.wrkNum ag idx) wk
  | .update => InStep e w e.exchNum wk
  | .finished => wk.iterCount = e.iters w ∧ wk.model = e.lockModel wk.iterCount

/-- The queue of worker `p` (`u`), whose successor has taken `n` slices: it has put at least
    `n`, and holds its messages from `n` on, in order. -/
structure RingQueueOk (u : ℕ) (p : RingWorker μ α) (n : ℕ) : Prop where
  le : n ≤ e.puts p
  msgs : p.aggrMsgQ = (List.range' n (e.puts p - n)).map (e.sentVal u)

/-- Where every worker of the job can be, and what every queue holds. -/
structure RingInv (s : ℕ → RingWorker μ α) : Prop where
  worker : ∀ w < e.wrkNum, RingWorkerOk e w (s w)
  queue : ∀ v < e.wrkNum,
    RingQueueOk e (preWrk e.wrkNum v) (s (preWrk e.wrkNum v)) (e.gets (s v))

theorem ringInv_init : RingInv e e.init where
  worker _ _ := ⟨Nat.zero_le _, rfl⟩
  queue _ _ := ⟨le_rfl, by simp [RingSetup.init, RingSetup.puts, RingSetup.gets]⟩

variable {e}

theorem InStep.of_eq {w k : ℕ} {wk wk' : RingWorker μ α} (h : InStep e w k wk)
    (hi : wk'.iterCount = wk.iterCount) (hm : wk'.model = wk.model)
    (hg : wk'.gradLists = wk.gradLists) : InStep e w k wk' :=
  ⟨hi ▸ h.started, by rw [hm, hi]; exact h.model, by rw [hg, hi]; exact h.gradLists⟩

/-- Where a worker can be does not depend on its queue. -/
theorem RingWorkerOk.of_queue {w : ℕ} {wk : RingWorker μ α} (h : RingWorkerOk e w wk)
    (q : List (List α)) : RingWorkerOk e w { wk with aggrMsgQ := q } := by
  obtain ⟨i, m, g, p, q₀⟩ := wk
  obtain ⟨hle, h2⟩ := h
  refine ⟨hle, ?_⟩
  cases p with
  | compute | finished => exact h2
  | send ag idx | recv ag idx => exact ⟨h2.1, h2.2.of_eq rfl rfl rfl⟩
  | update => exact InStep.of_eq h2 rfl rfl rfl

theorem RingWorkerOk.exch {w : ℕ} {wk : RingWorker μ α} {ag : Bool} {idx : ℕ}
    (h : RingWorkerOk e w wk) (hpc : wk.pc = .send ag idx ∨ wk.pc = .recv ag idx) :
    idx < e.wrkNum - 1 ∧ InStep e w (exchOf e.wrkNum ag idx) wk := by
  have h2 := h.2
  rcases hpc with hpc | hpc <;> simpa [hpc] using h2

theorem RingWorkerOk.installing {w : ℕ} {wk : RingWorker μ α} (h : RingWorkerOk e w wk)
    (hpc : wk.pc = .update) : InStep e w e.exchNum wk := by
  simpa [hpc] using h.2

theorem RingQueueOk.of_eq {u n : ℕ} {p q : RingWorker μ α} (h : RingQueueOk e u p n)
    (hq : q.aggrMsgQ = p.aggrMsgQ) (hputs : e.puts q = e.puts p) : RingQueueOk e u q n :=
  ⟨hputs ▸ h.le, by rw [hq, hputs, h.msgs]⟩

/-- Putting the next message extends the queue. -/
theorem RingQueueOk.put {u n : ℕ} {p q : RingWorker μ α} (h : RingQueueOk e u p n)
    (hputs : e.puts q = e.puts p + 1) (hq : q.aggrMsgQ = p.aggrMsgQ ++ [e.sentVal u (e.puts p)]) :
    RingQueueOk e u q n := by
  have hle := h.le
  refine ⟨by omega, ?_⟩
  rw [hq, h.msgs, hputs, Nat.sub_add_comm hle, List.range'_concat, List.map_append, one_mul,
    Nat.add_sub_cancel' hle]
  rfl

/-- Taking the head: it is message `n`, and the rest is the queue from `n + 1` on. -/
theorem RingQueueOk.pop {u n : ℕ} {p : RingWorker μ α} {m : List α} {rest : List (List α)}
    (h : RingQueueOk e u p n) (hq : p.aggrMsgQ = m :: rest) :
    m = e.sentVal u n ∧ RingQueueOk e u { p with aggrMsgQ := rest } (n + 1) := by
  have hm := h.msgs
  rw [hq] at hm
  obtain ⟨d, hd⟩ : ∃ d, e.puts p - n = d + 1 := Nat.exists_eq_add_one.mpr (by
    rcases Nat.eq_zero_or_pos (e.puts p - n) with h0 | h0
    · simp [h0] at hm
    · exact h0)
  rw [hd, List.range'_succ, List.map_cons, List.cons.injEq] at hm
  refine ⟨hm.1, show n + 1 ≤ e.puts p by omega, ?_⟩
  show rest = (List.range' (n + 1) (e.puts p - (n + 1))).map (e.sentVal u)
  rw [hm.2, show e.puts p - (n + 1) = d by omega]

/-- A worker whose position is a loop's entry or the one after an exchange is where the
    lockstep run says, given its slices at that exchange. -/
theorem ringWorkerOk_loopPc {w : ℕ} {wk : RingWorker μ α} {ag : Bool} {idx : ℕ}
    (hle : wk.iterCount ≤ e.iters w) (hpc : wk.pc = loopPc e.wrkNum ag idx)
    (hidx : idx ≤ e.wrkNum - 1) (hin : InStep e w (exchOf e.wrkNum ag idx) wk) :
    RingWorkerOk e w wk := by
  refine ⟨hle, ?_⟩
  rcases loopPc_cases ag hidx with ⟨h1, h⟩ | ⟨h3, h, hk⟩ | ⟨h, hk⟩ <;> rw [hpc, h]
  · exact ⟨h1, hin⟩
  · exact ⟨h3, hk ▸ hin⟩
  · exact show InStep e w (2 * (e.wrkNum - 1)) wk from hk ▸ hin

/-- A step that changes only worker `w` keeps the invariant when the new worker is where the
    lockstep run says, has taken as many slices, and keeps its successor's queue good. -/
theorem RingInv.setWorker {s : ℕ → RingWorker μ α} (h : RingInv e s) {w : ℕ} {wk : RingWorker μ α}
    (hok : RingWorkerOk e w wk) (hgets : e.gets wk = e.gets (s w))
    (hq : ∀ n, RingQueueOk e w (s w) n → RingQueueOk e w wk n) :
    RingInv e (Function.update s w wk) := by
  have hsv : ∀ x, e.gets (Function.update s w wk x) = e.gets (s x) := by
    intro x; by_cases hx : x = w
    · subst hx; simpa using hgets
    · simp [hx]
  have hsq : ∀ x n, RingQueueOk e x (s x) n → RingQueueOk e x (Function.update s w wk x) n := by
    intro x n hx'; by_cases hx : x = w
    · subst hx; simpa using hq n hx'
    · simpa [hx] using hx'
  refine ⟨fun v hv => ?_, fun v hv => hsv v ▸ hsq _ _ (h.queue v hv)⟩
  by_cases hx : v = w
  · subst hx; simpa using hok
  · simpa [hx] using h.worker v hv

theorem RingInv.compute {s s' : ℕ → RingWorker μ α} {w : ℕ} (h : RingInv e s)
    (hs : e.step s w = some s') (hpc : (s w).pc = .compute) : RingInv e s' := by
  have hw := step_lt hs
  obtain ⟨hle, hmodel⟩ := h.worker w hw
  simp only [hpc] at hmodel
  rcases step_compute hs hpc with ⟨hc, rfl⟩ | ⟨hc, rfl⟩
  · set wk' : RingWorker μ α := { s w with
      iterCount := (s w).iterCount + 1
      gradLists := e.prepareGradLists w (s w).iterCount (s w).model
      pc := loopPc e.wrkNum false 0 }
    have hgets : e.gets wk' = e.gets (s w) := by
      rw [gets_of_loopPc (show wk'.pc = loopPc e.wrkNum false 0 from rfl) (Nat.zero_le _)
        (Nat.succ_pos _)]
      simp [RingSetup.gets, hpc, exchOf, wk']
    refine h.setWorker (ringWorkerOk_loopPc hc rfl (Nat.zero_le _) ⟨Nat.succ_pos _, ?_, ?_⟩)
      hgets fun n hn => hn.of_eq rfl ?_
    · simpa [wk'] using hmodel
    · simp [wk', hmodel, exchOf, prepareGradLists_eq]
    · rw [puts_eq_gets (loopPc_ne_recv _ _ _), puts_eq_gets (by simp [hpc]), hgets]
  · exact h.setWorker ⟨hle, le_antisymm hle hc, hmodel⟩ (by simp [RingSetup.gets, hpc])
      fun n hn => hn.of_eq rfl (by simp [RingSetup.puts, RingSetup.gets, hpc])

theorem RingInv.send {s s' : ℕ → RingWorker μ α} {w : ℕ} {ag : Bool} {idx : ℕ} (h : RingInv e s)
    (hs : e.step s w = some s') (hpc : (s w).pc = .send ag idx) : RingInv e s' := by
  have hw := step_lt hs
  obtain ⟨hidx, hin⟩ := (h.worker w hw).exch (.inl hpc)
  rw [step_send hs hpc]
  have hgets : e.gets (s w) = ((s w).iterCount - 1) * e.exchNum + exchOf e.wrkNum ag idx := by
    simp [RingSetup.gets, hpc]
  haveI : NeZero e.wrkNum := ⟨by omega⟩
  refine h.setWorker ⟨(h.worker w hw).1, hidx, hin.of_eq rfl rfl rfl⟩ (by simp [RingSetup.gets, hpc]) fun n hn => hn.put
    (by simp [RingSetup.puts, RingSetup.gets, hpc]) ?_
  rw [puts_eq_gets (by simp [hpc]), hgets, sentVal_exchOf e ag hidx, hin.gradLists,
    getD_map_range (sendSliceId_lt _ _ _)]

theorem RingInv.update {s s' : ℕ → RingWorker μ α} {w : ℕ} (h : RingInv e s)
    (hs : e.step s w = some s') (hpc : (s w).pc = .update) : RingInv e s' := by
  have hw := step_lt hs
  have hin := (h.worker w hw).installing hpc
  rw [step_update hs hpc]
  have hmodel : e.optStep (s w).model (s w).gradLists = e.lockModel (s w).iterCount := by
    rw [hin.model, hin.gradLists, ringLock_exchNum e _ hw]
    conv_rhs => rw [← Nat.sub_add_cancel hin.started]
    rfl
  exact h.setWorker ⟨(h.worker w hw).1, hmodel⟩ (by simp [RingSetup.gets, hpc])
    fun n hn => hn.of_eq rfl (by simp [RingSetup.puts, RingSetup.gets, hpc])

/-- What a waiting worker holds and takes: its receive slice and the head of its predecessor's
    queue are both the lockstep exchange's, its own and its predecessor's, at its exchange. -/
theorem RingInv.recv_slices {s : ℕ → RingWorker μ α} {w : ℕ} {ag : Bool} {idx : ℕ}
    (h : RingInv e s) (hw : w < e.wrkNum) (hpc : (s w).pc = .recv ag idx) {m : List α}
    {rest : List (List α)} (hq : (s (preWrk e.wrkNum w)).aggrMsgQ = m :: rest) :
    (s w).gradLists.getD (recvSliceId e.wrkNum w idx ag) [] =
        ringLock e.wrkNum (e.stepGrads ((s w).iterCount - 1)) (exchOf e.wrkNum ag idx) w
          (recvSliceId e.wrkNum w idx ag) ∧
      m = ringLock e.wrkNum (e.stepGrads ((s w).iterCount - 1)) (exchOf e.wrkNum ag idx)
        (preWrk e.wrkNum w) (sendSliceId e.wrkNum (preWrk e.wrkNum w) idx ag) ∧
      RingQueueOk e (preWrk e.wrkNum w) { s (preWrk e.wrkNum w) with aggrMsgQ := rest }
        (e.gets (s w) + 1) := by
  obtain ⟨hidx, hin⟩ := (h.worker w hw).exch (.inr hpc)
  haveI : NeZero e.wrkNum := ⟨by omega⟩
  obtain ⟨hm, hpop⟩ := (h.queue w hw).pop hq
  refine ⟨by rw [hin.gradLists, getD_map_range (recvSliceId_lt _ _ _)], ?_, hpop⟩
  rw [hm, show e.gets (s w) = ((s w).iterCount - 1) * e.exchNum + exchOf e.wrkNum ag idx by
    simp [RingSetup.gets, hpc], sentVal_exchOf e ag hidx]

omit [AddCommMonoid α] in
theorem eq_mergeSlice_of_mergeRecv [Add α] {ag : Bool} {own recv slice : List α}
    (h : mergeRecv ag own recv = some slice) : slice = mergeSlice ag own recv := by
  cases ag
  · simp only [mergeRecv] at h
    split_ifs at h
    exact (Option.some.inj h).symm
  · exact (Option.some.inj h).symm

/-- Taking a slice: the worker merges its predecessor's slice of the same exchange, as the
    lockstep exchange does, and the queue it took from loses exactly its head. -/
theorem RingInv.recv {s s' : ℕ → RingWorker μ α} {w : ℕ} {ag : Bool} {idx : ℕ} (h : RingInv e s)
    (hs : e.step s w = some s') (hpc : (s w).pc = .recv ag idx) : RingInv e s' := by
  have hw := step_lt hs
  obtain ⟨hidx, hin⟩ := (h.worker w hw).exch (.inr hpc)
  haveI : NeZero e.wrkNum := ⟨by omega⟩
  obtain ⟨m, rest, slice, hq, hmerge, rfl⟩ := step_recv hs hpc
  obtain ⟨hown, hm, hpop⟩ := h.recv_slices hw hpc hq
  rw [sendSliceId_preWrk] at hm
  have hslice := eq_mergeSlice_of_mergeRecv hmerge
  rw [hown, hm] at hslice
  set pre := preWrk e.wrkNum w
  set wk' : RingWorker μ α := { s w with
    gradLists := (s w).gradLists.set (recvSliceId e.wrkNum w idx ag) slice
    pc := loopPc e.wrkNum ag (idx + 1) }
  have hpre : pre ≠ w := preWrk_ne (n := e.wrkNum) (by omega) hw
  have hin' : InStep e w (exchOf e.wrkNum ag (idx + 1)) wk' := by
    refine ⟨hin.started, hin.model, ?_⟩
    refine List.ext_getElem (by simp [wk', hin.gradLists]) fun i h₁ h₂ => ?_
    have hk : exchOf e.wrkNum ag (idx + 1) = exchOf e.wrkNum ag idx + 1 := by simp [exchOf]; omega
    simp only [wk', hin.gradLists, List.getElem_set, List.getElem_map, List.getElem_range, hk,
      ringLock_succ, exchIdx_exchOf ag hidx, exchAg_exchOf ag hidx]
    split_ifs with h1 h2 h2 <;> first | rfl | omega | (subst h1; exact hslice)
  have hok : RingWorkerOk e w wk' := ringWorkerOk_loopPc (h.worker w hw).1 rfl (by omega) hin'
  have hgets : e.gets wk' = e.gets (s w) + 1 := by
    rw [gets_of_loopPc (show wk'.pc = loopPc e.wrkNum ag (idx + 1) from rfl) (by omega)
      hin.started]
    simp [RingSetup.gets, hpc, exchOf]; omega
  have hputs : e.puts wk' = e.puts (s w) := by
    rw [puts_eq_gets (loopPc_ne_recv _ _ _), puts_of_recv hpc, hgets]
  refine ⟨fun v hv => ?_, fun v hv => ?_⟩
  · by_cases hvw : v = w
    · subst hvw; simpa using hok
    · by_cases hvp : v = pre
      · subst hvp; simpa [hvw] using (h.worker pre hv).of_queue rest
      · simpa [hvw, hvp] using h.worker v hv
  · by_cases hvw : v = w
    · subst hvw; simpa [hpre, hgets] using hpop
    · have hpv : preWrk e.wrkNum v ≠ pre := fun he => hvw ((preWrk_inj hv hw).mp he)
      have hgv : e.gets (Function.update (Function.update s pre
          { s pre with aggrMsgQ := rest }) w wk' v) = e.gets (s v) := by
        by_cases hvp : v = pre
        · subst hvp; simp [hvw]; rfl
        · simp [hvw, hvp]
      rw [hgv]
      by_cases hpw : preWrk e.wrkNum v = w
      · have hq' := h.queue v hv
        rw [hpw] at hq' ⊢
        simpa using hq'.of_eq (q := wk') rfl hputs
      · simpa [hpw, hpv] using h.queue v hv

/-- Every action keeps the invariant. -/
theorem RingInv.step {s s' : ℕ → RingWorker μ α} {w : ℕ} (h : RingInv e s)
    (hs : e.step s w = some s') : RingInv e s' := by
  cases hpc : (s w).pc with
  | compute => exact h.compute hs hpc
  | send ag idx => exact h.send hs hpc
  | recv ag idx => exact h.recv hs hpc
  | update => exact h.update hs hpc
  | finished => simp [step_finished hpc] at hs

theorem reachable_ringInv {s : ℕ → RingWorker μ α} (hs : RingReachable e s) : RingInv e s := by
  induction hs with
  | init => exact ringInv_init e
  | step _ _ hstep ih => exact ih.step hstep

end Invariant

/-! ## Progress -/

section Progress
variable [AddCommMonoid α] {e : RingSetup μ α} {s : ℕ → RingWorker μ α}

theorem RingWorkerOk.gets_lt {w : ℕ} {wk : RingWorker μ α} {ag : Bool} {idx : ℕ}
    (h : RingWorkerOk e w wk) (hpc : wk.pc = .recv ag idx) : e.gets wk < e.iters w * e.exchNum := by
  obtain ⟨hidx, hin⟩ := h.exch (.inr hpc)
  have hk : exchOf e.wrkNum ag idx < e.exchNum := exchOf_lt ag hidx
  have hmul : (wk.iterCount - 1) * e.exchNum + e.exchNum ≤ e.iters w * e.exchNum := by
    rw [← Nat.succ_mul]
    exact Nat.mul_le_mul_right _ (by have := h.1; have := hin.started; omega)
  simp only [RingSetup.gets, hpc]
  omega

theorem RingWorkerOk.puts_of_finished {w : ℕ} {wk : RingWorker μ α} (h : RingWorkerOk e w wk)
    (hpc : wk.pc = .finished) : e.puts wk = e.iters w * e.exchNum := by
  have h2 := h.2
  simp only [hpc] at h2
  simp [RingSetup.puts, RingSetup.gets, hpc, h2.1]

/-- A worker that has not left its loop can act unless it waits in `get_gradient_slice` on an
    empty queue; the slice it takes is as long as its own, so reduce-scatter does not raise. -/
theorem RingInv.step_isSome (h : RingInv e s) {w : ℕ} (hw : w < e.wrkNum)
    (hf : (s w).pc ≠ .finished)
    (hq : ∀ ag idx, (s w).pc = .recv ag idx → (s (preWrk e.wrkNum w)).aggrMsgQ ≠ []) :
    (e.step s w).isSome := by
  cases hpc : (s w).pc with
  | compute => simp only [RingSetup.step, hw, if_true, hpc]; split_ifs <;> rfl
  | send ag idx => simp [RingSetup.step, hw, hpc]
  | update => simp [RingSetup.step, hw, hpc]
  | finished => exact absurd hpc hf
  | recv ag idx =>
    obtain ⟨m, rest, hmr⟩ := List.exists_cons_of_ne_nil (hq ag idx hpc)
    obtain ⟨hown, hm, -⟩ := h.recv_slices hw hpc hmr
    haveI : NeZero e.wrkNum := ⟨by omega⟩
    have hg : ∀ v < e.wrkNum, ∀ i < e.wrkNum,
        (e.stepGrads ((s w).iterCount - 1) v i).length = e.sliceLen i :=
      fun _ _ _ hi => stepGrads_length e _ hi
    have hlen : ((s w).gradLists.getD (recvSliceId e.wrkNum w idx ag) []).length ≤ m.length := by
      rw [hown, hm, sendSliceId_preWrk, ringLock_length (by omega) hg _ _ hw _ (recvSliceId_lt _ _ _),
        ringLock_length (by omega) hg _ _ (preWrk_lt w) _ (recvSliceId_lt _ _ _)]
    simp only [RingSetup.step, hw, if_true, hpc, hmr]
    rw [mergeRecv_eq_some ag hlen]
    rfl

/-- A worker that cannot act and has not left its loop waits in `get_gradient_slice` on a
    predecessor that has put no more slices than it has taken. -/
theorem RingInv.blocked (h : RingInv e s) {w : ℕ} (hw : w < e.wrkNum) (hf : (s w).pc ≠ .finished)
    (hs : e.step s w = none) :
    ∃ ag idx, (s w).pc = .recv ag idx ∧ e.puts (s (preWrk e.wrkNum w)) = e.gets (s w) := by
  by_contra hne
  push_neg at hne
  refine absurd (h.step_isSome hw hf fun ag idx hpc hq => hne ag idx hpc ?_) (by simp [hs])
  have hmsgs := (h.queue w hw).msgs
  rw [hq, eq_comm, List.map_eq_nil_iff, List.range'_eq_nil] at hmsgs
  have := (h.queue w hw).le
  omega

/-- What a deadlock takes: when no worker can act and some worker is still in its loop, some
    worker waits in `get_gradient_slice` on a predecessor that left its loop after fewer
    iterations than its own loop runs. Follow the blocked workers back along the ring: each
    has taken more slices than the predecessor it waits on, so the chain ends at one that has
    left its loop. -/
theorem RingInv.stuck_shorter (h : RingInv e s) (hstuck : ∀ w < e.wrkNum, e.step s w = none)
    {v : ℕ} (hv : v < e.wrkNum) (hf : (s v).pc ≠ .finished) :
    ∃ w < e.wrkNum, ∃ ag idx, (s w).pc = .recv ag idx ∧
      (s (preWrk e.wrkNum w)).pc = .finished ∧ e.iters (preWrk e.wrkNum w) < e.iters w := by
  obtain ⟨n, hn⟩ : ∃ n, e.gets (s v) = n := ⟨_, rfl⟩
  induction n using Nat.strong_induction_on generalizing v with
  | _ n ih =>
    obtain ⟨ag, idx, hpc, hput⟩ := h.blocked hv hf (hstuck v hv)
    haveI : NeZero e.wrkNum := ⟨by omega⟩
    have hu : preWrk e.wrkNum v < e.wrkNum := preWrk_lt v
    by_cases hfu : (s (preWrk e.wrkNum v)).pc = .finished
    · refine ⟨v, hv, ag, idx, hpc, hfu, Nat.lt_of_mul_lt_mul_right (a := e.exchNum) ?_⟩
      rw [← (h.worker _ hu).puts_of_finished hfu, hput]
      exact (h.worker v hv).gets_lt hpc
    · obtain ⟨_, _, hpc', -⟩ := h.blocked hu hfu (hstuck _ hu)
      exact ih _ (by rw [puts_of_recv hpc'] at hput; omega) hu hfu rfl

/-- No deadlock: when every worker's loop runs the same number of iterations, some worker can
    act in every state where one is still in its loop. -/
theorem RingInv.exists_step (h : RingInv e s) (hiters : ∀ v < e.wrkNum, e.iters v = e.iters 0)
    {v : ℕ} (hv : v < e.wrkNum) (hf : (s v).pc ≠ .finished) :
    ∃ w < e.wrkNum, (e.step s w).isSome := by
  by_contra hno
  push_neg at hno
  obtain ⟨w, hw, -, -, -, -, hlt⟩ :=
    h.stuck_shorter (fun w hw => Option.not_isSome_iff_eq_none.mp (hno w hw)) hv hf
  haveI : NeZero e.wrkNum := ⟨by omega⟩
  rw [hiters w hw, hiters _ (preWrk_lt w)] at hlt
  exact lt_irrefl _ hlt

end Progress

/-! ## What a deadlock takes -/

section Main
variable [AddCommMonoid α]

/-- Unequal loaders can stop the ring. In a reachable state where no worker can act but one is
    still in its loop, some worker waits in `get_gradient_slice` forever on a predecessor that
    has left its loop after fewer iterations than the waiting worker's loop runs. -/
theorem ring_stuck_shorter_loader (e : RingSetup μ α) {s : ℕ → RingWorker μ α}
    (hs : RingReachable e s) (hstuck : ∀ w < e.wrkNum, e.step s w = none) {v : ℕ}
    (hv : v < e.wrkNum) (hf : (s v).pc ≠ .finished) :
    ∃ w < e.wrkNum, ∃ ag idx, (s w).pc = .recv ag idx ∧
      (s (preWrk e.wrkNum w)).pc = .finished ∧ e.iters (preWrk e.wrkNum w) < e.iters w :=
  (reachable_ringInv hs).stuck_shorter hstuck hv hf

/-- Two workers whose loaders give one iteration and none: worker `1` leaves its loop at once,
    and worker `0`, after its first put, waits on it forever. -/
theorem ring_stuck_shorter_loader_two_workers :
    let e : RingSetup Unit ℕ :=
      ⟨2, fun w => if w = 0 then 1 else 0, fun _ => 1, fun w _ _ _ _ => w + 1, fun _ _ => (), ()⟩
    let s := Function.update (Function.update (Function.update e.init 1
      ⟨0, (), [], .finished, []⟩) 0 ⟨1, (), [[1], [1]], .send false 0, []⟩) 0
      ⟨1, (), [[1], [1]], .recv false 0, [[1]]⟩
    RingReachable e s ∧ (∀ w < e.wrkNum, e.step s w = none) ∧ 0 < e.wrkNum ∧
      (s 0).pc ≠ .finished ∧
      ∃ w < e.wrkNum, ∃ ag idx, (s w).pc = .recv ag idx ∧
        (s (preWrk e.wrkNum w)).pc = .finished ∧ e.iters (preWrk e.wrkNum w) < e.iters w :=
  ⟨.step 0 (.step 0 (.step 1 .init rfl) rfl) rfl,
    fun w _ => by rcases w with _ | _ | w <;> rfl, by decide, by decide,
    ring_stuck_shorter_loader _ (.step 0 (.step 0 (.step 1 .init rfl) rfl) rfl)
      (fun w _ => by rcases w with _ | _ | w <;> rfl) (v := 0) (by decide) (by decide)⟩

end Main

end Strn
