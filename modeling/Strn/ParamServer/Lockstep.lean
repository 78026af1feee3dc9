import Strn.ParamServer.Cluster

/-
  The cluster runs synchronous SGD: in every reachable state, every shard is in the lockstep
  state after as many steps as it has made, and every worker computes its gradient at
  iteration `t` from the lockstep parameters after `t` steps (`sync_ps_lockstep`).

  `ClusterInv` says where each process can be. A shard with `R` steps made holds the lockstep
  state after `R` steps, its futures hold the lockstep values, and its open round holds the
  gradients of exactly the workers whose thread waits on its open future `R`. A worker in
  iteration `t` (that is, `iter_count = t + 1`) computed from the lockstep parameters after `t`
  steps; its thread for a shard has not called it yet and the shard is at round `t`, or waits
  on future `t` and the shard is at round `t` or `t + 1`, or holds the values after step `t`. A
  worker between iterations holds the lockstep parameters after the iterations it ran.

  The step where it matters is the call that closes a round: the shard's counter says that
  `worker_num - 1` workers wait on the open future, so with the caller every worker has
  contributed its gradient of step `R` exactly once, and the sum the shard steps on is the
  lockstep one. Sums are taken in arrival order by the shard and in worker order by
  `lockstep`; they agree because `γ` is a commutative monoid (tensor addition, up to floating
  point rounding).
-/

namespace Strn

variable {ω θ γ : Type}

/-! ## Sums in any order -/

section Perm
variable [AddCommMonoid γ]

theorem foldl_add_eq_add_sum (gs : List γ) (g : γ) : gs.foldl (· + ·) g = g + gs.sum := by
  induction gs generalizing g with
  | nil => simp
  | cons x xs ih => rw [List.foldl_cons, ih, List.sum_cons, add_assoc]

theorem gradSum_perm {l₁ l₂ : List γ} (h : l₁.Perm l₂) : gradSum l₁ = gradSum l₂ := by
  have hsum : ∀ l : List γ, gradSum l = if l.length = 0 then none else some l.sum := by
    intro l; cases l <;> simp [gradSum, foldl_add_eq_add_sum]
  rw [hsum, hsum, h.sum_eq, h.length_eq]

theorem roundGrads_perm {l₁ l₂ : List (List γ)} (h : l₁.Perm l₂) (n : ℕ) :
    roundGrads n l₁ = roundGrads n l₂ := by
  simp only [roundGrads]
  exact List.map_congr_left fun p _ => gradSum_perm (h.filterMap _)

end Perm

/-! ## Who waits on a future -/

/-- The workers whose thread for shard `j` waits on future `ft`. -/
def waitingOn (workers : List (WorkerState θ γ)) (j ft : ℕ) : List ℕ :=
  (List.range workers.length).filter fun w =>
    (workers[w]?.bind (·.threads[j]?)) = some (.waiting ft)

theorem mem_waitingOn {workers : List (WorkerState θ γ)} {j ft w : ℕ} :
    w ∈ waitingOn workers j ft ↔
      ∃ wk, workers[w]? = some wk ∧ wk.threads[j]? = some (.waiting ft) := by
  simp only [waitingOn, List.mem_filter, List.mem_range, decide_eq_true_eq]
  constructor
  · rintro ⟨hw, h⟩
    exact ⟨_, List.getElem?_eq_getElem hw, by simpa [List.getElem?_eq_getElem hw] using h⟩
  · rintro ⟨wk, hwk, h⟩
    exact ⟨(List.getElem?_eq_some_iff.mp hwk).1, by simp [hwk, h]⟩

theorem nodup_waitingOn (workers : List (WorkerState θ γ)) (j ft : ℕ) :
    (waitingOn workers j ft).Nodup :=
  (List.nodup_range _).filter _

/-- Changing one worker leaves the waiting list of a future alone when that worker's thread
    for the shard waits on it before exactly when it does after. -/
theorem waitingOn_set {workers : List (WorkerState θ γ)} {w j ft : ℕ} {wk wk' : WorkerState θ γ}
    (hw : workers[w]? = some wk)
    (h : wk'.threads[j]? = some (.waiting ft) ↔ wk.threads[j]? = some (.waiting ft)) :
    waitingOn (workers.set w wk') j ft = waitingOn workers j ft := by
  simp only [waitingOn, List.length_set]
  refine List.filter_congr fun x _ => ?_
  by_cases hx : x = w
  · subst hx
    have hlt := (List.getElem?_eq_some_iff.mp hw).1
    simp [hw, List.getElem?_set_self hlt, h]
  · rw [List.getElem?_set_ne (Ne.symm hx)]

/-- A worker whose thread starts waiting on `ft` joins the waiting list of `ft`. -/
theorem waitingOn_set_perm {workers : List (WorkerState θ γ)} {w j ft : ℕ}
    {wk wk' : WorkerState θ γ} (hw : workers[w]? = some wk)
    (hold : wk.threads[j]? ≠ some (.waiting ft)) (hnew : wk'.threads[j]? = some (.waiting ft)) :
    (waitingOn (workers.set w wk') j ft).Perm (waitingOn workers j ft ++ [w]) := by
  have hnot : w ∉ waitingOn workers j ft := by
    rw [mem_waitingOn]; rintro ⟨wk₀, h₀, h⟩; exact hold (by rw [hw] at h₀; cases h₀; exact h)
  refine (List.perm_ext_iff_of_nodup (nodup_waitingOn _ _ _)
    ((List.nodup_append.mpr ⟨nodup_waitingOn _ _ _, List.nodup_singleton w,
      List.disjoint_singleton.mpr hnot⟩))).mpr fun x => ?_
  have hlt := (List.getElem?_eq_some_iff.mp hw).1
  by_cases hx : x = w
  · subst hx
    simp [mem_waitingOn, List.getElem?_set_self hlt, hnew]
  · simp [mem_waitingOn, List.getElem?_set_ne (Ne.symm hx), hx]

/-! ## The invariant -/

section Invariant
variable [AddCommMonoid γ] (e : Setup ω θ γ)

/-- Shard `j`, with `C` the workers waiting on its open future: sync mode, `worker_num`
    workers, the lockstep state after its `psCompFuture` steps, the lockstep values in its
    futures, and the gradients of `C` at the open step in its open round. -/
structure ShardOk (j : ℕ) (s : ParameterServer ω θ γ) (C : List ℕ) : Prop where
  workerNum : s.workerNum = e.workerNum
  syncMode : s.syncMode = 0
  state : (e.lockstep s.psCompFuture)[j]? = some (s.optimizer, s.psParams.map Param.data)
  results : ∀ f, s.futureResults f = if f < s.psCompFuture then (e.params (f + 1))[j]? else none
  count : s.syncWorkerCount = C.length
  count_lt : s.syncWorkerCount < e.workerNum
  grads : s.psParams.map Param.grad =
    roundGrads s.psParams.length (C.map fun w => e.grad w s.psCompFuture j)

/-- Worker `w`: between iterations it holds the lockstep parameters after the iterations it
    ran; in iteration `t` it computed from the lockstep parameters after `t` steps, with one
    thread per shard. -/
structure WorkerOk (w : ℕ) (wk : WorkerState θ γ) : Prop where
  paramLists_length : wk.paramLists.length = e.init.length
  idle : wk.threads = [] → wk.model = e.params wk.iterCount
  running : wk.threads ≠ [] → ∃ t, wk.iterCount = t + 1 ∧ wk.model = e.params t ∧
    wk.gradLists = e.compute w t (e.params t) ∧ wk.threads.length = e.init.length

/-- The thread of worker `wk` for shard `j`, where the shard has made `R` steps. -/
structure ThreadOk (wk : WorkerState θ γ) (j R : ℕ) : Prop where
  idle : wk.threads = [] → R = wk.iterCount
  pending : wk.threads[j]? = some .pending → R + 1 = wk.iterCount
  waiting : ∀ ft, wk.threads[j]? = some (.waiting ft) → ft + 1 = wk.iterCount ∧ (R = ft ∨ R = ft + 1)
  done : wk.threads[j]? = some .done → R = wk.iterCount ∧ wk.paramLists[j]? = (e.params R)[j]?

/-- Where every process of the job can be. -/
structure ClusterInv (c : Cluster ω θ γ) : Prop where
  shards_length : c.shards.length = e.init.length
  workers_length : c.workers.length = e.workerNum
  shard : ∀ (j : ℕ) s, c.shards[j]? = some s →
    ShardOk e j s (waitingOn c.workers j s.psCompFuture)
  worker : ∀ (w : ℕ) wk, c.workers[w]? = some wk → WorkerOk e w wk
  thread : ∀ (w : ℕ) wk (j : ℕ) s, c.workers[w]? = some wk → c.shards[j]? = some s →
    ThreadOk e wk j s.psCompFuture

@[simp] theorem params_length (t : ℕ) : (e.params t).length = e.init.length := by
  simp [Setup.params]

theorem clusterInv_init (hW : 0 < e.workerNum) : ClusterInv e (Cluster.init e) where
  shards_length := by simp [Cluster.init]
  workers_length := by simp [Cluster.init]
  shard := by
    intro j s hs
    simp only [Cluster.init, List.getElem?_map, Option.map_eq_some'] at hs
    obtain ⟨st, hst, rfl⟩ := hs
    have hwait : waitingOn (Cluster.init e).workers j 0 = [] := by
      refine List.eq_nil_iff_forall_not_mem.mpr fun w hw => ?_
      obtain ⟨wk, hwk, h⟩ := mem_waitingOn.mp hw
      obtain rfl := List.eq_of_mem_replicate (List.getElem?_mem hwk)
      simp at h
    refine ⟨rfl, rfl, by simp [Setup.lockstep, hst, ParameterServer.init, Function.comp_def],
      fun _ => rfl, by simp [hwait, ParameterServer.init], hW, ?_⟩
    simp [hwait, ParameterServer.init, roundGrads_nil, Function.comp_def]
  worker := by
    intro w wk hwk
    obtain rfl := List.eq_of_mem_replicate (List.getElem?_mem hwk)
    exact ⟨by simp, fun _ => rfl, fun h => absurd rfl h⟩
  thread := by
    intro w wk j s hwk hs
    simp only [Cluster.init, List.getElem?_map, Option.map_eq_some'] at hs
    obtain ⟨st, -, rfl⟩ := hs
    obtain rfl := List.eq_of_mem_replicate (List.getElem?_mem hwk)
    exact ⟨fun _ => rfl, by simp, by simp, by simp⟩

theorem getElem?_set_of_getElem? {α : Type} {l : List α} {i : ℕ} {a : α} (h : l[i]? = some a)
    (b : α) (k : ℕ) : (l.set i b)[k]? = if k = i then some b else l[k]? := by
  have hi := (List.getElem?_eq_some_iff.mp h).1
  rw [List.getElem?_set]
  by_cases hk : k = i
  · subst hk; simp [hi]
  · simp [Ne.symm hk, hk]

variable {e}

/-- A step that changes only worker `w`, to `wk'`, keeps the invariant when `wk'` is a good
    worker, its threads are good against every shard, and it waits on each shard's open future
    exactly when `wk` did. -/
theorem ClusterInv.setWorker {c : Cluster ω θ γ} (h : ClusterInv e c) {w : ℕ}
    {wk wk' : WorkerState θ γ} (hw : c.workers[w]? = some wk) (hok : WorkerOk e w wk')
    (hthread : ∀ (j : ℕ) s, c.shards[j]? = some s → ThreadOk e wk' j s.psCompFuture)
    (hwait : ∀ (j : ℕ) s, c.shards[j]? = some s →
      (wk'.threads[j]? = some (.waiting s.psCompFuture) ↔
        wk.threads[j]? = some (.waiting s.psCompFuture))) :
    ClusterInv e { c with workers := c.workers.set w wk' } where
  shards_length := h.shards_length
  workers_length := by simpa using h.workers_length
  shard j s hs := by
    dsimp only at hs ⊢
    rw [waitingOn_set hw (hwait j s hs)]
    exact h.shard j s hs
  worker w' wk'' hw' := by
    dsimp only at hw'
    rw [getElem?_set_of_getElem? hw] at hw'
    split_ifs at hw' with hx
    · subst hx; cases hw'; exact hok
    · exact h.worker w' wk'' hw'
  thread w' wk'' j s hw' hs := by
    dsimp only at hw' hs
    rw [getElem?_set_of_getElem? hw] at hw'
    split_ifs at hw'
    · cases hw'; exact hthread j s hs
    · exact h.thread w' wk'' j s hw' hs

theorem ThreadOk.of_eq {wk wk' : WorkerState θ γ} {j R : ℕ} (h : ThreadOk e wk j R)
    (hcount : wk'.iterCount = wk.iterCount) (hnil : wk'.threads = [] ↔ wk.threads = [])
    (hthreads : wk'.threads[j]? = wk.threads[j]?) (hparam : wk'.paramLists[j]? = wk.paramLists[j]?) :
    ThreadOk e wk' j R :=
  ⟨fun h0 => hcount ▸ h.idle (hnil.mp h0), fun hp => hcount ▸ h.pending (hthreads ▸ hp),
    fun ft hft => hcount ▸ h.waiting ft (hthreads ▸ hft),
    fun hd => hcount ▸ hparam ▸ h.done (hthreads ▸ hd)⟩

/-- A call that leaves the round open: the caller joins the shard's open round. -/
theorem ShardOk.call_open {j : ℕ} {s : ParameterServer ω θ γ} {C C' : List ℕ} {w : ℕ}
    (h : ShardOk e j s C) (hperm : C'.Perm (C ++ [w]))
    (hopen : ¬(s.syncMode = 1 ∨ s.workerNum ≤ s.syncWorkerCount + 1)) :
    ShardOk e j (s.psComputing e.optStep (e.grad w s.psCompFuture j)).1 C' := by
  have hacc := accumulateGrads_roundGrads h.grads (e.grad w s.psCompFuture j)
  have hlt := h.count_lt
  rw [psComputing_eq, if_neg hopen]
  rw [h.workerNum] at hopen
  refine ⟨h.workerNum, h.syncMode, by simpa using h.state, h.results,
    by simp [h.count, hperm.length_eq], by dsimp only; omega, ?_⟩
  simpa [roundGrads_perm (hperm.map _)] using hacc

/-- The call that closes a round in which, with the caller, every worker has contributed: the
    shard steps on the lockstep sum and opens the next round, with nobody waiting on it. -/
theorem ShardOk.call_close {j : ℕ} {s : ParameterServer ω θ γ} {C : List ℕ} {w : ℕ}
    (h : ShardOk e j s C) (hall : (C ++ [w]).Perm (List.range e.workerNum))
    (hclose : s.syncMode = 1 ∨ s.workerNum ≤ s.syncWorkerCount + 1) :
    ShardOk e j (s.psComputing e.optStep (e.grad w s.psCompFuture j)).1 [] := by
  have hacc := accumulateGrads_roundGrads h.grads (e.grad w s.psCompFuture j)
  rw [← List.map_singleton (fun x => e.grad x s.psCompFuture j), ← List.map_append,
    roundGrads_perm (hall.map _)] at hacc
  have hin : accumulateGrads s.psParams (e.grad w s.psCompFuture j) =
      List.zipWith Param.mk (s.psParams.map Param.data) (roundGrads
        (s.psParams.map Param.data).length
        ((List.range e.workerNum).map fun x => e.grad x s.psCompFuture j)) := by
    rw [← zipWith_data_grad (accumulateGrads _ _), hacc]
    simp
  have hstate : (e.lockstep (s.psCompFuture + 1))[j]? =
      some (e.optStep s.optimizer (accumulateGrads s.psParams (e.grad w s.psCompFuture j))) := by
    rw [lockstep_succ_getElem?, h.state, hin]
    rfl
  have hlt := h.count_lt
  rw [psComputing_eq, if_pos hclose]
  refine ⟨h.workerNum, h.syncMode, by simpa [Function.comp_def] using hstate, fun f => ?_, rfl,
    by dsimp only; omega, by simp [roundGrads_nil, Function.comp_def]⟩
  simp only [Function.update_apply]
  by_cases hf : f = s.psCompFuture
  · simp [hf, Setup.params, hstate]
  · simp only [hf, if_false, h.results f]
    congr 1
    exact propext ⟨fun hl => by omega, fun hl => by omega⟩

theorem ClusterInv.iterate {c c' : Cluster ω θ γ} (h : ClusterInv e c) {w : ℕ}
    (hs : c.step e (.iterate w) = some c') : ClusterInv e c' := by
  obtain ⟨wk, hw, hidle, rfl⟩ := step_iterate hs
  have hok := h.worker w wk hw
  have hmodel := hok.idle hidle
  refine h.setWorker hw ⟨hok.paramLists_length, fun h0 => ?_, fun _ => ?_⟩ (fun j s hs => ?_)
    (fun j s hs => by simp [hidle, List.getElem?_replicate])
  · have hN : e.init.length = 0 := by simpa [h.shards_length] using h0
    simp only
    rw [hmodel, List.eq_nil_of_length_eq_zero (by simp [hN] : (e.params wk.iterCount).length = 0),
      List.eq_nil_of_length_eq_zero (by simp [hN] : (e.params (wk.iterCount + 1)).length = 0)]
  · exact ⟨wk.iterCount, rfl, hmodel, by simp [hmodel], by simp [h.shards_length]⟩
  · have hR := (h.thread w wk j s hw hs).idle hidle
    have hj : j < c.shards.length := (List.getElem?_eq_some_iff.mp hs).1
    refine ⟨fun h0 => ?_, fun _ => by simp [hR], fun ft hft => ?_, fun hd => ?_⟩
    · simp only [List.replicate_eq_nil_iff] at h0; omega
    · simp [List.getElem?_replicate, hj] at hft
    · simp [List.getElem?_replicate, hj] at hd

theorem ClusterInv.reply {c c' : Cluster ω θ γ} (h : ClusterInv e c) {w j : ℕ}
    (hs : c.step e (.reply w j) = some c') : ClusterInv e c' := by
  obtain ⟨wk, s, ft, v, hw, hsj, hft, hv, rfl⟩ := step_reply hs
  have hok := h.worker w wk hw
  have hth := h.thread w wk j s hw hsj
  have hres := (h.shard j s hsj).results ft
  rw [hv] at hres
  split_ifs at hres with hlt
  obtain ⟨hft1, hR⟩ := hth.waiting ft hft
  have hR' : s.psCompFuture = ft + 1 := hR.resolve_left (by omega)
  have hne : wk.threads ≠ [] := fun h0 => by simp [h0] at hft
  have hjt : j < wk.threads.length := (List.getElem?_eq_some_iff.mp hft).1
  have hjp : j < wk.paramLists.length := by
    rw [hok.paramLists_length, ← h.shards_length]; exact (List.getElem?_eq_some_iff.mp hsj).1
  refine h.setWorker hw ⟨by simp [hok.paramLists_length], fun h0 => absurd (by simpa using h0) hne,
    fun _ => by simpa using hok.running hne⟩ (fun j' s' hs' => ?_) (fun j' s' hs' => ?_)
  · by_cases hj : j' = j
    · subst hj
      cases hsj.symm.trans hs'
      refine ⟨fun h0 => absurd (by simpa using h0) hne, by simp [List.getElem?_set_self hjt],
        by simp [List.getElem?_set_self hjt], fun _ => ?_⟩
      simp only [List.getElem?_set_self hjp, hR', ← hres, and_true]
      exact hft1
    · have ht := h.thread w wk j' s' hw hs'
      refine ⟨fun h0 => absurd (by simpa using h0) hne, ?_, ?_, ?_⟩ <;>
        simp only [List.getElem?_set_ne (Ne.symm hj)]
      · exact ht.pending
      · exact ht.waiting
      · exact ht.done
  · by_cases hj : j' = j
    · subst hj
      cases hsj.symm.trans hs'
      simp [hft, List.getElem?_set_self hjt]
      omega
    · simp [List.getElem?_set_ne (Ne.symm hj)]

theorem ClusterInv.gather {c c' : Cluster ω θ γ} (h : ClusterInv e c) {w : ℕ}
    (hs : c.step e (.gather w) = some c') : ClusterInv e c' := by
  obtain ⟨wk, hw, hne, hdone, rfl⟩ := step_gather hs
  have hok := h.worker w wk hw
  obtain ⟨t, ht, -, -, hlen⟩ := hok.running hne
  have hdone' : ∀ (j : ℕ) s, c.shards[j]? = some s →
      s.psCompFuture = wk.iterCount ∧ wk.paramLists[j]? = (e.params s.psCompFuture)[j]? := by
    intro j s hs
    have hj : j < wk.threads.length := by
      rw [hlen, ← h.shards_length]; exact (List.getElem?_eq_some_iff.mp hs).1
    exact (h.thread w wk j s hw hs).done (by
      rw [List.getElem?_eq_getElem hj, hdone _ (List.getElem_mem hj)])
  refine h.setWorker hw ⟨hok.paramLists_length, fun _ => ?_, fun h0 => absurd rfl h0⟩
    (fun j s hs => ⟨fun _ => (hdone' j s hs).1, by simp, by simp, by simp⟩)
    (fun j s hs => by
      simp only [List.getElem?_nil, reduceCtorEq, false_iff]
      intro hx; cases hdone _ (List.getElem?_mem hx))
  refine List.ext_getElem? fun j => ?_
  by_cases hj : j < e.init.length
  · have hj' : j < c.shards.length := by rw [h.shards_length]; exact hj
    obtain ⟨hR, hp⟩ := hdone' j _ (List.getElem?_eq_getElem hj')
    rw [hp, hR]
  · rw [List.getElem?_eq_none (by rw [hok.paramLists_length]; omega),
      List.getElem?_eq_none (by simp; omega)]

/-- A round closes only when, with the caller, every worker has joined it: then every other
    worker waits on the shard's open future. -/
theorem ClusterInv.joined {c : Cluster ω θ γ} (h : ClusterInv e c) {w j : ℕ}
    {s : ParameterServer ω θ γ} (hwlt : w < e.workerNum) (hsj : c.shards[j]? = some s)
    (hnd : (waitingOn c.workers j s.psCompFuture ++ [w]).Nodup)
    (hclose : s.syncMode = 1 ∨ s.workerNum ≤ s.syncWorkerCount + 1) :
    (waitingOn c.workers j s.psCompFuture ++ [w]).Perm (List.range e.workerNum) ∧
    ∀ w' wk₀, w' ≠ w → c.workers[w']? = some wk₀ →
      wk₀.threads[j]? = some (.waiting s.psCompFuture) := by
  have hsh := h.shard j s hsj
  have hlen : (waitingOn c.workers j s.psCompFuture ++ [w]).length = e.workerNum := by
    have := hsh.count; have := hsh.workerNum; have := hsh.syncMode; have := hsh.count_lt
    simp only [List.length_append, List.length_singleton]
    rcases hclose with h1 | h1 <;> omega
  have hall : (waitingOn c.workers j s.psCompFuture ++ [w]).Perm (List.range e.workerNum) := by
    refine (List.subperm_of_subset hnd fun x hx => ?_).perm_of_length_le (by simp [hlen])
    rcases List.mem_append.mp hx with hx | hx
    · obtain ⟨_, hx, -⟩ := mem_waitingOn.mp hx
      exact List.mem_range.mpr (h.workers_length ▸ (List.getElem?_eq_some_iff.mp hx).1)
    · exact List.mem_range.mpr (List.mem_singleton.mp hx ▸ hwlt)
  refine ⟨hall, fun w' wk₀ hx hw' => ?_⟩
  have hin := hall.symm.subset (List.mem_range.mpr
    (h.workers_length ▸ (List.getElem?_eq_some_iff.mp hw').1))
  rcases List.mem_append.mp hin with hin | hin
  · obtain ⟨wk₁, hw₁, h₁⟩ := mem_waitingOn.mp hin
    rw [hw'] at hw₁; cases hw₁; exact h₁
  · exact absurd (List.mem_singleton.mp hin) hx

/-- The call of a worker's thread keeps the invariant. When the shard's counter shows
    `worker_num - 1` workers waiting on the open future, those and the caller are all the
    workers, so the round closes on the lockstep sum. -/
theorem ClusterInv.call {c c' : Cluster ω θ γ} (h : ClusterInv e c) {w j : ℕ}
    (hs : c.step e (.call w j) = some c') : ClusterInv e c' := by
  obtain ⟨wk, s, hw, hsj, hpend, rfl⟩ := step_call hs
  have hok := h.worker w wk hw
  have hsh := h.shard j s hsj
  have hth := h.thread w wk j s hw hsj
  have hne : wk.threads ≠ [] := fun h0 => by simp [h0] at hpend
  obtain ⟨t, ht, -, hgrad, -⟩ := hok.running hne
  have hg : wk.gradLists.getD j [] = e.grad w s.psCompFuture j := by
    have := hth.pending hpend
    rw [hgrad, show t = s.psCompFuture by omega]; rfl
  have hjt : j < wk.threads.length := (List.getElem?_eq_some_iff.mp hpend).1
  set wk' : WorkerState θ γ := { wk with threads := wk.threads.set j (.waiting s.psCompFuture) }
  have hw'j : wk'.threads[j]? = some (.waiting s.psCompFuture) := by
    simp [wk', List.getElem?_set_self hjt]
  have hw'ne : ∀ j', j' ≠ j → wk'.threads[j']? = wk.threads[j']? := fun j' hj' =>
    List.getElem?_set_ne (Ne.symm hj')
  have hnil : wk'.threads = [] ↔ wk.threads = [] := by simp [wk']
  have hperm := waitingOn_set_perm hw (by rw [hpend]; simp) hw'j
  have hwlt : w < e.workerNum := h.workers_length ▸ (List.getElem?_eq_some_iff.mp hw).1
  -- the caller's thread now waits on the shard's open future
  have hcaller : ∀ R, R = s.psCompFuture ∨ R = s.psCompFuture + 1 → ThreadOk e wk' j R :=
    fun R hR => ⟨fun h0 => absurd (hnil.mp h0) hne, by simp [hw'j], fun ft hft => by
      rw [hw'j] at hft; cases hft; exact ⟨hth.pending hpend, hR⟩, by simp [hw'j]⟩
  have hjoined := fun hclose =>
    h.joined hwlt hsj (hperm.nodup_iff.mp (nodup_waitingOn _ _ _)) hclose
  refine ⟨by simpa using h.shards_length, by simpa using h.workers_length, ?_, ?_, ?_⟩
  · intro j' s' hs'
    dsimp only at hs' ⊢
    rw [getElem?_set_of_getElem? hsj] at hs'
    split_ifs at hs' with hj
    · subst j'; cases hs'
      rw [hg, psComputing_psCompFuture]
      split_ifs with hclose
      · have hnone : waitingOn (c.workers.set w wk') j (s.psCompFuture + 1) = [] := by
          refine List.eq_nil_iff_forall_not_mem.mpr fun x hx => ?_
          obtain ⟨wk₀, hw₀, h₀⟩ := mem_waitingOn.mp hx
          rw [getElem?_set_of_getElem? hw] at hw₀
          split_ifs at hw₀ with hxw
          · cases hw₀; rw [hw'j] at h₀; simp at h₀
          · rw [(hjoined hclose).2 x wk₀ hxw hw₀] at h₀; simp at h₀
        rw [hnone]
        exact hsh.call_close (hjoined hclose).1 hclose
      · exact hsh.call_open hperm hclose
    · rw [waitingOn_set hw (by rw [hw'ne j' hj])]
      exact h.shard j' s' hs'
  · intro w' wk'' hw'
    dsimp only at hw'
    rw [getElem?_set_of_getElem? hw] at hw'
    split_ifs at hw' with hx
    · subst w'; obtain rfl := Option.some.inj hw'
      exact ⟨hok.paramLists_length, fun h0 => absurd (hnil.mp h0) hne,
        fun _ => by simpa [wk'] using hok.running hne⟩
    · exact h.worker w' wk'' hw'
  · intro w' wk'' j' s' hw' hs'
    dsimp only at hw' hs'
    rw [getElem?_set_of_getElem? hw] at hw'
    rw [getElem?_set_of_getElem? hsj] at hs'
    split_ifs at hw' hs' with hx hj hj
    · subst w' j'; obtain rfl := Option.some.inj hw'; cases hs'
      rw [hg, psComputing_psCompFuture]
      exact hcaller _ (by split_ifs <;> simp)
    · subst w'; obtain rfl := Option.some.inj hw'
      exact (h.thread w wk j' s' hw hs').of_eq rfl hnil (hw'ne j' hj) rfl
    · subst j'; cases hs'
      rw [hg, psComputing_psCompFuture]
      split_ifs with hclose
      · have hwait := (hjoined hclose).2 w' wk'' hx hw'
        have hold := (h.thread w' wk'' j s hw' hsj).waiting _ hwait
        exact ⟨fun h0 => by simp [h0] at hwait, by simp [hwait], fun ft hft => by
          rw [hwait] at hft; cases hft; exact ⟨hold.1, Or.inr rfl⟩, by simp [hwait]⟩
      · exact h.thread w' wk'' j s hw' hsj
    · exact h.thread w' wk'' j' s' hw' hs'

theorem ClusterInv.step {c c' : Cluster ω θ γ} (h : ClusterInv e c) {a : Actor}
    (hs : c.step e a = some c') : ClusterInv e c' := by
  cases a with
  | iterate w => exact h.iterate hs
  | call w j => exact h.call hs
  | reply w j => exact h.reply hs
  | gather w => exact h.gather hs

theorem reachable_clusterInv (hW : 0 < e.workerNum) {c : Cluster ω θ γ} (hc : Reachable e c) :
    ClusterInv e c := by
  induction hc with
  | init => exact clusterInv_init e hW
  | step _ _ hs ih => exact ih.step hs

/-- Synchronous parameter-server lockstep. In every state the job can reach, whatever the
    interleaving of the workers', threads' and shards' actions: a shard that has made `R`
    optimizer steps is in the lockstep state after `R` steps, and its `f`-th step completed its
    future with the lockstep values after `f + 1` steps, so each of its steps was taken on the
    sum of one gradient from each worker, that worker's gradient at that step. A worker in
    iteration `t` computed its gradients from its model, which is the lockstep parameters after
    `t` steps (the values the shards' replies carried), and its threads wait, if at all, on the
    shards' futures `t`; a worker between iterations holds the lockstep parameters after the
    iterations it ran. So all workers start every step with the same parameters. -/
theorem sync_ps_lockstep (e : Setup ω θ γ) (hW : 0 < e.workerNum) {c : Cluster ω θ γ}
    (hc : Reachable e c) :
    (∀ (j : ℕ) (s : ParameterServer ω θ γ), c.shards[j]? = some s →
      (e.lockstep s.psCompFuture)[j]? = some (s.optimizer, s.psParams.map Param.data) ∧
      ∀ f < s.psCompFuture, s.futureResults f = (e.params (f + 1))[j]?) ∧
    (∀ (w : ℕ) wk, c.workers[w]? = some wk → wk.threads ≠ [] →
      ∃ t, wk.iterCount = t + 1 ∧ wk.model = e.params t ∧
        wk.gradLists = e.compute w t (e.params t) ∧
        ∀ (j ft : ℕ), wk.threads[j]? = some (.waiting ft) → ft = t) ∧
    (∀ (w : ℕ) wk, c.workers[w]? = some wk → wk.threads = [] →
      wk.model = e.params wk.iterCount) := by
  have h := reachable_clusterInv hW hc
  refine ⟨fun j s hs => ⟨(h.shard j s hs).state, fun f hf => ?_⟩, fun w wk hw hne => ?_,
    fun w wk hw => (h.worker w wk hw).idle⟩
  · rw [(h.shard j s hs).results f, if_pos hf]
  · obtain ⟨t, ht, hmodel, hgrad, hlen⟩ := (h.worker w wk hw).running hne
    refine ⟨t, ht, hmodel, hgrad, fun j ft hft => ?_⟩
    have hj : j < c.shards.length := by
      rw [h.shards_length, ← hlen]; exact (List.getElem?_eq_some_iff.mp hft).1
    have := ((h.thread w wk j _ hw (List.getElem?_eq_getElem hj)).waiting ft hft).1
    omega

/-- Two workers, two shards, SGD with step `1`, and each worker's gradient `w + 1` everywhere:
    after both workers complete their first iteration, worker `0` starts its second and calls
    both shards, so each shard has made one step and holds the second round's first gradient,
    worker `0` waits on both shards' futures `1`, and worker `1` holds the parameters after one
    step. -/
theorem sync_ps_lockstep_mid_round :
    let e : Setup Unit ℕ ℕ := ⟨fun o ps => (o, ps.map fun p => p.data + p.grad.getD 0),
      fun w _ m => m.map (·.map fun _ => w + 1), 2, [((), [10, 20]), ((), [30])]⟩
    let c := ([.iterate 0, .iterate 1, .call 0 0, .call 0 1, .call 1 0, .call 1 1, .reply 0 0,
      .reply 0 1, .reply 1 0, .reply 1 1, .gather 0, .gather 1, .iterate 0, .call 0 0,
      .call 0 1].foldlM (Cluster.step e) (Cluster.init e)).getD (Cluster.init e)
    0 < e.workerNum ∧ Reachable e c ∧
    (∀ (j : ℕ) (s : ParameterServer Unit ℕ ℕ), c.shards[j]? = some s →
      (e.lockstep s.psCompFuture)[j]? = some (s.optimizer, s.psParams.map Param.data) ∧
      ∀ f < s.psCompFuture, s.futureResults f = (e.params (f + 1))[j]?) ∧
    (∀ (w : ℕ) wk, c.workers[w]? = some wk → wk.threads ≠ [] →
      ∃ t, wk.iterCount = t + 1 ∧ wk.model = e.params t ∧
        wk.gradLists = e.compute w t (e.params t) ∧
        ∀ (j ft : ℕ), wk.threads[j]? = some (.waiting ft) → ft = t) ∧
    (∀ (w : ℕ) wk, c.workers[w]? = some wk → wk.threads = [] →
      wk.model = e.params wk.iterCount) :=
  ⟨by decide, Reachable.init.foldlM _ rfl, sync_ps_lockstep _ (by decide) (Reachable.init.foldlM _ rfl)⟩

end Invariant

end Strn
