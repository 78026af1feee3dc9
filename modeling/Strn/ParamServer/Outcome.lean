import Strn.ParamServer.Progress
import Strn.ParamServer.Bounds
import Mathlib.Algebra.Order.BigOperators.Group.List
import Mathlib.Algebra.Order.Ring.Nat

/-
  How the workers' loops end in the parameter-server job (`sync_ps_no_deadlock`,
  `sync_ps_run_outcome`).

  `run_worker` loops over its epochs and its loader, so worker `w` runs `iters w` iterations.
  After each one it asks the tester for its stop flag; here `get_stop_flag` answers `False`, as
  `Tester.get_stop_flag` does once built (`stop_flag` is set to `False` in `__init__` and
  nothing sets it again). That is an assumption about the tester, not about the workers: in the
  shipped `main` the tester is never built (`rpc.remote` passes 15 arguments to the 12 of
  `Tester.__init__`), so there the first `get_stop_flag` raises. What is proved here is about
  the workers' `run_worker` calls, the threads and the shards; nothing is said about
  `wait_all`. A worker out of its loop takes no further part: `run_worker` returns, or, when
  its loader is empty, raises `UnboundLocalError` at `if stop_flag` (`stopFlagBound`, in
  `Launch/Finish`). `Cluster.boundedStep` is `Cluster.step` with the loop bound on starting an
  iteration: every run of the bounded job is a run of the job, so `ClusterInv` holds in its
  states.

  `workerRank` counts how far a worker has come: the start of an iteration, one position for
  each call and each reply of its threads, and the join. Every action raises one worker's rank
  and no other's, and the rank of worker `w` never passes `iters w · (2S + 2)`, so what is left,
  summed over the workers, falls at every step: no run is infinite, whatever the interleaving.

  Where a worker is still in its loop, some process can act unless a worker with a shorter loop
  has left it: from a worker inside an iteration some process can act, and if that action
  starts an iteration it is one of a worker behind (`ClusterInv.exists_step_behind`), which
  has iterations left unless its loop was shorter. So with equal loaders a run ends with every
  worker out of its loop, holding, and every shard in, the lockstep state after `n` steps. With
  unequal loaders a shard never makes more steps than the shortest loader has iterations, so a
  worker with a longer one never takes the replies of its last iteration: every run ends in a
  deadlock.
-/

namespace Strn

variable {ω θ γ : Type}

/-! ## The job with finite loaders -/

section Bounded
variable [Add γ] (e : Setup ω θ γ) (iters : ℕ → ℕ)

/-- An action of the job where worker `w`'s loop runs `iters w` iterations and `get_stop_flag`
    answers `False`: a worker that has run them all has left its loop and does not start
    another. -/
def Cluster.boundedStep (c : Cluster ω θ γ) : Actor → Option (Cluster ω θ γ)
  | .iterate w =>
    match c.workers[w]? with
    | some wk => if wk.iterCount < iters w then c.step e (.iterate w) else none
    | none => none
  | .call w j => c.step e (.call w j)
  | .reply w j => c.step e (.reply w j)
  | .gather w => c.step e (.gather w)

/-- The states the bounded job can reach, in any interleaving. -/
inductive BoundedReachable : Cluster ω θ γ → Prop
  | init : BoundedReachable (Cluster.init e)
  | step {c c' : Cluster ω θ γ} (a : Actor) : BoundedReachable c →
      c.boundedStep e iters a = some c' → BoundedReachable c'

variable {e iters}

/-- A schedule of actions taken one after another from a reachable state, as long as each can
    be taken, ends in a reachable state. -/
theorem BoundedReachable.foldlM {c : Cluster ω θ γ} (hc : BoundedReachable e iters c)
    (as : List Actor) (h : (as.foldlM (Cluster.boundedStep e iters) c).isSome) :
    BoundedReachable e iters ((as.foldlM (Cluster.boundedStep e iters) c).getD c) :=
  foldlM_getD_of_step BoundedReachable.step hc as h

theorem boundedStep_step {c c' : Cluster ω θ γ} {a : Actor} (h : c.boundedStep e iters a = some c') :
    c.step e a = some c' := by
  cases a with
  | iterate w =>
    simp only [Cluster.boundedStep] at h
    split at h
    · split_ifs at h
      exact h
    · cases h
  | call | reply | gather => exact h

/-- The bounded job refines the job. -/
theorem BoundedReachable.reachable {c : Cluster ω θ γ} (h : BoundedReachable e iters c) :
    Reachable e c := by
  induction h with
  | init => exact .init
  | step a _ hs ih => exact .step a ih (boundedStep_step hs)

/-- An action of the job is one of the bounded job unless it starts an iteration past the
    worker's loader. -/
theorem boundedStep_isSome {c : Cluster ω θ γ} {a : Actor} (h : (c.step e a).isSome)
    (hiter : ∀ v, a = .iterate v → ∃ wv, c.workers[v]? = some wv ∧ wv.iterCount < iters v) :
    (c.boundedStep e iters a).isSome := by
  cases a with
  | iterate v =>
    obtain ⟨wv, hwv, hlt⟩ := hiter v rfl
    simpa [Cluster.boundedStep, hwv, hlt] using h
  | call | reply | gather => exact h

end Bounded

/-! ## A position count that every action raises -/

section Rank
variable {θ γ : Type}

/-- A thread's position: before its call, waiting on its reply, done. -/
def threadRank : Call → ℕ
  | .pending => 0
  | .waiting _ => 1
  | .done => 2

/-- How far worker `wk` has come, with `S` shards: `2S + 2` positions per iteration. -/
def workerRank (S : ℕ) (wk : WorkerState θ γ) : ℕ :=
  if wk.threads = [] then wk.iterCount * (2 * S + 2)
  else (wk.iterCount - 1) * (2 * S + 2) + 1 + (wk.threads.map threadRank).sum

theorem sum_threadRank_set {y : Call} :
    ∀ {l : List Call} {j : ℕ} {x : Call}, l[j]? = some x →
      ((l.set j y).map threadRank).sum + threadRank x = (l.map threadRank).sum + threadRank y
  | x' :: _, 0, x, h => by
    obtain rfl : x' = x := by simpa using h
    simp only [List.set_cons_zero, List.map_cons, List.sum_cons]
    omega
  | _ :: l, j + 1, _, h => by
    have := sum_threadRank_set (y := y) (l := l) (j := j) (by simpa using h)
    simp only [List.set_cons_succ, List.map_cons, List.sum_cons]
    omega

theorem sum_threadRank_le : ∀ l : List Call, (l.map threadRank).sum ≤ 2 * l.length
  | [] => le_rfl
  | x :: l => by
    have := sum_threadRank_le l
    cases x <;> simp only [threadRank, List.map_cons, List.sum_cons, List.length_cons] <;> omega

theorem sum_threadRank_done : ∀ {l : List Call}, (∀ t ∈ l, t = .done) →
    (l.map threadRank).sum = 2 * l.length
  | [], _ => rfl
  | x :: l, h => by
    have := sum_threadRank_done fun t ht => h t (List.mem_cons_of_mem _ ht)
    rw [h x (List.mem_cons_self _ _)]
    simp only [threadRank, List.map_cons, List.sum_cons, List.length_cons]
    omega

variable {S : ℕ}

theorem workerRank_iterate {wk : WorkerState θ γ} (hidle : wk.threads = []) (g : List (List γ)) :
    workerRank S wk < workerRank S
      { wk with iterCount := wk.iterCount + 1, gradLists := g, threads := List.replicate S .pending } := by
  rw [workerRank, if_pos hidle]
  rcases Nat.eq_zero_or_pos S with rfl | hS
  · simp [workerRank, Nat.succ_mul]
  · rw [workerRank, if_neg (by simpa using hS.ne')]
    simp [threadRank]

/-- A thread moving on raises its worker's rank. -/
theorem workerRank_set {wk wk' : WorkerState θ γ} {j : ℕ} {x y : Call}
    (hx : wk.threads[j]? = some x) (hit : wk'.iterCount = wk.iterCount)
    (hth : wk'.threads = wk.threads.set j y) (hxy : threadRank x < threadRank y) :
    workerRank S wk < workerRank S wk' := by
  have hne : wk.threads ≠ [] := by rintro h; simp [h] at hx
  have hne' : wk'.threads ≠ [] := by rw [hth]; simpa using hne
  have hsum := sum_threadRank_set (y := y) hx
  rw [← hth] at hsum
  rw [workerRank, workerRank, if_neg hne, if_neg hne', hit]
  omega

theorem workerRank_gather {wk : WorkerState θ γ} (hne : wk.threads ≠ [])
    (hdone : ∀ t ∈ wk.threads, t = .done) (hlen : wk.threads.length = S)
    (hit : 1 ≤ wk.iterCount) (m : List (List θ)) :
    workerRank S wk < workerRank S { wk with model := m, threads := [] } := by
  obtain ⟨t, ht⟩ : ∃ t, wk.iterCount = t + 1 := ⟨wk.iterCount - 1, by omega⟩
  rw [workerRank, workerRank, if_neg hne, if_pos rfl, sum_threadRank_done hdone, hlen]
  simp only [ht, Nat.add_sub_cancel, Nat.succ_mul]
  omega

end Rank

/-! ## Every action raises one worker's rank -/

section Steps
variable [AddCommMonoid γ] {e : Setup ω θ γ} {iters : ℕ → ℕ} {c c' : Cluster ω θ γ}

/-- Every action changes one worker, raising its rank, and starts an iteration only when it is
    that worker's `iterate`. -/
theorem ClusterInv.step_shape (h : ClusterInv e c) {a : Actor} (hs : c.step e a = some c') :
    ∃ w wk wk', c.workers[w]? = some wk ∧ c'.workers = c.workers.set w wk' ∧
      workerRank e.init.length wk < workerRank e.init.length wk' ∧
      (wk'.iterCount = wk.iterCount ∨ a = .iterate w ∧ wk'.iterCount = wk.iterCount + 1) := by
  cases a with
  | iterate w =>
    obtain ⟨wk, hw, hidle, rfl⟩ := step_iterate hs
    refine ⟨w, wk, _, hw, rfl, ?_, .inr ⟨rfl, rfl⟩⟩
    rw [h.shards_length]
    exact workerRank_iterate hidle _
  | call w j =>
    obtain ⟨wk, s, hw, -, hp, rfl⟩ := step_call hs
    exact ⟨w, wk, _, hw, rfl, workerRank_set hp rfl rfl (by simp [threadRank]), .inl rfl⟩
  | reply w j =>
    obtain ⟨wk, s, ft, v, hw, -, hft, -, rfl⟩ := step_reply hs
    exact ⟨w, wk, _, hw, rfl, workerRank_set hft rfl rfl (by simp [threadRank]), .inl rfl⟩
  | gather w =>
    obtain ⟨wk, hw, hne, hdone, rfl⟩ := step_gather hs
    obtain ⟨t, ht, -, -, hlen⟩ := (h.worker w wk hw).running hne
    exact ⟨w, wk, _, hw, rfl, workerRank_gather hne hdone hlen (by omega) _, .inl rfl⟩

variable (e iters)

/-- The bounded job's invariant: the job's, and no worker past its loader. -/
structure BoundedInv (c : Cluster ω θ γ) : Prop where
  inv : ClusterInv e c
  iters_le : ∀ (w : ℕ) wk, c.workers[w]? = some wk → wk.iterCount ≤ iters w

variable {e iters}

theorem BoundedInv.step (h : BoundedInv e iters c) {a : Actor}
    (hs : c.boundedStep e iters a = some c') : BoundedInv e iters c' := by
  have hs' := boundedStep_step hs
  refine ⟨h.inv.step hs', fun v x hx => ?_⟩
  obtain ⟨w, wk, wk', hw, hws, -, hit⟩ := h.inv.step_shape hs'
  rw [hws, getElem?_set_of_getElem? hw] at hx
  split_ifs at hx with hv
  · cases hx
    subst hv
    have hle := h.iters_le _ wk hw
    rcases hit with hit | ⟨rfl, hit⟩
    · omega
    · simp only [Cluster.boundedStep, hw] at hs
      split_ifs at hs with hlt
      omega
  · exact h.iters_le v x hx

theorem boundedReachable_boundedInv (hW : 0 < e.workerNum) (hc : BoundedReachable e iters c) :
    BoundedInv e iters c := by
  induction hc with
  | init =>
    refine ⟨clusterInv_init e hW, fun w wk hw => ?_⟩
    obtain rfl := List.eq_of_mem_replicate (List.getElem?_mem hw)
    exact Nat.zero_le _
  | step _ _ hs ih => exact ih.step hs

/-- A worker's rank stays below what its loader allows. -/
theorem BoundedInv.workerRank_le (h : BoundedInv e iters c) {w : ℕ} {wk : WorkerState θ γ}
    (hw : c.workers[w]? = some wk) :
    workerRank e.init.length wk ≤ iters w * (2 * e.init.length + 2) := by
  have hle := h.iters_le w wk hw
  by_cases hidle : wk.threads = []
  · rw [workerRank, if_pos hidle]
    exact Nat.mul_le_mul_right _ hle
  · obtain ⟨t, ht, -, -, hlen⟩ := (h.inv.worker w wk hw).running hidle
    have hsum := sum_threadRank_le wk.threads
    have hmul : (t + 1) * (2 * e.init.length + 2) ≤ iters w * (2 * e.init.length + 2) :=
      Nat.mul_le_mul_right _ (ht ▸ hle)
    rw [hlen] at hsum
    rw [Nat.succ_mul] at hmul
    rw [workerRank, if_neg hidle, ht, Nat.add_sub_cancel]
    omega

variable (e iters)

/-- What is left of every worker's loop. -/
def Setup.remaining (c : Cluster ω θ γ) : ℕ :=
  ((List.range e.workerNum).map fun v => iters v * (2 * e.init.length + 2) -
    ((c.workers[v]?).map (workerRank e.init.length)).getD 0).sum

variable {e iters}

theorem BoundedInv.remaining_lt (h : BoundedInv e iters c) {a : Actor}
    (hs : c.boundedStep e iters a = some c') : e.remaining iters c' < e.remaining iters c := by
  obtain ⟨w, wk, wk', hw, hws, hlt, -⟩ := h.inv.step_shape (boundedStep_step hs)
  have hw' : c'.workers[w]? = some wk' := by
    rw [hws, getElem?_set_of_getElem? hw, if_pos rfl]
  have hle := (h.step hs).workerRank_le hw'
  have hwW : w < e.workerNum := h.inv.workers_length ▸ (List.getElem?_eq_some_iff.mp hw).1
  refine List.sum_lt_sum _ _ (fun v _ => ?_) ⟨w, List.mem_range.mpr hwW, ?_⟩
  · rw [hws, getElem?_set_of_getElem? hw]
    split_ifs with hv
    · subst hv
      simp only [hw, Option.map_some', Option.getD_some]
      omega
    · exact le_rfl
  · simp only [hw, hw', Option.map_some', Option.getD_some]
    omega

/-- No run is infinite: from every reachable state, every sequence of actions stops. -/
theorem boundedReachable_acc (hW : 0 < e.workerNum) (hc : BoundedReachable e iters c) :
    Acc (fun c' c => ∃ a, c.boundedStep e iters a = some c') c := by
  obtain ⟨n, hn⟩ : ∃ n, e.remaining iters c = n := ⟨_, rfl⟩
  induction n using Nat.strong_induction_on generalizing c with
  | _ n ih =>
    exact Acc.intro c fun c' ⟨a, ha⟩ =>
      ih _ (hn ▸ (boundedReachable_boundedInv hW hc).remaining_lt ha) (hc.step a ha) rfl

end Steps

/-! ## How a run ends -/

section End
variable [AddCommMonoid γ] {e : Setup ω θ γ} {iters : ℕ → ℕ} {c : Cluster ω θ γ}

/-- Where a worker is still in its loop, some process can act, unless some worker has left its
    loop after a shorter loader than that worker's. -/
theorem BoundedInv.progress (h : BoundedInv e iters c) {w : ℕ} {wk : WorkerState θ γ}
    (hw : c.workers[w]? = some wk) (hin : ¬ (wk.threads = [] ∧ wk.iterCount = iters w)) :
    (∃ a, (c.boundedStep e iters a).isSome) ∨
      ∃ v wv, c.workers[v]? = some wv ∧ wv.threads = [] ∧ wv.iterCount = iters v ∧
        iters v < iters w := by
  have hle := h.iters_le w wk hw
  by_cases hidle : wk.threads = []
  · refine .inl ⟨_, boundedStep_isSome (step_iterate_isSome hw hidle) fun v hv => ?_⟩
    cases hv
    exact ⟨wk, hw, lt_of_le_of_ne hle fun heq => hin ⟨hidle, heq⟩⟩
  · obtain ⟨a, ha, hbehind⟩ := h.inv.exists_step_behind hw hidle
    by_cases hiter : ∀ v, a = .iterate v → ∃ wv, c.workers[v]? = some wv ∧ wv.iterCount < iters v
    · exact .inl ⟨a, boundedStep_isSome ha hiter⟩
    -- the action starts an iteration of a worker behind, which has run its whole loop
    push_neg at hiter
    obtain ⟨v, rfl, hv⟩ := hiter
    obtain ⟨wv, hwv, hlt⟩ := hbehind v rfl
    obtain ⟨c', hc'⟩ := Option.isSome_iff_exists.mp ha
    obtain ⟨wv', hwv', hidle', -⟩ := step_iterate hc'
    obtain rfl : wv = wv' := Option.some.inj (hwv.symm.trans hwv')
    have := hv wv hwv
    have := h.iters_le v wv hwv
    exact .inr ⟨v, wv, hwv, hidle', by omega, by omega⟩

/-- With equal loaders, where nothing can act every worker has run its whole loop. -/
theorem BoundedInv.finished_of_stuck (h : BoundedInv e iters c) {n : ℕ}
    (hiters : ∀ w < e.workerNum, iters w = n) (hstuck : ∀ a, c.boundedStep e iters a = none)
    {w : ℕ} {wk : WorkerState θ γ} (hw : c.workers[w]? = some wk) :
    wk.threads = [] ∧ wk.iterCount = n := by
  have hlen : ∀ {v wv}, c.workers[v]? = some wv → v < e.workerNum := fun hv =>
    h.inv.workers_length ▸ (List.getElem?_eq_some_iff.mp hv).1
  rw [← hiters w (hlen hw)]
  by_contra hin
  rcases h.progress hw hin with ⟨a, ha⟩ | ⟨v, wv, hwv, -, -, hlt⟩
  · simp [hstuck] at ha
  · rw [hiters v (hlen hwv), hiters w (hlen hw)] at hlt
    exact lt_irrefl _ hlt

/-- A shard never makes more steps than a worker's loader has iterations, so a worker with a
    longer loader never finishes. -/
theorem BoundedInv.not_finished (h : BoundedInv e iters c) (hN : 0 < e.init.length) {u v : ℕ}
    (hu : u < e.workerNum) (hlt : iters u < iters v) {wk : WorkerState θ γ}
    (hv : c.workers[v]? = some wk) : ¬ (wk.threads = [] ∧ wk.iterCount = iters v) := by
  rintro ⟨hidle, hcount⟩
  obtain ⟨s, hs⟩ := h.inv.shard_of_lt hN
  obtain ⟨wu, hwu⟩ : ∃ wu, c.workers[u]? = some wu :=
    ⟨_, List.getElem?_eq_getElem (h.inv.workers_length ▸ hu)⟩
  have hR := (h.inv.thread v wk 0 s hv hs).idle hidle
  have hRu := (h.inv.round_mem hwu hs).1
  have := h.iters_le u wu hwu
  omega

end End

section Main
variable [AddCommMonoid γ]

/-- No deadlock while the loaders agree. In every state the parameter-server job in sync mode
    can reach, with worker `w`'s loop running `iters w` iterations, whatever the interleaving:
    where a worker is still in its loop, some worker, thread or shard can act, unless some
    worker has left its loop after fewer iterations than that worker's loop runs; so with equal
    loaders some process can act as long as any worker is still in its loop. -/
theorem sync_ps_no_deadlock (e : Setup ω θ γ) (hW : 0 < e.workerNum) (iters : ℕ → ℕ)
    {c : Cluster ω θ γ} (hc : BoundedReachable e iters c) :
    (∀ (w : ℕ) wk, c.workers[w]? = some wk → ¬ (wk.threads = [] ∧ wk.iterCount = iters w) →
      (∃ a, (c.boundedStep e iters a).isSome) ∨
        ∃ v wv, c.workers[v]? = some wv ∧ wv.threads = [] ∧ wv.iterCount = iters v ∧
          iters v < iters w) ∧
    (∀ n, (∀ v < e.workerNum, iters v = n) → ∀ (w : ℕ) wk, c.workers[w]? = some wk →
      ¬ (wk.threads = [] ∧ wk.iterCount = n) → ∃ a, (c.boundedStep e iters a).isSome) := by
  have h := boundedReachable_boundedInv hW hc
  refine ⟨fun w wk hw hin => h.progress hw hin, fun n hiters w wk hw hin => ?_⟩
  by_contra hno
  push_neg at hno
  exact hin (h.finished_of_stuck hiters (fun a => Option.not_isSome_iff_eq_none.mp (hno a)) hw)

/-- Two workers with loaders of two iterations, two shards, SGD with step `1`, and each
    worker's gradient `w + 1` everywhere: after the first round, worker `0` starts its second
    iteration and calls both shards, and worker `1` is between its iterations. -/
theorem sync_ps_no_deadlock_mid_round :
    let e : Setup Unit ℕ ℕ := ⟨fun o ps => (o, ps.map fun p => p.data + p.grad.getD 0),
      fun w _ m => m.map (·.map fun _ => w + 1), 2, [((), [10, 20]), ((), [30])]⟩
    let iters : ℕ → ℕ := fun _ => 2
    let c := ([.iterate 0, .iterate 1, .call 0 0, .call 0 1, .call 1 0, .call 1 1, .reply 0 0,
      .reply 0 1, .reply 1 0, .reply 1 1, .gather 0, .gather 1, .iterate 0, .call 0 0,
      .call 0 1].foldlM (Cluster.boundedStep e iters) (Cluster.init e)).getD (Cluster.init e)
    0 < e.workerNum ∧ BoundedReachable e iters c ∧
    (∀ (w : ℕ) wk, c.workers[w]? = some wk → ¬ (wk.threads = [] ∧ wk.iterCount = iters w) →
      (∃ a, (c.boundedStep e iters a).isSome) ∨
        ∃ v wv, c.workers[v]? = some wv ∧ wv.threads = [] ∧ wv.iterCount = iters v ∧
          iters v < iters w) ∧
    (∀ n, (∀ v < e.workerNum, iters v = n) → ∀ (w : ℕ) wk, c.workers[w]? = some wk →
      ¬ (wk.threads = [] ∧ wk.iterCount = n) → ∃ a, (c.boundedStep e iters a).isSome) :=
  ⟨by decide, BoundedReachable.init.foldlM _ rfl,
    sync_ps_no_deadlock _ (by decide) _ (BoundedReachable.init.foldlM _ rfl)⟩

/-- The end of every run of the workers' loops in the parameter-server job in sync mode, with
    worker `w`'s loop running `iters w` iterations. Whatever the interleaving: no run is
    infinite; with equal loaders of `n` iterations, a state where nothing can act has every
    worker out of its loop after `n` iterations, holding the lockstep parameters after `n`
    steps, and every shard has made `n` steps and is in the lockstep state after them; and when
    there is a shard, a worker with a longer loader than another never leaves its loop in any
    reachable state, so every run ends in a deadlock. -/
theorem sync_ps_run_outcome (e : Setup ω θ γ) (hW : 0 < e.workerNum) (iters : ℕ → ℕ) :
    (∀ c, BoundedReachable e iters c → Acc (fun c' c => ∃ a, c.boundedStep e iters a = some c') c) ∧
    (∀ n, (∀ w < e.workerNum, iters w = n) → ∀ c, BoundedReachable e iters c →
      (∀ a, c.boundedStep e iters a = none) →
      (∀ (w : ℕ) wk, c.workers[w]? = some wk →
        wk.threads = [] ∧ wk.iterCount = n ∧ wk.model = e.params n) ∧
      ∀ (j : ℕ) (s : ParameterServer ω θ γ), c.shards[j]? = some s → s.psCompFuture = n ∧
        (e.lockstep n)[j]? = some (s.optimizer, s.psParams.map Param.data)) ∧
    (0 < e.init.length → ∀ u < e.workerNum, ∀ v, iters u < iters v → ∀ c,
      BoundedReachable e iters c → ∀ wk, c.workers[v]? = some wk →
        ¬ (wk.threads = [] ∧ wk.iterCount = iters v)) := by
  refine ⟨fun c hc => boundedReachable_acc hW hc, fun n hiters c hc hstuck => ?_,
    fun hN u hu v hlt c hc wk hv => (boundedReachable_boundedInv hW hc).not_finished hN hu hlt hv⟩
  have h := boundedReachable_boundedInv hW hc
  have hfin : ∀ (w : ℕ) wk, c.workers[w]? = some wk → wk.threads = [] ∧ wk.iterCount = n :=
    fun w wk hw => h.finished_of_stuck hiters hstuck hw
  refine ⟨fun w wk hw => ?_, fun j s hs => ?_⟩
  · obtain ⟨hidle, hcount⟩ := hfin w wk hw
    exact ⟨hidle, hcount, hcount ▸ (h.inv.worker w wk hw).idle hidle⟩
  · obtain ⟨wk₀, hw₀⟩ : ∃ wk, c.workers[0]? = some wk :=
      ⟨_, List.getElem?_eq_getElem (h.inv.workers_length ▸ hW)⟩
    obtain ⟨hidle, hcount⟩ := hfin 0 wk₀ hw₀
    have hR : s.psCompFuture = n := hcount ▸ (h.inv.thread 0 wk₀ j s hw₀ hs).idle hidle
    exact ⟨hR, hR ▸ (h.inv.shard j s hs).state⟩

/-- Two workers and two shards, loaders of one and two iterations: worker `1` never leaves its
    loop. -/
theorem sync_ps_run_outcome_unequal_loaders :
    let e : Setup Unit ℕ ℕ := ⟨fun o ps => (o, ps.map fun p => p.data + p.grad.getD 0),
      fun w _ m => m.map (·.map fun _ => w + 1), 2, [((), [10, 20]), ((), [30])]⟩
    let iters : ℕ → ℕ := fun w => if w = 0 then 1 else 2
    0 < e.workerNum ∧ 0 < e.init.length ∧ 0 < e.workerNum ∧ iters 0 < iters 1 ∧
      ∀ c, BoundedReachable e iters c → ∀ wk, c.workers[1]? = some wk →
        ¬ (wk.threads = [] ∧ wk.iterCount = iters 1) :=
  ⟨by decide, by decide, by decide, by decide,
    (sync_ps_run_outcome _ (by decide) _).2.2 (by decide) 0 (by decide) 1 (by decide)⟩

end Main

end Strn
