import Strn.ParamServer.Lockstep

/-
  How far apart the processes of the parameter-server job can get (`sync_ps_bounded_skew`).

  A worker's thread for shard `j` is pending, waiting on the shard's open future or on the one
  before, or done with the reply of the shard's latest step, so every shard has made either
  `iter_count - 1` or `iter_count` steps of every worker (`ClusterInv.round_mem`). Read from
  one worker, all shards are within one step of each other: the parameters the tester collects
  with `get_ps_params` in one state are the lockstep parameters after `R` or `R + 1` steps,
  shard by shard. Read from one shard, no worker is more than one iteration ahead of another.
-/

namespace Strn

variable {ω θ γ : Type}

/-! ## Rounds seen from one worker -/

section Rounds
variable [AddCommMonoid γ] {e : Setup ω θ γ} {c : Cluster ω θ γ}

/-- Whatever the thread of a worker for shard `j` is doing, the shard has made `iter_count - 1`
    or `iter_count` steps. -/
theorem ThreadOk.round_mem {wk : WorkerState θ γ} {j R : ℕ} (h : ThreadOk e wk j R)
    (hj : wk.threads = [] ∨ ∃ x, wk.threads[j]? = some x) :
    R ≤ wk.iterCount ∧ wk.iterCount ≤ R + 1 := by
  rcases hj with hidle | ⟨x, hx⟩
  · have := h.idle hidle; omega
  · cases x with
    | pending => have := h.pending hx; omega
    | waiting ft => have := h.waiting ft hx; omega
    | done => have := (h.done hx).1; omega

theorem ClusterInv.round_mem (h : ClusterInv e c) {w j : ℕ} {wk : WorkerState θ γ}
    {s : ParameterServer ω θ γ} (hw : c.workers[w]? = some wk) (hs : c.shards[j]? = some s) :
    s.psCompFuture ≤ wk.iterCount ∧ wk.iterCount ≤ s.psCompFuture + 1 := by
  refine (h.thread w wk j s hw hs).round_mem ?_
  by_cases hidle : wk.threads = []
  · exact .inl hidle
  · obtain ⟨-, -, -, -, hlen⟩ := (h.worker w wk hw).running hidle
    have hj : j < wk.threads.length := by
      rw [hlen, ← h.shards_length]; exact (List.getElem?_eq_some_iff.mp hs).1
    exact .inr ⟨_, List.getElem?_eq_getElem hj⟩

end Rounds

/-! ## Bounded skew -/

section Main
variable [AddCommMonoid γ]

/-- Bounded skew. With at least one worker, in every state the job can reach, whatever the
    interleaving: there is an `R` such that every shard has made `R` or `R + 1` steps and holds
    the lockstep parameters after them, so what `get_ps_params` returns from all shards in one
    state is the lockstep parameters after `R` or `R + 1` steps, shard by shard; every worker
    has started `R_j` or `R_j + 1` iterations, where `R_j` is the steps of any shard `j`; and,
    when there is a shard, no worker has started more than one iteration more than another. -/
theorem sync_ps_bounded_skew (e : Setup ω θ γ) (hW : 0 < e.workerNum) {c : Cluster ω θ γ}
    (hc : Reachable e c) :
    (∃ R, ∀ (j : ℕ) (s : ParameterServer ω θ γ), c.shards[j]? = some s →
      (s.psCompFuture = R ∨ s.psCompFuture = R + 1) ∧
      (e.params s.psCompFuture)[j]? = some (s.psParams.map Param.data)) ∧
    (∀ (w : ℕ) wk (j : ℕ) (s : ParameterServer ω θ γ), c.workers[w]? = some wk →
      c.shards[j]? = some s → s.psCompFuture ≤ wk.iterCount ∧ wk.iterCount ≤ s.psCompFuture + 1) ∧
    (0 < e.init.length → ∀ (w w' : ℕ) wk wk', c.workers[w]? = some wk →
      c.workers[w']? = some wk' → wk.iterCount ≤ wk'.iterCount + 1) := by
  have h := reachable_clusterInv hW hc
  obtain ⟨wk₀, hw₀⟩ : ∃ wk, c.workers[0]? = some wk :=
    ⟨_, List.getElem?_eq_getElem (h.workers_length ▸ hW)⟩
  refine ⟨⟨wk₀.iterCount - 1, fun j s hs => ⟨?_, ?_⟩⟩, fun w wk j s => h.round_mem,
    fun hN w w' wk wk' hw hw' => ?_⟩
  · have := h.round_mem hw₀ hs
    omega
  · simp only [Setup.params, List.getElem?_map, (h.shard j s hs).state, Option.map_some']
  · obtain ⟨s, hs⟩ : ∃ s, c.shards[0]? = some s :=
      ⟨_, List.getElem?_eq_getElem (h.shards_length ▸ hN)⟩
    have := h.round_mem hw hs
    have := h.round_mem hw' hs
    omega

/-- Two workers, two shards, SGD with step `1`, and each worker's gradient `w + 1` everywhere:
    after the first round, both workers start their second iteration and call shard `0`, which
    steps again, so shard `0` has made two steps and shard `1` one. -/
theorem sync_ps_bounded_skew_shards_apart :
    let e : Setup Unit ℕ ℕ := ⟨fun o ps => (o, ps.map fun p => p.data + p.grad.getD 0),
      fun w _ m => m.map (·.map fun _ => w + 1), 2, [((), [10, 20]), ((), [30])]⟩
    let c := ([.iterate 0, .iterate 1, .call 0 0, .call 0 1, .call 1 0, .call 1 1, .reply 0 0,
      .reply 0 1, .reply 1 0, .reply 1 1, .gather 0, .gather 1, .iterate 0, .call 0 0,
      .iterate 1, .call 1 0].foldlM (Cluster.step e) (Cluster.init e)).getD (Cluster.init e)
    0 < e.workerNum ∧ Reachable e c ∧
    (∃ R, ∀ (j : ℕ) (s : ParameterServer Unit ℕ ℕ), c.shards[j]? = some s →
      (s.psCompFuture = R ∨ s.psCompFuture = R + 1) ∧
      (e.params s.psCompFuture)[j]? = some (s.psParams.map Param.data)) ∧
    (∀ (w : ℕ) wk (j : ℕ) (s : ParameterServer Unit ℕ ℕ), c.workers[w]? = some wk →
      c.shards[j]? = some s → s.psCompFuture ≤ wk.iterCount ∧ wk.iterCount ≤ s.psCompFuture + 1) ∧
    (0 < e.init.length → ∀ (w w' : ℕ) wk wk', c.workers[w]? = some wk →
      c.workers[w']? = some wk' → wk.iterCount ≤ wk'.iterCount + 1) :=
  ⟨by decide, Reachable.init.foldlM _ rfl,
    sync_ps_bounded_skew _ (by decide) (Reachable.init.foldlM _ rfl)⟩

end Main

end Strn
