import Strn.ParamServer.Lockstep

/-
  Where some process of the parameter-server job can act (`ClusterInv.exists_step_behind`).

  A worker that cannot act has started an iteration, has called every shard, and has a thread
  waiting on a future that is not completed yet, so that shard's open round is the worker's
  iteration. The round is not full (`count_lt`): some worker has not joined it. That worker can
  act (it is between iterations, has not called the shard yet, or its own future of the shard
  is completed), or it has taken the shard's reply of this round's predecessor, so it is an
  iteration behind. Going back through earlier iterations ends at a worker that can act; if it
  acts by starting an iteration, it is behind the worker we started from. `Outcome` turns this
  into progress of the job whose loops end.
-/

namespace Strn

variable {ω θ γ : Type}

/-! ## When an action is possible -/

section Enabled
variable [Add γ] {e : Setup ω θ γ} {c : Cluster ω θ γ}

theorem step_iterate_isSome {w : ℕ} {wk : WorkerState θ γ} (hw : c.workers[w]? = some wk)
    (hidle : wk.threads = []) : (c.step e (.iterate w)).isSome := by
  simp [Cluster.step, hw, hidle]

theorem step_call_isSome {w j : ℕ} {wk : WorkerState θ γ} {s : ParameterServer ω θ γ}
    (hw : c.workers[w]? = some wk) (hs : c.shards[j]? = some s)
    (hp : wk.threads[j]? = some .pending) : (c.step e (.call w j)).isSome := by
  simp [Cluster.step, hw, hs, hp]

theorem step_reply_isSome {w j ft : ℕ} {wk : WorkerState θ γ} {s : ParameterServer ω θ γ}
    {v : List θ} (hw : c.workers[w]? = some wk) (hs : c.shards[j]? = some s)
    (hft : wk.threads[j]? = some (.waiting ft)) (hv : s.futureResults ft = some v) :
    (c.step e (.reply w j)).isSome := by
  simp [Cluster.step, hw, hs, hft, hv]

theorem step_gather_isSome {w : ℕ} {wk : WorkerState θ γ} (hw : c.workers[w]? = some wk)
    (hne : wk.threads ≠ []) (hdone : ∀ t ∈ wk.threads, t = .done) :
    (c.step e (.gather w)).isSome := by
  simp only [Cluster.step, hw, if_pos (And.intro hne hdone), Option.isSome_some]

end Enabled

/-! ## Some process can act -/

section Progress
variable [AddCommMonoid γ] {e : Setup ω θ γ} {c : Cluster ω θ γ}

theorem ClusterInv.shard_of_lt {j : ℕ} (h : ClusterInv e c) (hj : j < e.init.length) :
    ∃ s, c.shards[j]? = some s :=
  ⟨_, List.getElem?_eq_getElem (h.shards_length ▸ hj)⟩

/-- A round of a shard that some worker waits on, with its future not completed, is at that
    worker's iteration and misses some worker. -/
theorem ClusterInv.missing {j ft : ℕ} {s : ParameterServer ω θ γ} (h : ClusterInv e c)
    (hs : c.shards[j]? = some s) (hR : s.psCompFuture = ft) :
    ∃ u < e.workerNum, u ∉ waitingOn c.workers j ft := by
  by_contra hall
  push_neg at hall
  have hok := h.shard j s hs
  have hfull : waitingOn c.workers j ft = List.range e.workerNum := by
    rw [waitingOn, h.workers_length, List.filter_eq_self]
    exact fun u hu => (List.mem_filter.mp (hall u (List.mem_range.mp hu))).2
  have := hok.count_lt
  rw [hok.count, hR, hfull, List.length_range] at this
  exact lt_irrefl _ this

/-- From a worker inside an iteration, going back through the workers an open round misses,
    some process can act; if that action starts an iteration, it is one of a worker behind. -/
theorem ClusterInv.exists_step_behind (h : ClusterInv e c) {w : ℕ} {wk : WorkerState θ γ}
    (hw : c.workers[w]? = some wk) (hbusy : wk.threads ≠ []) :
    ∃ a, (c.step e a).isSome ∧
      ∀ v, a = .iterate v → ∃ wv, c.workers[v]? = some wv ∧ wv.iterCount < wk.iterCount := by
  obtain ⟨n, hn⟩ : ∃ n, wk.iterCount = n := ⟨_, rfl⟩
  induction n using Nat.strong_induction_on generalizing w wk with
  | _ n ih =>
    obtain ⟨-, -, -, -, hlen⟩ := (h.worker w wk hw).running hbusy
    by_cases hdone : ∀ x ∈ wk.threads, x = .done
    · exact ⟨_, step_gather_isSome hw hbusy hdone, fun _ h => nomatch h⟩
    push_neg at hdone
    obtain ⟨x, hx, hxd⟩ := hdone
    obtain ⟨j, hjx⟩ := List.getElem?_of_mem hx
    have hj : j < e.init.length := hlen ▸ (List.getElem?_eq_some_iff.mp hjx).1
    obtain ⟨s, hs⟩ := h.shard_of_lt hj
    cases x with
    | done => exact absurd rfl hxd
    | pending => exact ⟨_, step_call_isSome hw hs hjx, fun _ h => nomatch h⟩
    | waiting ft =>
      cases hv : s.futureResults ft with
      | some v => exact ⟨_, step_reply_isSome hw hs hjx hv, fun _ h => nomatch h⟩
      | none =>
        have hok := h.shard j s hs
        obtain ⟨hft, hRft⟩ := (h.thread w wk j s hw hs).waiting ft hjx
        have hR : s.psCompFuture = ft := by
          refine hRft.resolve_right fun h1 => ?_
          have hres := hok.results ft
          rw [hv, if_pos (by omega), List.getElem?_eq_getElem (by simpa using hj)] at hres
          cases hres
        obtain ⟨u, hu, hnot⟩ := h.missing hs hR
        obtain ⟨wu, hwu⟩ : ∃ wu, c.workers[u]? = some wu :=
          ⟨_, List.getElem?_eq_getElem (h.workers_length ▸ hu)⟩
        have hth := h.thread u wu j s hwu hs
        by_cases hidle' : wu.threads = []
        · refine ⟨_, step_iterate_isSome hwu hidle', fun v hv => ?_⟩
          cases hv
          have := hth.idle hidle'
          exact ⟨wu, hwu, by omega⟩
        obtain ⟨-, -, -, -, hlen'⟩ := (h.worker u wu hwu).running hidle'
        obtain ⟨y, hy⟩ : ∃ y, wu.threads[j]? = some y :=
          ⟨_, List.getElem?_eq_getElem (hlen' ▸ hj)⟩
        cases y with
        | pending => exact ⟨_, step_call_isSome hwu hs hy, fun _ h => nomatch h⟩
        | waiting ft' =>
          have hne : ft' ≠ ft := fun he => hnot (mem_waitingOn.mpr ⟨wu, hwu, he ▸ hy⟩)
          have hlt : ft' < s.psCompFuture := by have := hth.waiting ft' hy; omega
          have hres := hok.results ft'
          rw [if_pos hlt, List.getElem?_eq_getElem (by simpa using hj)] at hres
          exact ⟨_, step_reply_isSome hwu hs hy hres, fun _ h => nomatch h⟩
        | done =>
          have hRu := (hth.done hy).1
          obtain ⟨a, ha, hbehind⟩ := ih wu.iterCount (by omega) hwu hidle' rfl
          refine ⟨a, ha, fun v hv => ?_⟩
          obtain ⟨wv, hwv, hlt⟩ := hbehind v hv
          exact ⟨wv, hwv, by omega⟩

end Progress

end Strn
