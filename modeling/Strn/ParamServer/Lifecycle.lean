import Strn.ParamServer.Rounds

/-
  The futures and the counters of a shard over whole runs.

  `FuturesMatch s vs` says that the shard has completed exactly the futures `0 … |vs| - 1`,
  future `f` with the `f`-th step's value, and that its open future is the next number. Each
  call keeps it, so it holds after every run from `__init__`; with `run_reply_future` (a call
  gets the open future) this is the round-future lifecycle of `round_future_lifecycle`.

  `step_num` is incremented before the trigger test, on every call: it counts contributions,
  not optimizer steps (`stepNum_counts_calls`; `stepNum_ne_steps` is a run where the two
  differ).
-/

namespace Strn

variable {ω θ γ : Type} [Add γ] (optStep : ω → List (Param θ γ) → ω × List θ)

/-! ## What one call does to the counters -/

theorem psComputing_syncWorkerCount (s : ParameterServer ω θ γ) (g : List γ) :
    (s.psComputing optStep g).1.syncWorkerCount =
      if s.syncMode = 1 ∨ s.workerNum ≤ s.syncWorkerCount + 1 then 0
      else s.syncWorkerCount + 1 := by
  rw [psComputing_eq]; split_ifs <;> rfl

theorem psComputing_psCompFuture (s : ParameterServer ω θ γ) (g : List γ) :
    (s.psComputing optStep g).1.psCompFuture =
      if s.syncMode = 1 ∨ s.workerNum ≤ s.syncWorkerCount + 1 then s.psCompFuture + 1
      else s.psCompFuture := by
  rw [psComputing_eq]; split_ifs <;> rfl

theorem run_stepNum (s : ParameterServer ω θ γ) (ops : List (PsOp γ)) :
    (s.run optStep ops).1.stepNum = s.stepNum + (s.run optStep ops).2.length := by
  induction ops generalizing s with
  | nil => rfl
  | cons op ops ih =>
    cases op <;> simp [run_cons, ih, ParameterServer.setSyncMode]
    omega

/-- `run` gives one reply per `ps_computing` call and none for `set_sync_mode`. -/
theorem run_replies_length (s : ParameterServer ω θ γ) (ops : List (PsOp γ)) :
    (s.run optStep ops).2.length = (contributions ops).length := by
  induction ops generalizing s with
  | nil => rfl
  | cons op ops ih => cases op <;> simp [run_cons, contributions, ih]

omit [Add γ] in
theorem contributions_map_psComputing (gs : List (List γ)) :
    contributions (gs.map .psComputing) = gs := by
  induction gs with
  | nil => rfl
  | cons g gs ih => simp [contributions, ih]

theorem stepValues_length_le (rs : List (Reply θ)) : (stepValues rs).length ≤ rs.length :=
  List.length_filterMap_le _ _

/-! ## Futures -/

/-- The shard has completed the futures `0 … |vs| - 1`, future `f` with value `vs[f]`, and its
    open future is `|vs|`. -/
structure FuturesMatch (s : ParameterServer ω θ γ) (vs : List (List θ)) : Prop where
  open_eq : s.psCompFuture = vs.length
  results_eq : ∀ f, s.futureResults f = vs[f]?

omit [Add γ] in
theorem futuresMatch_init (workerNum : ℕ) (params : List θ) (opt₀ : ω) :
    FuturesMatch (ParameterServer.init workerNum params opt₀ : ParameterServer ω θ γ) [] :=
  ⟨rfl, fun _ => rfl⟩

theorem FuturesMatch.psComputing {s : ParameterServer ω θ γ} {vs : List (List θ)}
    (h : FuturesMatch s vs) (g : List γ) :
    FuturesMatch (s.psComputing optStep g).1 (vs ++ stepValues [(s.psComputing optStep g).2]) := by
  obtain ⟨hopen, hres, -⟩ := psComputing_futures optStep s g
  cases hr : (s.psComputing optStep g).2.resolved with
  | none =>
    rw [hr] at hres
    exact ⟨by simp [hopen, h.open_eq, hr], by simp [hres, h.results_eq, hr]⟩
  | some v =>
    rw [hr] at hres
    refine ⟨by simp [hopen, h.open_eq, hr], fun f => ?_⟩
    simp only [hres, stepValues_cons, hr, Option.elim, Function.update_apply, h.open_eq,
      h.results_eq]
    rcases lt_trichotomy f vs.length with hf | rfl | hf
    · simp [hf.ne, List.getElem?_append_left hf]
    · simp
    · have hlen : (vs ++ [v]).length ≤ f := by simp; omega
      simp [hf.ne', List.getElem?_eq_none hf.le, List.getElem?_eq_none hlen]

omit [Add γ] in
theorem FuturesMatch.setSyncMode {s : ParameterServer ω θ γ} {vs : List (List θ)}
    (h : FuturesMatch s vs) (m : ℤ) : FuturesMatch (s.setSyncMode m) vs :=
  ⟨h.open_eq, h.results_eq⟩

theorem FuturesMatch.run {s : ParameterServer ω θ γ} {vs : List (List θ)}
    (h : FuturesMatch s vs) (ops : List (PsOp γ)) :
    FuturesMatch (s.run optStep ops).1 (vs ++ stepValues (s.run optStep ops).2) := by
  induction ops generalizing s vs with
  | nil => simpa using h
  | cons op ops ih =>
    cases op with
    | psComputing g => simpa [run_cons] using ih (h.psComputing optStep g)
    | setSyncMode m => simpa [run_cons] using ih (h.setSyncMode m)

/-- Every call of a run gets the open future of its time: the start's open future plus the
    steps of the calls before it. -/
theorem run_reply_future (s : ParameterServer ω θ γ) (ops : List (PsOp γ)) (k : ℕ)
    (hk : k < (s.run optStep ops).2.length) :
    ((s.run optStep ops).2[k]).future =
      s.psCompFuture + (stepValues ((s.run optStep ops).2.take k)).length := by
  induction ops generalizing s k with
  | nil => simp at hk
  | cons op ops ih =>
    cases op with
    | setSyncMode m => simpa [run_cons] using ih (s.setSyncMode m) k (by simpa [run_cons] using hk)
    | psComputing g =>
      obtain ⟨hopen, -, -⟩ := psComputing_futures optStep s g
      cases k with
      | zero => simp [run_cons]
      | succ k =>
        have hk' : k < ((s.psComputing optStep g).1.run optStep ops).2.length := by
          simpa [run_cons] using hk
        simp only [run_cons, apply_psComputing, Option.toList_some, List.singleton_append,
          List.getElem_cons_succ, List.take_succ_cons, ih _ k hk', hopen, stepValues_cons,
          List.length_append]
        simp [stepValues]
        omega

theorem succ_mod_eq_zero_iff {c n : ℕ} (hc : c < n) : (c + 1) % n = 0 ↔ n ≤ c + 1 := by
  rcases Nat.lt_or_eq_of_le (Nat.succ_le_of_lt hc) with hlt | heq
  · rw [Nat.mod_eq_of_lt hlt]; omega
  · subst heq; simp

/-- In sync mode the `k`-th of a run of calls steps exactly when it is a multiple of
    `worker_num` counted from the last step. -/
theorem run_sync_resolved (s : ParameterServer ω θ γ) (hmode : s.syncMode ≠ 1)
    (hc : s.syncWorkerCount < s.workerNum) (gs : List (List γ)) (k : ℕ)
    (hk : k < (s.run optStep (gs.map .psComputing)).2.length) :
    ((s.run optStep (gs.map .psComputing)).2[k]).resolved.isSome ↔
      (s.syncWorkerCount + k + 1) % s.workerNum = 0 := by
  induction gs generalizing s k with
  | nil => simp at hk
  | cons g gs ih =>
    have hmod := succ_mod_eq_zero_iff hc
    have hcount : (s.psComputing optStep g).1.syncWorkerCount =
        (s.syncWorkerCount + 1) % s.workerNum := by
      rw [psComputing_syncWorkerCount]
      split_ifs with h
      · exact (hmod.mpr (h.resolve_left hmode)).symm
      · exact (Nat.mod_eq_of_lt (by omega)).symm
    cases k with
    | zero => simpa [run_cons, psComputing_resolved_isSome, hmode] using hmod.symm
    | succ k =>
      have hk' : k < ((s.psComputing optStep g).1.run optStep (gs.map .psComputing)).2.length := by
        simpa [run_cons] using hk
      have hc' : (s.psComputing optStep g).1.syncWorkerCount < s.workerNum := by
        rw [hcount]; exact Nat.mod_lt _ (by omega)
      simp only [List.map_cons, run_cons, apply_psComputing, Option.toList_some,
        List.singleton_append, List.getElem_cons_succ]
      rw [ih _ (by simpa using hmode) (by simpa using hc') k hk', psComputing_workerNum, hcount,
        show (s.syncWorkerCount + 1) % s.workerNum + k + 1 =
          (s.syncWorkerCount + 1) % s.workerNum + (k + 1) by omega, Nat.mod_add_mod,
        show s.syncWorkerCount + 1 + (k + 1) = s.syncWorkerCount + (k + 1) + 1 by omega]

/-- A call from a state whose futures match the steps `vs`: it gets the open future, not yet
    completed; each later call gets it too until a step, and later ones after; and the future
    ends up holding the value of the first step at or after the call. -/
theorem FuturesMatch.call_future {s : ParameterServer ω θ γ} {vs : List (List θ)}
    (h : FuturesMatch s vs) (g : List γ) (post : List (PsOp γ)) :
    ((s.psComputing optStep g).2.future = vs.length ∧
      s.futureResults (s.psComputing optStep g).2.future = none) ∧
    (∀ k (hk : k < ((s.psComputing optStep g).1.run optStep post).2.length),
      ((s.psComputing optStep g).1.run optStep post).2[k].future =
        (s.psComputing optStep g).2.future + (stepValues ((s.psComputing optStep g).2 ::
          ((s.psComputing optStep g).1.run optStep post).2.take k)).length) ∧
    ((s.psComputing optStep g).1.run optStep post).1.futureResults
        (s.psComputing optStep g).2.future =
      (stepValues ((s.psComputing optStep g).2 ::
        ((s.psComputing optStep g).1.run optStep post).2)).head? := by
  have hcall := h.psComputing optStep g
  have hrest := hcall.run optStep post
  have hfut : (s.psComputing optStep g).2.future = vs.length := by
    rw [psComputing_future, h.open_eq]
  refine ⟨⟨hfut, by rw [hfut, h.results_eq]; simp⟩, fun k hk => ?_, ?_⟩
  · rw [run_reply_future optStep _ post k hk, hcall.open_eq, hfut]
    simp [stepValues_cons, Nat.add_assoc]
  · rw [hrest.results_eq, hfut]
    simp [stepValues_cons, List.getElem?_append_right, List.head?_eq_getElem?]

/-- In async mode a call steps, and its future is completed when it returns. -/
theorem psComputing_async (s : ParameterServer ω θ γ) (g : List γ) (hm : s.syncMode = 1) :
    (s.psComputing optStep g).2.resolved.isSome ∧
      (s.psComputing optStep g).1.futureResults (s.psComputing optStep g).2.future =
        (s.psComputing optStep g).2.resolved := by
  obtain ⟨-, hres, -⟩ := psComputing_futures optStep s g
  obtain ⟨v, hv⟩ := Option.isSome_iff_exists.mp
    ((psComputing_resolved_isSome optStep s g).mpr (Or.inl hm))
  refine ⟨by simp [hv], ?_⟩
  rw [hres, hv, psComputing_future]
  simp

/-- The round-future lifecycle. Split any run from `__init__` at one `ps_computing` call, with
    the calls `pre` before it and `post` after it. The call gets the open future, numbered by
    the optimizer steps before it and not yet completed; it steps exactly in async mode or when
    it completes the round (so in async mode its future is completed when it returns), and a
    step completes the future with the parameters as they stand right after it. Each later call
    gets the same future until a step, and a later one after it; every call gets one reply. In the end the call's future
    holds the value of the first step at or after the call, or nothing when there is none. In
    a run that stays in sync mode the `k`-th call steps exactly when `k + 1` is a multiple of
    `worker_num`. -/
theorem round_future_lifecycle (workerNum : ℕ) (hW : 0 < workerNum) (params : List θ)
    (opt₀ : ω) (pre : List (PsOp γ)) (g : List γ) (post : List (PsOp γ)) :
    let s := ((ParameterServer.init workerNum params opt₀).run optStep pre).1
    let done := stepValues ((ParameterServer.init workerNum params opt₀).run optStep pre).2
    let call := s.psComputing optStep g
    let rest := call.1.run optStep post
    (call.2.future = done.length ∧ s.futureResults call.2.future = none) ∧
      (call.2.resolved.isSome ↔ s.syncMode = 1 ∨ workerNum ≤ s.syncWorkerCount + 1) ∧
      (s.syncMode = 1 →
        call.2.resolved.isSome ∧ call.1.futureResults call.2.future = call.2.resolved) ∧
      (∀ v, call.2.resolved = some v → v = call.1.psParams.map Param.data) ∧
      rest.2.length = (contributions post).length ∧
      (∀ k (hk : k < rest.2.length),
        rest.2[k].future = call.2.future + (stepValues (call.2 :: rest.2.take k)).length) ∧
      rest.1.futureResults call.2.future = (stepValues (call.2 :: rest.2)).head? ∧
      ∀ gs : List (List γ),
        ((ParameterServer.init workerNum params opt₀).run optStep
          (gs.map .psComputing)).2.length = gs.length ∧
        ∀ k (hk : k < ((ParameterServer.init workerNum params opt₀).run optStep
            (gs.map .psComputing)).2.length),
          (((ParameterServer.init workerNum params opt₀).run optStep
            (gs.map .psComputing)).2[k].resolved.isSome ↔ (k + 1) % workerNum = 0) := by
  intro s done call rest
  have hpre : FuturesMatch s done := by
    simpa using (futuresMatch_init workerNum params opt₀).run optStep pre
  have hWs : s.workerNum = workerNum := by simp [s, ParameterServer.init]
  obtain ⟨h1, h2, h3⟩ := hpre.call_future optStep g post
  refine ⟨h1, by rw [← hWs]; exact psComputing_resolved_isSome optStep s g,
    psComputing_async optStep s g, (psComputing_futures optStep s g).2.2,
    run_replies_length optStep _ post, h2, h3, fun gs => ⟨?_, fun k hk => ?_⟩⟩
  · rw [run_replies_length, contributions_map_psComputing]
  · simpa [ParameterServer.init] using run_sync_resolved optStep
      (ParameterServer.init workerNum params opt₀) (show (0 : ℤ) ≠ 1 by decide) hW gs k hk

/-- Two workers: one call in sync mode, then two after a switch to async mode. -/
theorem round_future_lifecycle_mode_switch :
    let sgd := fun (o : Unit) (ps : List (Param ℕ ℕ)) => (o, ps.map fun p => p.data + p.grad.getD 0)
    let pre : List (PsOp ℕ) := [.psComputing [1, 2]]
    let post : List (PsOp ℕ) := [.setSyncMode 1, .psComputing [5, 6]]
    0 < 2 ∧
      let s := ((ParameterServer.init 2 [10, 20] ()).run sgd pre).1
      let done := stepValues ((ParameterServer.init 2 [10, 20] ()).run sgd pre).2
      let call := s.psComputing sgd [3, 4]
      let rest := call.1.run sgd post
      (call.2.future = done.length ∧ s.futureResults call.2.future = none) ∧
        (call.2.resolved.isSome ↔ s.syncMode = 1 ∨ 2 ≤ s.syncWorkerCount + 1) ∧
        (s.syncMode = 1 →
          call.2.resolved.isSome ∧ call.1.futureResults call.2.future = call.2.resolved) ∧
        (∀ v, call.2.resolved = some v → v = call.1.psParams.map Param.data) ∧
        rest.2.length = (contributions post).length ∧
        (∀ k (hk : k < rest.2.length),
          rest.2[k].future = call.2.future + (stepValues (call.2 :: rest.2.take k)).length) ∧
        rest.1.futureResults call.2.future = (stepValues (call.2 :: rest.2)).head? ∧
        ∀ gs : List (List ℕ),
          ((ParameterServer.init 2 [10, 20] ()).run sgd (gs.map .psComputing)).2.length =
            gs.length ∧
          ∀ k (hk : k < ((ParameterServer.init 2 [10, 20] ()).run sgd
              (gs.map .psComputing)).2.length),
            (((ParameterServer.init 2 [10, 20] ()).run sgd
              (gs.map .psComputing)).2[k].resolved.isSome ↔ (k + 1) % 2 = 0) :=
  ⟨by decide, round_future_lifecycle _ 2 (by decide) [10, 20] () _ [3, 4] _⟩

/-! ## The step counter -/

/-- In sync mode a shard with `c` contributions in the open round and `n` completed futures has
    counted `worker_num * n + c` calls. -/
structure SyncCount (s : ParameterServer ω θ γ) : Prop where
  mode_ne : s.syncMode ≠ 1
  count_lt : s.syncWorkerCount < s.workerNum
  stepNum_eq : s.stepNum = s.workerNum * s.psCompFuture + s.syncWorkerCount

theorem SyncCount.psComputing {s : ParameterServer ω θ γ} (h : SyncCount s) (g : List γ) :
    SyncCount (s.psComputing optStep g).1 := by
  have h1 := h.count_lt
  have h2 := h.stepNum_eq
  refine ⟨by simpa using h.mode_ne, ?_, ?_⟩ <;>
    simp only [psComputing_syncWorkerCount, psComputing_psCompFuture, psComputing_workerNum,
      psComputing_stepNum, h.mode_ne, false_or] <;> split_ifs <;> first | omega | (rw [h2, Nat.mul_succ]; omega)

theorem SyncCount.run {s : ParameterServer ω θ γ} (h : SyncCount s) (ops : List (PsOp γ))
    (hops : ∀ m, PsOp.setSyncMode m ∈ ops → m ≠ 1) : SyncCount (s.run optStep ops).1 := by
  induction ops generalizing s with
  | nil => exact h
  | cons op ops ih =>
    have hops' : ∀ m, PsOp.setSyncMode m ∈ ops → m ≠ 1 := fun m hm =>
      hops m (List.mem_cons_of_mem _ hm)
    cases op with
    | psComputing g => simpa [run_cons] using ih (h.psComputing optStep g) hops'
    | setSyncMode m =>
      exact ih ⟨hops m (List.mem_cons_self _ _), h.count_lt, h.stepNum_eq⟩ hops'

/-- What `step_num` counts. After any run from `__init__`, `get_step_num` is the number of
    `ps_computing` calls (the run gives one reply per call), one per call whether or not it
    stepped; the optimizer steps number at
    most that; and while the shard stays in sync mode, `step_num` is `worker_num` times the
    number of steps plus the open round's contributions. -/
theorem stepNum_counts_calls (workerNum : ℕ) (hW : 0 < workerNum) (params : List θ) (opt₀ : ω)
    (ops : List (PsOp γ)) :
    let r := (ParameterServer.init workerNum params opt₀).run optStep ops
    r.1.getStepNum = r.2.length ∧ r.2.length = (contributions ops).length ∧
      (stepValues r.2).length ≤ r.1.getStepNum ∧
      ((∀ m, PsOp.setSyncMode m ∈ ops → m ≠ 1) →
        r.1.getStepNum = workerNum * (stepValues r.2).length + r.1.syncWorkerCount) := by
  intro r
  have hcalls : r.1.getStepNum = r.2.length := by
    simpa [ParameterServer.init] using run_stepNum optStep
      (ParameterServer.init workerNum params opt₀) ops
  refine ⟨hcalls, run_replies_length optStep _ ops, hcalls ▸ stepValues_length_le r.2,
    fun hops => ?_⟩
  have hsync := SyncCount.run optStep
    (⟨show (0 : ℤ) ≠ 1 by decide, hW, by simp [ParameterServer.init]⟩ :
      SyncCount (ParameterServer.init workerNum params opt₀ : ParameterServer ω θ γ)) ops hops
  have hfut := (futuresMatch_init workerNum params opt₀).run optStep ops
  simp only [List.nil_append] at hfut
  rw [ParameterServer.getStepNum, hsync.stepNum_eq, hfut.open_eq, run_workerNum]
  rfl

/-- Two workers and three calls in sync mode: `step_num = 3`, one step, one open contribution. -/
theorem stepNum_counts_calls_three :
    let sgd := fun (o : Unit) (ps : List (Param ℕ ℕ)) => (o, ps.map fun p => p.data + p.grad.getD 0)
    let ops : List (PsOp ℕ) := [.psComputing [1], .psComputing [2], .psComputing [3]]
    0 < 2 ∧
      let r := (ParameterServer.init 2 [10] ()).run sgd ops
      r.1.getStepNum = r.2.length ∧ r.2.length = (contributions ops).length ∧
        (stepValues r.2).length ≤ r.1.getStepNum ∧
        ((∀ m, PsOp.setSyncMode m ∈ ops → m ≠ 1) →
          r.1.getStepNum = 2 * (stepValues r.2).length + r.1.syncWorkerCount) :=
  ⟨by decide, stepNum_counts_calls _ 2 (by decide) [10] () _⟩

/-- `step_num` is not the number of optimizer steps: with `worker_num = 2` in sync mode, one
    call leaves `step_num = 1` and no step done. -/
theorem stepNum_ne_steps :
    let r := (ParameterServer.init 2 [0] ()).run
      (fun (o : Unit) (ps : List (Param ℕ ℕ)) => (o, ps.map Param.data)) [.psComputing [1]]
    r.1.getStepNum = 1 ∧ stepValues r.2 = [] := by
  decide

end Strn
