import Strn.Partition.Layout

/-
  The loads of the greedy partition. `LoadInv` says what the loop has built after placing the
  items `placed` (each with its shard, in order): shard `i`'s list is the entries of the items
  placed on `i`, its load is the sum of their element counts, and no two loads differ by more
  than a bound `M` on the element counts seen. The last part is where `np.argmin` matters: each
  item goes on a least-loaded shard, so the new load is at most any other load plus that
  item's count. The descending sort is not used here (it is used in `Makespan`).
-/

namespace Strn

variable {κ π : Type}

theorem getElem_modify_eq_ite {α : Type} (f : α → α) (l : List α) (idx i : ℕ)
    (hi : i < (l.modify f idx).length) :
    (l.modify f idx)[i] =
      if idx = i then f (l.get ⟨i, by simpa using hi⟩) else l.get ⟨i, by simpa using hi⟩ := by
  have h := List.getElem?_modify f idx l i
  rw [List.getElem?_eq_getElem hi, List.getElem?_eq_getElem (by simpa using hi)] at h
  simpa using h

/-- The largest element count among the items (`0` for no items). -/
def maxNumel (items : List (κ × ℕ)) : ℕ := (items.map Prod.snd).foldr max 0

theorem le_maxNumel {items : List (κ × ℕ)} {x : κ × ℕ} (hx : x ∈ items) : x.2 ≤ maxNumel items := by
  induction items with
  | nil => simp at hx
  | cons y ys ih =>
    rcases List.mem_cons.mp hx with rfl | hx
    · exact le_max_left _ _
    · exact le_trans (ih hx) (le_max_right _ _)

/-- The load of shard `k` from the placed items. -/
def shardLoad (placed : List ((κ × ℕ) × ℕ)) (k : ℕ) : ℕ :=
  ((placed.filter (·.2 = k)).map (·.1.2)).sum

/-- What the loop has built after placing `placed` on `n` shards, with loads within `M`; each
    placement went to a shard of least load among the loads of the placements before it. -/
structure LoadInv (entry : κ → π) (n M : ℕ) (placed : List ((κ × ℕ) × ℕ))
    (s : Partition κ π) : Prop where
  nums_length : s.paramNums.length = n
  lists_length : s.paramLists.length = n
  shards_eq : s.paramLocs.map (·.2.1) = placed.map Prod.snd
  lists_eq : ∀ i (hi : i < s.paramLists.length),
    s.paramLists[i] = (placed.filter (·.2 = i)).map (entry ·.1.1)
  nums_eq : ∀ i (hi : i < s.paramNums.length), s.paramNums[i] = shardLoad placed i
  shards_lt : ∀ x ∈ placed, x.2 < n
  greedy : ∀ t (ht : t < placed.length), ∀ k < n,
    shardLoad (placed.take t) placed[t].2 ≤ shardLoad (placed.take t) k
  balanced : ∀ i j (hi : i < s.paramNums.length) (hj : j < s.paramNums.length),
    s.paramNums[i] ≤ s.paramNums[j] + M

theorem loadInv_init (entry : κ → π) (n M : ℕ) : LoadInv entry n M [] (Partition.init κ π n) where
  nums_length := by simp [Partition.init]
  lists_length := by simp [Partition.init]
  shards_eq := rfl
  lists_eq := by simp [Partition.init]
  nums_eq := by simp [Partition.init, shardLoad]
  shards_lt := by simp
  greedy := by simp
  balanced := by simp [Partition.init]

/-- One greedy iteration keeps the invariant when the item's count is within `M`. -/
theorem LoadInv.assign {entry : κ → π} {n M : ℕ} {placed : List ((κ × ℕ) × ℕ)}
    {s : Partition κ π} (h : LoadInv entry n M placed s) (key : κ) {numel idx : ℕ}
    (hidx : argmin s.paramNums = some idx) (hM : numel ≤ M) :
    LoadInv entry n M (placed ++ [((key, numel), idx)]) (s.assign entry key numel idx) := by
  obtain ⟨hlt, hmin, -⟩ := argmin_spec hidx
  have hlen : s.paramNums.length = n := h.nums_length
  refine ⟨by simp [h.nums_length], by simp [h.lists_length], by simp [Partition.assign,
    h.shards_eq], fun i hi => ?_, fun i hi => ?_, ?_, fun t ht k hk => ?_, fun i j hi hj => ?_⟩
  · simp only [Partition.assign, getElem_modify_eq_ite, List.get_eq_getElem, List.filter_append, List.map_append,
      h.lists_eq i (by simpa [Partition.assign] using hi)]
    by_cases hii : idx = i <;> simp [hii]
  · simp only [Partition.assign, getElem_modify_eq_ite, List.get_eq_getElem, shardLoad, List.filter_append,
      List.map_append, List.sum_append, h.nums_eq i (by simpa [Partition.assign] using hi)]
    by_cases hii : idx = i <;> simp [hii]
  · intro x hx
    rcases List.mem_append.mp hx with hx | hx
    · exact h.shards_lt x hx
    · rw [List.mem_singleton.mp hx]
      exact hlen ▸ hlt
  · rw [List.length_append, List.length_singleton] at ht
    rcases Nat.lt_succ_iff_lt_or_eq.mp ht with ht | rfl
    · rw [List.take_append_of_le_length ht.le, List.getElem_append_left ht]
      exact h.greedy t ht k hk
    · rw [List.take_left' rfl, List.getElem_append_right (le_refl _)]
      simp only [Nat.sub_self, List.getElem_singleton]
      rw [← h.nums_eq idx hlt, ← h.nums_eq k (hlen ▸ hk)]
      exact hmin k (hlen ▸ hk)
  · simp only [Partition.assign, getElem_modify_eq_ite, List.get_eq_getElem] at hi hj ⊢
    simp only [List.length_modify] at hi hj
    have hij := h.balanced i j hi hj
    have hji := h.balanced i idx hi hlt
    have hmi := hmin j hj
    split_ifs with h1 h2 h2 <;> subst_vars <;> omega

theorem LoadInv.partitionLoop {entry : κ → π} {n M : ℕ} (hn : 0 < n) :
    ∀ (items : List (κ × ℕ)) (placed : List ((κ × ℕ) × ℕ)) (s : Partition κ π),
      LoadInv entry n M placed s → (∀ x ∈ items, x.2 ≤ M) →
      ∃ s' placed', partitionLoop entry items s = some s' ∧ placed'.map Prod.fst = items ∧
        LoadInv entry n M (placed ++ placed') s'
  | [], placed, s, h, _ => ⟨s, [], rfl, rfl, by simpa using h⟩
  | (key, numel) :: rest, placed, s, h, hM => by
    have hne : s.paramNums ≠ [] := fun he => by simp [he, ← h.nums_length] at hn
    obtain ⟨idx, hidx⟩ := Option.isSome_iff_exists.mp (argmin_isSome hne)
    obtain ⟨s', placed', hs', hp', hinv⟩ := LoadInv.partitionLoop hn rest _ _
      (h.assign key hidx (hM _ (List.mem_cons_self _ _))) fun x hx => hM x (List.mem_cons_of_mem _ hx)
    exact ⟨s', ((key, numel), idx) :: placed', by rw [partitionLoop_cons, hidx]; exact hs',
      by simp [hp'], by simpa using hinv⟩

/-- Greedy balance. With `n ≥ 1` shards the partition returns; every item is placed on one
    shard; shard `i`'s list holds the entries of the items placed on it and its load
    `ps_param_nums[i]` is the sum of their element counts; and any two loads differ by at most
    the largest element count, so `max - min` of the loads is at most that count. -/
theorem greedy_balance (entry : κ → π) (items : List (κ × ℕ)) {n : ℕ} (hn : 0 < n) :
    ∃ s, partitionParams entry items n = some s ∧ s.paramNums.length = n ∧
      s.paramLists.length = n ∧
      (∃ placed : List ((κ × ℕ) × ℕ), placed.map Prod.fst = sortByNumel items ∧
        s.paramLocs.map (·.2.1) = placed.map Prod.snd ∧
        (∀ i (hi : i < s.paramLists.length),
          s.paramLists[i] = (placed.filter (·.2 = i)).map (entry ·.1.1)) ∧
        ∀ i (hi : i < s.paramNums.length),
          s.paramNums[i] = ((placed.filter (·.2 = i)).map (·.1.2)).sum) ∧
      ∀ i j (hi : i < s.paramNums.length) (hj : j < s.paramNums.length),
        s.paramNums[i] ≤ s.paramNums[j] + maxNumel items := by
  obtain ⟨s, placed, hs, hp, h⟩ := LoadInv.partitionLoop (M := maxNumel items) hn
    (sortByNumel items) [] _ (loadInv_init entry n _)
    fun x hx => le_maxNumel ((sortByNumel_perm items).subset hx)
  exact ⟨s, hs, h.nums_length, h.lists_length, ⟨placed, hp, by simpa using h.shards_eq,
    by simpa using h.lists_eq, by simpa using h.nums_eq⟩, by simpa using h.balanced⟩

theorem greedy_balance_spec_scenario :
    0 < 3 ∧ ∃ s, partitionParams id [(0, 50), (1, 40), (2, 30), (3, 20), (4, 10)] 3 = some s ∧
      s.paramNums.length = 3 ∧ s.paramLists.length = 3 ∧
      (∃ placed : List ((ℕ × ℕ) × ℕ),
        placed.map Prod.fst = sortByNumel [(0, 50), (1, 40), (2, 30), (3, 20), (4, 10)] ∧
        s.paramLocs.map (·.2.1) = placed.map Prod.snd ∧
        (∀ i (hi : i < s.paramLists.length),
          s.paramLists[i] = (placed.filter (·.2 = i)).map (id ·.1.1)) ∧
        ∀ i (hi : i < s.paramNums.length),
          s.paramNums[i] = ((placed.filter (·.2 = i)).map (·.1.2)).sum) ∧
      ∀ i j (hi : i < s.paramNums.length) (hj : j < s.paramNums.length),
        s.paramNums[i] ≤ s.paramNums[j] + maxNumel [(0, 50), (1, 40), (2, 30), (3, 20), (4, 10)] :=
  ⟨by decide, greedy_balance id _ (by decide)⟩

end Strn
