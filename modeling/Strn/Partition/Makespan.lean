import Strn.Partition.Balance
import Mathlib.Algebra.Order.BigOperators.Group.Finset
import Mathlib.Algebra.Order.Field.Rat
import Mathlib.Data.Finset.Max
import Mathlib.Tactic.Linarith
import Mathlib.Tactic.Positivity
import Mathlib.Tactic.Zify

/-
  Graham's bound for the partition loop. The loop is longest-processing-time list scheduling:
  items sorted by element count, largest first, each given to a least-loaded shard. For `N`
  shards its largest load is at most `(4/3 - 1/(3N))` times the largest load of ANY assignment
  of the same items to `N` shards, so at most that factor times the optimum.

  `lpt_core` proves it for any greedy run over sorted sizes, as Finset sums over positions
  (`rangeLoad`). Let `j` be the last item on a shard of greatest load `F = L + p j`, `L` the
  least load when `j` was placed. If `3 p j ≤ C` the averaging bound `N L ≤ Σ_{t<j} p t` gives
  it. Otherwise every item up to `j` exceeds `C/3`: under the other assignment each shard holds
  at most two of them and each big item (one that cannot share a shard with `j`) is alone
  (`opt_count`); under the greedy run, if `L + p j > C`, every shard without a big item holds at
  least two items (`greedy_count`). The two counts contradict each other, so `F ≤ C`.
  `lpt_makespan_bound` reads the hypotheses of `lpt_core` off the loop invariant `LoadInv`.
-/

namespace Strn
open Finset

/-- The load of shard `k` after the first `j` items, when item `t` went to shard `a t`. -/
def rangeLoad (a p : ℕ → ℕ) (j k : ℕ) : ℕ := ∑ t ∈ range j, if a t = k then p t else 0

section Core
variable {a p : ℕ → ℕ}

theorem rangeLoad_eq_sum_filter (j k : ℕ) :
    rangeLoad a p j k = ∑ t ∈ (range j).filter (a · = k), p t :=
  (sum_filter _ _).symm

theorem rangeLoad_succ (j k : ℕ) :
    rangeLoad a p (j + 1) k = rangeLoad a p j k + if a j = k then p j else 0 :=
  sum_range_succ _ _

/-- Summed over the shards, the loads are the total of the items placed so far. -/
theorem sum_rangeLoad {N j : ℕ} (h : ∀ t < j, a t < N) :
    ∑ k ∈ range N, rangeLoad a p j k = ∑ t ∈ range j, p t := by
  unfold rangeLoad
  rw [sum_comm]
  refine sum_congr rfl fun t ht => ?_
  rw [sum_ite_eq]
  simp [h t (mem_range.mp ht)]

theorem sum_le_rangeLoad {j k : ℕ} {T : Finset ℕ} (hT : ∀ t ∈ T, t < j ∧ a t = k) :
    ∑ t ∈ T, p t ≤ rangeLoad a p j k := by
  rw [rangeLoad_eq_sum_filter]
  exact sum_le_sum_of_subset fun t ht => by simpa using hT t ht

/-- Items after `m` that avoid shard `i` leave its load as it was at `m`. -/
theorem rangeLoad_eq_of_avoid {i m : ℕ} : ∀ {n : ℕ}, m ≤ n → (∀ t, m ≤ t → t < n → a t ≠ i) →
    rangeLoad a p n i = rangeLoad a p m i
  | 0, hm, _ => by rw [Nat.le_zero.mp hm]
  | n + 1, hm, h => by
    rcases Nat.lt_or_eq_of_le hm with hm | rfl
    · rw [rangeLoad_succ, if_neg (h n (by omega) (by omega)), Nat.add_zero]
      exact rangeLoad_eq_of_avoid (by omega) fun t h1 h2 => h t h1 (by omega)
    · rfl

end Core

/-- The items before `j` too large to share a shard with item `j` under the bound `C`. -/
def bigItems (p : ℕ → ℕ) (C j : ℕ) : Finset ℕ := (range j).filter fun t => C < p t + p j

section Counting
variable {p : ℕ → ℕ} {N n C j : ℕ}

/-- An assignment `b` with every load at most `C`, when item `j` exceeds `C/3` and the items
    are sorted: each big item is alone among `0..j` on its shard and every other shard holds at
    most two of them, so `j + 1 ≤ B + 2 (N - B)` for `B` big items. -/
theorem opt_count {b : ℕ → ℕ} (hsort : ∀ s t, s ≤ t → t < n → p t ≤ p s) (hj : j < n)
    (hb : ∀ t < n, b t < N) (hC : ∀ k < N, rangeLoad b p n k ≤ C) (hbig : C < 3 * p j) :
    j + 1 ≤ (bigItems p C j).card + 2 * (N - (bigItems p C j).card) ∧
      (bigItems p C j).card ≤ N := by
  set Big := bigItems p C j
  set S : ℕ → Finset ℕ := fun k => (range (j + 1)).filter (b · = k)
  have hpj : ∀ t ∈ range (j + 1), p j ≤ p t := fun t ht =>
    hsort t j (by simp at ht; omega) hj
  have hsub : ∀ k < N, ∀ T ⊆ S k, ∑ t ∈ T, p t ≤ C := fun k hk T hT =>
    (sum_le_rangeLoad fun t ht => by
      have := hT ht
      simp only [S, mem_filter, mem_range] at this
      exact ⟨by omega, this.2⟩).trans (hC k hk)
  have hS : ∀ {k t}, t ∈ S k ↔ t < j + 1 ∧ b t = k := by simp [S]
  have hsingle : ∀ t ∈ Big, S (b t) = {t} := by
    intro t ht
    simp only [Big, bigItems, mem_filter, mem_range] at ht
    ext s
    rw [mem_singleton, hS]
    constructor
    · rintro ⟨hs, hbs⟩
      by_contra hne
      have h2 := hsub (b t) (hb t (by omega)) {t, s} fun x hx => by
        rcases mem_insert.mp hx with rfl | hx
        · exact hS.mpr ⟨by omega, rfl⟩
        · rw [mem_singleton.mp hx]; exact hS.mpr ⟨hs, hbs⟩
      rw [sum_pair (Ne.symm hne)] at h2
      have := hpj s (mem_range.mpr hs)
      omega
    · rintro rfl
      exact ⟨by omega, rfl⟩
  have himg : Big.image b ⊆ range N := fun k hk => by
    obtain ⟨t, ht, rfl⟩ := mem_image.mp hk
    simp only [Big, bigItems, mem_filter, mem_range] at ht
    exact mem_range.mpr (hb t (by omega))
  have hinj : (Big.image b).card = Big.card := card_image_of_injOn fun t ht t' ht' he => by
    have : t' ∈ S (b t) := by
      rw [he]
      exact (hsingle t' ht').symm ▸ mem_singleton_self t'
    rw [hsingle t ht] at this
    exact (mem_singleton.mp this).symm
  have hle2 : ∀ k ∈ range N \ Big.image b, (S k).card ≤ 2 := by
    intro k hk
    have hsum := hsub k (mem_range.mp (mem_sdiff.mp hk).1) (S k) subset_rfl
    have hlow := card_nsmul_le_sum (S k) p (p j) fun t ht => hpj t (mem_range.mpr (hS.mp ht).1)
    rw [smul_eq_mul] at hlow
    by_contra h3
    have : 3 * p j ≤ C := (Nat.mul_le_mul_right _ (by omega)).trans (hlow.trans hsum)
    omega
  have hcard : (range (j + 1)).card = ∑ k ∈ range N, (S k).card :=
    card_eq_sum_card_fiberwise fun t ht => mem_range.mpr (hb t (by simp at ht; omega))
  rw [← sum_sdiff himg, card_range] at hcard
  have hone : ∑ k ∈ Big.image b, (S k).card = Big.card := by
    rw [← hinj, card_eq_sum_ones]
    refine sum_congr rfl fun k hk => ?_
    obtain ⟨t, ht, rfl⟩ := mem_image.mp hk
    rw [hsingle t ht, card_singleton]
  have htwo : ∑ k ∈ range N \ Big.image b, (S k).card ≤ 2 * (N - Big.card) := by
    calc ∑ k ∈ range N \ Big.image b, (S k).card
        ≤ ∑ _k ∈ range N \ Big.image b, 2 := sum_le_sum hle2
      _ = 2 * (N - Big.card) := by
        rw [sum_const, card_sdiff himg, card_range, hinj, smul_eq_mul, Nat.mul_comm]
  have hN : Big.card ≤ N := hinj ▸ card_range N ▸ card_le_card himg
  exact ⟨by omega, hN⟩

/-- The greedy side: when item `j` is placed every load is at least `L`, with `C < L + p j`. A
    shard with no big item holds only items below `L`, so at least two of them, and
    `B + 2 (N - B) ≤ j` for `B` big items. -/
theorem greedy_count {a : ℕ → ℕ} (ha : ∀ t < j, a t < N) {L : ℕ}
    (hL : ∀ k < N, L ≤ rangeLoad a p j k) (hover : C < L + p j) (hpj : p j ≤ C) :
    (bigItems p C j).card + 2 * (N - (bigItems p C j).card) ≤ j := by
  set Big := bigItems p C j
  set T : ℕ → Finset ℕ := fun k => (range j).filter (a · = k)
  have himg : Big.image a ⊆ range N := fun k hk => by
    obtain ⟨t, ht, rfl⟩ := mem_image.mp hk
    simp only [Big, bigItems, mem_filter, mem_range] at ht
    exact mem_range.mpr (ha t ht.1)
  have hcard : (range j).card = ∑ k ∈ range N, (T k).card :=
    card_eq_sum_card_fiberwise fun t ht => mem_range.mpr (ha t (mem_range.mp ht))
  rw [← sum_sdiff himg, card_range] at hcard
  have hge2 : ∀ k ∈ range N \ Big.image a, 2 ≤ (T k).card := by
    intro k hk
    rw [mem_sdiff, mem_range] at hk
    have hsmall : ∀ t ∈ T k, p t < L := by
      intro t ht
      simp only [T, mem_filter, mem_range] at ht
      have hnb : t ∉ Big := fun hb => hk.2 (mem_image.mpr ⟨t, hb, ht.2⟩)
      simp only [Big, bigItems, mem_filter, mem_range, not_and, not_lt] at hnb
      have := hnb ht.1
      omega
    have hLk : L ≤ ∑ t ∈ T k, p t := (hL k hk.1).trans (rangeLoad_eq_sum_filter j k).le
    have hup := sum_le_card_nsmul (T k) p (L - 1) fun t ht => by have := hsmall t ht; omega
    rw [smul_eq_mul] at hup
    by_contra h
    have : L ≤ 1 * (L - 1) := hLk.trans (hup.trans (Nat.mul_le_mul_right _ (by omega)))
    omega
  have hbig : Big.card ≤ ∑ k ∈ Big.image a, (T k).card := by
    rw [card_eq_sum_card_image a Big]
    refine sum_le_sum fun k _ => card_le_card fun t ht => ?_
    simp only [Big, bigItems, mem_filter, mem_range] at ht
    simp only [T, mem_filter, mem_range]
    exact ⟨ht.1.1, ht.2⟩
  have hrest : 2 * (N - Big.card) ≤ ∑ k ∈ range N \ Big.image a, (T k).card :=
    calc 2 * (N - Big.card) ≤ 2 * (range N \ Big.image a).card := by
          rw [card_sdiff himg, card_range]
          have := card_image_le (s := Big) (f := a)
          omega
      _ = ∑ _k ∈ range N \ Big.image a, 2 := by rw [sum_const, smul_eq_mul, Nat.mul_comm]
      _ ≤ _ := sum_le_sum hge2
  omega

/-- Graham's bound for a greedy run over items sorted largest first, against any assignment
    `b` with every load at most `C`: every greedy load `F` has `3 N F ≤ (4 N - 1) C`. -/
theorem lpt_core {a b : ℕ → ℕ} (hN : 0 < N) (hsort : ∀ s t, s ≤ t → t < n → p t ≤ p s)
    (ha : ∀ t < n, a t < N)
    (hgreedy : ∀ j < n, ∀ k < N, rangeLoad a p j (a j) ≤ rangeLoad a p j k)
    (hb : ∀ t < n, b t < N) (hC : ∀ k < N, rangeLoad b p n k ≤ C) (i : ℕ) :
    3 * N * rangeLoad a p n i ≤ (4 * N - 1) * C := by
  by_cases hex : ∃ t < n, a t = i
  swap
  · push_neg at hex
    rw [rangeLoad_eq_of_avoid (Nat.zero_le n) fun t _ ht => hex t ht]
    simp [rangeLoad]
  -- `j` is the last item placed on shard `i`
  set I := (range n).filter (a · = i)
  have hI : I.Nonempty := let ⟨t, ht, hti⟩ := hex; ⟨t, by simp [I, ht, hti]⟩
  set j := I.max' hI
  have hjI : j < n ∧ a j = i :=
    let h := mem_filter.mp (I.max'_mem hI); ⟨mem_range.mp h.1, h.2⟩
  have hF : rangeLoad a p n i = rangeLoad a p j i + p j := by
    rw [rangeLoad_eq_of_avoid (m := j + 1) (by omega) fun t h1 h2 hat => by
      have := I.le_max' t (by simp [I, h2, hat]); omega, rangeLoad_succ, if_pos hjI.2]
  set L := rangeLoad a p j i
  have hL : ∀ k < N, L ≤ rangeLoad a p j k := by
    have := hgreedy j hjI.1
    rwa [hjI.2] at this
  have hNL : N * L ≤ ∑ t ∈ range j, p t := by
    rw [← sum_rangeLoad (N := N) fun t ht => ha t (by omega)]
    calc N * L = ∑ _k ∈ range N, L := by simp
      _ ≤ _ := sum_le_sum fun k hk => hL k (mem_range.mp hk)
  have htot : ∑ t ∈ range (j + 1), p t ≤ N * C :=
    calc ∑ t ∈ range (j + 1), p t
        ≤ ∑ t ∈ range n, p t := sum_le_sum_of_subset (range_subset.mpr (by omega))
      _ = ∑ k ∈ range N, rangeLoad b p n k := (sum_rangeLoad hb).symm
      _ ≤ ∑ _k ∈ range N, C := sum_le_sum fun k hk => hC k (mem_range.mp hk)
      _ = N * C := by simp
  rw [sum_range_succ] at htot
  have hpj : p j ≤ C := by
    have := sum_le_rangeLoad (a := b) (p := p) (j := n) (k := b j) (T := {j}) (by simp [hjI.1])
    rw [sum_singleton] at this
    exact this.trans (hC _ (hb j hjI.1))
  rw [hF]
  by_cases hsmall : 3 * p j ≤ C
  · obtain ⟨M, rfl⟩ : ∃ M, N = M + 1 := ⟨N - 1, by omega⟩
    rw [show 4 * (M + 1) - 1 = 4 * M + 3 by omega]
    linarith [Nat.mul_le_mul_left M hsmall]
  · have hle : L + p j ≤ C := by
      by_contra hover
      have h1 := opt_count hsort hjI.1 hb hC (by omega)
      have h2 := greedy_count (fun t ht => ha t (by omega)) hL (by omega) hpj
      omega
    calc 3 * N * (L + p j) ≤ 3 * N * C := Nat.mul_le_mul_left _ hle
      _ ≤ (4 * N - 1) * C := Nat.mul_le_mul_right _ (by omega)

end Counting

/-! ## The partition loop is such a greedy run -/

section Loop
variable {κ π : Type}

/-- A filtered list sum, read position by position. -/
theorem listLoad_eq_rangeLoad {α : Type} (g f : α → ℕ) (k : ℕ) : ∀ l : List α,
    ((l.filter (g · = k)).map f).sum =
      rangeLoad (fun t => (l[t]?.map g).getD 0) (fun t => (l[t]?.map f).getD 0) l.length k
  | [] => by simp [rangeLoad]
  | x :: xs => by
    have ih := listLoad_eq_rangeLoad g f k xs
    simp only [rangeLoad] at ih ⊢
    rw [List.length_cons, sum_range_succ']
    simp only [List.getElem?_cons_succ, List.getElem?_cons_zero, ← ih]
    by_cases hx : g x = k <;> simp [List.filter_cons, hx, Nat.add_comm]

theorem rangeLoad_congr {a a' p p' : ℕ → ℕ} {j : ℕ} (h : ∀ t < j, a t = a' t ∧ p t = p' t)
    (k : ℕ) : rangeLoad a p j k = rangeLoad a' p' j k :=
  sum_congr rfl fun t ht => by rw [(h t (mem_range.mp ht)).1, (h t (mem_range.mp ht)).2]

/-- The shard loads of the first `j` placements, as a greedy run over positions. -/
theorem shardLoad_take (placed : List ((κ × ℕ) × ℕ)) {j : ℕ} (hj : j ≤ placed.length) (k : ℕ) :
    shardLoad (placed.take j) k =
      rangeLoad (fun t => (placed[t]?.map (·.2)).getD 0)
        (fun t => (placed[t]?.map (·.1.2)).getD 0) j k := by
  rw [shardLoad, listLoad_eq_rangeLoad, List.length_take, min_eq_left hj]
  exact rangeLoad_congr (fun t ht => by simp [List.getElem?_take_of_lt ht]) k

/-- The load of shard `k` when the item named `key` goes to shard `assign key`. -/
def assignLoad (assign : κ → ℕ) (items : List (κ × ℕ)) (k : ℕ) : ℕ :=
  ((items.filter fun x => assign x.1 = k).map Prod.snd).sum

/-- The largest shard load of an assignment to `n` shards. -/
def makespan (assign : κ → ℕ) (items : List (κ × ℕ)) (n : ℕ) : ℕ :=
  ((List.range n).map (assignLoad assign items)).foldr max 0

theorem assignLoad_le_makespan (assign : κ → ℕ) (items : List (κ × ℕ)) {n k : ℕ} (hk : k < n) :
    assignLoad assign items k ≤ makespan assign items n :=
  List.le_max_of_le (List.mem_map_of_mem _ (List.mem_range.mpr hk)) le_rfl

theorem assignLoad_perm (assign : κ → ℕ) {l l' : List (κ × ℕ)} (h : l.Perm l') (k : ℕ) :
    assignLoad assign l k = assignLoad assign l' k :=
  ((h.filter _).map _).sum_eq

/-- Read in any order of the items, an assignment's load on shard `k` is at most its
    makespan. -/
theorem rangeLoad_le_makespan (assign : κ → ℕ) {items : List (κ × ℕ)}
    {placed : List ((κ × ℕ) × ℕ)} (hp : (placed.map Prod.fst).Perm items) {n k : ℕ} (hk : k < n) :
    rangeLoad (fun t => (placed[t]?.map fun x => assign x.1.1).getD 0)
      (fun t => (placed[t]?.map (·.1.2)).getD 0) placed.length k ≤ makespan assign items n :=
  calc _ = ((placed.filter fun x => assign x.1.1 = k).map (·.1.2)).sum :=
        (listLoad_eq_rangeLoad _ _ k placed).symm
    _ = assignLoad assign items k := by
        rw [← assignLoad_perm assign hp, assignLoad, List.filter_map, List.map_map]; rfl
    _ ≤ _ := assignLoad_le_makespan assign items hk

/-- LPT makespan bound. With `n ≥ 1` shards the partition returns, and its largest load
    `max_i ps_param_nums[i]` is at most `(4/3 - 1/(3n))` times the largest load of any
    assignment of the same parameters to the `n` shards (so of the best one). -/
theorem lpt_makespan_bound (entry : κ → π) (items : List (κ × ℕ)) {n : ℕ} (hn : 0 < n) :
    ∃ s, partitionParams entry items n = some s ∧
      ∀ assign : κ → ℕ, (∀ x ∈ items, assign x.1 < n) →
        ((s.paramNums.foldr max 0 : ℕ) : ℚ) ≤ (4 / 3 - 1 / (3 * n)) * makespan assign items n := by
  obtain ⟨s, placed, hs, hp, h⟩ := LoadInv.partitionLoop (M := maxNumel items) hn
    (sortByNumel items) [] (Partition.init κ π n) (loadInv_init entry n _)
    fun x hx => le_maxNumel ((sortByNumel_perm items).subset hx)
  simp only [List.nil_append] at hp h
  have hperm : (placed.map Prod.fst).Perm items := hp ▸ sortByNumel_perm items
  refine ⟨s, hs, fun assign hassign => ?_⟩
  set C := makespan assign items n
  set a : ℕ → ℕ := fun t => (placed[t]?.map (·.2)).getD 0
  set p : ℕ → ℕ := fun t => (placed[t]?.map (·.1.2)).getD 0
  set b : ℕ → ℕ := fun t => (placed[t]?.map fun x => assign x.1.1).getD 0
  have hget : ∀ t (ht : t < placed.length), placed[t]? = some placed[t] :=
    fun t ht => List.getElem?_eq_getElem ht
  have hsorted := sortByNumel_sorted items
  rw [← hp, List.pairwise_map, List.pairwise_iff_getElem] at hsorted
  have hsort : ∀ u t, u ≤ t → t < placed.length → p t ≤ p u := by
    intro u t hut ht
    rcases Nat.lt_or_eq_of_le hut with hut | rfl
    · simpa [p, hget t ht, hget u (by omega)] using hsorted u t (by omega) ht hut
    · exact le_rfl
  have ha : ∀ t < placed.length, a t < n := fun t ht => by
    simpa [a, hget t ht] using h.shards_lt _ (List.getElem_mem ht)
  have hgreedy : ∀ j < placed.length, ∀ k < n, rangeLoad a p j (a j) ≤ rangeLoad a p j k := by
    intro j hj k hk
    have := h.greedy j hj k hk
    rwa [shardLoad_take placed hj.le, shardLoad_take placed hj.le,
      show placed[j].2 = a j by simp [a, hget j hj]] at this
  have hb : ∀ t < placed.length, b t < n := fun t ht => by
    simpa [b, hget t ht] using
      hassign _ (hperm.subset (List.mem_map_of_mem _ (List.getElem_mem ht)))
  have hC : ∀ k < n, rangeLoad b p placed.length k ≤ C := fun k hk =>
    rangeLoad_le_makespan assign hperm hk
  have hcore : ∀ x ∈ s.paramNums, x ≤ (4 * n - 1) * C / (3 * n) := by
    intro x hx
    obtain ⟨i, hi, rfl⟩ := List.getElem_of_mem hx
    have hload := shardLoad_take placed le_rfl i
    rw [List.take_length] at hload
    rw [Nat.le_div_iff_mul_le (by omega), h.nums_eq i hi, hload, Nat.mul_comm]
    exact lpt_core hn hsort ha hgreedy hb hC i
  have hmax : 3 * n * s.paramNums.foldr max 0 ≤ (4 * n - 1) * C := by
    rw [Nat.mul_comm]
    exact (Nat.le_div_iff_mul_le (by omega)).mp (List.max_le_of_forall_le _ _ hcore)
  have hq : ((3 * n * s.paramNums.foldr max 0 : ℕ) : ℚ) ≤ ((4 * n - 1) * C : ℕ) := by
    exact_mod_cast hmax
  have h3n : (3 * n : ℚ) ≠ 0 := by positivity
  rw [show (4 / 3 - 1 / (3 * n) : ℚ) = (4 * n - 1) / (3 * n) by
      rw [eq_div_iff h3n, sub_mul, one_div_mul_cancel h3n]; ring,
    div_mul_eq_mul_div, le_div_iff₀ (by positivity)]
  push_cast [Nat.cast_sub (by omega : 1 ≤ 4 * n)] at hq
  linarith

theorem lpt_makespan_bound_spec_scenario :
    0 < 3 ∧ ∃ s, partitionParams id [(0, 50), (1, 40), (2, 30), (3, 20), (4, 10)] 3 = some s ∧
      ∀ assign : ℕ → ℕ, (∀ x ∈ [(0, 50), (1, 40), (2, 30), (3, 20), (4, 10)], assign x.1 < 3) →
        ((s.paramNums.foldr max 0 : ℕ) : ℚ) ≤
          (4 / 3 - 1 / (3 * 3)) * makespan assign [(0, 50), (1, 40), (2, 30), (3, 20), (4, 10)] 3 :=
  ⟨by decide, lpt_makespan_bound id _ (by decide)⟩

end Loop

end Strn
