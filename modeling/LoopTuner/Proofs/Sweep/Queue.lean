import LoopTuner.Proofs.Cost.Least
import LoopTuner.Proofs.Cost.Order
import LoopTuner.Search.BestFirst

/-!
# The queue of a sweep

An entry is numbered by the order in which it was put into the queue, and this number is that of its
node (`Sweep.Covers`). So the greatest entry is the one of least cost, by rank, and of least number among
equal costs (`Queued.not_before_popFrom`), and the best node is the first one that no other one
undercuts (`Cheapest`). Taking an entry and putting in a new one keep this.
-/

namespace LoopTuner

/-! ## Order of the entries -/

namespace Queued

/-- An entry that is taken before another one. -/
def Before (a b : Queued) : Prop :=
  Cost.rank a.cost < Cost.rank b.cost ∨ Cost.rank a.cost = Cost.rank b.cost ∧ a.order < b.order

theorem cmp_eq_lt_iff {a b : Queued} : a.cmp b = .lt ↔ b.Before a := by
  unfold cmp Cost.cmp Before
  rw [Ordering.then_eq_lt, Std.compare_eq_lt, Std.compare_eq_iff_eq, Nat.compare_eq_lt]

theorem Before.trans {a b c : Queued} (hab : a.Before b) (hbc : b.Before c) : a.Before c := by
  unfold Before at *
  rw [UInt64.lt_iff_toNat_lt, ← UInt64.toNat_inj] at *
  omega

theorem not_before_trans {a b c : Queued} (hab : ¬ a.Before b) (hbc : ¬ b.Before c) :
    ¬ a.Before c := by
  unfold Before at *
  rw [UInt64.lt_iff_toNat_lt, ← UInt64.toNat_inj] at *
  omega

theorem Before.irrefl (a : Queued) : ¬ a.Before a := by
  unfold Before
  rintro (h | ⟨-, h⟩)
  · exact UInt64.lt_irrefl _ h
  · exact Nat.lt_irrefl _ h

theorem before_of_not_before {a b : Queued} (h : ¬ b.Before a) (hne : a.order ≠ b.order) :
    a.Before b := by
  unfold Before at *
  rw [UInt64.lt_iff_toNat_lt, ← UInt64.toNat_inj] at *
  omega

/-! ## Taking an entry -/

theorem perm_popFrom (greatest : Queued) (rest : List Queued) :
    ((popFrom greatest rest).1 :: (popFrom greatest rest).2).Perm (greatest :: rest) := by
  induction rest generalizing greatest with
  | nil => exact List.Perm.refl _
  | cons e rest ih =>
    unfold popFrom
    split_ifs
    · exact (List.Perm.swap _ _ _).trans ((ih e).cons greatest)
    · exact ((List.Perm.swap _ _ _).trans ((ih greatest).cons e)).trans (List.Perm.swap _ _ _)

/-- No entry comes before the one that is taken. -/
theorem not_before_popFrom (greatest : Queued) (rest : List Queued) :
    ∀ e ∈ greatest :: rest, ¬ e.Before (popFrom greatest rest).1 := by
  induction rest generalizing greatest with
  | nil =>
    intro e he
    rw [List.mem_singleton.mp he]
    exact Before.irrefl greatest
  | cons first rest ih =>
    intro e he
    unfold popFrom
    split_ifs with hlt
    · rw [cmp_eq_lt_iff] at hlt
      rcases List.mem_cons.mp he with rfl | he
      · exact fun h => ih first first List.mem_cons_self (hlt.trans h)
      · exact ih first e he
    · rw [cmp_eq_lt_iff] at hlt
      rcases List.mem_cons.mp he with rfl | he
      · exact ih e e List.mem_cons_self
      · rcases List.mem_cons.mp he with rfl | he
        · exact not_before_trans hlt (ih greatest greatest List.mem_cons_self)
        · exact ih greatest e (List.mem_cons_of_mem _ he)

theorem pop?_eq_none {queue : List Queued} (h : pop? queue = none) : queue = [] := by
  cases queue with
  | nil => rfl
  | cons e rest => cases h

theorem perm_of_pop? {queue rest : List Queued} {e : Queued} (h : pop? queue = some (e, rest)) :
    (e :: rest).Perm queue := by
  cases queue with
  | nil => cases h
  | cons first others =>
    have hperm := perm_popFrom first others
    rw [Option.some.inj h] at hperm
    exact hperm

theorem not_before_of_pop? {queue rest : List Queued} {e : Queued}
    (h : pop? queue = some (e, rest)) : ∀ e' ∈ queue, ¬ e'.Before e := by
  cases queue with
  | nil => cases h
  | cons first others =>
    have hbefore := not_before_popFrom first others
    rw [Option.some.inj h] at hbefore
    exact hbefore

end Queued

/-! ## The best entry -/

/-- The first of the numbers below `size` whose cost is undercut by none of them. -/
structure Cheapest (cost : Nat → Float) (size best : Nat) : Prop where
  best_lt : best < size
  not_lt : ∀ j, j < size → ¬ cost j < cost best
  first : ∀ j, j < best → cost best < cost j

theorem Cheapest.congr {cost cost' : Nat → Float} {size best : Nat} (h : Cheapest cost size best)
    (hcost : ∀ j, j < size → cost' j = cost j) : Cheapest cost' size best where
  best_lt := h.best_lt
  not_lt j hj := by
    rw [hcost j hj, hcost best h.best_lt]
    exact h.not_lt j hj
  first j hj := by
    rw [hcost j (Nat.lt_trans hj h.best_lt), hcost best h.best_lt]
    exact h.first j hj

/-- One more number is the cheapest or leaves the cheapest as it was. -/
theorem Cheapest.succ {cost : Nat → Float} {size best : Nat} (h : Cheapest cost size best)
    (hcost : ∀ j, j < size + 1 → (cost j).isNaN = false) :
    Cheapest cost (size + 1) (if cost size < cost best then size else best) := by
  have hbest := hcost best (Nat.lt_succ_of_lt h.best_lt)
  have hsize := hcost size (Nat.lt_succ_self size)
  split_ifs with hlt
  · have hall : ∀ j, j < size → cost size < cost j := fun j hj =>
      Cost.lt_of_lt_of_not_lt hsize hbest (hcost j (Nat.lt_succ_of_lt hj)) hlt (h.not_lt j hj)
    refine ⟨Nat.lt_succ_self size, fun j hj => ?_, hall⟩
    rcases Nat.lt_succ_iff_lt_or_eq.mp hj with hj' | rfl
    · exact Cost.lt_asymm hsize (hcost j hj) (hall j hj')
    · exact Cost.lt_irrefl hsize
  · refine ⟨Nat.lt_succ_of_lt h.best_lt, fun j hj => ?_, h.first⟩
    rcases Nat.lt_succ_iff_lt_or_eq.mp hj with hj' | rfl
    · exact h.not_lt j hj'
    · exact hlt

/-! ## What the queue holds -/

/-- The state of a sweep that has put the numbers below `size` into its queue, one after another: the
entries left are those of the waiting numbers. -/
structure Sweep.Covers (cost : Nat → Float) (waiting : Nat → Prop) (size : Nat) (s : Sweep) :
    Prop where
  mem_queue_iff : ∀ e, e ∈ s.queue ↔
    (e.index < size ∧ waiting e.index) ∧ e.order = e.index ∧ e.cost = cost e.index
  nodup : s.queue.Nodup
  pushed_eq : s.pushed + 1 = size
  best : Cheapest cost size s.best
  bestCost_eq : s.bestCost = cost s.best

namespace Sweep.Covers

variable {cost cost' : Nat → Float} {waiting waiting' : Nat → Prop} {size : Nat} {s : Sweep}

theorem congr (h : s.Covers cost waiting size) (hcost : ∀ j, j < size → cost' j = cost j)
    (hwaiting : ∀ j, j < size → (waiting' j ↔ waiting j)) : s.Covers cost' waiting' size where
  mem_queue_iff e := by
    rw [h.mem_queue_iff]
    by_cases hlt : e.index < size
    · rw [hcost e.index hlt, hwaiting e.index hlt]
    · exact iff_of_false (fun he => hlt he.1.1) (fun he => hlt he.1.1)
  nodup := h.nodup
  pushed_eq := h.pushed_eq
  best := h.best.congr hcost
  bestCost_eq := h.bestCost_eq.trans (hcost s.best h.best.best_lt).symm

/-- Each waiting number has its entry. -/
theorem mem_queue (h : s.Covers cost waiting size) {i : Nat} (hi : i < size) (hwaiting : waiting i) :
    ⟨cost i, i, i⟩ ∈ s.queue :=
  (h.mem_queue_iff _).mpr ⟨⟨hi, hwaiting⟩, rfl, rfl⟩

theorem not_waiting_of_pop? (h : s.Covers cost waiting size) (hpop : Queued.pop? s.queue = none)
    {i : Nat} (hi : i < size) : ¬ waiting i := by
  intro hwaiting
  have := h.mem_queue hi hwaiting
  rw [Queued.pop?_eq_none hpop] at this
  cases this

variable {e : Queued} {queue : List Queued}

theorem waiting_of_pop? (h : s.Covers cost waiting size)
    (hpop : Queued.pop? s.queue = some (e, queue)) :
    (e.index < size ∧ waiting e.index) ∧ e.order = e.index ∧ e.cost = cost e.index :=
  (h.mem_queue_iff e).mp ((Queued.perm_of_pop? hpop).mem_iff.mp List.mem_cons_self)

/-- The entry that is taken is of least cost, and of least number among equal costs. -/
theorem least_of_pop? (h : s.Covers cost waiting size)
    (hpop : Queued.pop? s.queue = some (e, queue)) {j : Nat} (hj : j < size) (hwaiting : waiting j)
    (hne : j ≠ e.index) :
    Cost.rank (cost e.index) < Cost.rank (cost j) ∨
      Cost.rank (cost e.index) = Cost.rank (cost j) ∧ e.index < j := by
  obtain ⟨-, horder, hcost⟩ := h.waiting_of_pop? hpop
  have hbefore := Queued.before_of_not_before
    (Queued.not_before_of_pop? hpop _ (h.mem_queue hj hwaiting)) (by rw [horder]; exact hne.symm)
  unfold Queued.Before at hbefore
  rw [hcost, horder] at hbefore
  exact hbefore

/-- Once its entry is taken, a number does not wait any more. -/
theorem pop (h : s.Covers cost waiting size) (hpop : Queued.pop? s.queue = some (e, queue)) :
    Covers cost (fun i => waiting i ∧ i ≠ e.index) size { s with queue := queue } := by
  have hperm := Queued.perm_of_pop? hpop
  obtain ⟨hnot, hnodup⟩ := List.nodup_cons.mp (hperm.nodup_iff.mpr h.nodup)
  obtain ⟨-, horder, hcost⟩ := h.waiting_of_pop? hpop
  refine ⟨fun e' => ?_, hnodup, h.pushed_eq, h.best, h.bestCost_eq⟩
  have hmem := h.mem_queue_iff e'
  rw [← hperm.mem_iff, List.mem_cons] at hmem
  constructor
  · intro he'
    obtain ⟨⟨hlt, hwaiting⟩, horder', hcost'⟩ := hmem.mp (Or.inr he')
    refine ⟨⟨hlt, hwaiting, fun hindex => hnot ?_⟩, horder', hcost'⟩
    have heq : e' = e := by
      cases e
      cases e'
      simp only [Queued.mk.injEq] at horder hcost horder' hcost' hindex ⊢
      exact ⟨by rw [hcost', hcost, hindex], by rw [horder', horder, hindex], hindex⟩
    exact heq ▸ he'
  · rintro ⟨⟨hlt, hwaiting, hne⟩, hrest⟩
    rcases hmem.mpr ⟨⟨hlt, hwaiting⟩, hrest⟩ with rfl | he'
    · exact absurd rfl hne
    · exact he'

/-- The next number is put into the queue. -/
theorem push (h : s.Covers cost waiting size) (hwaiting : waiting size)
    (hcost : ∀ j, j < size + 1 → (cost j).isNaN = false) :
    (s.push (cost size) size).Covers cost waiting (size + 1) where
  mem_queue_iff e := by
    unfold Sweep.push
    rw [List.mem_cons, h.mem_queue_iff, h.pushed_eq]
    constructor
    · rintro (rfl | ⟨⟨hlt, hw⟩, hrest⟩)
      · exact ⟨⟨Nat.lt_succ_self size, hwaiting⟩, rfl, rfl⟩
      · exact ⟨⟨Nat.lt_succ_of_lt hlt, hw⟩, hrest⟩
    · rintro ⟨⟨hlt, hw⟩, horder, hc⟩
      rcases Nat.lt_succ_iff_lt_or_eq.mp hlt with hlt | heq
      · exact Or.inr ⟨⟨hlt, hw⟩, horder, hc⟩
      · cases e
        simp only at heq horder hc
        subst heq
        rw [horder, hc]
        exact Or.inl rfl
  nodup := by
    refine List.nodup_cons.mpr ⟨fun hmem => ?_, h.nodup⟩
    exact Nat.lt_irrefl _ ((h.mem_queue_iff _).mp hmem).1.1
  pushed_eq := congrArg (· + 1) h.pushed_eq
  best := by
    unfold Sweep.push
    rw [h.bestCost_eq]
    exact h.best.succ hcost
  bestCost_eq := by
    unfold Sweep.push
    rw [h.bestCost_eq]
    split_ifs
    · rfl
    · rfl

/-- Numbers are put into the queue one after another. -/
theorem pushAll {costs : List Float} (h : s.Covers cost waiting size)
    (hcosts : ∀ k c, costs[k]? = some c → cost (size + k) = c)
    (hwaiting : ∀ j, size ≤ j → j < size + costs.length → waiting j)
    (hcost : ∀ j, j < size + costs.length → (cost j).isNaN = false) :
    (s.pushAll (costs.zip (List.range' size costs.length))).Covers cost waiting
      (size + costs.length) := by
  induction costs generalizing s size with
  | nil => exact h
  | cons c costs ih =>
    rw [List.length_cons] at hwaiting hcost ⊢
    rw [List.range'_succ, List.zip_cons_cons, Sweep.pushAll, ← hcosts 0 c rfl, Nat.add_zero,
      show size + (costs.length + 1) = size + 1 + costs.length by omega]
    refine ih (h.push (hwaiting size (Nat.le_refl size) (by omega)) fun j hj => hcost j (by omega))
      (fun k d hk => ?_) (fun j hge hlt => hwaiting j (by omega) (by omega)) fun j hj =>
        hcost j (by omega)
    rw [show size + 1 + k = size + (k + 1) by omega]
    exact hcosts (k + 1) d hk

end Sweep.Covers

end LoopTuner
