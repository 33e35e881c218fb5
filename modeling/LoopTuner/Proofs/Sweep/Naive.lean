import LoopTuner.Proofs.Growth.Operations
import LoopTuner.Proofs.Sweep.Queue

/-!
# A sweep without a queue

The naive sweep keeps no queue and no best node: every round looks through all nodes that were not
taken yet for the least one, by rank of cost and then by number, and appends all of its candidates. A
best-first search does the same (`Search.grow_eq_naive`): its queue holds the nodes that were not taken
(`Naive.Tracked`).
-/

namespace LoopTuner

variable {P T O σ ε : Type}

/-! ## The naive sweep -/

/-- The candidates for a node, whether it is expanded or not. -/
def Pipeline.generate (p : Pipeline P T O σ) (classification : Classification O) (n : Node P T)
    (memory : σ) : Except Error (List (Candidate P T)) × σ :=
  match p[n.stage]? with
  | none => (.ok [], memory)
  | some phase => phase.propose n n.stage classification memory

/-- The generators answer every question with candidates. -/
def Pipeline.NeverFails (p : Pipeline P T O σ) : Prop :=
  ∀ phase ∈ p, ∀ n stage classification memory,
    ∃ candidates, (phase.propose n stage classification memory).1 = .ok candidates

/-- The stored cost of node `i`, infinite if there is none. -/
def Tree.costOf (t : Tree P T) (i : Nat) : Float :=
  ((t.node? i).bind (·.evaluation)).getD Cost.infinity

structure Naive (P T σ ε : Type) where
  tree : Tree P T
  /-- The nodes whose candidates were generated. -/
  taken : List Nat
  memory : σ
  meter : Meter P T ε

namespace Naive

/-- A measured root. -/
def start (root : Node P T) (memory : σ) (meter : Meter P T ε) : Naive P T σ ε where
  tree := .ofRoot (meter.measure root).2.1
  taken := []
  memory := memory
  meter := (meter.measure root).2.2

/-- The nodes that were not taken yet. -/
def waiting (r : Naive P T σ ε) : List Nat :=
  (List.range r.tree.size).filter fun i => !r.taken.contains i

/-- The waiting node of least cost; among equals the first. -/
def next? (r : Naive P T σ ε) : Option Nat :=
  Cost.leastBy (fun i => Cost.rank (r.tree.costOf i)) r.waiting

/-- Takes node `i`: measures all of its candidates in order and appends them cheapest first. -/
def take (p : Pipeline P T O σ) (classification : Classification O) (r : Naive P T σ ε) (i : Nat) :
    Except Failure (Naive P T σ ε) :=
  match r.tree.node? i with
  | none => .error (.violation (.noNode i))
  | some n =>
    match p.generate classification n r.memory with
    | (.error e, _) => .error (.error e)
    | (.ok candidates, memory) =>
      let (measured, meter) := r.meter.measureAll (Candidate.toNodes candidates n i)
      .ok {
        tree := r.tree.expandedBy i ((measured.mergeSort fun a b => Cost.le a.1 b.1).map (·.2))
        taken := i :: r.taken
        memory := memory
        meter := meter }

/-- At most the given number of rounds, until every node was taken. -/
def rounds (p : Pipeline P T O σ) (classification : Classification O) :
    Nat → Naive P T σ ε → Except Failure (Naive P T σ ε)
  | 0, r => .ok r
  | count + 1, r =>
    match r.next? with
    | none => .ok r
    | some i =>
      match r.take p classification i with
      | .error f => .error f
      | .ok r => rounds p classification count r

end Naive

/-! ## Generators that do not fail -/

theorem Pipeline.NeverFails.generate {p : Pipeline P T O σ} (hp : p.NeverFails)
    (classification : Classification O) (n : Node P T) (memory : σ) :
    ∃ candidates memory', p.generate classification n memory = (.ok candidates, memory') := by
  unfold Pipeline.generate
  cases hphase : p[n.stage]? with
  | none => exact ⟨[], memory, rfl⟩
  | some phase =>
    obtain ⟨candidates, h⟩ :=
      hp phase (List.mem_of_getElem? hphase) n n.stage classification memory
    exact ⟨candidates, _, Prod.ext h rfl⟩

/-- For a node that is not expanded the expander asks its generator. -/
theorem Expander.candidates_eq {x : Expander P T O σ} {n : Node P T} (hn : n.expanded = false)
    {classification : Classification O} {candidates : List (Candidate P T)} {memory : σ}
    (h : x.pipeline.generate classification n x.memory = (.ok candidates, memory)) (i : Nat) :
    x.candidates n i classification = (.ok candidates, { x with memory := memory }) := by
  unfold Pipeline.generate at h
  cases hphase : x.pipeline[n.stage]? with
  | none =>
    rw [hphase] at h
    cases h
    exact candidates_of_idle (Or.inr (List.getElem?_eq_none_iff.mp hphase)) i classification
  | some phase =>
    rw [hphase] at h
    simp only at h
    rw [candidates_of_phase hn hphase, h]
    rfl

theorem Expander.generate_of_candidates {x x' : Expander P T O σ} {n : Node P T} {i : Nat}
    (hn : n.expanded = false) {classification : Classification O} {candidates : List (Candidate P T)}
    (h : x.candidates n i classification = (.ok candidates, x')) :
    ∃ memory, x.pipeline.generate classification n x.memory = (.ok candidates, memory) := by
  unfold Pipeline.generate
  rcases candidates_ok_cases h with ⟨hexpanded | hstage, rfl, -⟩ | ⟨phase, -, hphase, hpropose⟩
  · rw [hn] at hexpanded
    cases hexpanded
  · rw [List.getElem?_eq_none hstage]
    exact ⟨x.memory, rfl⟩
  · rw [hphase]
    exact ⟨x'.memory, hpropose⟩

/-! ## Costs of nodes -/

theorem Tree.costOf_of_node? {t : Tree P T} {i : Nat} {n : Node P T} {cost : Float}
    (h : t.node? i = some n) (hcost : n.evaluation = some cost) : t.costOf i = cost := by
  unfold costOf
  rw [h, Option.bind_some, hcost]
  rfl

theorem Tree.costOf_expandedBy_old {t : Tree P T} {i : Nat} (p : Nat) (kids : List (Node P T))
    (hi : i < t.size) : (t.expandedBy p kids).costOf i = t.costOf i := by
  unfold costOf
  rw [bind_node?_expandedBy (fun _ _ => rfl) p kids hi]

/-- Measuring a node for the first time yields a usable cost. -/
theorem Meter.isUsable_measure {m : Meter P T ε} {n : Node P T} (h : n.evaluation = none) :
    Cost.isUsable (m.measure n).1 = true := by
  unfold measure
  rw [h]
  simp only
  split
  · rename_i cost husable
    unfold usable? at husable
    split at husable
    · split_ifs at husable with hu
      cases husable
      exact hu
    · cases husable
  · exact Cost.isUsable_infinity

/-- The cost of a node is a number, unless a caller stored something else. -/
theorem Meter.isNaN_measure {m : Meter P T ε} {n : Node P T}
    (h : ∀ c, n.evaluation = some c → c.isNaN = false) : (m.measure n).1.isNaN = false := by
  cases hevaluation : n.evaluation with
  | none => exact Cost.isNaN_of_isUsable (isUsable_measure hevaluation)
  | some c =>
    rw [measure_of_evaluation hevaluation]
    exact h c hevaluation

theorem Meter.isUsable_of_mem_measureAll {m : Meter P T ε} {nodes : List (Node P T)}
    (hnodes : ∀ n ∈ nodes, n.evaluation = none) {e : Float × Node P T}
    (h : e ∈ (m.measureAll nodes).1) : Cost.isUsable e.1 = true := by
  induction nodes generalizing m with
  | nil => cases h
  | cons n nodes ih =>
    obtain ⟨hn, hrest⟩ := List.forall_mem_cons.mp hnodes
    unfold measureAll at h
    rcases List.mem_cons.mp h with rfl | h
    · exact isUsable_measure hn
    · exact ih hrest h

/-! ## What a sweep keeps -/

/-- The invariant of a best-first sweep, next to the naive one. -/
structure Naive.Tracked (r : Naive P T σ ε) (s : Sweep) : Prop where
  measured : ∀ i n, r.tree.node? i = some n → n.evaluation = some (r.tree.costOf i)
  numbers : ∀ i, i < r.tree.size → (r.tree.costOf i).isNaN = false
  taken_lt : ∀ i ∈ r.taken, i < r.tree.size
  unexpanded : ∀ i n, r.tree.node? i = some n → i ∉ r.taken → n.expanded = false
  covers : s.Covers r.tree.costOf (· ∉ r.taken) r.tree.size

namespace Naive

variable {r : Naive P T σ ε} {s : Sweep}

theorem mem_waiting {i : Nat} : i ∈ r.waiting ↔ i < r.tree.size ∧ i ∉ r.taken := by
  unfold waiting
  rw [List.mem_filter, List.mem_range, Bool.not_eq_true', ← Bool.not_eq_true,
    List.contains_iff_mem]

theorem pairwise_waiting (r : Naive P T σ ε) : r.waiting.Pairwise (· < ·) :=
  List.pairwise_lt_range.filter _

theorem Tracked.next?_of_none (h : r.Tracked s) (hpop : Queued.pop? s.queue = none) :
    r.next? = none := by
  unfold next?
  rw [Cost.leastBy_eq_none, List.eq_nil_iff_forall_not_mem]
  intro i hi
  obtain ⟨hlt, hnot⟩ := mem_waiting.mp hi
  exact h.covers.not_waiting_of_pop? hpop hlt hnot

/-- The queue hands out the node that the naive sweep takes. -/
theorem Tracked.next?_of_some (h : r.Tracked s) {e : Queued} {queue : List Queued}
    (hpop : Queued.pop? s.queue = some (e, queue)) : r.next? = some e.index := by
  obtain ⟨hwaiting, -⟩ := h.covers.waiting_of_pop? hpop
  refine Cost.leastBy_eq_of_before (pairwise_waiting r) (mem_waiting.mpr hwaiting) fun j hj hne => ?_
  obtain ⟨hlt, hnot⟩ := mem_waiting.mp hj
  exact h.covers.least_of_pop? hpop hlt hnot hne

/-! ### Growing by measured nodes -/

/-- The naive sweep after taking node `i`, with the new nodes and their costs. -/
def grown (r : Naive P T σ ε) (i : Nat) (kids : List (Float × Node P T)) (memory : σ)
    (meter : Meter P T ε) : Naive P T σ ε :=
  ⟨r.tree.expandedBy i (kids.map (·.2)), i :: r.taken, memory, meter⟩

section Grown

variable {i : Nat} {kids : List (Float × Node P T)} {memory : σ} {meter : Meter P T ε}

theorem size_grown :
    (r.grown i kids memory meter).tree.size = r.tree.size + kids.length := by
  unfold grown
  rw [Tree.size_expandedBy, List.length_map]

/-- Every node is an old one or a new one. -/
theorem node?_grown {j : Nat} {n : Node P T} (h : (r.grown i kids memory meter).tree.node? j = some n) :
    (∃ m, r.tree.node? j = some m ∧ n.evaluation = m.evaluation ∧ (j ≠ i → n = m)) ∨
      ∃ k cost, j = r.tree.size + k ∧ kids[k]? = some (cost, n) := by
  rcases Nat.lt_or_ge j r.tree.size with hlt | hge
  · obtain ⟨m, hm, rfl⟩ := Tree.node?_expandedBy_old hlt h
    refine Or.inl ⟨m, hm, ?_, fun hne => if_neg hne⟩
    split_ifs <;> rfl
  · obtain ⟨k, rfl⟩ := Nat.exists_eq_add_of_le hge
    unfold grown at h
    rw [Tree.node?_expandedBy_new, List.getElem?_map] at h
    obtain ⟨⟨cost, _⟩, hk, rfl⟩ := Option.map_eq_some_iff.mp h
    exact Or.inr ⟨k, cost, rfl, hk⟩

theorem costOf_grown_old {j : Nat} (hj : j < r.tree.size) :
    (r.grown i kids memory meter).tree.costOf j = r.tree.costOf j :=
  Tree.costOf_expandedBy_old _ _ hj

theorem costOf_grown_new {k : Nat} {kid : Float × Node P T} (hk : kids[k]? = some kid)
    (hkid : kid.2.evaluation = some kid.1) :
    (r.grown i kids memory meter).tree.costOf (r.tree.size + k) = kid.1 := by
  refine Tree.costOf_of_node? ?_ hkid
  unfold grown
  rw [Tree.node?_expandedBy_new, List.getElem?_map, hk]
  rfl

/-- The queue after a round holds the entries of the nodes that wait then. -/
theorem Tracked.covers_grown (h : r.Tracked s) {e : Queued} {queue : List Queued}
    (hpop : Queued.pop? s.queue = some (e, queue)) (hkids : ∀ kid ∈ kids, kid.2.evaluation = some kid.1)
    (hnumbers : ∀ j, j < (r.grown e.index kids memory meter).tree.size →
      ((r.grown e.index kids memory meter).tree.costOf j).isNaN = false) :
    (Sweep.pushAll { s with queue := queue }
      ((kids.map (·.1)).zip (List.range' r.tree.size kids.length))).Covers
        (r.grown e.index kids memory meter).tree.costOf
        (· ∉ (r.grown e.index kids memory meter).taken)
        (r.grown e.index kids memory meter).tree.size := by
  have hlength : kids.length = (kids.map (·.1)).length := (List.length_map _).symm
  have hlt := (h.covers.waiting_of_pop? hpop).1.1
  have hpopped : Sweep.Covers (r.grown e.index kids memory meter).tree.costOf
      (· ∉ (r.grown e.index kids memory meter).taken) r.tree.size { s with queue := queue } := by
    refine (h.covers.pop hpop).congr (fun j hj => costOf_grown_old hj) fun j _ => ?_
    show j ∉ e.index :: r.taken ↔ _
    rw [List.mem_cons, not_or]
    exact and_comm
  rw [size_grown, hlength] at hnumbers ⊢
  refine hpopped.pushAll (fun k c hk => ?_) (fun j hge _ hmem => ?_) hnumbers
  · rw [List.getElem?_map] at hk
    obtain ⟨kid, hkid, rfl⟩ := Option.map_eq_some_iff.mp hk
    exact costOf_grown_new hkid (hkids kid (List.mem_of_getElem? hkid))
  · rcases List.mem_cons.mp hmem with rfl | hmem
    · exact absurd hlt (Nat.not_lt.mpr hge)
    · exact absurd (h.taken_lt j hmem) (Nat.not_lt.mpr hge)

/-- Taking the node that the queue hands out keeps the invariant. -/
theorem Tracked.grown (h : r.Tracked s) {e : Queued} {queue : List Queued}
    (hpop : Queued.pop? s.queue = some (e, queue))
    (hkids : ∀ kid ∈ kids, kid.2.evaluation = some kid.1 ∧ kid.1.isNaN = false ∧
      kid.2.expanded = false) :
    (r.grown e.index kids memory meter).Tracked
      (Sweep.pushAll { s with queue := queue }
        ((kids.map (·.1)).zip (List.range' r.tree.size kids.length))) := by
  have hstored : ∀ kid ∈ kids, kid.2.evaluation = some kid.1 := fun kid hk => (hkids kid hk).1
  have hnumbers : ∀ j, j < (r.grown e.index kids memory meter).tree.size →
      ((r.grown e.index kids memory meter).tree.costOf j).isNaN = false := by
    intro j hj
    obtain ⟨n, hn⟩ := Tree.exists_node? hj
    rcases node?_grown hn with ⟨m, hm, -⟩ | ⟨k, cost, rfl, hk⟩
    · have hlt := Tree.lt_size_of_node? hm
      rw [costOf_grown_old hlt]
      exact h.numbers j hlt
    · have hmem := List.mem_of_getElem? hk
      rw [costOf_grown_new hk (hstored _ hmem)]
      exact (hkids _ hmem).2.1
  exact {
    measured := by
      intro j n hn
      rcases node?_grown hn with ⟨m, hm, hevaluation, -⟩ | ⟨k, cost, rfl, hk⟩
      · rw [hevaluation, costOf_grown_old (Tree.lt_size_of_node? hm)]
        exact h.measured j m hm
      · have hmem := List.mem_of_getElem? hk
        rw [costOf_grown_new hk (hstored _ hmem)]
        exact hstored _ hmem
    numbers := hnumbers
    taken_lt := by
      intro j hj
      rw [size_grown]
      rcases List.mem_cons.mp hj with rfl | hj
      · exact Nat.lt_add_right _ (h.covers.waiting_of_pop? hpop).1.1
      · exact Nat.lt_add_right _ (h.taken_lt j hj)
    unexpanded := by
      intro j n hn hj
      rcases node?_grown hn with ⟨m, hm, -, hsame⟩ | ⟨k, cost, rfl, hk⟩
      · rw [hsame fun heq => hj (heq ▸ List.mem_cons_self)]
        exact h.unexpanded j m hm fun hmem => hj (List.mem_cons_of_mem _ hmem)
      · exact (hkids _ (List.mem_of_getElem? hk)).2.2
    covers := h.covers_grown hpop hstored hnumbers }

end Grown

end Naive

end LoopTuner
