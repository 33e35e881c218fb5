import LoopTuner.Kernel.Proposals
import Mathlib.Data.List.Forall2
import Mathlib.Tactic.SplitIfs

/-!
# The candidates of a kernel

Every candidate of a node continues its chain by one step: a step that its generator proposes for one
of the classified operations, and that applies to the program of the node
(`exists_of_mem_candidates`). A generator proposes steps of its own kind only.
-/

namespace LoopTuner

/-- The kind of transformation that a step is. -/
def Step.kind : Step → Kind
  | tile _ _ => .tiling
  | parallelize _ _ => .parallelization
  | interchange _ _ => .interchange
  | vectorize _ _ => .vectorization

namespace Proposals

/-- The pipeline of the given kinds, each with its own sizes. -/
def phases {σ : Type} (stages : List (Kind × Option (List Nat))) : Pipeline Kernel Step Nat σ :=
  stages.map fun e => phase e.1 e.2

/-- A step that is proposed for an operation of a classified kernel. -/
def Proposed (propose : Nat → OpClass → Nest → List Step) (k : Kernel)
    (classification : Classification Nat) (step : Step) : Prop :=
  ∃ operations op opClass nest, k.resolve classification = .ok operations ∧
    (op, opClass) ∈ operations ∧ k.nests[op]? = some nest ∧ step ∈ propose op opClass nest

theorem mem_stepsFor {propose : Nat → OpClass → Nest → List Step} {k : Kernel}
    {operations : List (Nat × OpClass)} {step : Step} (h : step ∈ stepsFor propose k operations) :
    ∃ op opClass nest, (op, opClass) ∈ operations ∧ k.nests[op]? = some nest ∧
      step ∈ propose op opClass nest := by
  unfold stepsFor at h
  obtain ⟨⟨op, opClass⟩, hmem, hstep⟩ := List.mem_flatMap.mp h
  cases hnest : k.nests[op]? with
  | none =>
    simp only [hnest] at hstep
    cases hstep
  | some nest =>
    simp only [hnest] at hstep
    exact ⟨op, opClass, nest, hmem, hnest, hstep⟩

/-- Each candidate comes from a step that applies. -/
theorem exists_of_mem_applied {node : KernelNode} {steps : List Step}
    {candidates : List (Candidate Kernel Step)} (h : applied node steps = .ok candidates)
    {c : Candidate Kernel Step} (hc : c ∈ candidates) :
    ∃ step ∈ steps, ∃ program, step.apply node.program = .ok program ∧
      c = .extending node program step := by
  induction steps generalizing candidates with
  | nil =>
    cases h
    cases hc
  | cons step steps ih =>
    unfold applied at h
    split at h
    · cases h
    · rename_i program happly
      split at h
      · cases h
      · rename_i rest hrest
        cases h
        rcases List.mem_cons.mp hc with rfl | hc
        · exact ⟨step, List.mem_cons_self, program, happly, rfl⟩
        · obtain ⟨step', hmem, hstep'⟩ := ih hrest hc
          exact ⟨step', List.mem_cons_of_mem _ hmem, hstep'⟩

theorem exists_of_mem_candidates {propose : Nat → OpClass → Nest → List Step} {node : KernelNode}
    {classification : Classification Nat} {cs : List (Candidate Kernel Step)}
    (h : candidates propose node classification = .ok cs) {c : Candidate Kernel Step} (hc : c ∈ cs) :
    ∃ step program, Proposed propose node.program classification step ∧
      step.apply node.program = .ok program ∧ c = .extending node program step := by
  unfold candidates at h
  split at h
  · cases h
  · rename_i operations hresolve
    obtain ⟨step, hstep, program, happly, rfl⟩ := exists_of_mem_applied h hc
    obtain ⟨op, opClass, nest, hmem, hnest, hpropose⟩ := mem_stepsFor hstep
    exact ⟨step, program, ⟨operations, op, opClass, nest, hresolve, hmem, hnest, hpropose⟩, happly, rfl⟩

/-! ## Choices and orders -/

theorem mem_selections {α : Type} {options : List (List α)} {choice : List α} :
    choice ∈ selections options ↔ List.Forall₂ (fun xs x => x ∈ xs) options choice := by
  induction options generalizing choice with
  | nil => rw [List.forall₂_nil_left_iff, selections, List.mem_singleton]
  | cons xs rest ih =>
    simp only [selections, List.mem_flatMap, List.mem_map, ih, List.forall₂_cons_left_iff]
    constructor
    · rintro ⟨x, hx, tail, htail, rfl⟩
      exact ⟨x, tail, hx, htail, rfl⟩
    · rintro ⟨x, tail, hx, htail, rfl⟩
      exact ⟨x, hx, tail, htail, rfl⟩

theorem perm_of_mem_picks {α : Type} {xs : List α} {pick : α × List α} (h : pick ∈ picks xs) :
    (pick.1 :: pick.2).Perm xs := by
  induction xs generalizing pick with
  | nil => cases h
  | cons x xs ih =>
    rcases List.mem_cons.mp h with rfl | h
    · exact List.Perm.refl _
    · obtain ⟨⟨y, rest⟩, hpick, rfl⟩ := List.mem_map.mp h
      exact (List.Perm.swap x y rest).trans ((ih hpick).cons x)

theorem exists_mem_picks {α : Type} {xs : List α} {x : α} (hx : x ∈ xs) :
    ∃ rest, (x, rest) ∈ picks xs := by
  induction xs with
  | nil => cases hx
  | cons y xs ih =>
    rcases List.mem_cons.mp hx with rfl | hx
    · exact ⟨xs, List.mem_cons_self⟩
    · obtain ⟨rest, hrest⟩ := ih hx
      exact ⟨y :: rest, List.mem_cons_of_mem _ (List.mem_map.mpr ⟨(x, rest), hrest, rfl⟩)⟩

/-- The arrangements of all elements are the permutations. -/
theorem mem_arrangements {α : Type} {xs order : List α} :
    order ∈ arrangements xs.length xs ↔ order.Perm xs := by
  generalize hcount : xs.length = count
  induction count generalizing xs order with
  | zero =>
    rw [List.length_eq_zero_iff.mp hcount, List.perm_nil, arrangements, List.mem_singleton]
  | succ count ih =>
    have hrest : ∀ x rest, (x, rest) ∈ picks xs → (x :: rest).Perm xs ∧ rest.length = count := by
      intro x rest hpick
      have hperm := perm_of_mem_picks hpick
      have hlength := hperm.length_eq
      rw [hcount, List.length_cons] at hlength
      exact ⟨hperm, Nat.succ.inj hlength⟩
    constructor
    · intro h
      obtain ⟨⟨x, rest⟩, hpick, horder⟩ := List.mem_flatMap.mp h
      obtain ⟨tail, htail, rfl⟩ := List.mem_map.mp horder
      obtain ⟨hperm, hlength⟩ := hrest x rest hpick
      exact (((ih hlength).mp htail).cons x).trans hperm
    · intro h
      cases order with
      | nil =>
        rw [List.perm_nil.mp h.symm] at hcount
        cases hcount
      | cons x tail =>
        obtain ⟨rest, hpick⟩ := exists_mem_picks (h.subset List.mem_cons_self)
        obtain ⟨hperm, hlength⟩ := hrest x rest hpick
        have htail : tail.Perm rest := (h.trans hperm.symm).cons_inv
        exact List.mem_flatMap.mpr
          ⟨(x, rest), hpick, List.mem_map.mpr ⟨tail, (ih hlength).mpr htail, rfl⟩⟩

/-! ## What is proposed -/

/-- The sizes that are proposed for a loop are proper divisors of its extent. -/
theorem divides_of_mem_tileSizes {sizes : List Nat} {l : Loop} {size : Nat}
    (h : size ∈ tileSizes sizes l) : 0 < size ∧ size < l.extent ∧ size ∣ l.extent := by
  unfold tileSizes at h
  split_ifs at h
  · cases h
  · have hfits := (List.mem_filter.mp h).2
    rw [Bool.and_eq_true, Bool.and_eq_true, decide_eq_true_iff, decide_eq_true_iff,
      beq_iff_eq] at hfits
    exact ⟨hfits.1.1, hfits.1.2, Nat.dvd_of_mod_eq_zero hfits.2⟩

/-- A proposed tiling gives some loops that are neither tiled nor parallel a proper divisor. -/
theorem exists_of_mem_tilings {sizes : Option (List Nat)} {op : Nat} {opClass : OpClass}
    {nest : Nest} {step : Step} (h : step ∈ ofKind .tiling sizes op opClass nest) :
    nest.isVectorized = false ∧ ∃ choice, step = .tile op choice ∧
      List.Forall₂ (fun l size => ∀ s, size = some s →
        s ∈ tileSizes (sizes.getD defaultTileSizes) l) nest.loops choice := by
  simp only [ofKind, tilings] at h
  split_ifs at h with hvectorized
  · cases h
  · obtain ⟨choice, hmem, rfl⟩ := List.mem_map.mp h
    refine ⟨Bool.eq_false_iff.mpr hvectorized, choice, rfl, ?_⟩
    have hall := mem_selections.mp (List.mem_filter.mp hmem).1
    rw [List.forall₂_map_left_iff] at hall
    refine hall.imp fun l size hsize s hs => ?_
    subst hs
    rcases List.mem_cons.mp hsize with hnone | hsome
    · cases hnone
    · obtain ⟨_, hmem, heq⟩ := List.mem_map.mp hsome
      exact Option.some.inj heq ▸ hmem

/-- Loops are proposed to run in parallel if none does yet, and only before the first reduction. -/
theorem exists_of_mem_parallelizations {sizes : Option (List Nat)} {op : Nat} {opClass : OpClass}
    {nest : Nest} {step : Step} (h : step ∈ ofKind .parallelization sizes op opClass nest) :
    (∀ l ∈ nest.loops, l.parallel = false) ∧ ∃ count, step = .parallelize op count ∧
      0 < count ∧ count ≤ (nest.loops.takeWhile fun l => !l.reduction).length := by
  simp only [ofKind, parallelizations] at h
  split_ifs at h with hparallel
  · cases h
  · obtain ⟨i, hi, rfl⟩ := List.mem_map.mp h
    refine ⟨fun l hl => ?_, i + 1, rfl, Nat.succ_pos i, List.mem_range.mp hi⟩
    exact Bool.eq_false_iff.mpr fun htrue => hparallel (List.any_eq_true.mpr ⟨l, hl, htrue⟩)

/-- A proposed interchange permutes the loops after the leading parallel ones. -/
theorem exists_of_mem_interchanges {sizes : Option (List Nat)} {op : Nat} {opClass : OpClass}
    {nest : Nest} {step : Step} (h : step ∈ ofKind .interchange sizes op opClass nest) :
    ∃ fixed order, fixed = (nest.loops.takeWhile (·.parallel)).length ∧
      step = .interchange op (List.range fixed ++ order) ∧
      order.Perm (List.range' fixed (nest.loops.length - fixed)) ∧
      (opClass = .reduction → endsInReduction nest.loops order = true) := by
  simp only [ofKind, interchanges] at h
  obtain ⟨order, hmem, rfl⟩ := List.mem_map.mp h
  obtain ⟨horder, hkeep⟩ := List.mem_filter.mp hmem
  refine ⟨_, order, rfl, rfl, mem_arrangements.mp horder, fun hclass => ?_⟩
  rw [Bool.and_eq_true, Bool.or_eq_true] at hkeep
  rcases hkeep.2 with hne | hends
  · rw [hclass] at hne
    cases hne
  · exact hends

/-- A width is proposed if the nest has none yet and the innermost loop is no reduction. It divides the
trip count. -/
theorem exists_of_mem_vectorizations {sizes : Option (List Nat)} {op : Nat} {opClass : OpClass}
    {nest : Nest} {step : Step} (h : step ∈ ofKind .vectorization sizes op opClass nest) :
    nest.isVectorized = false ∧ ∃ inner width, nest.innermost? = some inner ∧
      inner.source.reduction = false ∧ step = .vectorize op width ∧ 0 < width ∧
      width ∣ inner.tripCount := by
  simp only [ofKind, vectorizations] at h
  split at h
  · cases h
  · rename_i inner hinner
    split_ifs at h with hskip
    · cases h
    · obtain ⟨width, hmem, rfl⟩ := List.mem_map.mp h
      rw [Bool.or_eq_true, not_or, Bool.not_eq_true, Bool.not_eq_true] at hskip
      have hwidth := (List.mem_filter.mp hmem).2
      rw [Bool.and_eq_true, Bool.and_eq_true, decide_eq_true_iff, beq_iff_eq] at hwidth
      exact ⟨hskip.1, inner, width, hinner, hskip.2, rfl, hwidth.1.1,
        Nat.dvd_of_mod_eq_zero hwidth.2⟩

/-- The steps of a kind are proposed for the operation in question. -/
theorem kind_of_mem_ofKind {kind : Kind} {sizes : Option (List Nat)} {op : Nat} {opClass : OpClass}
    {nest : Nest} {step : Step} (h : step ∈ ofKind kind sizes op opClass nest) :
    step.kind = kind ∧ step.op = op := by
  cases kind with
  | tiling =>
    obtain ⟨-, _, rfl, -⟩ := exists_of_mem_tilings h
    exact ⟨rfl, rfl⟩
  | parallelization =>
    obtain ⟨-, _, rfl, -⟩ := exists_of_mem_parallelizations h
    exact ⟨rfl, rfl⟩
  | interchange =>
    obtain ⟨_, _, -, rfl, -⟩ := exists_of_mem_interchanges h
    exact ⟨rfl, rfl⟩
  | vectorization =>
    obtain ⟨-, _, _, -, -, rfl, -, -⟩ := exists_of_mem_vectorizations h
    exact ⟨rfl, rfl⟩

end Proposals

end LoopTuner
