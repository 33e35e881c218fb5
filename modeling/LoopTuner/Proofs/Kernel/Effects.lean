import LoopTuner.Proofs.Kernel.Frame

/-!
# What a step asks for and what it changes

A step applies to a kernel exactly if it names one of the operations and fits the loops of its nest
(`Step.Fits`). It then decides one thing about these loops (`Step.Changes`), and leaves the rest of the
kernel as it was (`Kernel.applies_iff_fits`).
-/

namespace LoopTuner

namespace Step

/-- What a step asks of the loops of its nest. -/
def Fits (step : Step) (loops : List Loop) : Prop :=
  match step with
  | tile _ sizes =>
    List.Forall₂ (fun l size => ∀ s, size = some s → 0 < s ∧ s ∣ l.extent) loops sizes
  | parallelize _ count => count ≤ loops.length
  | interchange _ order => order.Nodup ∧ ∀ i, i ∈ order ↔ i < loops.length
  | vectorize _ width => 0 < width

/-- What a step makes of the loops of its nest, position by position. A tiling gives the tiles whose sizes
it has, the first loops become parallel, an interchange fetches each loop from its old position, and one
loop, the source of the innermost one, gets the vector width. -/
def ChangesLoops (step : Step) (n : Nest) (loops : List Loop) : Prop :=
  match step with
  | tile _ sizes => ∀ i : Nat,
    loops[i]? = n.loops[i]?.map fun l => { l with tile := sizes[i]?.join.or l.tile }
  | parallelize _ count => ∀ i : Nat,
    loops[i]? = n.loops[i]?.map fun l => { l with parallel := i < count || l.parallel }
  | interchange _ order => ∀ i : Nat, loops[i]? = order[i]?.bind fun old => n.loops[old]?
  | vectorize _ width => ∃ inner < n.loops.length,
    n.loops[inner]? = n.innermost?.map (·.source) ∧ ∀ i : Nat,
      loops[i]? = n.loops[i]?.map fun l =>
        if i = inner then { l with vectorWidth := some width } else l

/-- The second nest is the first one after a step on it. -/
structure Changes (step : Step) (n n' : Nest) : Prop where
  id_eq : n'.id = n.id
  opClass_eq : n'.opClass = n.opClass
  length_eq : n'.loops.length = n.loops.length
  loops : step.ChangesLoops n n'.loops

end Step

/-! ## Loops -/

namespace Nest

variable {n : Nest} {loops loops' : List Loop}

/-- A step applies to a nest exactly if it fits the loops. -/
theorem exists_stepLoops_iff {step : Step} :
    (∃ loops', stepLoops step loops = .ok loops') ↔ step.Fits loops := by
  cases step with
  | tile op sizes =>
    simp only [stepLoops, Step.Fits]
    constructor
    · rintro ⟨loops', h⟩
      split_ifs at h with hlength
      exact ((retileLoops_eq_ok_iff hlength).mp h).1
    · intro h
      have hlength := h.length_eq.symm
      rw [if_pos hlength]
      exact ⟨_, (retileLoops_eq_ok_iff hlength).mpr ⟨h, rfl⟩⟩
  | parallelize op count =>
    simp only [stepLoops, Step.Fits]
    split_ifs with h <;> simp [h]
  | interchange op order =>
    simp only [stepLoops, Step.Fits, ← perm_range_iff]
    split_ifs with h <;> simp [h]
  | vectorize op width =>
    simp only [stepLoops, Step.Fits]
    split_ifs with h <;> simp [h]

theorem getElem?_zipWith_tiled {sizes : List (Option Nat)} (h : sizes.length = loops.length) (i : Nat) :
    (List.zipWith Loop.tiled loops sizes)[i]? =
      loops[i]?.map fun l => { l with tile := sizes[i]?.join.or l.tile } := by
  rw [List.getElem?_zipWith]
  rcases Nat.lt_or_ge i loops.length with hlt | hge
  · have hlt' : i < sizes.length := h ▸ hlt
    rw [List.getElem?_eq_getElem hlt, List.getElem?_eq_getElem hlt']
    cases sizes[i] <;> rfl
  · rw [List.getElem?_eq_none hge]
    rfl

theorem getElem?_parallelizeLoops (count : Nat) (loops : List Loop) (i : Nat) :
    (parallelizeLoops count loops)[i]? =
      loops[i]?.map fun l => { l with parallel := i < count || l.parallel } := by
  induction count generalizing loops i with
  | zero =>
    unfold parallelizeLoops
    simp
  | succ count ih =>
    cases loops with
    | nil => rfl
    | cons l loops =>
      unfold parallelizeLoops
      cases i with
      | zero => simp
      | succ i => simpa using ih loops i

theorem getElem?_vectorizeLoops (width : Nat) (loops : List Loop) (i : Nat) :
    (vectorizeLoops width loops)[i]? = loops[i]?.map fun l =>
      if i = innerPosition loops then { l with vectorWidth := some width } else l := by
  unfold vectorizeLoops
  rw [List.getElem?_modify]
  simp only [eq_comm (a := i)]
  split_ifs <;> simp

theorem innerPosition_lt (h : loops ≠ []) : innerPosition loops < loops.length := by
  have hpos := List.length_pos_iff.mpr h
  unfold innerPosition
  split <;> omega

/-- What a step that applies makes of its nest. -/
theorem changes_of_stepLoops {step : Step} (hne : n.loops ≠ [])
    (h : stepLoops step n.loops = .ok loops') : step.Changes n { n with loops := loops' } where
  id_eq := rfl
  opClass_eq := rfl
  length_eq := by simpa using (perm_declaration h).length_eq
  loops := by
    cases step with
    | tile op sizes =>
      simp only [stepLoops] at h
      split_ifs at h with hlength
      obtain ⟨-, rfl⟩ := (retileLoops_eq_ok_iff hlength).mp h
      exact getElem?_zipWith_tiled hlength
    | parallelize op count =>
      simp only [stepLoops] at h
      split_ifs at h
      cases h
      exact getElem?_parallelizeLoops count n.loops
    | interchange op order =>
      simp only [stepLoops] at h
      split_ifs at h with hperm
      cases h
      exact getElem?_filterMap_getElem? fun old hold => ((perm_range_iff.mp hperm).2 old).mp hold
    | vectorize op width =>
      simp only [stepLoops] at h
      split_ifs at h
      cases h
      exact ⟨innerPosition n.loops, innerPosition_lt hne, n.getElem?_innerPosition,
        getElem?_vectorizeLoops width n.loops⟩

end Nest

/-! ## Kernels -/

namespace Kernel

variable {k k' : Kernel}

/-- A step applies to a kernel exactly if it names an operation and fits the loops of its nest. -/
theorem exists_apply_iff {step : Step} :
    (∃ k', step.apply k = .ok k') ↔ ∃ n, k.nests[step.op]? = some n ∧ step.Fits n.loops := by
  constructor
  · rintro ⟨k', h⟩
    obtain ⟨n, loops, hn, hloops, -⟩ := Step.exists_of_apply h
    exact ⟨n, hn, Nest.exists_stepLoops_iff.mp ⟨loops, hloops⟩⟩
  · rintro ⟨n, hn, hfits⟩
    obtain ⟨loops, hloops⟩ := Nest.exists_stepLoops_iff.mpr hfits
    exact ⟨_, Step.apply_eq hn hloops⟩

/-- Every nest that steps have led to has loops. -/
theorem loops_ne_nil_of_applyAll {text : String} {steps : List Step}
    (hread : Kernel.read text = .ok k) (h : Step.applyAll steps k = .ok k') :
    ∀ n ∈ k'.nests, n.loops ≠ [] := by
  intro n hn
  have hreshaped := reshaped_of_applyAll h (Nest.reshaped_refl k.nests)
  obtain ⟨declared, hmem, hreshaped⟩ := exists_of_forall₂_of_mem hreshaped hn
  obtain ⟨front, last, -, hloops⟩ := declared_of_read hread declared hmem
  rw [← List.length_pos_iff, hreshaped.length_eq, hloops, List.length_append]
  exact Nat.lt_add_left _ Nat.one_pos

/-- Whatever steps were applied to a kernel text, another one applies exactly if it names an operation and
fits the loops of its nest, and then it changes what it is for and nothing else. -/
theorem applies_iff_fits {text : String} {steps : List Step} (hread : Kernel.read text = .ok k)
    (h : Step.applyAll steps k = .ok k') (step : Step) :
    ((∃ k'', step.apply k' = .ok k'') ↔ ∃ n, k'.nests[step.op]? = some n ∧ step.Fits n.loops) ∧
      ∀ k'', step.apply k' = .ok k'' →
        k''.nests.length = k'.nests.length ∧
        (∀ i, i ≠ step.op → k''.nests[i]? = k'.nests[i]?) ∧
        ∃ n n', k'.nests[step.op]? = some n ∧ k''.nests[step.op]? = some n' ∧ step.Changes n n' := by
  refine ⟨exists_apply_iff, fun k'' happly => ?_⟩
  obtain ⟨n, loops, hn, hloops, rfl⟩ := Step.exists_of_apply happly
  have hne := loops_ne_nil_of_applyAll hread h n (List.mem_of_getElem? hn)
  obtain ⟨hlt, -⟩ := List.getElem?_eq_some_iff.mp hn
  refine ⟨List.length_set, fun i hi => List.getElem?_set_ne hi.symm, n, _, hn,
    List.getElem?_set_self hlt, ?_⟩
  exact Nest.changes_of_stepLoops hne hloops

/-- A matrix product whose loops were tiled and interchanged. Its inner loop, which is not tiled, is not
the one that is vectorized. -/
theorem applies_iff_fits_gemm :
    let k : Kernel := ⟨[⟨"gemm", .contraction, [.declare "i" 8 false, .declare "k" 6 true]⟩]⟩
    let steps : List Step := [.tile 0 [none, some 3], .interchange 0 [1, 0]]
    let n : Nest := ⟨"gemm", .contraction, [⟨"k", 6, true, some 3, false, none⟩, .declare "i" 8 false]⟩
    let n' : Nest := ⟨"gemm", .contraction, [⟨"k", 6, true, some 3, false, some 5⟩, .declare "i" 8 false]⟩
    let step : Step := .vectorize 0 5
    Kernel.read "gemm contraction i=8 k=6" = .ok k ∧ Step.applyAll steps k = .ok ⟨[n]⟩ ∧
      step.apply ⟨[n]⟩ = .ok ⟨[n']⟩ ∧ step.Fits n.loops ∧ step.Changes n n' := by
  intro k steps n n' step
  have hread : Kernel.read "gemm contraction i=8 k=6" = .ok k := by rfl
  have hsteps : Step.applyAll steps k = .ok ⟨[n]⟩ := by rfl
  have happly : step.apply ⟨[n]⟩ = .ok ⟨[n']⟩ := by rfl
  obtain ⟨hiff, hchanges⟩ := applies_iff_fits hread hsteps step
  obtain ⟨m, hm, hfits⟩ := hiff.mp ⟨_, happly⟩
  obtain ⟨-, -, m₁, m₂, hm₁, hm₂, hchange⟩ := hchanges _ happly
  cases hm
  cases hm₁
  cases hm₂
  exact ⟨hread, hsteps, happly, hfits, hchange⟩

end Kernel

end LoopTuner
