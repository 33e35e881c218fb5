import LoopTuner.Kernel.Step
import LoopTuner.Proofs.Lists
import Mathlib.Tactic.SplitIfs

/-!
# What a step does to a nest

A step changes the loops of one nest: tiling and vectorizing change single loops in place,
parallelizing marks the first loops, and an interchange permutes them. No step changes what was
declared of a loop (`perm_declaration`).
-/

namespace LoopTuner

/-! ## Loops -/

namespace Loop

/-- What a loop was declared with. -/
def declaration (l : Loop) : String × Nat × Bool := (l.name, l.extent, l.reduction)

/-- The loop tiled by the given size, if there is one. -/
def tiled (l : Loop) : Option Nat → Loop
  | none => l
  | some size => { l with tile := some size }

@[simp] theorem declaration_tiled (l : Loop) (size : Option Nat) :
    (l.tiled size).declaration = l.declaration := by
  cases size <;> rfl

@[simp] theorem parallel_tiled (l : Loop) (size : Option Nat) :
    (l.tiled size).parallel = l.parallel := by
  cases size <;> rfl

@[simp] theorem reduction_tiled (l : Loop) (size : Option Nat) :
    (l.tiled size).reduction = l.reduction := by
  cases size <;> rfl

@[simp] theorem vectorWidth_tiled (l : Loop) (size : Option Nat) :
    (l.tiled size).vectorWidth = l.vectorWidth := by
  cases size <;> rfl

/-- A loop is tiled by a size that it admits, if one is given. -/
theorem retile_eq_ok_iff {l l' : Loop} {size : Option Nat} :
    l.retile size = .ok l' ↔ (∀ s, size = some s → l.Admits s) ∧ l' = l.tiled size := by
  unfold retile
  cases size with
  | none => simp [tiled, eq_comm]
  | some size =>
    simp only
    split_ifs with hadmits
    · simp [tiled, hadmits, eq_comm]
    · simp [hadmits]

end Loop

namespace Nest

/-! ## Tiling -/

/-- Loops are tiled one by one, each by a size that it admits. -/
theorem retileLoops_eq_ok_iff {loops loops' : List Loop} {sizes : List (Option Nat)}
    (hlength : sizes.length = loops.length) :
    retileLoops loops sizes = .ok loops' ↔
      List.Forall₂ (fun l size => ∀ s, size = some s → l.Admits s) loops sizes ∧
        loops' = List.zipWith Loop.tiled loops sizes := by
  induction loops generalizing sizes loops' with
  | nil =>
    obtain rfl := List.length_eq_zero_iff.mp hlength
    simp [retileLoops, eq_comm]
  | cons l loops ih =>
    cases sizes with
    | nil => cases hlength
    | cons size sizes =>
      have htail : sizes.length = loops.length := Nat.succ.inj hlength
      rw [List.forall₂_cons, List.zipWith_cons_cons]
      constructor
      · intro h
        unfold retileLoops at h
        split at h
        · cases h
        · rename_i l' hl
          split at h
          · cases h
          · rename_i rest hrest
            cases h
            obtain ⟨hsize, rfl⟩ := Loop.retile_eq_ok_iff.mp hl
            obtain ⟨hsizes, rfl⟩ := (ih htail).mp hrest
            exact ⟨⟨hsize, hsizes⟩, rfl⟩
      · rintro ⟨⟨hsize, hsizes⟩, rfl⟩
        have hl : l.retile size = .ok (l.tiled size) := Loop.retile_eq_ok_iff.mpr ⟨hsize, rfl⟩
        have hrest : retileLoops loops sizes = .ok (List.zipWith Loop.tiled loops sizes) :=
          (ih htail).mpr ⟨hsizes, rfl⟩
        unfold retileLoops
        simp only [hl, hrest]

/-- What tiling does not touch stays as it was. -/
theorem map_zipWith_tiled {α : Type} {view : Loop → α}
    (hview : ∀ (l : Loop) size, view (l.tiled size) = view l) {loops : List Loop}
    {sizes : List (Option Nat)} (hlength : sizes.length = loops.length) :
    (List.zipWith Loop.tiled loops sizes).map view = loops.map view := by
  induction loops generalizing sizes with
  | nil => rfl
  | cons l loops ih =>
    cases sizes with
    | nil => cases hlength
    | cons size sizes =>
      rw [List.zipWith_cons_cons, List.map_cons, List.map_cons, hview,
        ih (Nat.succ.inj hlength)]

/-! ## Running in parallel -/

theorem parallelizeLoops_eq (count : Nat) (loops : List Loop) :
    parallelizeLoops count loops =
      (loops.take count).map (fun l => { l with parallel := true }) ++ loops.drop count := by
  induction count generalizing loops with
  | zero =>
    unfold parallelizeLoops
    rfl
  | succ count ih =>
    cases loops with
    | nil => rfl
    | cons l loops =>
      unfold parallelizeLoops
      rw [ih, List.take_succ_cons, List.map_cons, List.drop_succ_cons, List.cons_append]

theorem map_parallelizeLoops {α : Type} {view : Loop → α}
    (hview : ∀ l : Loop, view { l with parallel := true } = view l) (count : Nat)
    (loops : List Loop) : (parallelizeLoops count loops).map view = loops.map view := by
  have hfront : ∀ front : List Loop,
      (front.map fun l => { l with parallel := true }).map view = front.map view := by
    intro front
    rw [List.map_map]
    exact List.map_congr_left fun l _ => hview l
  rw [parallelizeLoops_eq, List.map_append, hfront, ← List.map_append, List.take_append_drop]

/-! ## Reordering -/

theorem perm_reorderLoops {order : List Nat} {loops : List Loop}
    (h : order.Perm (List.range loops.length)) : (reorderLoops order loops).Perm loops :=
  perm_filterMap_getElem? h

/-! ## Vectorizing -/

/-- The loop that a vector width is given to is the source of the innermost loop. -/
theorem getElem?_innerPosition (n : Nest) :
    n.loops[innerPosition n.loops]? = n.innermost?.map (·.source) := by
  have hlast : n.innermost?.map (·.source) =
      (n.loops.reverse.find? Loop.isTiled).or n.loops.getLast? := by
    unfold innermost? schedule
    rw [List.getLast?_append, List.getLast?_map, List.getLast?_map, List.getLast?_filter]
    cases n.loops.reverse.find? Loop.isTiled with
    | none => cases n.loops.getLast? <;> rfl
    | some l => rfl
  rw [hlast, List.find?_eq_bind_findIdx?_getElem?]
  unfold innerPosition
  cases hidx : n.loops.reverse.findIdx? Loop.isTiled with
  | none => exact List.getLast?_eq_getElem?.symm
  | some fromEnd =>
    obtain ⟨hlt, -⟩ := List.findIdx?_eq_some_iff_getElem.mp hidx
    rw [List.length_reverse] at hlt
    simp only [Option.bind_some]
    rw [List.getElem?_reverse hlt, List.getElem?_eq_getElem (by omega), Option.some_or]

/-- Vectorizing changes one loop in place, the source of the innermost one. -/
theorem exists_vectorizeLoops {n : Nest} {inner : ScheduledLoop} (h : n.innermost? = some inner)
    (width : Nat) :
    ∃ outer rest, n.loops = outer ++ inner.source :: rest ∧
      vectorizeLoops width n.loops =
        outer ++ { inner.source with vectorWidth := some width } :: rest := by
  have hget := n.getElem?_innerPosition
  rw [h, Option.map_some] at hget
  obtain ⟨hlt, hget⟩ := List.getElem?_eq_some_iff.mp hget
  refine ⟨n.loops.take (innerPosition n.loops), n.loops.drop (innerPosition n.loops + 1), ?_, ?_⟩
  · rw [← hget, List.getElem_cons_drop, List.take_append_drop]
  · unfold vectorizeLoops
    rw [List.modify_eq_take_cons_drop hlt, hget]

theorem map_vectorizeLoops {α : Type} {view : Loop → α} {width : Nat}
    (hview : ∀ l : Loop, view { l with vectorWidth := some width } = view l) (loops : List Loop) :
    (vectorizeLoops width loops).map view = loops.map view := by
  unfold vectorizeLoops
  rcases Nat.lt_or_ge (innerPosition loops) loops.length with hlt | hge
  · obtain ⟨outer, l, rest, hloops, -, hmodify⟩ :=
      List.exists_of_modify (fun l : Loop => { l with vectorWidth := some width }) hlt
    rw [hmodify, List.map_append, List.map_cons, hview, ← List.map_cons, ← List.map_append, ← hloops]
  · rw [List.modify_eq_self hge]

/-! ## Views of the loops -/

/-- Any step but a tiling permutes what it does not decide about the loops. -/
theorem perm_view {α : Type} {view : Loop → α}
    (hparallel : ∀ l : Loop, view { l with parallel := true } = view l)
    (hvector : ∀ (l : Loop) (width : Nat), view { l with vectorWidth := some width } = view l)
    {step : Step} (hstep : ¬ ∃ op sizes, step = .tile op sizes) {loops loops' : List Loop}
    (h : stepLoops step loops = .ok loops') : (loops'.map view).Perm (loops.map view) := by
  cases step with
  | tile op sizes => exact absurd ⟨op, sizes, rfl⟩ hstep
  | parallelize op count =>
    simp only [stepLoops] at h
    split_ifs at h
    cases h
    rw [map_parallelizeLoops hparallel]
  | interchange op order =>
    simp only [stepLoops] at h
    split_ifs at h with hperm
    cases h
    exact (perm_reorderLoops hperm).map view
  | vectorize op width =>
    simp only [stepLoops] at h
    split_ifs at h
    cases h
    rw [map_vectorizeLoops fun l => hvector l width]

/-- A step permutes the loops as they were declared. -/
theorem perm_declaration {step : Step} {loops loops' : List Loop}
    (h : stepLoops step loops = .ok loops') :
    (loops'.map Loop.declaration).Perm (loops.map Loop.declaration) := by
  by_cases hstep : ∃ op sizes, step = .tile op sizes
  · obtain ⟨op, sizes, rfl⟩ := hstep
    simp only [stepLoops] at h
    split_ifs at h with hlength
    rw [((retileLoops_eq_ok_iff hlength).mp h).2, map_zipWith_tiled Loop.declaration_tiled hlength]
  · exact perm_view (fun _ => rfl) (fun _ _ => rfl) hstep h

end Nest

/-! ## Kernels -/

/-- A step changes the loops of one nest. -/
theorem Step.exists_of_apply {step : Step} {k k' : Kernel} (h : step.apply k = .ok k') :
    ∃ nest loops, k.nests[step.op]? = some nest ∧ Nest.stepLoops step nest.loops = .ok loops ∧
      k' = ⟨k.nests.set step.op { nest with loops := loops }⟩ := by
  unfold apply at h
  split at h
  · cases h
  · rename_i nest hnest
    split at h
    · cases h
    · rename_i loops hloops
      cases h
      exact ⟨nest, loops, hnest, hloops, rfl⟩

/-- The nests after a step. -/
theorem Step.exists_getElem?_of_apply {step : Step} {k k' : Kernel} (h : step.apply k = .ok k') :
    ∃ nest loops, k.nests[step.op]? = some nest ∧ Nest.stepLoops step nest.loops = .ok loops ∧
      k'.nests[step.op]? = some { nest with loops := loops } ∧
      ∀ i, i ≠ step.op → k'.nests[i]? = k.nests[i]? := by
  obtain ⟨nest, loops, hnest, hloops, rfl⟩ := exists_of_apply h
  obtain ⟨hlt, -⟩ := List.getElem?_eq_some_iff.mp hnest
  exact ⟨nest, loops, hnest, hloops, List.getElem?_set_self hlt, fun i hi => List.getElem?_set_ne hi.symm⟩

theorem Step.apply_eq {step : Step} {k : Kernel} {nest : Nest} {loops : List Loop}
    (hnest : k.nests[step.op]? = some nest) (hloops : Nest.stepLoops step nest.loops = .ok loops) :
    step.apply k = .ok ⟨k.nests.set step.op { nest with loops := loops }⟩ := by
  unfold apply
  simp only [hnest, hloops]

theorem Step.apply_eq_ok_iff {step : Step} {k k' : Kernel} {nest : Nest}
    (hnest : k.nests[step.op]? = some nest) :
    step.apply k = .ok k' ↔ ∃ loops, Nest.stepLoops step nest.loops = .ok loops ∧
      k' = ⟨k.nests.set step.op { nest with loops := loops }⟩ := by
  constructor
  · intro h
    obtain ⟨nest', loops, hnest', hloops, rfl⟩ := exists_of_apply h
    cases hnest.symm.trans hnest'
    exact ⟨loops, hloops, rfl⟩
  · rintro ⟨loops, hloops, rfl⟩
    exact apply_eq hnest hloops

theorem Step.applyAll_cons_eq_ok_iff {step : Step} {steps : List Step} {k k' : Kernel} :
    applyAll (step :: steps) k = .ok k' ↔
      ∃ k₁, step.apply k = .ok k₁ ∧ applyAll steps k₁ = .ok k' := by
  rw [applyAll]
  cases step.apply k <;> simp

theorem Step.applyAll_append_eq_ok_iff {steps more : List Step} {k k' : Kernel} :
    applyAll (steps ++ more) k = .ok k' ↔
      ∃ k₁, applyAll steps k = .ok k₁ ∧ applyAll more k₁ = .ok k' := by
  induction steps generalizing k with
  | nil => simp [applyAll]
  | cons step steps ih =>
    simp only [List.cons_append, applyAll_cons_eq_ok_iff, ih]
    constructor
    · rintro ⟨k₁, hstep, k₂, hsteps, hmore⟩
      exact ⟨k₂, ⟨k₁, hstep, hsteps⟩, hmore⟩
    · rintro ⟨k₂, ⟨k₁, hstep, hsteps⟩, hmore⟩
      exact ⟨k₁, hstep, k₂, hsteps, hmore⟩

theorem Step.applyAll_concat {steps : List Step} {step : Step} {k k' k'' : Kernel}
    (h : applyAll steps k = .ok k') (hstep : step.apply k' = .ok k'') :
    applyAll (steps ++ [step]) k = .ok k'' :=
  applyAll_append_eq_ok_iff.mpr ⟨k', h, by simp only [applyAll, hstep]⟩

end LoopTuner
