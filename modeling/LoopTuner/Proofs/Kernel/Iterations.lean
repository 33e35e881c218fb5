import LoopTuner.Proofs.Kernel.Legal
import Mathlib.Data.List.Nodup
import Mathlib.Data.Set.Function

/-!
# The iterations of a nest

A nest runs its schedule as nested loops, each of which counts from zero up to its trip count. An
untiled loop is at the iteration that its index says; a tiled loop is at the point that the index of
its point loop says, in the tile that its other index says. Whatever steps are applied to a kernel
text, the schedule of each nest still passes through every combination of iterations of the declared
loops, and through each of them once (`Kernel.bijOn_iterations`): tiles divide their extents, and no
step loses or adds a loop.
-/

namespace LoopTuner

/-- An iteration for each loop of a nest, by the name of the loop. -/
abbrev Iterations := String → Option Nat

namespace Loop

/-- A loop whose tiles fill its extent. -/
def Divided (l : Loop) : Prop := ∀ size, l.tile = some size → l.Admits size

/-- The iteration of a loop, from the index of its outer loop and that of its point loop. -/
def iteration (l : Loop) (outer point : Nat) : Nat :=
  match l.tile with
  | none => outer
  | some size => outer * size + point

/-- The index at which the outer loop or the point loop is at an iteration. -/
def indexAt (l : Loop) (i : Nat) (point : Bool) : Nat :=
  match l.tile with
  | none => i
  | some size => if point then i % size else i / size

end Loop

namespace Nest

/-- The combinations of indices that the schedule runs through. -/
def Runs (n : Nest) (indices : List Nat) : Prop :=
  List.Forall₂ (fun s i => i < s.tripCount) n.schedule indices

/-- The index of a loop of the schedule. -/
def indexOf (n : Nest) (indices : List Nat) (s : ScheduledLoop) : Nat :=
  (indices[n.schedule.idxOf s]?).getD 0

/-- The iteration that each loop of the nest is at. -/
def iterations (n : Nest) (indices : List Nat) : Iterations := fun name =>
  (n.loops.find? fun l => l.name == name).map fun l =>
    l.iteration (n.indexOf indices ⟨l, false⟩) (n.indexOf indices ⟨l, true⟩)

/-- The iterations below the extents, for the loops of the nest and no others. -/
def space (n : Nest) : Set Iterations :=
  {f | (∀ l ∈ n.loops, ∃ i, f l.name = some i ∧ i < l.extent) ∧
    ∀ name, name ∉ n.loops.map Loop.name → f name = none}

end Nest

/-! ## One loop -/

namespace Loop

variable {l : Loop}

theorem iteration_lt (h : l.Divided) {outer point : Nat}
    (houter : outer < (⟨l, false⟩ : ScheduledLoop).tripCount)
    (hpoint : l.isTiled = true → point < (⟨l, true⟩ : ScheduledLoop).tripCount) :
    l.iteration outer point < l.extent := by
  unfold ScheduledLoop.tripCount isTiled at *
  unfold iteration
  cases htile : l.tile with
  | none => simpa [htile] using houter
  | some size =>
    obtain ⟨hpos, hdvd⟩ := h size htile
    simp only [htile, Option.isSome_some, forall_const, if_true, Bool.false_eq_true, if_false]
      at houter hpoint ⊢
    calc outer * size + point < (outer + 1) * size := by rw [Nat.succ_mul]; omega
      _ ≤ l.extent / size * size := Nat.mul_le_mul_right size houter
      _ = l.extent := Nat.div_mul_cancel hdvd

/-- The iteration tells both indices. -/
theorem eq_of_iteration_eq {outer outer' point point' : Nat}
    (hpoint : l.isTiled = true → point < (⟨l, true⟩ : ScheduledLoop).tripCount)
    (hpoint' : l.isTiled = true → point' < (⟨l, true⟩ : ScheduledLoop).tripCount)
    (heq : l.iteration outer point = l.iteration outer' point') :
    outer = outer' ∧ (l.isTiled = true → point = point') := by
  unfold ScheduledLoop.tripCount isTiled at *
  unfold iteration at heq
  cases htile : l.tile with
  | none => simpa [htile] using heq
  | some size =>
    simp only [htile, Option.isSome_some, forall_const, if_true] at heq hpoint hpoint' ⊢
    have hpos : 0 < size := by omega
    have hdiv : ∀ a b, b < size → (a * size + b) / size = a := by
      intro a b hb
      rw [Nat.mul_comm, Nat.mul_add_div hpos, Nat.div_eq_of_lt hb, Nat.add_zero]
    have houter : outer = outer' := by
      rw [← hdiv outer point hpoint, heq, hdiv outer' point' hpoint']
    subst houter
    exact ⟨rfl, by omega⟩

/-- Without tiles there is no point loop. -/
theorem iteration_of_not_tiled (h : l.isTiled = false) (outer point : Nat) :
    l.iteration outer point = outer := by
  unfold isTiled at h
  unfold iteration
  cases htile : l.tile with
  | none => rfl
  | some size => simp [htile] at h

theorem indexAt_lt (h : l.Divided) {i : Nat} (hi : i < l.extent) (point : Bool) :
    l.indexAt i point < (⟨l, point⟩ : ScheduledLoop).tripCount := by
  unfold indexAt ScheduledLoop.tripCount
  cases htile : l.tile with
  | none => exact hi
  | some size =>
    obtain ⟨hpos, hdvd⟩ := h size htile
    cases point with
    | true => exact Nat.mod_lt i hpos
    | false =>
      show i / size < l.extent / size
      rw [Nat.div_lt_iff_lt_mul hpos, Nat.div_mul_cancel hdvd]
      exact hi

theorem iteration_indexAt (l : Loop) (i : Nat) :
    l.iteration (l.indexAt i false) (l.indexAt i true) = i := by
  unfold iteration indexAt
  cases l.tile with
  | none => rfl
  | some size => exact Nat.div_add_mod' i size

end Loop

namespace Nest

variable {n : Nest}

/-! ## Schedules -/

theorem mem_schedule {s : ScheduledLoop} :
    s ∈ n.schedule ↔ s.source ∈ n.loops ∧ (s.point = true → s.source.isTiled = true) := by
  obtain ⟨l, point⟩ := s
  unfold schedule
  cases point <;> simp

theorem nodup_schedule (h : (n.loops.map Loop.name).Nodup) : n.schedule.Nodup := by
  have hloops : n.loops.Nodup := h.of_map
  have hsource : ∀ point, Function.Injective fun l : Loop => (⟨l, point⟩ : ScheduledLoop) := by
    intro point a b hab
    exact congrArg ScheduledLoop.source hab
  unfold schedule
  rw [List.nodup_append']
  refine ⟨hloops.map (hsource false), (hloops.filter _).map (hsource true), ?_⟩
  intro s hs hs'
  obtain ⟨l, -, rfl⟩ := List.mem_map.mp hs
  obtain ⟨l', -, hl'⟩ := List.mem_map.mp hs'
  cases hl'

theorem indexOf_map (g : ScheduledLoop → Nat) {s : ScheduledLoop} (hs : s ∈ n.schedule) :
    n.indexOf (n.schedule.map g) s = g s := by
  have hlt := List.idxOf_lt_length_of_mem hs
  unfold indexOf
  simp [hlt]

/-- Indices are a choice of one index for each loop of the schedule. -/
theorem eq_map_indexOf (h : (n.loops.map Loop.name).Nodup) {indices : List Nat}
    (hlength : indices.length = n.schedule.length) :
    indices = n.schedule.map (n.indexOf indices) := by
  apply List.ext_getElem
  · simp [hlength]
  · intro i hi hi'
    rw [List.getElem_map]
    unfold indexOf
    simp [(nodup_schedule h).idxOf_getElem, hi]

theorem runs_map_iff (g : ScheduledLoop → Nat) :
    n.Runs (n.schedule.map g) ↔ ∀ s ∈ n.schedule, g s < s.tripCount := by
  unfold Runs
  rw [List.forall₂_map_right_iff, List.forall₂_same]

theorem Runs.indexOf_lt (h : (n.loops.map Loop.name).Nodup) {indices : List Nat}
    (hruns : n.Runs indices) {s : ScheduledLoop} (hs : s ∈ n.schedule) :
    n.indexOf indices s < s.tripCount := by
  rw [eq_map_indexOf h hruns.length_eq.symm, runs_map_iff] at hruns
  exact hruns s hs

theorem iterations_of_mem (h : (n.loops.map Loop.name).Nodup) (indices : List Nat) {l : Loop}
    (hl : l ∈ n.loops) :
    n.iterations indices l.name =
      some (l.iteration (n.indexOf indices ⟨l, false⟩) (n.indexOf indices ⟨l, true⟩)) := by
  have hfind : n.loops.find? (fun l' => l'.name == l.name) = some l := by
    have hsome : (n.loops.find? fun l' => l'.name == l.name).isSome = true := by
      rw [List.find?_isSome]
      exact ⟨l, hl, by simp⟩
    obtain ⟨l', hl'⟩ := Option.isSome_iff_exists.mp hsome
    have hname : l'.name = l.name := by simpa using List.find?_some hl'
    rw [hl', List.inj_on_of_nodup_map h (List.mem_of_find?_eq_some hl') hl hname]
  unfold iterations
  rw [hfind]
  rfl

theorem iterations_of_not_mem (indices : List Nat) {name : String}
    (hname : name ∉ n.loops.map Loop.name) : n.iterations indices name = none := by
  have hfind : n.loops.find? (fun l => l.name == name) = none := by
    rw [List.find?_eq_none]
    intro l hl heq
    exact hname (List.mem_map.mpr ⟨l, hl, by simpa using heq⟩)
  unfold iterations
  rw [hfind]
  rfl

/-- The iterations at indices that are chosen loop by loop. -/
theorem iterations_map (h : (n.loops.map Loop.name).Nodup) (g : ScheduledLoop → Nat) {l : Loop}
    (hl : l ∈ n.loops) :
    n.iterations (n.schedule.map g) l.name =
      some (l.iteration (g ⟨l, false⟩) (g ⟨l, true⟩)) := by
  have houter : n.indexOf (n.schedule.map g) ⟨l, false⟩ = g ⟨l, false⟩ :=
    indexOf_map g (mem_schedule.mpr ⟨hl, by simp⟩)
  rw [iterations_of_mem h _ hl, houter]
  by_cases htiled : l.isTiled = true
  · rw [indexOf_map g (mem_schedule.mpr ⟨hl, fun _ => htiled⟩)]
  · rw [Bool.not_eq_true] at htiled
    rw [Loop.iteration_of_not_tiled htiled, Loop.iteration_of_not_tiled htiled]

/-! ## All loops -/

section Bijection

variable (hnames : (n.loops.map Loop.name).Nodup)

include hnames

theorem mapsTo_iterations (hdivided : ∀ l ∈ n.loops, l.Divided) :
    Set.MapsTo n.iterations {indices | n.Runs indices} n.space := by
  intro indices hruns
  refine ⟨fun l hl => ⟨_, iterations_of_mem hnames indices hl, ?_⟩, fun name hname => ?_⟩
  · apply Loop.iteration_lt (hdivided l hl)
    · exact hruns.indexOf_lt hnames (mem_schedule.mpr ⟨hl, by simp⟩)
    · intro htiled
      exact hruns.indexOf_lt hnames (mem_schedule.mpr ⟨hl, fun _ => htiled⟩)
  · exact iterations_of_not_mem indices hname

/-- No combination of iterations is run twice. -/
theorem injOn_iterations : Set.InjOn n.iterations {indices | n.Runs indices} := by
  intro indices hruns indices' hruns' heq
  have hpoint : ∀ {js : List Nat}, n.Runs js → ∀ l ∈ n.loops, l.isTiled = true →
      n.indexOf js ⟨l, true⟩ < (⟨l, true⟩ : ScheduledLoop).tripCount := by
    intro js hjs l hl htiled
    exact hjs.indexOf_lt hnames (mem_schedule.mpr ⟨hl, fun _ => htiled⟩)
  rw [eq_map_indexOf hnames hruns.length_eq.symm, eq_map_indexOf hnames hruns'.length_eq.symm]
  refine List.map_congr_left fun s hs => ?_
  obtain ⟨hl, htiled⟩ := mem_schedule.mp hs
  have hname := congrFun heq s.source.name
  rw [iterations_of_mem hnames _ hl, iterations_of_mem hnames _ hl, Option.some.injEq] at hname
  obtain ⟨houter, hinner⟩ := Loop.eq_of_iteration_eq (hpoint hruns _ hl) (hpoint hruns' _ hl) hname
  obtain ⟨l, point⟩ := s
  cases point with
  | false => exact houter
  | true => exact hinner (htiled rfl)

/-- Every combination of iterations is run. -/
theorem surjOn_iterations (hdivided : ∀ l ∈ n.loops, l.Divided) :
    Set.SurjOn n.iterations {indices | n.Runs indices} n.space := by
  rintro f ⟨hloops, hothers⟩
  let g : ScheduledLoop → Nat := fun s => s.source.indexAt ((f s.source.name).getD 0) s.point
  refine ⟨n.schedule.map g, (runs_map_iff g).mpr fun s hs => ?_, ?_⟩
  · obtain ⟨hl, -⟩ := mem_schedule.mp hs
    obtain ⟨i, hi, hlt⟩ := hloops s.source hl
    show s.source.indexAt ((f s.source.name).getD 0) s.point < _
    rw [hi]
    exact Loop.indexAt_lt (hdivided _ hl) hlt s.point
  · funext name
    by_cases hname : name ∈ n.loops.map Loop.name
    · obtain ⟨l, hl, rfl⟩ := List.mem_map.mp hname
      obtain ⟨i, hi, -⟩ := hloops l hl
      rw [iterations_map hnames g hl, hi]
      show some (l.iteration (l.indexAt ((f l.name).getD 0) false)
        (l.indexAt ((f l.name).getD 0) true)) = some i
      rw [Loop.iteration_indexAt, hi]
      rfl
    · rw [iterations_of_not_mem _ hname, hothers name hname]

end Bijection

/-- Only what was declared of the loops decides their iterations. -/
theorem space_eq_of_perm {n' : Nest}
    (h : (n.loops.map Loop.declaration).Perm (n'.loops.map Loop.declaration)) :
    n.space = n'.space := by
  have hsubset : ∀ {a b : Nest}, (a.loops.map Loop.declaration).Perm (b.loops.map Loop.declaration) →
      a.space ⊆ b.space := by
    rintro a b hperm f ⟨hloops, hothers⟩
    refine ⟨fun l hl => ?_, fun name hname => hothers name fun hmem => hname ?_⟩
    · have hmem := hperm.symm.subset (List.mem_map_of_mem hl)
      obtain ⟨l', hl', heq⟩ := List.mem_map.mp hmem
      simp only [Loop.declaration, Prod.mk.injEq] at heq
      rw [← heq.1, ← heq.2.1]
      exact hloops l' hl'
    · have hnames := hperm.map Prod.fst
      rw [List.map_map, List.map_map] at hnames
      exact hnames.subset hmem
  exact Set.Subset.antisymm (hsubset h) (hsubset h.symm)

/-! ## Steps -/

/-- Tiles of admitted sizes fill their extents. -/
theorem divided_zipWith_tiled {loops : List Loop} {sizes : List (Option Nat)}
    (h : List.Forall₂ (fun l size => ∀ s, size = some s → l.Admits s) loops sizes)
    (hdivided : ∀ l ∈ loops, l.Divided) : ∀ l ∈ List.zipWith Loop.tiled loops sizes, l.Divided := by
  induction h with
  | nil => exact hdivided
  | @cons l size _ _ hsize _ ih =>
    obtain ⟨hfirst, hothers⟩ := List.forall_mem_cons.mp hdivided
    rw [List.zipWith_cons_cons]
    refine List.forall_mem_cons.mpr ⟨?_, ih hothers⟩
    cases size with
    | none => exact hfirst
    | some size =>
      intro s hs
      cases hs
      exact hsize size rfl

/-- A step keeps tiles that fill their extents. -/
theorem divided_of_stepLoops {step : Step} {loops loops' : List Loop}
    (h : stepLoops step loops = .ok loops') (hdivided : ∀ l ∈ loops, l.Divided) :
    ∀ l ∈ loops', l.Divided := by
  by_cases hstep : ∃ op sizes, step = .tile op sizes
  · obtain ⟨op, sizes, rfl⟩ := hstep
    simp only [stepLoops] at h
    split_ifs at h with hlength
    obtain ⟨hsizes, rfl⟩ := (retileLoops_eq_ok_iff hlength).mp h
    exact divided_zipWith_tiled hsizes hdivided
  · intro l hl size hsize
    have hperm : (loops'.map fun l => (l.tile, l.extent)).Perm
        (loops.map fun l => (l.tile, l.extent)) := perm_view (fun _ => rfl) (fun _ _ => rfl) hstep h
    obtain ⟨l', hl', heq⟩ := List.mem_map.mp (hperm.subset (List.mem_map_of_mem hl))
    obtain ⟨htile, hextent⟩ := Prod.mk.inj heq
    have hadmits := hdivided l' hl' size (htile.trans hsize)
    rwa [Loop.Admits, hextent] at hadmits

/-- A nest that any steps have led to from a declared one. -/
structure Stepped (declared n : Nest) : Prop where
  perm : (n.loops.map Loop.declaration).Perm (declared.loops.map Loop.declaration)
  divided : ∀ l ∈ n.loops, l.Divided

theorem stepped_of_declared (h : n.Declared) : n.Stepped n where
  perm := List.Perm.refl _
  divided l hl size hsize := by
    rw [(h.fresh l hl).1] at hsize
    cases hsize

theorem Stepped.bijOn {declared : Nest} (h : declared.Stepped n) (hd : declared.Declared) :
    Set.BijOn n.iterations {indices | n.Runs indices} declared.space := by
  have hnames : (n.loops.map Loop.name).Nodup := by
    have hperm := h.perm.map Prod.fst
    rw [List.map_map, List.map_map] at hperm
    exact hperm.nodup_iff.mpr hd.nodup_names
  rw [← space_eq_of_perm h.perm]
  exact ⟨mapsTo_iterations hnames h.divided, injOn_iterations hnames,
    surjOn_iterations hnames h.divided⟩

end Nest

/-! ## Kernels -/

namespace Kernel

theorem stepped_of_applyAll {steps : List Step} {k k' : Kernel} {declared : List Nest}
    (h : Step.applyAll steps k = .ok k') (hk : List.Forall₂ Nest.Stepped declared k.nests) :
    List.Forall₂ Nest.Stepped declared k'.nests := by
  induction steps generalizing k with
  | nil =>
    cases h
    exact hk
  | cons step steps ih =>
    unfold Step.applyAll at h
    split at h
    · cases h
    · rename_i k₁ happly
      refine ih h ?_
      obtain ⟨nest, loops, hnest, hloops, rfl⟩ := Step.exists_of_apply happly
      refine forall₂_set hk hnest fun d _ hstepped => ?_
      exact ⟨(Nest.perm_declaration hloops).trans hstepped.perm,
        Nest.divided_of_stepLoops hloops hstepped.divided⟩

/-- Whatever steps are applied to a kernel text, every nest runs through each combination of iterations
of its declared loops, and through each of them once. -/
theorem bijOn_iterations {text : String} {k k' : Kernel} {steps : List Step}
    (hread : Kernel.read text = .ok k) (h : Step.applyAll steps k = .ok k') :
    List.Forall₂ (fun declared n => Set.BijOn n.iterations {indices | n.Runs indices} declared.space)
      k.nests k'.nests := by
  have hdeclared := declared_of_read hread
  have hstart : List.Forall₂ Nest.Stepped k.nests k.nests :=
    List.forall₂_same.mpr fun n hn => Nest.stepped_of_declared (hdeclared n hn)
  have hstepped := stepped_of_applyAll h hstart
  have hall := (List.forall₂_and_left k.nests k'.nests).mpr ⟨hdeclared, hstepped⟩
  exact hall.imp fun d n hdn => hdn.2.bijOn hdn.1

/-- A matrix product whose loops are tiled, interchanged, and one of them tiled once more. -/
theorem bijOn_iterations_retiled :
    let k : Kernel := ⟨[⟨"gemm", .contraction, [.declare "i" 8 false, .declare "k" 6 true]⟩]⟩
    let steps : List Step :=
      [.tile 0 [some 4, some 3], .interchange 0 [1, 0], .tile 0 [none, some 2], .vectorize 0 2]
    let k' : Kernel := ⟨[⟨"gemm", .contraction,
      [⟨"k", 6, true, some 3, false, none⟩, ⟨"i", 8, false, some 2, false, some 2⟩]⟩]⟩
    Kernel.read "gemm contraction i=8 k=6" = .ok k ∧ Step.applyAll steps k = .ok k' ∧
      List.Forall₂ (fun declared n =>
        Set.BijOn n.iterations {indices | n.Runs indices} declared.space) k.nests k'.nests := by
  intro k steps k'
  have hread : Kernel.read "gemm contraction i=8 k=6" = .ok k := by rfl
  have hsteps : Step.applyAll steps k = .ok k' := by rfl
  exact ⟨hread, hsteps, bijOn_iterations hread hsteps⟩

end Kernel

end LoopTuner
