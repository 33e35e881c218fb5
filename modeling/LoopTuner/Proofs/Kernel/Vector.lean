import LoopTuner.Kernel.Printer
import LoopTuner.Proofs.Kernel.Legal

/-!
# Where the vectorized loop stands

A vector width is given to the loop that runs innermost, and it divides the trip count there. Tiling
leaves vectorized nests alone, and running in parallel moves no loop; an interchange does not ask
whether a nest is vectorized and may move another loop inside (`Kernel.exists_vector_outside`). As long
as no interchange does that, the vectorized loop stays innermost, and its line carries the vector mark
(`Kernel.vectorInside_of_steady`). The width divides the iterations inside the tiles of its loop in
any case.
-/

namespace LoopTuner

/-- The number of iterations inside a tile, or of all if there are no tiles. -/
def Loop.innerCount (l : Loop) : Nat := l.tile.getD l.extent

/-- The line of a loop with a vector width. -/
def ScheduledLoop.vectorLine (s : ScheduledLoop) (depth width : Nat) : String :=
  String.ofList (List.replicate (2 * (depth + 1)) ' ') ++
    (if s.source.parallel && !s.point then "parallel " else "") ++
    "vector<" ++ toString width ++ "> " ++ s.header ++
    (if s.source.reduction then " reduce" else "") ++ "\n"

/-- The lines of loops inside `depth` loops that are around further ones. -/
def outerText : Nat → List ScheduledLoop → String
  | _, [] => ""
  | depth, s :: rest => s.line depth false ++ outerText (depth + 1) rest

namespace Nest

/-- The one vectorized loop of a nest runs innermost, a whole number of vectors long, and the last of
the lines of the loops shows its width. -/
def VectorInside (n : Nest) : Prop :=
  ∃ outer inner width, n.schedule = outer ++ [inner] ∧ n.innermost? = some inner ∧
    inner.source.vectorWidth = some width ∧
    (∀ l ∈ n.loops, l.vectorWidth.isSome = true → l = inner.source) ∧
    width ∣ inner.tripCount ∧
    n.render = n.id ++ " " ++ n.opClass.name ++ " \x7b\n" ++ outerText 0 outer ++
      inner.vectorLine outer.length width ++ "\x7d\n"

/-! ## The innermost loop -/

variable {n : Nest} {loops loops' : List Loop}

theorem innermost?_eq (n : Nest) :
    n.innermost? = match (n.loops.filter Loop.isTiled).getLast? with
      | some l => some ⟨l, true⟩
      | none => n.loops.getLast?.map (⟨·, false⟩) := by
  unfold innermost? schedule
  rw [List.getLast?_append, List.getLast?_map, List.getLast?_map]
  cases (n.loops.filter Loop.isTiled).getLast? <;> simp

/-- The innermost loop runs inside the tiles of its source. -/
theorem tripCount_innermost {inner : ScheduledLoop} (h : n.innermost? = some inner) :
    inner.tripCount = inner.source.innerCount := by
  rw [innermost?_eq] at h
  unfold ScheduledLoop.tripCount Loop.innerCount
  cases htiled : (n.loops.filter Loop.isTiled).getLast? with
  | some l =>
    simp only [htiled, Option.some.injEq] at h
    subst h
    have hl := (List.mem_filter.mp (List.mem_of_getLast? htiled)).2
    obtain ⟨size, hsize⟩ := Option.isSome_iff_exists.mp hl
    simp [hsize]
  | none =>
    simp only [htiled, Option.map_eq_some_iff] at h
    obtain ⟨l, hl, rfl⟩ := h
    have hnone : l.isTiled = false := by
      rw [List.getLast?_eq_none_iff, List.filter_eq_nil_iff] at htiled
      simpa using htiled l (List.mem_of_getLast? hl)
    unfold Loop.isTiled at hnone
    simp only [Option.isSome_eq_false_iff, Option.isNone_iff_eq_none] at hnone
    simp [hnone]

/-- Which loops are tiled decides which one runs innermost. -/
theorem innerPosition_eq_of_map (h : loops'.map Loop.isTiled = loops.map Loop.isTiled) :
    innerPosition loops' = innerPosition loops := by
  have hlength : loops'.length = loops.length := by simpa using congrArg List.length h
  have hfind : loops'.reverse.findIdx? Loop.isTiled = loops.reverse.findIdx? Loop.isTiled := by
    have hid : ∀ ls : List Loop,
        ls.reverse.findIdx? Loop.isTiled = (ls.map Loop.isTiled).reverse.findIdx? (fun tiled => tiled) := by
      intro ls
      rw [← List.map_reverse, List.findIdx?_map]
      rfl
    rw [hid, hid, h]
  unfold innerPosition
  rw [hfind, hlength]

theorem innerPosition_vectorizeLoops (width : Nat) (loops : List Loop) :
    innerPosition (vectorizeLoops width loops) = innerPosition loops :=
  innerPosition_eq_of_map (map_vectorizeLoops (fun _ => rfl) loops)

/-! ## Widths and their place -/

/-- Vector widths divide the iterations inside the tiles. -/
def Fitting (loops : List Loop) : Prop :=
  ∀ l ∈ loops, ∀ width, l.vectorWidth = some width → width ∣ l.innerCount

/-- If some loop has a vector width, then the innermost one has. -/
def Inside (loops : List Loop) : Prop :=
  ∀ l ∈ loops, l.vectorWidth.isSome = true →
    ∃ inner, loops[innerPosition loops]? = some inner ∧ inner.vectorWidth.isSome = true

theorem fitting_of_none (h : ∀ l ∈ loops, l.vectorWidth = none) : Fitting loops := by
  intro l hl width hwidth
  simp [h l hl] at hwidth

theorem inside_of_none (h : ∀ l ∈ loops, l.vectorWidth = none) : Inside loops := by
  intro l hl hwidth
  simp [h l hl] at hwidth

theorem vectorWidth_eq_none (h : n.isVectorized = false) : ∀ l ∈ n.loops, l.vectorWidth = none := by
  intro l hl
  simpa using List.any_eq_false.mp h l hl

/-- Tiling takes only nests without a vector width. -/
theorem vectorWidth_eq_none_of_tiling {sizes : Option (List Nat)} {op : Nat} {opClass : OpClass}
    {step : Step} (hstep : step ∈ Proposals.ofKind .tiling sizes op opClass n)
    (hloops : stepLoops step n.loops = .ok loops') : ∀ l ∈ loops', l.vectorWidth = none := by
  obtain ⟨hnone, choice, rfl, hchoice⟩ := Proposals.exists_of_mem_tilings hstep
  have hlength := hchoice.length_eq.symm
  simp only [stepLoops, if_pos hlength] at hloops
  have hwidths : loops'.map Loop.vectorWidth = n.loops.map Loop.vectorWidth := by
    rw [((retileLoops_eq_ok_iff hlength).mp hloops).2]
    exact map_zipWith_tiled Loop.vectorWidth_tiled hlength
  exact forall_of_map_eq (p := fun width => width = none) hwidths (vectorWidth_eq_none hnone)

theorem perm_of_interchange {sizes : Option (List Nat)} {op : Nat} {opClass : OpClass} {step : Step}
    (hstep : step ∈ Proposals.ofKind .interchange sizes op opClass n)
    (hloops : stepLoops step n.loops = .ok loops') : loops'.Perm n.loops := by
  obtain ⟨_, order, -, rfl, -⟩ := Proposals.exists_of_mem_interchanges hstep
  simp only [stepLoops] at hloops
  split_ifs at hloops with hperm
  cases hloops
  exact perm_reorderLoops hperm

/-- A proposed step keeps widths that fit. -/
theorem Fitting.step (h : Fitting n.loops) {kind : Kind} {sizes : Option (List Nat)} {op : Nat}
    {opClass : OpClass} {step : Step} (hstep : step ∈ Proposals.ofKind kind sizes op opClass n)
    (hloops : stepLoops step n.loops = .ok loops') : Fitting loops' := by
  cases kind with
  | tiling => exact fitting_of_none (vectorWidth_eq_none_of_tiling hstep hloops)
  | parallelization =>
    obtain ⟨-, count, rfl, -⟩ := Proposals.exists_of_mem_parallelizations hstep
    simp only [stepLoops] at hloops
    split_ifs at hloops
    cases hloops
    have hviews : (parallelizeLoops count n.loops).map (fun l => (l.innerCount, l.vectorWidth)) =
        n.loops.map fun l => (l.innerCount, l.vectorWidth) :=
      map_parallelizeLoops (fun _ => rfl) count n.loops
    exact forall_of_map_eq (p := fun v : Nat × Option Nat => ∀ width, v.2 = some width →
      width ∣ v.1) hviews h
  | interchange =>
    intro l hl
    exact h l ((perm_of_interchange hstep hloops).subset hl)
  | vectorization =>
    obtain ⟨hnone, inner, width, hinner, -, rfl, hpos, hdvd⟩ :=
      Proposals.exists_of_mem_vectorizations hstep
    simp only [stepLoops, if_pos hpos] at hloops
    cases hloops
    obtain ⟨outer, rest, hsplit, hvector⟩ := exists_vectorizeLoops hinner width
    have hothers := vectorWidth_eq_none hnone
    rw [hsplit] at hothers
    rw [tripCount_innermost hinner] at hdvd
    intro l hl w hw
    rw [hvector, List.mem_append, List.mem_cons] at hl
    rcases hl with hl | rfl | hl
    · simp [hothers l (by simp [hl])] at hw
    · cases hw
      exact hdvd
    · simp [hothers l (by simp [hl])] at hw

/-- Every proposed step but an interchange keeps the width innermost. -/
theorem Inside.step (h : Inside n.loops) {kind : Kind} (hkind : kind ≠ .interchange)
    {sizes : Option (List Nat)} {op : Nat} {opClass : OpClass} {step : Step}
    (hstep : step ∈ Proposals.ofKind kind sizes op opClass n)
    (hloops : stepLoops step n.loops = .ok loops') : Inside loops' := by
  cases kind with
  | tiling => exact inside_of_none (vectorWidth_eq_none_of_tiling hstep hloops)
  | parallelization =>
    obtain ⟨-, count, rfl, -⟩ := Proposals.exists_of_mem_parallelizations hstep
    simp only [stepLoops] at hloops
    split_ifs at hloops
    cases hloops
    have hposition : innerPosition (parallelizeLoops count n.loops) = innerPosition n.loops :=
      innerPosition_eq_of_map (map_parallelizeLoops (fun _ => rfl) count n.loops)
    have hwidths : (parallelizeLoops count n.loops).map Loop.vectorWidth =
        n.loops.map Loop.vectorWidth := map_parallelizeLoops (fun _ => rfl) count n.loops
    refine forall_of_map_eq (p := fun width => width.isSome = true → _) hwidths ?_
    intro l hl hwidth
    obtain ⟨inner, hinner, hsome⟩ := h l hl hwidth
    have hget := congrArg (·[innerPosition n.loops]?) hwidths
    simp only [List.getElem?_map, hinner, Option.map_some, Option.map_eq_some_iff] at hget
    obtain ⟨inner', hinner', heq⟩ := hget
    rw [hposition]
    exact ⟨inner', hinner', by rw [heq]; exact hsome⟩
  | interchange => exact absurd rfl hkind
  | vectorization =>
    obtain ⟨-, inner, width, hinner, -, rfl, hpos, -⟩ :=
      Proposals.exists_of_mem_vectorizations hstep
    simp only [stepLoops, if_pos hpos] at hloops
    cases hloops
    intro l hl hwidth
    have hget : n.loops[innerPosition n.loops]? = some inner.source := by
      rw [getElem?_innerPosition, hinner]
      rfl
    refine ⟨{ inner.source with vectorWidth := some width }, ?_, rfl⟩
    rw [innerPosition_vectorizeLoops]
    unfold vectorizeLoops
    rw [List.getElem?_modify_eq, hget]
    rfl

/-- An interchange keeps the width innermost if it keeps the innermost loop. -/
theorem Inside.interchange {n' : Nest} (h : Inside n.loops) (hperm : n'.loops.Perm n.loops)
    (hkeep : n.isVectorized = true → n'.innermost?.map (·.source) = n.innermost?.map (·.source)) :
    Inside n'.loops := by
  intro l hl hwidth
  have hmem := hperm.subset hl
  rw [getElem?_innerPosition, hkeep (List.any_eq_true.mpr ⟨l, hmem, hwidth⟩), ← getElem?_innerPosition]
  exact h l hmem hwidth

/-! ## Printing -/

theorem scheduleText_concat (depth : Nat) (outer : List ScheduledLoop) (inner : ScheduledLoop) :
    scheduleText depth (outer ++ [inner]) =
      outerText depth outer ++ inner.line (depth + outer.length) true := by
  induction outer generalizing depth with
  | nil =>
    show inner.line depth true ++ "" = "" ++ inner.line depth true
    simp
  | cons s outer ih =>
    have hmore : (outer ++ [inner]).isEmpty = false := by simp
    rw [List.cons_append, scheduleText, outerText, hmore, ih, String.append_assoc,
      List.length_cons, show depth + (outer.length + 1) = depth + 1 + outer.length by omega]

/-- The last line shows the width of its loop. -/
theorem line_eq_vectorLine {s : ScheduledLoop} {width : Nat} (h : s.source.vectorWidth = some width)
    (depth : Nat) : s.line depth true = s.vectorLine depth width := by
  unfold ScheduledLoop.line ScheduledLoop.marks ScheduledLoop.vectorLine
  simp only [h, String.append_assoc]

theorem render_of_schedule {outer : List ScheduledLoop} {inner : ScheduledLoop} {width : Nat}
    (hschedule : n.schedule = outer ++ [inner]) (hwidth : inner.source.vectorWidth = some width) :
    n.render = n.id ++ " " ++ n.opClass.name ++ " \x7b\n" ++ outerText 0 outer ++
      inner.vectorLine outer.length width ++ "\x7d\n" := by
  unfold render
  rw [hschedule, scheduleText_concat, line_eq_vectorLine hwidth, Nat.zero_add]
  simp only [String.append_assoc]

/-! ## The vectorized loop -/

theorem eq_of_countP_le_one {α : Type} {p : α → Bool} {xs : List α} (h : xs.countP p ≤ 1) {x y : α}
    (hx : x ∈ xs) (hy : y ∈ xs) (hpx : p x = true) (hpy : p y = true) : x = y := by
  have hmem : ∀ z ∈ xs, p z = true → z ∈ xs.filter p := fun z hz hpz => List.mem_filter.mpr ⟨hz, hpz⟩
  rw [List.countP_eq_length_filter] at h
  match hfilter : xs.filter p with
  | [] =>
    have := hmem x hx hpx
    simp [hfilter] at this
  | [z] =>
    have hxz := hmem x hx hpx
    have hyz := hmem y hy hpy
    rw [hfilter, List.mem_singleton] at hxz hyz
    rw [hxz, hyz]
  | _ :: _ :: _ => simp [hfilter] at h

/-- A vectorized nest is as it should be if and only if its innermost loop has a width. -/
theorem vectorInside_iff {opClass : OpClass} (hsound : Sound opClass n.loops)
    (hfitting : Fitting n.loops) :
    n.VectorInside ↔ ∃ inner, n.innermost? = some inner ∧ inner.source.vectorWidth.isSome = true := by
  constructor
  · rintro ⟨outer, inner, width, -, hinner, hwidth, -⟩
    exact ⟨inner, hinner, by simp [hwidth]⟩
  · rintro ⟨inner, hinner, hsome⟩
    obtain ⟨width, hwidth⟩ := Option.isSome_iff_exists.mp hsome
    obtain ⟨outer, hschedule⟩ := List.getLast?_eq_some_iff.mp hinner
    have hmem : inner.source ∈ n.loops := by
      have hget := n.getElem?_innerPosition
      rw [hinner, Option.map_some] at hget
      exact List.mem_of_getElem? hget
    refine ⟨outer, inner, width, hschedule, hinner, hwidth, ?_, ?_, render_of_schedule hschedule hwidth⟩
    · intro l hl hl'
      exact eq_of_countP_le_one hsound.one_vector hl hmem hl' hsome
    · rw [tripCount_innermost hinner]
      exact hfitting _ hmem width hwidth

theorem exists_innermost_of_inside (h : Inside n.loops) (hvectorized : n.isVectorized = true) :
    ∃ inner, n.innermost? = some inner ∧ inner.source.vectorWidth.isSome = true := by
  obtain ⟨l, hl, hwidth⟩ := List.any_eq_true.mp hvectorized
  obtain ⟨source, hget, hsome⟩ := h l hl hwidth
  rw [getElem?_innerPosition, Option.map_eq_some_iff] at hget
  obtain ⟨inner, hinner, rfl⟩ := hget
  exact ⟨inner, hinner, hsome⟩

end Nest

/-! ## Chains of candidates -/

namespace Kernel

variable {k k' : Kernel}

/-- The kernels that are reached by taking candidates, where an interchange leaves the innermost loop
of a vectorized nest in its place. -/
inductive Steady (classification : Classification Nat) (k : Kernel) : Kernel → Prop
  | refl : Steady classification k k
  | candidate {node : KernelNode} {kind : Kind} {sizes : Option (List Nat)}
      {cs : List (Candidate Kernel Step)} {c : Candidate Kernel Step}
      (h : Steady classification k node.program)
      (hcs : Proposals.candidates (Proposals.ofKind kind sizes) node classification = .ok cs)
      (hc : c ∈ cs)
      (hkeep : kind = .interchange → ∀ (i : Nat) (n n' : Nest), node.program.nests[i]? = some n →
        c.program.nests[i]? = some n' → n.isVectorized = true →
        n'.innermost?.map (·.source) = n.innermost?.map (·.source)) :
      Steady classification k c.program

theorem Steady.derived {classification : Classification Nat} (h : Steady classification k k') :
    Derived classification k k' := by
  induction h with
  | refl => exact .refl
  | candidate _ hcs hc _ ih => exact .candidate ih hcs hc

theorem Derived.fitting (h : Derived k.classify k k') (hk : ∀ n ∈ k.nests, n.Declared) :
    ∀ n ∈ k'.nests, Nest.Fitting n.loops := by
  induction h with
  | refl =>
    intro n hn
    exact Nest.fitting_of_none fun l hl => ((hk n hn).fresh l hl).2.2
  | candidate _ hcs hc ih =>
    obtain ⟨op, declared, nest, loops, -, hnest, hstep, hloops, hprogram⟩ := exists_of_candidate hcs hc
    rw [hprogram]
    intro n hn
    rcases List.mem_or_eq_of_mem_set hn with hn | rfl
    · exact ih n hn
    · exact (ih nest (List.mem_of_getElem? hnest)).step hstep hloops

theorem Steady.inside (h : Steady k.classify k k') (hk : ∀ n ∈ k.nests, n.Declared) :
    ∀ n ∈ k'.nests, Nest.Inside n.loops := by
  induction h with
  | refl =>
    intro n hn
    exact Nest.inside_of_none fun l hl => ((hk n hn).fresh l hl).2.2
  | @candidate _ kind _ _ c _ hcs hc hkeep ih =>
    obtain ⟨op, declared, nest, loops, -, hnest, hstep, hloops, hprogram⟩ := exists_of_candidate hcs hc
    rw [hprogram] at hkeep ⊢
    intro n hn
    rcases List.mem_or_eq_of_mem_set hn with hn | rfl
    · exact ih n hn
    · have hinside := ih nest (List.mem_of_getElem? hnest)
      by_cases hkind : kind = .interchange
      · subst hkind
        have hlt := (List.getElem?_eq_some_iff.mp hnest).1
        exact hinside.interchange (Nest.perm_of_interchange hstep hloops)
          (hkeep rfl op nest _ hnest (List.getElem?_set_self hlt))
      · exact hinside.step hkind hstep hloops

/-- Along every chain of candidates the widths fit their loops, and a vectorized nest shows its width on
the innermost loop if and only if that loop has one. It has one as long as no interchange moves the
innermost loop of a vectorized nest. -/
theorem vectorInside_of_steady {text : String} (hread : Kernel.read text = .ok k) :
    (∀ k', Derived k.classify k k' → ∀ n ∈ k'.nests, n.isVectorized = true →
      Nest.Fitting n.loops ∧ (n.VectorInside ↔
        ∃ inner, n.innermost? = some inner ∧ inner.source.vectorWidth.isSome = true)) ∧
    ∀ k', Steady k.classify k k' → ∀ n ∈ k'.nests, n.isVectorized = true → n.VectorInside := by
  have hdeclared := declared_of_read hread
  have hsound : ∀ {k'}, Derived k.classify k k' → ∀ n ∈ k'.nests, Nest.Sound n.opClass n.loops := by
    intro k' h n hn
    obtain ⟨d, -, hevolved⟩ := exists_of_forall₂_of_mem (h.evolved hdeclared) hn
    exact hevolved.sound
  have hall : ∀ k', Derived k.classify k k' → ∀ n ∈ k'.nests, Nest.Fitting n.loops ∧
      (n.VectorInside ↔
        ∃ inner, n.innermost? = some inner ∧ inner.source.vectorWidth.isSome = true) := by
    intro k' h n hn
    have hfitting := h.fitting hdeclared n hn
    exact ⟨hfitting, Nest.vectorInside_iff (hsound h n hn) hfitting⟩
  refine ⟨fun k' h n hn _ => hall k' h n hn, fun k' h n hn hvectorized => ?_⟩
  rw [(hall k' h.derived n hn).2]
  exact Nest.exists_innermost_of_inside (h.inside hdeclared n hn) hvectorized

/-- A copy whose inner loop is vectorized, and which is not interchanged. -/
theorem vectorInside_of_steady_copy :
    let k : Kernel := ⟨[⟨"copy", .elementwise, [.declare "i" 6 false, .declare "j" 4 false]⟩]⟩
    let nest : Nest := ⟨"copy", .elementwise,
      [.declare "i" 6 false, ⟨"j", 4, false, none, false, some 4⟩]⟩
    Kernel.read "copy elementwise i=6 j=4" = .ok k ∧ Steady k.classify k ⟨[nest]⟩ ∧
      nest.isVectorized = true ∧ nest.VectorInside := by
  intro k nest
  have hread : Kernel.read "copy elementwise i=6 j=4" = .ok k := by rfl
  have hcs : Proposals.candidates (Proposals.ofKind .vectorization none) (.root k 0) k.classify =
      .ok [⟨⟨[nest]⟩, .vectorize 0 4, [.vectorize 0 4]⟩] := by rfl
  have hsteady : Steady k.classify k ⟨[nest]⟩ := by
    refine .candidate ?_ hcs List.mem_cons_self (fun h => by cases h)
    exact .refl
  exact ⟨hread, hsteady, rfl,
    (vectorInside_of_steady hread).2 ⟨[nest]⟩ hsteady nest List.mem_cons_self rfl⟩

/-- If the loops of the copy are interchanged after that, then the innermost loop has no width, and the
width does not divide its trip count. -/
theorem exists_vector_outside :
    ∃ text k k' n inner, Kernel.read text = .ok k ∧ Derived k.classify k k' ∧ n ∈ k'.nests ∧
      n.isVectorized = true ∧ n.innermost? = some inner ∧ inner.source.vectorWidth = none ∧
      (∀ l ∈ n.loops, ∀ width, l.vectorWidth = some width → ¬ width ∣ inner.tripCount) ∧
      ¬ n.VectorInside := by
  let k : Kernel := ⟨[⟨"copy", .elementwise, [.declare "i" 6 false, .declare "j" 4 false]⟩]⟩
  let i : Loop := .declare "i" 6 false
  let j : Loop := ⟨"j", 4, false, none, false, some 4⟩
  let vectorized : Kernel := ⟨[⟨"copy", .elementwise, [i, j]⟩]⟩
  let n : Nest := ⟨"copy", .elementwise, [j, i]⟩
  have hvectorized : Derived k.classify k vectorized := by
    have hcs : Proposals.candidates (Proposals.ofKind .vectorization none) (.root k 0) k.classify =
        .ok [⟨vectorized, .vectorize 0 4, [.vectorize 0 4]⟩] := by rfl
    refine .candidate ?_ hcs List.mem_cons_self
    exact .refl
  have hinterchanged : Derived k.classify k ⟨[n]⟩ := by
    have hcs : Proposals.candidates (Proposals.ofKind .interchange none) (.root vectorized 1)
        k.classify = .ok [⟨⟨[n]⟩, .interchange 0 [1, 0], [.interchange 0 [1, 0]]⟩] := by rfl
    refine .candidate ?_ hcs List.mem_cons_self
    exact hvectorized
  have hinner : n.innermost? = some ⟨i, false⟩ := by rfl
  refine ⟨"copy elementwise i=6 j=4", k, ⟨[n]⟩, n, ⟨i, false⟩, by rfl, hinterchanged,
    List.mem_cons_self, by rfl, hinner, by rfl, by decide, ?_⟩
  rintro ⟨-, inner, width, -, h, hwidth, -⟩
  rw [hinner] at h
  cases h
  cases hwidth

end Kernel

end LoopTuner
