import LoopTuner.Proofs.Kernel.Commuting
import LoopTuner.Proofs.Kernel.Interchanges
import LoopTuner.Proofs.Kernel.Tilings

/-!
# Distinct candidates

A step that is proposed for a nest can be read off the loops before and after it
(`Proposals.between_of_mem_ofKind`): a loop is only tiled once, loops run in parallel or get a vector width
only if none of them did before, and the loops of a nest have different names. So no proposed step leaves a
kernel as it is, and different proposals lead to different kernels. As the generators propose each step once,
the programs of the candidates of a node are pairwise different (`Proposals.candidates_distinct`).
-/

namespace LoopTuner

/-- The size by which the second loop is tiled, if the first one is not tiled. -/
def Loop.newTile (l l' : Loop) : Option Nat := if l.isTiled then none else l'.tile

/-- The step of a kind that a generator proposes to get from the first loops to the second ones. -/
def Step.between (kind : Kind) (op : Nat) (loops loops' : List Loop) : Step :=
  match kind with
  | .tiling => .tile op (List.zipWith Loop.newTile loops loops')
  | .parallelization => .parallelize op (loops'.countP (·.parallel))
  | .interchange => .interchange op (loops'.map loops.idxOf)
  | .vectorization => .vectorize op ((loops'.findSome? Loop.vectorWidth).getD 0)

/-! ## What a step leaves to be read -/

namespace Loop

@[simp] theorem newTile_self (l : Loop) : l.newTile l = none := by
  unfold newTile isTiled
  cases l.tile <;> rfl

theorem newTile_tiled {l : Loop} {entry : Option Nat} (h : ∀ size, entry = some size → l.tile = none) :
    l.newTile (l.tiled entry) = entry := by
  cases entry with
  | none => exact l.newTile_self
  | some size =>
    unfold newTile isTiled
    rw [h size rfl]
    rfl

end Loop

namespace Nest

variable {n : Nest} {loops : List Loop}

theorem zipWith_newTile_tiled {sizes : List Nat} {choice : List (Option Nat)}
    (h : Tiles sizes loops choice) :
    List.zipWith Loop.newTile loops (List.zipWith Loop.tiled loops choice) = choice := by
  have heach := h.each
  clear h
  induction heach with
  | nil => rfl
  | cons hentry _ ih =>
    rw [List.zipWith_cons_cons, List.zipWith_cons_cons, ih,
      Loop.newTile_tiled fun size hsize => (hentry size hsize).2.1]

theorem countP_parallelizeLoops {count : Nat} (hcount : count ≤ loops.length)
    (hnone : ∀ l ∈ loops, l.parallel = false) :
    (parallelizeLoops count loops).countP (·.parallel) = count := by
  have hrest : (loops.drop count).countP (·.parallel) = 0 :=
    List.countP_eq_zero.mpr fun l hl => Bool.eq_false_iff.mp (hnone l (List.mem_of_mem_drop hl))
  have hfront : ((loops.take count).map fun l => { l with parallel := true }).countP (·.parallel) =
      (loops.take count).length := by
    rw [List.countP_map]
    exact List.countP_eq_length.mpr fun _ _ => rfl
  rw [parallelizeLoops_eq, List.countP_append, hrest, hfront, Nat.add_zero, List.length_take,
    Nat.min_eq_left hcount]

theorem findSome?_vectorWidth (hnone : ∀ l ∈ loops, l.vectorWidth = none) :
    loops.findSome? Loop.vectorWidth = none :=
  List.findSome?_eq_none_iff.mpr hnone

theorem findSome?_vectorizeLoops {inner : ScheduledLoop} (hinner : n.innermost? = some inner)
    (hnone : ∀ l ∈ n.loops, l.vectorWidth = none) (width : Nat) :
    (vectorizeLoops width n.loops).findSome? Loop.vectorWidth = some width := by
  obtain ⟨outer, rest, hloops, hvector⟩ := exists_vectorizeLoops hinner width
  have houter : outer.findSome? Loop.vectorWidth = none := by
    refine findSome?_vectorWidth fun l hl => hnone l ?_
    rw [hloops]
    exact List.mem_append_left _ hl
  rw [hvector, List.findSome?_append, houter]
  rfl

end Nest

namespace Proposals

variable {kind : Kind} {sizes : Option (List Nat)} {op : Nat} {opClass : OpClass} {n : Nest} {step : Step}

/-- A proposed step is the one between the loops that it finds and those that it makes of them. -/
theorem between_of_mem_ofKind (hnodup : n.loops.Nodup) (hstep : step ∈ ofKind kind sizes op opClass n)
    {loops : List Loop} (hloops : Nest.stepLoops step n.loops = .ok loops) :
    Step.between kind op n.loops loops = step := by
  cases kind with
  | tiling =>
    rw [ofKind, Nest.tilings_eq] at hstep
    obtain ⟨choice, hchoice, rfl⟩ := List.mem_map.mp hstep
    obtain ⟨-, rfl⟩ := Nest.stepLoops_tile_iff.mp hloops
    exact congrArg (Step.tile op) (Nest.zipWith_newTile_tiled (Nest.mem_tilingChoices.mp hchoice).2)
  | parallelization =>
    obtain ⟨hnone, count, rfl, -, -⟩ := exists_of_mem_parallelizations hstep
    simp only [Nest.stepLoops] at hloops
    split_ifs at hloops with hcount
    cases hloops
    exact congrArg (Step.parallelize op) (Nest.countP_parallelizeLoops hcount hnone)
  | interchange =>
    rw [ofKind, Nest.interchanges_eq] at hstep
    obtain ⟨order, -, rfl⟩ := List.mem_map.mp hstep
    obtain ⟨hperm, hgathers⟩ := Nest.stepLoops_interchange_iff.mp hloops
    exact congrArg (Step.interchange op) (hgathers.map_idxOf hnodup hperm)
  | vectorization =>
    obtain ⟨hnone, inner, width, hinner, -, rfl, hpos, -⟩ := exists_of_mem_vectorizations hstep
    simp only [Nest.stepLoops, if_pos hpos] at hloops
    cases hloops
    simp only [Step.between, Nest.findSome?_vectorizeLoops hinner (Nest.vectorWidth_eq_none hnone) width,
      Option.getD_some]

/-- No step is proposed that would have to lead from the loops to themselves. -/
theorem between_self_not_mem (hnodup : n.loops.Nodup) :
    Step.between kind op n.loops n.loops ∉ ofKind kind sizes op opClass n := by
  intro hstep
  cases kind with
  | tiling =>
    rw [ofKind, Nest.tilings_eq] at hstep
    obtain ⟨choice, hchoice, heq⟩ := List.mem_map.mp hstep
    cases heq
    obtain ⟨size, hsize⟩ := (Nest.mem_tilingChoices.mp hchoice).2.some_size
    rw [List.zipWith_self] at hsize
    simp at hsize
  | parallelization =>
    obtain ⟨hnone, count, heq, hpos, -⟩ := exists_of_mem_parallelizations hstep
    cases heq
    obtain ⟨l, hl, hparallel⟩ := List.countP_pos_iff.mp hpos
    rw [hnone l hl] at hparallel
    cases hparallel
  | interchange =>
    rw [ofKind, Nest.interchanges_eq] at hstep
    obtain ⟨order, horder, heq⟩ := List.mem_map.mp hstep
    cases heq
    refine (Nest.mem_interchangeOrders.mp horder).ne_range ?_
    exact (Gathers.range n.loops).map_idxOf hnodup (List.Perm.refl _)
  | vectorization =>
    obtain ⟨hnone, inner, width, -, -, heq, hpos, -⟩ := exists_of_mem_vectorizations hstep
    cases heq
    rw [Nest.findSome?_vectorWidth (Nest.vectorWidth_eq_none hnone)] at hpos
    exact Nat.lt_irrefl 0 hpos

theorem stepLoops_ne_self (hnodup : n.loops.Nodup) (hstep : step ∈ ofKind kind sizes op opClass n) :
    Nest.stepLoops step n.loops ≠ .ok n.loops := by
  intro hloops
  rw [← between_of_mem_ofKind hnodup hstep hloops] at hstep
  exact between_self_not_mem hnodup hstep

/-! ## The proposals for a nest -/

/-- Each step is proposed once, if no size is given twice. -/
theorem nodup_ofKind (hsizes : ∀ list, sizes = some list → list.Nodup) (kind : Kind) (op : Nat)
    (opClass : OpClass) (n : Nest) : (ofKind kind sizes op opClass n).Nodup := by
  have hgetD : ∀ default : List Nat, default.Nodup → (sizes.getD default).Nodup := by
    intro default hdefault
    cases sizes with
    | none => exact hdefault
    | some list => exact hsizes list rfl
  cases kind with
  | tiling =>
    rw [ofKind, Nest.tilings_eq]
    have hchoices := (Nest.ascending_tilingChoices (hgetD defaultTileSizes (by decide)) n).nodup
    exact hchoices.map fun _ _ heq => by cases heq; rfl
  | parallelization =>
    simp only [ofKind, parallelizations]
    split_ifs
    · exact List.nodup_nil
    · exact List.nodup_range.map fun _ _ heq => by cases heq; rfl
  | interchange =>
    rw [ofKind, Nest.interchanges_eq]
    exact (Nest.enumerates_interchangeOrders opClass n.loops).nodup.map fun _ _ heq => by cases heq; rfl
  | vectorization =>
    simp only [ofKind, vectorizations]
    split
    · exact List.nodup_nil
    · split_ifs
      · exact List.nodup_nil
      · exact ((hgetD defaultWidths (by decide)).filter _).map fun _ _ heq => by cases heq; rfl

/-! ## The proposals for a kernel -/

variable {k k' : Kernel} {operations : List (Nat × OpClass)}

/-- A step that is proposed for a kernel, with the nest that it is proposed for. -/
theorem exists_of_mem_stepsFor_of_apply (hstep : step ∈ stepsFor (ofKind kind sizes) k operations)
    (h : step.apply k = .ok k') : ∃ opClass n loops, step ∈ ofKind kind sizes step.op opClass n ∧
      k.nests[step.op]? = some n ∧ Nest.stepLoops step n.loops = .ok loops ∧
      k'.nests[step.op]? = some { n with loops := loops } ∧
      ∀ i, i ≠ step.op → k'.nests[i]? = k.nests[i]? := by
  obtain ⟨op, opClass, n, -, hn, hstep⟩ := mem_stepsFor hstep
  obtain ⟨-, rfl⟩ := kind_of_mem_ofKind hstep
  obtain ⟨n', loops, hn', hloops, happlied, hothers⟩ := Step.exists_getElem?_of_apply h
  cases hn.symm.trans hn'
  exact ⟨opClass, n, loops, hstep, hn, hloops, happlied, hothers⟩

/-- A proposed step changes the nest that it is for. -/
theorem getElem?_ne_of_apply (hnodup : ∀ n ∈ k.nests, n.loops.Nodup)
    (hstep : step ∈ stepsFor (ofKind kind sizes) k operations) (h : step.apply k = .ok k') :
    k'.nests[step.op]? ≠ k.nests[step.op]? := by
  obtain ⟨opClass, n, loops, hstep, hn, hloops, happlied, -⟩ := exists_of_mem_stepsFor_of_apply hstep h
  intro heq
  rw [happlied, hn, Option.some.injEq] at heq
  have hsame : loops = n.loops := congrArg Nest.loops heq
  exact stepLoops_ne_self (hnodup n (List.mem_of_getElem? hn)) hstep (hsame ▸ hloops)

/-- The kernel that a proposed step leads to tells which step it was. -/
theorem eq_of_apply_eq (hnodup : ∀ n ∈ k.nests, n.loops.Nodup) {step' : Step}
    (hstep : step ∈ stepsFor (ofKind kind sizes) k operations)
    (hstep' : step' ∈ stepsFor (ofKind kind sizes) k operations)
    (h : step.apply k = .ok k') (h' : step'.apply k = .ok k') : step = step' := by
  have hne := getElem?_ne_of_apply hnodup hstep h
  obtain ⟨_, n, loops, hstep, hn, hloops, happlied, -⟩ := exists_of_mem_stepsFor_of_apply hstep h
  obtain ⟨_, n', loops', hstep', hn', hloops', happlied', hothers'⟩ :=
    exists_of_mem_stepsFor_of_apply hstep' h'
  have hop : step.op = step'.op := by
    by_contra hop
    exact hne (hothers' _ hop)
  rw [← hop] at hn' happlied'
  cases hn.symm.trans hn'
  cases happlied.symm.trans happlied'
  have hnest := hnodup n (List.mem_of_getElem? hn)
  rw [← between_of_mem_ofKind hnest hstep hloops, ← between_of_mem_ofKind hnest hstep' hloops', hop]

/-- The steps for different operations are different. -/
theorem nodup_stepsFor (hsizes : ∀ list, sizes = some list → list.Nodup) (kind : Kind) (k : Kernel)
    (hoperations : (operations.map Prod.fst).Nodup) :
    (stepsFor (ofKind kind sizes) k operations).Nodup := by
  unfold stepsFor
  have hop : ∀ op step, step ∈ stepsFor (ofKind kind sizes) k [op] → step.op = op.1 := by
    intro op step hstep
    obtain ⟨_, _, _, hmem, -, hstep⟩ := mem_stepsFor hstep
    rw [← List.mem_singleton.mp hmem]
    exact (kind_of_mem_ofKind hstep).2
  simp only [stepsFor, List.flatMap_singleton] at hop
  refine List.nodup_flatMap.mpr ⟨fun op _ => ?_, (List.pairwise_map.mp hoperations).imp ?_⟩
  · obtain ⟨op, opClass⟩ := op
    cases hn : k.nests[op]? with
    | none => simp only [hn, List.nodup_nil]
    | some n =>
      simp only [hn]
      exact nodup_ofKind hsizes kind op opClass n
  · intro op op' hne step hstep hstep'
    exact hne ((hop op step hstep).symm.trans (hop op' step hstep'))

/-- Whatever steps were applied to a kernel text, and for every classification that resolves, each generator
lists candidates whose steps apply. Every one of them has another program than the node, and if no size is
given twice, then no two of them have the same program. -/
theorem candidates_distinct {text : String} {steps : List Step} (hread : Kernel.read text = .ok k)
    {node : KernelNode} (hsteps : Step.applyAll steps k = .ok node.program) {c : Classification Nat}
    (hresolve : node.program.resolve c = .ok operations) (kind : Kind) (sizes : Option (List Nat)) :
    ∃ cs, candidates (ofKind kind sizes) node c = .ok cs ∧
      (∀ candidate ∈ cs, candidate.transformation.apply node.program = .ok candidate.program ∧
        candidate.program ≠ node.program) ∧
      ((∀ list, sizes = some list → list.Nodup) → (cs.map (·.program)).Nodup) := by
  have hnodup : ∀ n ∈ node.program.nests, n.loops.Nodup := fun n hn =>
    (Kernel.nodup_names_of_applyAll hread hsteps n hn).of_map
  have hlists := Kernel.lists_of_resolve (Kernel.nodup_ids_of_applyAll hread hsteps) hresolve
  obtain ⟨cs, hcs, hextends⟩ := exists_candidates_of_resolve kind sizes hresolve
  have hproposed := (List.forall₂_and_left _ _).mpr ⟨fun step hstep => hstep, hextends⟩
  refine ⟨cs, hcs, fun candidate hcandidate => ?_, fun hsizes => ?_⟩
  · obtain ⟨step, -, hstep, program, happly, rfl⟩ := exists_of_forall₂_of_mem hproposed hcandidate
    refine ⟨happly, fun heq => getElem?_ne_of_apply hnodup hstep happly ?_⟩
    exact congrArg (fun k : Kernel => k.nests[step.op]?) heq
  · have hdistinct := nodup_stepsFor hsizes kind node.program
      (hlists.positions.nodup_iff.mpr List.nodup_range)
    refine List.pairwise_map.mpr (pairwise_of_forall₂ ?_ hproposed hdistinct)
    rintro step _ step' _ ⟨hstep, program, happly, rfl⟩ ⟨hstep', program', happly', rfl⟩ hne heq
    cases heq
    exact hne (eq_of_apply_eq hnodup hstep hstep' happly happly')

/-- An accumulation and a copy with a parallel loop, which are classified as what they are not. The former can
be tiled in five ways, and the other loop of the copy in two. -/
theorem candidates_distinct_relabelled :
    let copy : Nest := ⟨"copy", .elementwise, [.declare "i" 4 false, .declare "j" 6 false]⟩
    let sum : Nest := ⟨"acc", .reduction, [.declare "i" 4 false, .declare "k" 6 true]⟩
    let k : Kernel := ⟨[copy, sum]⟩
    let copy' : Nest := ⟨"copy", .elementwise, [⟨"i", 4, false, none, true, none⟩, .declare "j" 6 false]⟩
    let node : KernelNode := .root ⟨[copy', sum]⟩ 0
    let c : Classification Nat := .ofList [("copy", ⟨0, "contraction"⟩), ("acc", ⟨1, "elementwise"⟩)]
    Kernel.read "copy elementwise i=4 j=6\nacc reduction i=4 k=6" = .ok k ∧
      Step.applyAll [.parallelize 0 1] k = .ok node.program ∧
      node.program.resolve c = .ok [(1, .elementwise), (0, .contraction)] ∧ c ≠ node.program.classify ∧
      ∃ cs, candidates (ofKind .tiling (some [3, 2])) node c = .ok cs ∧ cs.length = 7 ∧
        (∀ candidate ∈ cs, candidate.transformation.apply node.program = .ok candidate.program ∧
          candidate.program ≠ node.program) ∧ (cs.map (·.program)).Nodup := by
  intro copy sum k copy' node c
  have hread : Kernel.read "copy elementwise i=4 j=6\nacc reduction i=4 k=6" = .ok k := by rfl
  have hsteps : Step.applyAll [.parallelize 0 1] k = .ok node.program := by rfl
  have hresolve : node.program.resolve c = .ok [(1, .elementwise), (0, .contraction)] := by rfl
  have hother : c.entries ≠ node.program.classify.entries := by decide
  have hlength : ((candidates (ofKind .tiling (some [3, 2])) node c).toOption.map List.length) = some 7 := by
    rfl
  obtain ⟨cs, hcs, hnew, hdistinct⟩ := candidates_distinct hread hsteps hresolve .tiling (some [3, 2])
  rw [hcs] at hlength
  refine ⟨hread, hsteps, hresolve, fun heq => hother (congrArg _ heq), cs, hcs, Option.some.inj hlength, hnew,
    hdistinct ?_⟩
  rintro _ ⟨⟩
  decide

end Proposals

end LoopTuner
