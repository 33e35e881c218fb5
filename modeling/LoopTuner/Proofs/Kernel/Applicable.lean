import LoopTuner.Proofs.Kernel.Effects

/-!
# Proposals apply

Every step that is proposed for a nest fits it (`Proposals.fits_of_mem_ofKind`), and the classification
of a kernel describes every kernel with the same ids. So the candidates of a kernel that steps have led to
can always be listed (`Proposals.exists_candidates`).
-/

namespace LoopTuner

namespace Proposals

/-! ## Steps -/

theorem range_append_range' {fixed count : Nat} (hfixed : fixed ≤ count) :
    List.range fixed ++ List.range' fixed (count - fixed) = List.range count := by
  have happend := List.range'_append_1 (s := 0) (m := fixed) (n := count - fixed)
  rw [Nat.zero_add, Nat.add_sub_cancel' hfixed] at happend
  rw [List.range_eq_range', List.range_eq_range', happend]

/-- The leading loops stay, and the others are permuted. -/
theorem perm_range {fixed count : Nat} {order : List Nat} (hfixed : fixed ≤ count)
    (h : order.Perm (List.range' fixed (count - fixed))) :
    (List.range fixed ++ order).Perm (List.range count) := by
  rw [← range_append_range' hfixed]
  exact h.append_left _

/-- A step fits the nest that it is proposed for. -/
theorem fits_of_mem_ofKind {kind : Kind} {sizes : Option (List Nat)} {op : Nat} {opClass : OpClass}
    {nest : Nest} {step : Step} (h : step ∈ ofKind kind sizes op opClass nest) :
    step.Fits nest.loops := by
  cases kind with
  | tiling =>
    obtain ⟨-, choice, rfl, hchoice⟩ := exists_of_mem_tilings h
    refine hchoice.imp fun _ _ hsize s hs => ?_
    obtain ⟨hpos, -, hdivides⟩ := divides_of_mem_tileSizes (hsize s hs)
    exact ⟨hpos, hdivides⟩
  | parallelization =>
    obtain ⟨-, count, rfl, -, hcount⟩ := exists_of_mem_parallelizations h
    exact hcount.trans (List.takeWhile_sublist _).length_le
  | interchange =>
    obtain ⟨fixed, order, hfixed, rfl, hperm, -⟩ := exists_of_mem_interchanges h
    have hle : fixed ≤ nest.loops.length := hfixed ▸ (List.takeWhile_sublist _).length_le
    exact perm_range_iff.mp (perm_range hle hperm)
  | vectorization =>
    obtain ⟨-, _, width, -, -, rfl, hpos, -⟩ := exists_of_mem_vectorizations h
    exact hpos

theorem exists_applied {node : KernelNode} {steps : List Step}
    (h : ∀ step ∈ steps, ∃ program, step.apply node.program = .ok program) :
    ∃ candidates, applied node steps = .ok candidates := by
  induction steps with
  | nil => exact ⟨[], rfl⟩
  | cons step steps ih =>
    obtain ⟨⟨program, happly⟩, hsteps⟩ := List.forall_mem_cons.mp h
    obtain ⟨rest, hrest⟩ := ih hsteps
    unfold applied
    simp only [happly, hrest]
    exact ⟨_, rfl⟩

theorem exists_apply_of_mem_stepsFor {kind : Kind} {sizes : Option (List Nat)} {k : Kernel}
    {operations : List (Nat × OpClass)} {step : Step}
    (h : step ∈ stepsFor (ofKind kind sizes) k operations) : ∃ k', step.apply k = .ok k' := by
  obtain ⟨op, opClass, nest, -, hnest, hstep⟩ := mem_stepsFor h
  rw [← (kind_of_mem_ofKind hstep).2] at hnest
  exact Kernel.exists_apply_iff.mpr ⟨nest, hnest, fits_of_mem_ofKind hstep⟩

end Proposals

/-! ## Candidates -/

/-- Under the classification of an earlier kernel with the same ids, the candidates of a node can be
listed. -/
theorem Proposals.exists_candidates {k : Kernel} {node : KernelNode}
    (hids : node.program.nests.map Nest.id = k.nests.map Nest.id) (kind : Kind)
    (sizes : Option (List Nat)) :
    ∃ cs, candidates (ofKind kind sizes) node k.classify = .ok cs := by
  obtain ⟨operations, hresolve⟩ :=
    Kernel.exists_resolve_iff.mpr (Kernel.classifiedBy_classify hids)
  unfold candidates
  simp only [hresolve]
  exact exists_applied fun step hstep => exists_apply_of_mem_stepsFor hstep

end LoopTuner
