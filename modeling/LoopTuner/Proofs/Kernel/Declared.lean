import LoopTuner.Proofs.Kernel.Grammar

/-!
# Kernels as they are declared

A kernel text declares nests whose loops have different names, and only the last loop of a nest can be
a reduction (`Kernel.declared_of_read`).
-/

namespace LoopTuner

/-- A nest before any step on it. -/
def Nest.Declared (n : Nest) : Prop :=
  ∃ front last, ((front ++ [last]).map Prod.fst).Nodup ∧
    n.loops = front.map (fun d => Loop.declare d.1 d.2 false) ++
      [.declare last.1 last.2 n.opClass.hasReduction]

/-- No step has marked the loops yet. -/
theorem Nest.Declared.fresh {n : Nest} (h : n.Declared) :
    ∀ l ∈ n.loops, l.tile = none ∧ l.parallel = false ∧ l.vectorWidth = none := by
  obtain ⟨front, last, -, hloops⟩ := h
  intro l hl
  rw [hloops, List.mem_append, List.mem_map, List.mem_singleton] at hl
  rcases hl with ⟨d, -, rfl⟩ | rfl
  · exact ⟨rfl, rfl, rfl⟩
  · exact ⟨rfl, rfl, rfl⟩

namespace Kernel

theorem DeclaresNest.declared {ws : List (List Char)} {n : Nest} (h : DeclaresNest ws n) :
    n.Declared := by
  obtain ⟨_, _, _, declared, -, -, -, -, hne, hnodup, hloops⟩ := h
  obtain rfl | ⟨front, last, rfl⟩ := List.eq_nil_or_concat' declared
  · exact absurd rfl hne
  · exact ⟨front, last, hnodup, by rw [hloops, mapIdx_declaredAt_concat]⟩

theorem declared_of_read {text : String} {k : Kernel} (h : read text = .ok k) :
    ∀ n ∈ k.nests, n.Declared := by
  obtain ⟨hlines, -⟩ := readChars_eq_ok_iff.mp h
  obtain ⟨hnests, -⟩ := readLines_eq_ok_iff.mp hlines
  intro n hn
  obtain ⟨i, hi, rfl⟩ := List.mem_iff_getElem.mp hn
  rw [List.forall₂_iff_get] at hnests
  exact (hnests.2 i (hnests.1 ▸ hi) hi).declared

end Kernel

end LoopTuner
