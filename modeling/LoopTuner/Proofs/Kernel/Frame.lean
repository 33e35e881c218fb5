import LoopTuner.Proofs.Kernel.Legal

/-!
# What no step changes

A step, whether it is proposed or not, leaves the ids and the classes of the nests as they are, and of
the loops of its nest it keeps what was declared (`Nest.Reshaped`).
-/

namespace LoopTuner

/-- A nest with the id, the class and the loops of another one, whatever was decided about its loops. -/
structure Nest.Reshaped (declared n : Nest) : Prop where
  id_eq : n.id = declared.id
  opClass_eq : n.opClass = declared.opClass
  perm : (n.loops.map Loop.declaration).Perm (declared.loops.map Loop.declaration)

namespace Nest

variable {declared n : Nest}

theorem reshaped_refl (nests : List Nest) : List.Forall₂ Reshaped nests nests :=
  List.forall₂_same.mpr fun _ _ => ⟨rfl, rfl, List.Perm.refl _⟩

theorem Reshaped.names (h : declared.Reshaped n) :
    (n.loops.map Loop.name).Perm (declared.loops.map Loop.name) := by
  have hnames := h.perm.map Prod.fst
  rw [List.map_map, List.map_map] at hnames
  exact hnames

theorem Reshaped.length_eq (h : declared.Reshaped n) : n.loops.length = declared.loops.length := by
  simpa using h.perm.length_eq

/-- A step on one of the nests. -/
theorem reshaped_set {nests nests' : List Nest} (h : List.Forall₂ Reshaped nests nests') {op : Nat}
    {nest : Nest} (hnest : nests'[op]? = some nest) {step : Step} {loops : List Loop}
    (hloops : stepLoops step nest.loops = .ok loops) :
    List.Forall₂ Reshaped nests (nests'.set op { nest with loops := loops }) := by
  refine forall₂_set h hnest fun d _ hd => ?_
  exact ⟨hd.id_eq, hd.opClass_eq, (perm_declaration hloops).trans hd.perm⟩

theorem map_id_of_reshaped {nests nests' : List Nest} (h : List.Forall₂ Reshaped nests nests') :
    nests'.map Nest.id = nests.map Nest.id := by
  induction h with
  | nil => rfl
  | cons hfirst _ ih => rw [List.map_cons, List.map_cons, hfirst.id_eq, ih]

end Nest

namespace Kernel

variable {k k' : Kernel}

theorem reshaped_of_applyAll {steps : List Step} (h : Step.applyAll steps k = .ok k') {nests : List Nest}
    (hk : List.Forall₂ Nest.Reshaped nests k.nests) : List.Forall₂ Nest.Reshaped nests k'.nests := by
  induction steps generalizing k with
  | nil =>
    cases h
    exact hk
  | cons step steps ih =>
    unfold Step.applyAll at h
    split at h
    · cases h
    · rename_i k₁ happly
      obtain ⟨nest, loops, hnest, hloops, rfl⟩ := Step.exists_of_apply happly
      exact ih h (Nest.reshaped_set hk hnest hloops)

/-- Steps leave the loops of a nest with different names. -/
theorem nodup_names_of_applyAll {text : String} {steps : List Step} (hread : Kernel.read text = .ok k)
    (h : Step.applyAll steps k = .ok k') : ∀ n ∈ k'.nests, (n.loops.map Loop.name).Nodup := by
  intro n hn
  have hreshaped := reshaped_of_applyAll h (Nest.reshaped_refl k.nests)
  obtain ⟨d, hd, hreshaped⟩ := exists_of_forall₂_of_mem hreshaped hn
  exact hreshaped.names.nodup_iff.mpr (declared_of_read hread d hd).nodup_names

theorem Derived.reshaped (h : Derived k.classify k k') : List.Forall₂ Nest.Reshaped k.nests k'.nests := by
  induction h with
  | refl => exact Nest.reshaped_refl k.nests
  | candidate _ hcs hc ih =>
    obtain ⟨op, declared, nest, loops, -, hnest, -, hloops, hprogram⟩ := exists_of_candidate hcs hc
    rw [hprogram]
    exact Nest.reshaped_set ih hnest hloops

end Kernel

end LoopTuner
