import LoopTuner.Proofs.Kernel.Frame

/-!
# Agreement of kernels and classifications

Two passes compare a classification with a kernel, one over the nests and one over the entries. Because
the nests have different ids, the operations that they leave are each position of the kernel once
(`Kernel.lists_of_resolve`). The classification of a kernel itself has an entry for each of its nests, and
the steps do not change it. `Kernel.resolve_of_applyAll` has all this for the kernels that steps lead to.
-/

namespace LoopTuner.Kernel

variable {k k' : Kernel} {c : Classification Nat}

/-! ## Ids -/

theorem nodup_ids_of_applyAll {text : String} {steps : List Step} (hread : Kernel.read text = .ok k)
    (h : Step.applyAll steps k = .ok k') : (k'.nests.map Nest.id).Nodup := by
  obtain ⟨_, _, -, -, -, -, hnodup⟩ := (read_eq_ok_iff_describes text k).mp hread
  have hreshaped := reshaped_of_applyAll h (Nest.reshaped_refl k.nests)
  rw [Nest.map_id_of_reshaped hreshaped]
  exact hnodup

/-- The nests are told apart by their ids. -/
theorem position_eq (hnodup : (k.nests.map Nest.id).Nodup) {i j : Nat} {n m : Nest}
    (hn : k.nests[i]? = some n) (hm : k.nests[j]? = some m) (hid : n.id = m.id) : i = j := by
  obtain ⟨hi, -⟩ := List.getElem?_eq_some_iff.mp hn
  refine (List.getElem?_inj (by rwa [List.length_map]) hnodup).mp ?_
  rw [List.getElem?_map, List.getElem?_map, hn, hm, Option.map_some, Option.map_some, hid]

/-! ## The operations of a classification -/

/-- The operations are all positions of the kernel, each one once, in byte order of the ids, and with the
classes that the classification labels them with. -/
structure Lists (k : Kernel) (c : Classification Nat) (operations : List (Nat × OpClass)) : Prop where
  positions : (operations.map Prod.fst).Perm (List.range k.nests.length)
  ascending : operations.Pairwise fun a b => ∃ n m, k.nests[a.1]? = some n ∧
    k.nests[b.1]? = some m ∧ Text.bytes n.id < Text.bytes m.id
  labels : ∀ op opClass, (op, opClass) ∈ operations →
    ∃ n, k.nests[op]? = some n ∧ (n.id, ⟨op, opClass.name⟩) ∈ c.entries

theorem lists_of_resolve (hnodup : (k.nests.map Nest.id).Nodup) {operations : List (Nat × OpClass)}
    (h : k.resolve c = .ok operations) : k.Lists c operations := by
  obtain ⟨hnamed, hentries⟩ := resolve_eq_ok_iff.mp h
  have hascending : operations.Pairwise fun a b => ∃ n m, k.nests[a.1]? = some n ∧
      k.nests[b.1]? = some m ∧ Text.bytes n.id < Text.bytes m.id := by
    refine pairwise_of_forall₂ ?_ hentries c.ascending
    rintro ⟨id, entry⟩ a ⟨id', entry'⟩ b ha hb hlt
    obtain ⟨⟨n, hn, rfl⟩, rfl⟩ := resolveEntry_eq_ok_iff.mp ha
    obtain ⟨⟨m, hm, rfl⟩, rfl⟩ := resolveEntry_eq_ok_iff.mp hb
    exact ⟨n, m, hn, hm, Text.bytes_lt_bytes_iff.mpr hlt⟩
  have hlabels : ∀ op opClass, (op, opClass) ∈ operations →
      ∃ n, k.nests[op]? = some n ∧ (n.id, ⟨op, opClass.name⟩) ∈ c.entries := by
    intro op opClass hop
    obtain ⟨⟨id, entry⟩, he, hentry⟩ := exists_of_forall₂_of_mem hentries hop
    obtain ⟨⟨n, hn, rfl⟩, rfl⟩ := resolveEntry_eq_ok_iff.mp hentry
    exact ⟨n, hn, he⟩
  refine ⟨perm_range_iff.mpr ⟨?_, fun i => ⟨fun hi => ?_, fun hi => ?_⟩⟩, hascending, hlabels⟩
  · refine List.pairwise_map.mpr (hascending.imp ?_)
    rintro a b ⟨n, m, hn, hm, hlt⟩ heq
    rw [heq, hm] at hn
    cases hn
    exact List.lt_irrefl _ hlt
  · obtain ⟨⟨op, opClass⟩, hop, rfl⟩ := List.mem_map.mp hi
    obtain ⟨n, hn, -⟩ := hlabels op opClass hop
    exact (List.getElem?_eq_some_iff.mp hn).1
  · -- the entry of the nest can only refer to the nest itself
    have hn := List.getElem?_eq_getElem hi
    obtain ⟨⟨id, entry⟩, he, hid⟩ := List.mem_map.mp (hnamed _ (List.getElem_mem hi))
    obtain ⟨op, hop, hentry⟩ := exists_of_forall₂_of_mem hentries.flip he
    obtain ⟨⟨m, hm, hmid⟩, rfl⟩ := resolveEntry_eq_ok_iff.mp hentry
    rw [position_eq hnodup hn hm (hid.symm.trans hmid.symm)]
    exact List.mem_map_of_mem hop

/-! ## The classification of a kernel -/

theorem perm_classify (hnodup : (k.nests.map Nest.id).Nodup) :
    k.classify.entries.Perm (k.nests.mapIdx fun i n => (n.id, ⟨i, n.opClass.name⟩)) := by
  rw [← map_fst_declared] at hnodup
  exact Classification.perm_ofList hnodup

theorem length_classify (hnodup : (k.nests.map Nest.id).Nodup) :
    k.classify.entries.length = k.nests.length := by
  rw [(perm_classify hnodup).length_eq, List.length_mapIdx]

/-- There is an entry for each nest. -/
theorem mem_classify_iff (hnodup : (k.nests.map Nest.id).Nodup) {e : String × Classified Nat} :
    e ∈ k.classify.entries ↔ ∃ i n, k.nests[i]? = some n ∧ e = (n.id, ⟨i, n.opClass.name⟩) := by
  rw [(perm_classify hnodup).mem_iff, List.mem_mapIdx]
  constructor
  · rintro ⟨i, hi, rfl⟩
    exact ⟨i, k.nests[i], List.getElem?_eq_getElem hi, rfl⟩
  · rintro ⟨i, n, hn, rfl⟩
    obtain ⟨hi, rfl⟩ := List.getElem?_eq_some_iff.mp hn
    exact ⟨i, hi, rfl⟩

theorem classify_of_reshaped (h : List.Forall₂ Nest.Reshaped k.nests k'.nests) :
    k'.classify = k.classify := by
  obtain ⟨hlength, hreshaped⟩ := List.forall₂_iff_get.mp h
  unfold classify
  congr 1
  refine List.ext_getElem (by simp [hlength]) fun i hi' hi => ?_
  rw [List.length_mapIdx] at hi hi'
  have hnest : k.nests[i].Reshaped k'.nests[i] := hreshaped i hi hi'
  rw [List.getElem_mapIdx, List.getElem_mapIdx, hnest.id_eq, hnest.opClass_eq]

theorem classify_of_apply {step : Step} (h : step.apply k = .ok k') : k'.classify = k.classify := by
  obtain ⟨n, loops, hn, hloops, rfl⟩ := Step.exists_of_apply h
  exact classify_of_reshaped (Nest.reshaped_set (Nest.reshaped_refl k.nests) hn hloops)

/-- Whatever steps were applied to a kernel text, a classification resolves exactly if it describes the
kernel, and then to each of its operations once. Otherwise the cause is the first thing that is wrong with
it. The classification of the kernel itself resolves, to the classes of the nests. -/
theorem resolve_of_applyAll {text : String} {steps : List Step} (hread : Kernel.read text = .ok k)
    (hsteps : Step.applyAll steps k = .ok k') (c : Classification Nat) :
    ((∃ operations, k'.resolve c = .ok operations) ↔ k'.ClassifiedBy c) ∧
      (∀ operations, k'.resolve c = .ok operations → k'.Lists c operations) ∧
      (∀ cause, k'.resolve c = .error cause ↔ k'.Refuses c cause) ∧
      k'.classify.entries.length = k'.nests.length ∧
      (∀ (step : Step) k'', step.apply k' = .ok k'' → k''.classify = k'.classify) ∧
      ∃ operations, k'.resolve k'.classify = .ok operations ∧
        ∀ op opClass, (op, opClass) ∈ operations → ∃ n, k'.nests[op]? = some n ∧ n.opClass = opClass := by
  have hnodup := nodup_ids_of_applyAll hread hsteps
  refine ⟨exists_resolve_iff, fun _ => lists_of_resolve hnodup, fun _ => resolve_eq_error_iff,
    length_classify hnodup, fun _ _ => classify_of_apply, ?_⟩
  obtain ⟨operations, hoperations⟩ := exists_resolve_iff.mpr (classifiedBy_classify (k := k') rfl)
  exact ⟨operations, hoperations, fun _ _ => exists_of_mem_resolve hoperations⟩

/-- Two operations whose ids are not in the order of the kernel. They can be classified otherwise than they
are declared, but not with the id of a third one. -/
theorem resolve_of_applyAll_sums :
    let k : Kernel := ⟨[⟨"b", .elementwise, [.declare "i" 4 false]⟩, ⟨"a", .contraction, [.declare "k" 2 true]⟩]⟩
    let k' : Kernel := ⟨[⟨"b", .elementwise, [⟨"i", 4, false, none, true, none⟩]⟩,
      ⟨"a", .contraction, [.declare "k" 2 true]⟩]⟩
    let entries : List (String × Classified Nat) := [("b", ⟨0, "elementwise"⟩), ("a", ⟨1, "reduction"⟩)]
    let c : Classification Nat := .ofList entries
    let c' : Classification Nat := .ofList (("0", ⟨2, "other"⟩) :: entries)
    Kernel.read "b elementwise i=4\na contraction k=2" = .ok k ∧
      Step.applyAll [.parallelize 0 1] k = .ok k' ∧ k'.classify = k.classify ∧
      k'.ClassifiedBy c ∧ k'.Lists c [(1, .reduction), (0, .elementwise)] ∧
      k'.Refuses c' (.unknownOperation "0") := by
  intro k k' entries c c'
  have hread : Kernel.read "b elementwise i=4\na contraction k=2" = .ok k := by rfl
  have happly : (Step.parallelize 0 1).apply k = .ok k' := by rfl
  have hsteps : Step.applyAll [.parallelize 0 1] k = .ok k' := by rfl
  have hc : k'.resolve c = .ok [(1, .reduction), (0, .elementwise)] := by rfl
  have hc' : k'.resolve c' = .error (.unknownOperation "0") := by rfl
  obtain ⟨hiff, hlists, -⟩ := resolve_of_applyAll hread hsteps c
  obtain ⟨-, -, hrefuses, -⟩ := resolve_of_applyAll hread hsteps c'
  have hnone : Step.applyAll [] k = .ok k := by rfl
  obtain ⟨-, -, -, -, hclassify, -⟩ := resolve_of_applyAll hread hnone c
  exact ⟨hread, hsteps, hclassify _ _ happly, hiff.mp ⟨_, hc⟩, hlists _ hc, (hrefuses _).mp hc'⟩

end LoopTuner.Kernel
