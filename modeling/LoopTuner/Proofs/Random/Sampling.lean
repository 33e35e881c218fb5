import LoopTuner.Proofs.Lists
import LoopTuner.Random.Subset
import Mathlib.Data.List.Nodup
import Mathlib.Data.List.Perm.Subperm
import Mathlib.Tactic.SplitIfs

/-!
# Samples

Whatever words a stream has, each of the ways to draw positions yields as many different ones as are asked for
(`Random.selects_drawPositions`). A sample is made of the items at these positions, in the order in which they
stand in the list (`Random.sample_keeps_drawn`).
-/

namespace LoopTuner.Random

/-- As many positions below `length` as are asked for, each one once. -/
structure Selects (length amount : Nat) (positions : List Nat) : Prop where
  nodup : positions.Nodup
  lt_length : ∀ i ∈ positions, i < length
  length_eq : positions.length = amount

variable {length amount : Nat} {s : Stream}

/-! ## Shuffling -/

theorem shuffleFront_perm (last count i : Nat) (positions : Array Nat) (s : Stream) :
    (shuffleFront last count i positions s).1.toList.Perm positions.toList := by
  induction count generalizing i positions s with
  | zero => exact List.Perm.refl _
  | succ count ih =>
    unfold shuffleFront
    refine (ih _ _ _).trans ?_
    unfold Array.swapIfInBounds
    split_ifs
    · exact Array.perm_iff_toList_perm.mp (Array.swap_perm _ _)
    · exact List.Perm.refl _
    · exact List.Perm.refl _

theorem selects_drawByShuffling (h : amount ≤ length) (s : Stream) :
    Selects length amount (drawByShuffling length amount s).1 := by
  have hperm := shuffleFront_perm (length - 1) amount 0 (Array.range length) s
  rw [Array.toList_range] at hperm
  have hfront : (drawByShuffling length amount s).1 =
      (shuffleFront (length - 1) amount 0 (Array.range length) s).1.toList.take amount := by
    simp [drawByShuffling, List.extract_eq_take_drop]
  rw [hfront]
  refine ⟨(hperm.nodup_iff.mpr List.nodup_range).sublist (List.take_sublist _ _), fun i hi => ?_, ?_⟩
  · exact List.mem_range.mp (hperm.subset (List.mem_of_mem_take hi))
  · rw [List.length_take, hperm.length_eq, List.length_range, Nat.min_eq_left h]

/-! ## Growing -/

/-- Each position is new: either it was drawn and not taken yet, or it is greater than all before. -/
theorem selects_drawGrowing (count : Nat) {j : Nat} {picked : List Nat}
    (h : Selects j amount picked) (s : Stream) :
    Selects (j + count) (amount + count) (drawGrowing count j picked s).1 := by
  induction count generalizing j amount picked s with
  | zero => exact h
  | succ count ih =>
    unfold drawGrowing
    have hle := drawBetween_le (Nat.zero_le j) s
    rw [show j + (count + 1) = j + 1 + count by omega, show amount + (count + 1) = amount + 1 + count by omega]
    refine ih ⟨List.nodup_cons.mpr ⟨?_, h.nodup⟩, List.forall_mem_cons.mpr ⟨?_, fun i hi => ?_⟩, ?_⟩ _
    · split_ifs with htaken
      · exact fun hj => Nat.lt_irrefl _ (h.lt_length j hj)
      · exact fun ht => htaken (List.contains_iff_mem.mpr ht)
    · split_ifs
      · exact Nat.lt_succ_self j
      · exact Nat.lt_succ_of_le hle
    · exact Nat.lt_succ_of_lt (h.lt_length i hi)
    · rw [List.length_cons, h.length_eq]

theorem selects_drawByGrowing (h : amount ≤ length) (s : Stream) :
    Selects length amount (drawByGrowing length amount s).1 := by
  have hnone : Selects (length - amount) 0 [] := ⟨List.nodup_nil, by simp, rfl⟩
  have hgrown := selects_drawGrowing amount hnone s
  rwa [Nat.sub_add_cancel h, Nat.zero_add] at hgrown

/-! ## Rejecting -/

theorem fresh_of_drawFresh {words : Nat} {picked : List Nat} {fuel t : Nat}
    (h : (drawFresh words length picked fuel s).1 = some t) : t ∉ picked ∧ t < length := by
  induction fuel generalizing s with
  | zero => cases h
  | succ fuel ih =>
    unfold drawFresh at h
    simp only at h
    split_ifs at h with hskip
    · exact ih h
    · cases h
      rw [Bool.or_eq_true, not_or, decide_eq_true_iff, Nat.not_le, List.contains_iff_mem] at hskip
      exact hskip

/-- Fewer positions than there are leave one free. -/
theorem leastFree_fresh {picked : List Nat} (h : picked.length < length) :
    leastFree length picked ∉ picked ∧ leastFree length picked < length := by
  unfold leastFree
  cases hfree : (List.range length).find? (!picked.contains ·) with
  | some t =>
    have hlt := List.mem_range.mp (List.mem_of_find?_eq_some hfree)
    have ht := List.find?_some hfree
    rw [Bool.not_eq_true', ← Bool.not_eq_true, List.contains_iff_mem] at ht
    exact ⟨ht, hlt⟩
  | none =>
    have hall : List.range length ⊆ picked := by
      intro i hi
      have htaken := List.find?_eq_none.mp hfree i hi
      simpa using htaken
    have hle := (List.subperm_of_subset List.nodup_range hall).length_le
    rw [List.length_range] at hle
    omega

/-- If no draw was new, then the least free position is. -/
theorem fresh_of_getD {words : Nat} {picked : List Nat} {fuel : Nat} {t : Option Nat} {s' : Stream}
    (h : drawFresh words length picked fuel s = (t, s')) (hpicked : picked.length < length) :
    t.getD (leastFree length picked) ∉ picked ∧ t.getD (leastFree length picked) < length := by
  cases t with
  | some t => exact fresh_of_drawFresh (congrArg Prod.fst h)
  | none => exact leastFree_fresh hpicked

theorem selects_drawRejecting (words : Nat) {count : Nat} {picked : List Nat}
    (h : Selects length amount picked) (hcount : amount + count ≤ length) (s : Stream) :
    Selects length (amount + count) (drawRejecting words length count picked s).1 := by
  induction count generalizing amount picked s with
  | zero => exact h
  | succ count ih =>
    unfold drawRejecting
    rcases hdraw : drawFresh words length picked (attempts * length) s with ⟨t, s'⟩
    obtain ⟨hnew, hlt⟩ := fresh_of_getD hdraw (by rw [h.length_eq]; omega)
    rw [show amount + (count + 1) = amount + 1 + count by omega]
    refine ih ⟨List.nodup_cons.mpr ⟨hnew, h.nodup⟩, List.forall_mem_cons.mpr ⟨hlt, h.lt_length⟩, ?_⟩
      (by omega) _
    rw [List.length_cons, h.length_eq]

/-! ## The positions -/

theorem selects_drawPositions (h : amount ≤ length) (s : Stream) :
    Selects length amount (drawPositions length amount s).1 := by
  have hrejecting (words : Nat) : Selects length amount (drawRejecting words length amount [] s).1 := by
    have hnone : Selects length 0 [] := ⟨List.nodup_nil, by simp, rfl⟩
    have hdrawn := selects_drawRejecting words hnone (by omega : 0 + amount ≤ length) s
    rwa [Nat.zero_add] at hdrawn
  unfold drawPositions
  split_ifs
  · exact hrejecting 2
  · exact selects_drawByShuffling h s
  · exact selects_drawByGrowing h s
  · exact selects_drawByShuffling h s
  · exact hrejecting 1

/-! ## The items at the positions -/

/-- The positions of a list that are among the given ones, in order. -/
def inOrder (length : Nat) (positions : List Nat) : List Nat :=
  (List.range length).filter (positions.contains ·)

theorem inOrder_perm {positions : List Nat} (h : Selects length amount positions) :
    (inOrder length positions).Perm positions := by
  refine (List.perm_ext_iff_of_nodup (List.nodup_range.filter _) h.nodup).mpr fun i => ?_
  rw [List.mem_filter, List.mem_range, List.contains_iff_mem]
  exact and_iff_right_of_imp (h.lt_length i)

theorem getElem?_foldl_mark (positions : List Nat) (m : Array Bool) (i : Nat) :
    (positions.foldl (fun m i => m.setIfInBounds i true) m)[i]? =
      m[i]?.map fun mark => positions.contains i || mark := by
  induction positions generalizing m with
  | nil => simp
  | cons j positions ih =>
    rw [List.foldl_cons, ih, Array.getElem?_setIfInBounds]
    split_ifs with hij hlt
    · subst hij
      simp [Array.getElem?_eq_getElem hlt]
    · subst hij
      rw [Array.getElem?_eq_none (Nat.not_lt.mp hlt)]
      rfl
    · simp [Ne.symm hij]

/-- The marks tell for each position whether it is one of the given ones. -/
theorem toList_marks (length : Nat) (positions : List Nat) :
    (marks length positions).toList = (List.range length).map (positions.contains ·) := by
  refine List.ext_getElem? fun i => ?_
  unfold marks
  rw [Array.getElem?_toList, getElem?_foldl_mark, Array.getElem?_replicate, List.getElem?_map]
  split_ifs with hi
  · rw [List.getElem?_range hi, Option.map_some, Option.map_some, Bool.or_false]
  · rw [List.getElem?_eq_none (by rw [List.length_range]; omega)]
    rfl

/-- The marked items are those at the marked positions. -/
theorem filterMap_zip_map_range {α : Type} (items : List α) (p : Nat → Bool) :
    ((items.zip ((List.range items.length).map p)).filterMap fun (x, keep) =>
      if keep then some x else none) = ((List.range items.length).filter p).filterMap (items[·]?) := by
  induction items generalizing p with
  | nil => rfl
  | cons x items ih =>
    have hrest := ih (p ∘ Nat.succ)
    have htail : ((List.range items.length).map Nat.succ).filter p =
        ((List.range items.length).filter (p ∘ Nat.succ)).map Nat.succ := List.filter_map
    rw [List.length_cons, List.range_succ_eq_map, List.map_cons, List.map_map, List.zip_cons_cons,
      List.filterMap_cons, hrest, List.filter_cons, htail]
    cases p 0 <;> simp [List.filterMap_map, Function.comp_def]

section Kept

variable {α : Type}

/-- What a sample keeps of the items if these are the positions that are drawn. -/
def keepMarked (items : List α) (positions : List Nat) : List α :=
  (items.zip (marks items.length positions).toList).filterMap fun (x, keep) => if keep then some x else none

theorem keepMarked_eq (items : List α) (positions : List Nat) :
    keepMarked items positions = (inOrder items.length positions).filterMap (items[·]?) := by
  unfold keepMarked inOrder
  rw [← filterMap_zip_map_range, ← toList_marks]

theorem keepMarked_sublist (items : List α) (positions : List Nat) :
    (keepMarked items positions).Sublist items := by
  have hsublist : ((inOrder items.length positions).filterMap (items[·]?)).Sublist
      ((List.range items.length).filterMap (items[·]?)) :=
    List.filter_sublist.filterMap _
  rwa [filterMap_getElem?_range, ← keepMarked_eq] at hsublist

/-- There is an item at each of the positions. -/
theorem map_some_keepMarked {items : List α} {positions : List Nat}
    (h : Selects items.length amount positions) :
    (keepMarked items positions).map some = (inOrder items.length positions).map (items[·]?) := by
  have hlt : ∀ i ∈ inOrder items.length positions, i < items.length := fun i hi =>
    h.lt_length i ((inOrder_perm h).subset hi)
  refine List.ext_getElem? fun i => ?_
  rw [keepMarked_eq, List.getElem?_map, List.getElem?_map, getElem?_filterMap_getElem? hlt]
  cases hi : (inOrder items.length positions)[i]? with
  | none => rfl
  | some old =>
    have hold := hlt old (List.mem_of_getElem? hi)
    simp [List.getElem?_eq_getElem hold]

theorem length_keepMarked {items : List α} {positions : List Nat}
    (h : Selects items.length amount positions) : (keepMarked items positions).length = amount := by
  have hlength := congrArg List.length (map_some_keepMarked h)
  rw [List.length_map, List.length_map, (inOrder_perm h).length_eq, h.length_eq] at hlength
  exact hlength

theorem sample_fst (items : List α) (amount : Nat) (s : Stream) :
    (sample items amount s).1 = keepMarked items (drawPositions items.length amount s).1 :=
  rfl

theorem sample_sublist (items : List α) (amount : Nat) (s : Stream) :
    (sample items amount s).1.Sublist items :=
  keepMarked_sublist items _

theorem length_sample {items : List α} (h : amount ≤ items.length) (s : Stream) :
    (sample items amount s).1.length = amount :=
  length_keepMarked (selects_drawPositions h s)

/-- A sample is made of the items at the positions that are drawn and of no others, each of them once and in
the order of the list. This holds of whatever positions are drawn, as long as they are different, below the
length and as many as are asked for; and those that the stream yields always are. -/
theorem sample_keeps_drawn (items : List α) (h : amount ≤ items.length) :
    (∀ s, (sample items amount s).1 = keepMarked items (drawPositions items.length amount s).1 ∧
      Selects items.length amount (drawPositions items.length amount s).1) ∧
      ∀ positions, Selects items.length amount positions →
        (keepMarked items positions).Sublist items ∧ (keepMarked items positions).length = amount ∧
          (∃ places : List Nat, places.Pairwise (· < ·) ∧ places.Perm positions ∧
            (keepMarked items positions).map some = places.map (items[·]?)) ∧
          (items.Nodup → (keepMarked items positions).Nodup) := by
  refine ⟨fun s => ⟨sample_fst items amount s, selects_drawPositions h s⟩, ?_⟩
  intro positions hselects
  have hsublist := keepMarked_sublist items positions
  have hascending : (inOrder items.length positions).Pairwise (· < ·) := List.pairwise_lt_range.filter _
  exact ⟨hsublist, length_keepMarked hselects,
    ⟨inOrder items.length positions, hascending, inOrder_perm hselects, map_some_keepMarked hselects⟩,
    fun hnodup => hnodup.sublist hsublist⟩

/-- The second and the last one of four items, drawn in the other order. -/
theorem sample_keeps_drawn_four :
    let items := [7, 5, 9, 8]
    2 ≤ items.length ∧ Selects items.length 2 [3, 1] ∧ keepMarked items [3, 1] = [5, 8] ∧
      (keepMarked items [3, 1]).Sublist items ∧ (keepMarked items [3, 1]).Nodup ∧
      ∀ s, Selects items.length 2 (drawPositions items.length 2 s).1 := by
  intro items
  have hlength : 2 ≤ items.length := by decide
  have hselects : Selects items.length 2 [3, 1] := ⟨by decide, by decide, rfl⟩
  obtain ⟨hdrawn, hkept⟩ := sample_keeps_drawn items hlength
  obtain ⟨hsublist, -, -, hnodup⟩ := hkept [3, 1] hselects
  exact ⟨hlength, hselects, by decide, hsublist, hnodup (by decide), fun s => (hdrawn s).2⟩

end Kept

end LoopTuner.Random
