import LoopTuner.Proofs.Kernel.Vector
import Mathlib.Data.List.Nodup

/-!
# Where the reduction loop runs

The loops of a nest of class `reduction` end with its reduction loop, whatever candidates are taken. It
runs innermost unless other loops are tiled and it is not: the point loops of the tiled loops run inside
all others, and a tiling does not ask for the class of its nest (`Kernel.exists_reduction_outside`). As
long as a tiling of such a nest leaves its last loop tiled, the innermost loop is the reduction
(`Kernel.reduction_innermost`).
-/

namespace LoopTuner

namespace Nest

variable {n : Nest} {loops loops' : List Loop}

/-- No loop is tiled, or the last one is. -/
def TilesLast (loops : List Loop) : Prop :=
  (∀ l ∈ loops, l.isTiled = false) ∨ ∃ last, loops.getLast? = some last ∧ last.isTiled = true

/-- There is at most one reduction among the loops. -/
def OneReduction (loops : List Loop) : Prop :=
  ∀ l ∈ loops, ∀ l' ∈ loops, l.reduction = true → l'.reduction = true → l = l'

/-- Only the loop that was declared last can be a reduction. -/
theorem Legal.oneReduction {declared : Nest} (h : declared.Legal n) : OneReduction n.loops := by
  intro l hl l' hl' hr hr'
  have hname := ((h.reduction_iff l hl).mp hr).2
  rw [((h.reduction_iff l' hl').mp hr').2, Option.some.injEq] at hname
  exact (List.inj_on_of_nodup_map h.nodup_names hl' hl hname).symm

/-- The last loop runs innermost if and only if it is tiled or no loop is. -/
theorem innermost?_of_tilesLast {last : Loop} (hlast : n.loops.getLast? = some last)
    (h : TilesLast n.loops) : ∃ inner, n.innermost? = some inner ∧ inner.source = last := by
  rw [innermost?_eq]
  rcases h with hnone | ⟨last', hlast', htiled⟩
  · have hfilter : n.loops.filter Loop.isTiled = [] :=
      List.filter_eq_nil_iff.mpr fun l hl => by simp [hnone l hl]
    exact ⟨⟨last, false⟩, by simp [hfilter, hlast], rfl⟩
  · rw [hlast] at hlast'
    cases hlast'
    obtain ⟨front, hloops⟩ := List.getLast?_eq_some_iff.mp hlast
    have hfilter : (n.loops.filter Loop.isTiled).getLast? = some last := by
      rw [hloops, List.filter_append, List.filter_cons_of_pos htiled, List.filter_nil,
        List.getLast?_concat]
    exact ⟨⟨last, true⟩, by rw [hfilter], rfl⟩

theorem exists_innermost_iff (hone : OneReduction n.loops) {last : Loop}
    (hlast : n.loops.getLast? = some last) (hreduction : last.reduction = true) :
    ∃ inner, n.innermost? = some inner ∧ (inner.source.reduction = true ↔ TilesLast n.loops) := by
  by_cases h : TilesLast n.loops
  · obtain ⟨inner, hinner, hsource⟩ := innermost?_of_tilesLast hlast h
    exact ⟨inner, hinner, iff_of_true (hsource ▸ hreduction) h⟩
  · -- some other loop is tiled, and the last of those runs innermost
    rw [TilesLast, not_or] at h
    obtain ⟨hsome, huntiled⟩ := h
    cases htiled : (n.loops.filter Loop.isTiled).getLast? with
    | none =>
      rw [List.getLast?_eq_none_iff, List.filter_eq_nil_iff] at htiled
      exact absurd (fun l hl => Bool.eq_false_iff.mpr (htiled l hl)) hsome
    | some l =>
      obtain ⟨hl, hltiled⟩ := List.mem_filter.mp (List.mem_of_getLast? htiled)
      refine ⟨⟨l, true⟩, by rw [innermost?_eq, htiled], iff_of_false (fun hr => ?_) ?_⟩
      · have heq := hone l hl last (List.mem_of_getLast? hlast) hr hreduction
        exact huntiled ⟨last, hlast, heq ▸ hltiled⟩
      · rintro (hnone | hend)
        · exact hsome hnone
        · exact huntiled hend

/-! ## Steps that do not tile -/

/-- The last loop stays the tiled one if it stays the reduction. -/
theorem TilesLast.of_perm (h : TilesLast loops) (hone : OneReduction loops)
    (hlast : ∃ l, loops.getLast? = some l ∧ l.reduction = true)
    (hlast' : ∃ l, loops'.getLast? = some l ∧ l.reduction = true)
    (hperm : (loops'.map fun l => (l.reduction, l.isTiled)).Perm
      (loops.map fun l => (l.reduction, l.isTiled))) : TilesLast loops' := by
  have hview : ∀ l' ∈ loops', ∃ l ∈ loops, l.reduction = l'.reduction ∧ l.isTiled = l'.isTiled := by
    intro l' hl'
    obtain ⟨l, hl, heq⟩ := List.mem_map.mp (hperm.subset (List.mem_map_of_mem hl'))
    exact ⟨l, hl, Prod.mk.inj heq⟩
  rcases h with hnone | ⟨last, hend, htiled⟩
  · refine Or.inl fun l' hl' => ?_
    obtain ⟨l, hl, -, heq⟩ := hview l' hl'
    rw [← heq]
    exact hnone l hl
  · obtain ⟨last', hend', hreduction'⟩ := hlast'
    obtain ⟨l, hl, hreduction, heq⟩ := hview last' (List.mem_of_getLast? hend')
    obtain ⟨_, hend₂, hlastReduction⟩ := hlast
    rw [hend] at hend₂
    cases hend₂
    obtain rfl := hone l hl last (List.mem_of_getLast? hend) (hreduction.trans hreduction')
      hlastReduction
    exact Or.inr ⟨last', hend', heq ▸ htiled⟩

end Nest

/-! ## Chains of candidates -/

namespace Kernel

variable {k k' : Kernel}

/-- The kernels that are reached by taking candidates, where a tiling of a nest of class `reduction`
leaves its last loop tiled. -/
inductive TiledLast (classification : Classification Nat) (k : Kernel) : Kernel → Prop
  | refl : TiledLast classification k k
  | candidate {node : KernelNode} {kind : Kind} {sizes : Option (List Nat)}
      {cs : List (Candidate Kernel Step)} {c : Candidate Kernel Step}
      (h : TiledLast classification k node.program)
      (hcs : Proposals.candidates (Proposals.ofKind kind sizes) node classification = .ok cs)
      (hc : c ∈ cs)
      (hkeep : kind = .tiling → ∀ (i : Nat) (n : Nest), c.program.nests[i]? = some n →
        n.opClass = .reduction → node.program.nests[i]? = some n ∨
          ∃ last, n.loops.getLast? = some last ∧ last.isTiled = true) :
      TiledLast classification k c.program

theorem TiledLast.derived {classification : Classification Nat} (h : TiledLast classification k k') :
    Derived classification k k' := by
  induction h with
  | refl => exact .refl
  | candidate _ hcs hc _ ih => exact .candidate ih hcs hc

theorem Derived.exists_legal (h : Derived k.classify k k') (hk : ∀ n ∈ k.nests, n.Declared) {n : Nest}
    (hn : n ∈ k'.nests) : ∃ declared : Nest, declared.Legal n := by
  obtain ⟨declared, hmem, hevolved⟩ := exists_of_forall₂_of_mem (h.evolved hk) hn
  exact ⟨declared, hevolved.legal (hk declared hmem)⟩

theorem TiledLast.tilesLast (h : TiledLast k.classify k k') (hk : ∀ n ∈ k.nests, n.Declared) :
    ∀ n ∈ k'.nests, n.opClass = .reduction → Nest.TilesLast n.loops := by
  induction h with
  | refl =>
    intro n hn _
    refine Or.inl fun l hl => ?_
    unfold Loop.isTiled
    rw [((hk n hn).fresh l hl).1]
    rfl
  | @candidate node kind _ _ c hprevious hcs hc hkeep ih =>
    have hderived : Derived k.classify k c.program := .candidate hprevious.derived hcs hc
    obtain ⟨op, declared, nest, loops, -, hnest, hstep, hloops, hprogram⟩ := exists_of_candidate hcs hc
    intro n hn hclass
    obtain ⟨_, hlegal⟩ := hderived.exists_legal hk hn
    rw [hprogram] at hn
    rcases List.mem_or_eq_of_mem_set hn with hn | rfl
    · exact ih n hn hclass
    · have hmem := List.mem_of_getElem? hnest
      by_cases hkind : kind = .tiling
      · have hset : c.program.nests[op]? = some { nest with loops := loops } := by
          rw [hprogram]
          exact List.getElem?_set_self (List.getElem?_eq_some_iff.mp hnest).1
        rcases hkeep hkind op _ hset hclass with hsame | hend
        · exact ih _ (List.mem_of_getElem? hsame) hclass
        · exact Or.inr hend
      · obtain ⟨_, hbefore⟩ := hprevious.derived.exists_legal hk hmem
        have htile : ¬ ∃ op sizes, c.transformation = .tile op sizes := by
          rintro ⟨_, _, heq⟩
          have hkindOf := (Proposals.kind_of_mem_ofKind hstep).1
          rw [heq] at hkindOf
          exact hkind hkindOf.symm
        exact (ih nest hmem hclass).of_perm hbefore.oneReduction (hbefore.sound.reduction_last hclass)
          (hlegal.sound.reduction_last hclass)
          (Nest.perm_view (fun _ => rfl) (fun _ _ => rfl) htile hloops)

/-- Along every chain of candidates the loops of a nest of class `reduction` end with the reduction, and
the innermost loop is the reduction if and only if the last loop is tiled or no loop is. This is so as
long as a tiling of the nest leaves its last loop tiled. -/
theorem reduction_innermost {text : String} (hread : Kernel.read text = .ok k) :
    (∀ k', Derived k.classify k k' → ∀ n ∈ k'.nests, n.opClass = .reduction →
      ∃ inner last, n.innermost? = some inner ∧ n.loops.getLast? = some last ∧
        last.reduction = true ∧ (inner.source.reduction = true ↔
          (∀ l ∈ n.loops, l.isTiled = false) ∨ last.isTiled = true)) ∧
    ∀ k', TiledLast k.classify k k' → ∀ n ∈ k'.nests, n.opClass = .reduction →
      ∃ inner, n.innermost? = some inner ∧ inner.source.reduction = true := by
  have hdeclared := declared_of_read hread
  have hinner : ∀ {k'}, Derived k.classify k k' → ∀ n ∈ k'.nests, n.opClass = .reduction →
      ∃ last, n.loops.getLast? = some last ∧ last.reduction = true ∧
        ∃ inner, n.innermost? = some inner ∧
          (inner.source.reduction = true ↔ Nest.TilesLast n.loops) := by
    intro k' h n hn hclass
    obtain ⟨_, hlegal⟩ := h.exists_legal hdeclared hn
    obtain ⟨last, hlast, hreduction⟩ := hlegal.sound.reduction_last hclass
    exact ⟨last, hlast, hreduction, Nest.exists_innermost_iff hlegal.oneReduction hlast hreduction⟩
  constructor
  · intro k' h n hn hclass
    obtain ⟨last, hlast, hreduction, inner, hinnermost, hiff⟩ := hinner h n hn hclass
    refine ⟨inner, last, hinnermost, hlast, hreduction, hiff.trans (or_congr Iff.rfl ?_)⟩
    rw [hlast]
    simp
  · intro k' h n hn hclass
    obtain ⟨_, -, -, inner, hinnermost, hiff⟩ := hinner h.derived n hn hclass
    exact ⟨inner, hinnermost, hiff.mpr (h.tilesLast hdeclared n hn hclass)⟩

/-- A sum whose loops are both tiled. -/
theorem reduction_innermost_tiled :
    let k : Kernel := ⟨[⟨"sum", .reduction, [.declare "i" 16 false, .declare "k" 16 true]⟩]⟩
    let n : Nest := ⟨"sum", .reduction,
      [⟨"i", 16, false, some 8, false, none⟩, ⟨"k", 16, true, some 8, false, none⟩]⟩
    Kernel.read "sum reduction i=16 k=16" = .ok k ∧ TiledLast k.classify k ⟨[n]⟩ ∧
      n.opClass = .reduction ∧
      ∃ inner, n.innermost? = some inner ∧ inner.source.reduction = true := by
  intro k n
  have hread : Kernel.read "sum reduction i=16 k=16" = .ok k := by rfl
  have htiled : TiledLast k.classify k ⟨[n]⟩ := by
    have hcs : Proposals.candidates (Proposals.ofKind .tiling (some [8])) (.root k 0) k.classify =
        .ok [⟨⟨[⟨"sum", .reduction, [.declare "i" 16 false, ⟨"k", 16, true, some 8, false, none⟩]⟩]⟩,
            .tile 0 [none, some 8], [.tile 0 [none, some 8]]⟩,
          ⟨⟨[⟨"sum", .reduction, [⟨"i", 16, false, some 8, false, none⟩, .declare "k" 16 true]⟩]⟩,
            .tile 0 [some 8, none], [.tile 0 [some 8, none]]⟩,
          ⟨⟨[n]⟩, .tile 0 [some 8, some 8], [.tile 0 [some 8, some 8]]⟩] := by rfl
    refine .candidate .refl hcs (List.mem_cons_of_mem _ (List.mem_cons_of_mem _ List.mem_cons_self)) ?_
    intro _ i m hm _
    obtain rfl : m = n := List.mem_singleton.mp (List.mem_of_getElem? hm)
    exact Or.inr ⟨⟨"k", 16, true, some 8, false, none⟩, rfl, rfl⟩
  exact ⟨hread, htiled, rfl, (reduction_innermost hread).2 ⟨[n]⟩ htiled n List.mem_cons_self rfl⟩

/-- The tiling of a sum, with the default sizes, tiles the outer loop alone, and the points of its tiles
run inside the reduction. -/
theorem exists_reduction_outside :
    ∃ text k c n inner, Kernel.read text = .ok k ∧
      Proposals.candidates (Proposals.ofKind .tiling none) (.root k 0) k.classify = .ok [c] ∧
      Derived k.classify k c.program ∧ c.program.nests = [n] ∧ n.opClass = .reduction ∧
      n.innermost? = some inner ∧ inner.source.reduction = false := by
  let k : Kernel := ⟨[⟨"sum", .reduction, [.declare "i" 16 false, .declare "k" 4 true]⟩]⟩
  let i : Loop := ⟨"i", 16, false, some 8, false, none⟩
  let n : Nest := ⟨"sum", .reduction, [i, .declare "k" 4 true]⟩
  let c : Candidate Kernel Step := ⟨⟨[n]⟩, .tile 0 [some 8, none], [.tile 0 [some 8, none]]⟩
  have hcs : Proposals.candidates (Proposals.ofKind .tiling none) (.root k 0) k.classify = .ok [c] := by
    rfl
  have hderived : Derived k.classify k c.program := .candidate .refl hcs List.mem_cons_self
  exact ⟨"sum reduction i=16 k=4", k, c, n, ⟨i, true⟩, by rfl, hcs, hderived, rfl, rfl, rfl, rfl⟩

end Kernel

end LoopTuner
