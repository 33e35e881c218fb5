import LoopTuner.Proofs.Kernel.Effects
import Mathlib.Data.List.Nodup

/-!
# Steps that change places

Steps on different operations can change places, so a chain of steps leads to the same kernel in every
order that keeps the order of the steps on each operation (`Kernel.steps_commute`). On one operation the
interchanges compose like the permutations that their orders are, and a tiling can be moved across an
interchange if its sizes go with the loops (`Kernel.interchange_action`).
-/

namespace LoopTuner

/-! ## Different operations -/

namespace Step

/-- On this kernel both chains of steps lead to the same kernel, or neither of them applies. -/
def SameEffect (k : Kernel) (steps steps' : List Step) : Prop :=
  ∀ k', applyAll steps k = .ok k' ↔ applyAll steps' k = .ok k'

/-- The second chain has the steps of the first one, and those on each operation in the same order. -/
def SameOrder (steps steps' : List Step) : Prop :=
  ∀ op, steps'.filter (·.op == op) = steps.filter (·.op == op)

variable {t u : Step} {steps steps' : List Step} {k k' : Kernel}

theorem exists_apply_comm (hne : t.op ≠ u.op) {k₁ k₂ : Kernel} (ht : t.apply k = .ok k₁)
    (hu : u.apply k₁ = .ok k₂) : ∃ k₁', u.apply k = .ok k₁' ∧ t.apply k₁' = .ok k₂ := by
  obtain ⟨n, loops, hn, hloops, rfl⟩ := exists_of_apply ht
  obtain ⟨m, loops', hm, hloops', rfl⟩ := exists_of_apply hu
  -- each of the two finds its nest as the other one found the kernel
  rw [List.getElem?_set_ne hne] at hm
  refine ⟨_, apply_eq hm hloops', ?_⟩
  have hn' : (k.nests.set u.op { m with loops := loops' })[t.op]? = some n := by
    rw [List.getElem?_set_ne hne.symm, hn]
  rw [List.set_comm _ _ hne]
  exact apply_eq hn' hloops

theorem sameEffect_of_ne (hne : t.op ≠ u.op) (k : Kernel) : SameEffect k [t, u] [u, t] := by
  have hcomm : ∀ {t u : Step} {k' : Kernel}, t.op ≠ u.op → applyAll [t, u] k = .ok k' →
      applyAll [u, t] k = .ok k' := by
    intro t u k' hne h
    obtain ⟨k₁, ht, h⟩ := applyAll_cons_eq_ok_iff.mp h
    obtain ⟨k₂, hu, hnil⟩ := applyAll_cons_eq_ok_iff.mp h
    obtain ⟨k₁', hu', ht'⟩ := exists_apply_comm hne ht hu
    exact applyAll_cons_eq_ok_iff.mpr ⟨k₁', hu', applyAll_cons_eq_ok_iff.mpr ⟨k₂, ht', hnil⟩⟩
  exact fun k' => ⟨hcomm hne, hcomm hne.symm⟩

/-- A step can be put off until steps on other operations are done. -/
theorem applyAll_concat_of_cons (hne : ∀ u ∈ steps, u.op ≠ t.op)
    (h : applyAll (t :: steps) k = .ok k') : applyAll (steps ++ [t]) k = .ok k' := by
  induction steps generalizing k with
  | nil => exact h
  | cons u steps ih =>
    obtain ⟨hu, hsteps⟩ := List.forall_mem_cons.mp hne
    obtain ⟨k₁, ht, h⟩ := applyAll_cons_eq_ok_iff.mp h
    obtain ⟨k₂, hu', h⟩ := applyAll_cons_eq_ok_iff.mp h
    obtain ⟨k₁', happly, ht'⟩ := exists_apply_comm hu.symm ht hu'
    have hrest : applyAll (t :: steps) k₁' = .ok k' := applyAll_cons_eq_ok_iff.mpr ⟨k₂, ht', h⟩
    exact applyAll_cons_eq_ok_iff.mpr ⟨k₁', happly, ih hsteps hrest⟩

/-- The first step has only steps on other operations before it in the other chain. -/
theorem SameOrder.exists_of_cons (h : SameOrder (t :: steps) steps') :
    ∃ before after, steps' = before ++ t :: after ∧ (∀ u ∈ before, u.op ≠ t.op) ∧
      SameOrder steps (before ++ after) := by
  have hfirst : steps'.filter (·.op == t.op) = t :: steps.filter (·.op == t.op) := by
    rw [h t.op, List.filter_cons_of_pos (by simp)]
  obtain ⟨before, after, rfl, hbefore, -, hafter⟩ := List.filter_eq_cons_iff.mp hfirst
  have hne : ∀ u ∈ before, u.op ≠ t.op := fun u hu heq => hbefore u hu (beq_iff_eq.mpr heq)
  refine ⟨before, after, rfl, hne, fun op => ?_⟩
  by_cases hop : t.op = op
  · subst hop
    rw [List.filter_append, List.filter_eq_nil_iff.mpr hbefore, List.nil_append, hafter]
  · have hother := h op
    rwa [List.filter_append, List.filter_cons_of_neg (by simpa using hop),
      List.filter_cons_of_neg (by simpa using hop), ← List.filter_append] at hother

theorem SameOrder.applyAll (h : SameOrder steps steps') (hsteps : applyAll steps k = .ok k') :
    applyAll steps' k = .ok k' := by
  induction steps generalizing steps' k with
  | nil =>
    cases steps' with
    | nil => exact hsteps
    | cons u steps' => simpa using h u.op
  | cons t steps ih =>
    obtain ⟨before, after, rfl, hne, hrest⟩ := h.exists_of_cons
    obtain ⟨k₁, ht, hsteps⟩ := applyAll_cons_eq_ok_iff.mp hsteps
    obtain ⟨k₂, hbefore, hafter⟩ := applyAll_append_eq_ok_iff.mp (ih hrest hsteps)
    have hmoved : Step.applyAll (before ++ [t]) k = .ok k₂ :=
      applyAll_concat_of_cons hne (applyAll_cons_eq_ok_iff.mpr ⟨k₁, ht, hbefore⟩)
    rw [List.append_cons]
    exact applyAll_append_eq_ok_iff.mpr ⟨k₂, hmoved, hafter⟩

end Step

/-- Two steps on different operations can be taken in both orders or in none, and lead to the same kernel.
So whatever chain of steps applies, every other one that has the same steps on each operation in the same
order applies as well and leads to the same kernel. -/
theorem Kernel.steps_commute (k : Kernel) :
    (∀ t u : Step, t.op ≠ u.op → Step.SameEffect k [t, u] [u, t]) ∧
      ∀ steps steps' k', Step.SameOrder steps steps' → Step.applyAll steps k = .ok k' →
        Step.applyAll steps' k = .ok k' :=
  ⟨fun _ _ hne => Step.sameEffect_of_ne hne k, fun _ _ _ h hsteps => h.applyAll hsteps⟩

/-- A tiling and an interchange of one operation, and a vector width for another one that comes first
instead of in between. -/
theorem Kernel.steps_commute_copies :
    let k : Kernel := ⟨[⟨"a", .elementwise, [.declare "i" 8 false, .declare "j" 4 false]⟩,
      ⟨"b", .elementwise, [.declare "i" 2 false]⟩]⟩
    let k' : Kernel := ⟨[⟨"a", .elementwise,
        [.declare "j" 4 false, ⟨"i", 8, false, some 2, false, none⟩]⟩,
      ⟨"b", .elementwise, [⟨"i", 2, false, none, false, some 2⟩]⟩]⟩
    let t : Step := .tile 0 [some 2, none]
    let u : Step := .vectorize 1 2
    let v : Step := .interchange 0 [1, 0]
    t.op ≠ u.op ∧ Step.SameEffect k [t, u] [u, t] ∧ Step.SameOrder [t, u, v] [u, t, v] ∧
      Step.applyAll [t, u, v] k = .ok k' ∧ Step.applyAll [u, t, v] k = .ok k' := by
  intro k k' t u v
  have hne : t.op ≠ u.op := by decide
  have horder : Step.SameOrder [t, u, v] [u, t, v] := by
    intro op
    rcases op with _ | _ | op <;> rfl
  have hsteps : Step.applyAll [t, u, v] k = .ok k' := by rfl
  obtain ⟨hcomm, hchain⟩ := steps_commute k
  exact ⟨hne, hcomm t u hne, horder, hsteps, hchain _ _ k' horder hsteps⟩

/-! ## Orders -/

/-- The second list has the entries of the first one in the given order: at position `i` it has the one
that was at position `order[i]`. -/
def Gathers {α : Type} (order : List Nat) (xs ys : List α) : Prop :=
  ∀ i : Nat, ys[i]? = order[i]?.bind fun old => xs[old]?

namespace Gathers

variable {α β γ : Type} {order : List Nat} {xs ys : List α}

theorem unique {ys' : List α} (h : Gathers order xs ys) (h' : Gathers order xs ys') : ys = ys' :=
  List.ext_getElem? fun i => (h i).trans (h' i).symm

theorem of_filterMap (h : ∀ old ∈ order, old < xs.length) :
    Gathers order xs (order.filterMap (xs[·]?)) :=
  getElem?_filterMap_getElem? h

theorem of_perm {count : Nat} (h : order.Perm (List.range count)) (hcount : xs.length = count) :
    Gathers order xs (order.filterMap (xs[·]?)) :=
  of_filterMap fun old hold => hcount ▸ ((perm_range_iff.mp h).2 old).mp hold

theorem perm (h : Gathers order xs ys) (horder : order.Perm (List.range xs.length)) : ys.Perm xs := by
  rw [h.unique (of_perm horder rfl)]
  exact perm_filterMap_getElem? horder

theorem range (xs : List α) : Gathers (List.range xs.length) xs xs := by
  intro i
  rcases Nat.lt_or_ge i xs.length with hi | hi
  · rw [List.getElem?_range hi]
    rfl
  · rw [List.getElem?_eq_none hi, List.getElem?_eq_none (by rwa [List.length_range])]
    rfl

/-- One order after the other is the order of the old positions in the second order. -/
theorem trans {next both : List Nat} {zs : List α} (h : Gathers order xs ys)
    (hnext : Gathers next ys zs) (hboth : Gathers next order both) : Gathers both xs zs := by
  intro i
  rw [hnext i, hboth i, Option.bind_assoc]
  exact Option.bind_congr fun old _ => h old

theorem zipWith (f : α → β → γ) {xs' ys' : List β} (h : Gathers order xs ys)
    (h' : Gathers order xs' ys') : Gathers order (List.zipWith f xs xs') (List.zipWith f ys ys') := by
  intro i
  rw [List.getElem?_zipWith, h i, h' i]
  cases order[i]? with
  | none => rfl
  | some old => exact List.getElem?_zipWith.symm

/-- What holds position by position holds in every order. -/
theorem forall₂_iff {R : α → β → Prop} {xs' ys' : List β} (hlength : xs'.length = xs.length)
    (horder : order.Perm (List.range xs.length)) (h : Gathers order xs ys)
    (h' : Gathers order xs' ys') : List.Forall₂ R xs xs' ↔ List.Forall₂ R ys ys' := by
  have hzip : (ys.zip ys').Perm (xs.zip xs') := by
    refine (h.zipWith Prod.mk h').perm ?_
    rwa [List.length_zipWith, hlength, Nat.min_self]
  have hys : ys.length = ys'.length := by
    rw [(h.perm horder).length_eq, (h'.perm (hlength ▸ horder)).length_eq, hlength]
  simp only [List.forall₂_iff_zip, hzip.mem_iff, hlength, hys, true_and]

/-- The order can be read off the entries if no two of them are the same. -/
theorem map_idxOf [DecidableEq α] (hnodup : xs.Nodup) (horder : order.Perm (List.range xs.length))
    (h : Gathers order xs ys) : ys.map xs.idxOf = order := by
  refine List.ext_getElem? fun i => ?_
  rw [List.getElem?_map, h i]
  cases hold : order[i]? with
  | none => rfl
  | some old =>
    have hlt : old < xs.length := ((perm_range_iff.mp horder).2 old).mp (List.mem_of_getElem? hold)
    rw [Option.bind_some, List.getElem?_eq_getElem hlt, Option.map_some, hnodup.idxOf_getElem old hlt]

end Gathers

/-- The inverse order finds each old position. -/
theorem exists_inverse {order : List Nat} {count : Nat} (h : order.Perm (List.range count)) :
    ∃ inverse, inverse.Perm (List.range count) ∧ Gathers order inverse (List.range count) ∧
      Gathers inverse order (List.range count) := by
  obtain ⟨hnodup, hmem⟩ := perm_range_iff.mp h
  have hlength : order.length = count := by rw [h.length_eq, List.length_range]
  have hback : order.map order.idxOf = List.range count := by
    rw [(Gathers.range order).map_idxOf hnodup (List.Perm.refl _), hlength]
  refine ⟨(List.range count).map order.idxOf, hback ▸ (h.map order.idxOf).symm, ?_, ?_⟩
  · intro i
    have hi : (List.range count)[i]? = order[i]?.map order.idxOf := by
      rw [← hback, List.getElem?_map]
    rw [hi]
    cases hold : order[i]? with
    | none => rfl
    | some old => simp [(hmem old).mp (List.mem_of_getElem? hold)]
  · intro i
    rw [List.getElem?_map]
    rcases Nat.lt_or_ge i count with hi | hi
    · rw [List.getElem?_range hi, Option.map_some, Option.bind_some]
      exact (List.getElem?_idxOf ((hmem i).mpr hi)).symm
    · rw [List.getElem?_eq_none (by rwa [List.length_range])]
      rfl

/-! ## One operation -/

namespace Nest

variable {op : Nat} {loops loops' : List Loop}

theorem stepLoops_interchange_iff {order : List Nat} :
    stepLoops (.interchange op order) loops = .ok loops' ↔
      order.Perm (List.range loops.length) ∧ Gathers order loops loops' := by
  simp only [stepLoops]
  constructor
  · intro h
    split_ifs at h with horder
    cases h
    exact ⟨horder, .of_perm horder rfl⟩
  · rintro ⟨horder, h⟩
    rw [if_pos horder, h.unique (.of_perm horder rfl)]
    rfl

theorem stepLoops_tile_iff {sizes : List (Option Nat)} :
    stepLoops (.tile op sizes) loops = .ok loops' ↔
      List.Forall₂ (fun l size => ∀ s, size = some s → l.Admits s) loops sizes ∧
        loops' = List.zipWith Loop.tiled loops sizes := by
  simp only [stepLoops]
  constructor
  · intro h
    split_ifs at h with hlength
    exact (retileLoops_eq_ok_iff hlength).mp h
  · intro h
    have hlength := h.1.length_eq.symm
    rw [if_pos hlength]
    exact (retileLoops_eq_ok_iff hlength).mpr h

/-- A tiling before an interchange is the tiling with the interchanged sizes after it. -/
theorem exists_tile_interchange_iff {order : List Nat} {sizes sizes' : List (Option Nat)}
    (horder : order.Perm (List.range loops.length)) (hlength : sizes.length = loops.length)
    (hsizes : Gathers order sizes sizes') :
    (∃ tiled, stepLoops (.tile op sizes) loops = .ok tiled ∧
        stepLoops (.interchange op order) tiled = .ok loops') ↔
      ∃ moved, stepLoops (.interchange op order) loops = .ok moved ∧
        stepLoops (.tile op sizes') moved = .ok loops' := by
  have hmoved : Gathers order loops (reorderLoops order loops) := .of_perm horder rfl
  have htiled : (List.zipWith Loop.tiled loops sizes).length = loops.length := by
    rw [List.length_zipWith, hlength, Nat.min_self]
  have hgathers := hmoved.zipWith Loop.tiled hsizes
  simp only [stepLoops_tile_iff, stepLoops_interchange_iff]
  constructor
  · rintro ⟨_, ⟨hfits, rfl⟩, -, hloops'⟩
    refine ⟨_, ⟨horder, hmoved⟩, (hmoved.forall₂_iff hlength horder hsizes).mp hfits, ?_⟩
    exact hloops'.unique hgathers
  · rintro ⟨_, ⟨-, hmoved'⟩, hfits, rfl⟩
    obtain rfl := hmoved'.unique hmoved
    exact ⟨_, ⟨(hmoved.forall₂_iff hlength horder hsizes).mpr hfits, rfl⟩, htiled ▸ horder, hgathers⟩

end Nest

namespace Kernel

variable {k k' : Kernel} {op : Nat} {n : Nest}

theorem applyAll_pair_eq_ok_iff (hn : k.nests[op]? = some n) {t u : Step} (ht : t.op = op)
    (hu : u.op = op) : Step.applyAll [t, u] k = .ok k' ↔ ∃ loops,
      (∃ between, Nest.stepLoops t n.loops = .ok between ∧ Nest.stepLoops u between = .ok loops) ∧
        k' = ⟨k.nests.set op { n with loops := loops }⟩ := by
  subst ht
  have hlt := (List.getElem?_eq_some_iff.mp hn).1
  have hset (loops : List Loop) : (k.nests.set t.op { n with loops := loops })[u.op]? =
      some { n with loops := loops } := by rw [hu, List.getElem?_set_self hlt]
  simp only [Step.applyAll_cons_eq_ok_iff, Step.apply_eq_ok_iff hn]
  constructor
  · rintro ⟨_, ⟨between, hbetween, rfl⟩, k₂, h, hnil⟩
    obtain ⟨loops, hloops, rfl⟩ := (Step.apply_eq_ok_iff (hset between)).mp h
    cases hnil
    exact ⟨loops, ⟨between, hbetween, hloops⟩, by rw [hu, List.set_set]⟩
  · rintro ⟨loops, ⟨between, hbetween, hloops⟩, rfl⟩
    refine ⟨_, ⟨between, hbetween, rfl⟩, _, Step.apply_eq (hset between) hloops, ?_⟩
    rw [hu, List.set_set]
    rfl

theorem set_nest (hn : k.nests[op]? = some n) : (⟨k.nests.set op n⟩ : Kernel) = k := by
  obtain ⟨_, rfl⟩ := List.getElem?_eq_some_iff.mp hn
  rw [List.set_getElem_self]

theorem apply_interchange (hn : k.nests[op]? = some n) {p : List Nat} {loops : List Loop}
    (hp : p.Perm (List.range n.loops.length)) (h : Gathers p n.loops loops) :
    Step.applyAll [.interchange op p] k = .ok ⟨k.nests.set op { n with loops := loops }⟩ :=
  Step.applyAll_cons_eq_ok_iff.mpr
    ⟨_, Step.apply_eq hn (Nest.stepLoops_interchange_iff.mpr ⟨hp, h⟩), rfl⟩

theorem applyAll_interchanges (hn : k.nests[op]? = some n) {p q r : List Nat} {loops : List Loop}
    (hp : p.Perm (List.range n.loops.length)) (hq : q.Perm (List.range n.loops.length))
    (hr : Gathers q p r) (h : Gathers r n.loops loops) :
    Step.applyAll [.interchange op p, .interchange op q] k =
      .ok ⟨k.nests.set op { n with loops := loops }⟩ := by
  have hbetween : Gathers p n.loops (Nest.reorderLoops p n.loops) := .of_perm hp rfl
  have hlength := (hbetween.perm hp).length_eq
  have hloops : Gathers q (Nest.reorderLoops p n.loops)
      (Nest.reorderLoops q (Nest.reorderLoops p n.loops)) := .of_perm hq hlength
  rw [h.unique (hbetween.trans hloops hr)]
  exact (applyAll_pair_eq_ok_iff hn rfl rfl).mpr
    ⟨_, ⟨_, Nest.stepLoops_interchange_iff.mpr ⟨hp, hbetween⟩,
      Nest.stepLoops_interchange_iff.mpr ⟨hlength ▸ hq, hloops⟩⟩, rfl⟩

/-- Interchanges of the loops of an operation compose like the permutations that their orders are: the
order that changes nothing, one order after another one, and the inverse order all do what they say. A
tiling before an interchange has the effect of a tiling after it whose sizes have been interchanged. -/
theorem interchange_action (hn : k.nests[op]? = some n) :
    Step.applyAll [.interchange op (List.range n.loops.length)] k = .ok k ∧
      (∀ p q : List Nat, p.Perm (List.range n.loops.length) → q.Perm (List.range n.loops.length) →
        ∃ r k', Gathers q p r ∧ Step.applyAll [.interchange op p, .interchange op q] k = .ok k' ∧
          Step.applyAll [.interchange op r] k = .ok k') ∧
      (∀ p : List Nat, p.Perm (List.range n.loops.length) →
        ∃ inverse, Gathers p inverse (List.range n.loops.length) ∧
          Gathers inverse p (List.range n.loops.length) ∧
          Step.applyAll [.interchange op p, .interchange op inverse] k = .ok k) ∧
      ∀ (p : List Nat) (s : List (Option Nat)), p.Perm (List.range n.loops.length) →
        s.length = n.loops.length → ∃ s', Gathers p s s' ∧
          Step.SameEffect k [.tile op s, .interchange op p] [.interchange op p, .tile op s'] := by
  refine ⟨?_, fun p q hp hq => ?_, fun p hp => ?_, fun p s hp hs => ?_⟩
  · have hself := apply_interchange hn (List.Perm.refl _) (Gathers.range n.loops)
    rwa [set_nest hn] at hself
  · have hlength : p.length = n.loops.length := by rw [hp.length_eq, List.length_range]
    have hr : Gathers q p (q.filterMap (p[·]?)) := .of_perm hq hlength
    have hperm := (hr.perm (hlength ▸ hq)).trans hp
    have hloops : Gathers (q.filterMap (p[·]?)) n.loops _ := .of_perm hperm rfl
    exact ⟨_, _, hr, applyAll_interchanges hn hp hq hr hloops, apply_interchange hn hperm hloops⟩
  · obtain ⟨inverse, hinverse, hleft, hright⟩ := exists_inverse hp
    have hback := applyAll_interchanges hn hp hinverse hright (Gathers.range n.loops)
    rw [set_nest hn] at hback
    exact ⟨inverse, hleft, hright, hback⟩
  · have hsizes : Gathers p s (p.filterMap (s[·]?)) := .of_perm hp hs
    refine ⟨_, hsizes, fun k' => ?_⟩
    rw [applyAll_pair_eq_ok_iff hn rfl rfl, applyAll_pair_eq_ok_iff hn rfl rfl]
    simp only [Nest.exists_tile_interchange_iff hp hs hsizes]

/-- A matrix product, and an order that is not its own inverse. -/
theorem interchange_action_gemm :
    let n : Nest := ⟨"gemm", .contraction,
      [.declare "i" 64 false, .declare "j" 32 false, .declare "k" 16 true]⟩
    let k : Kernel := ⟨[n]⟩
    let p : List Nat := [2, 0, 1]
    let q : List Nat := [1, 0, 2]
    let s : List (Option Nat) := [some 8, none, some 4]
    k.nests[0]? = some n ∧ p.Perm (List.range n.loops.length) ∧ q.Perm (List.range n.loops.length) ∧
      (∃ k', Step.applyAll [.interchange 0 p, .interchange 0 q] k = .ok k' ∧
        Step.applyAll [.interchange 0 [0, 2, 1]] k = .ok k') ∧
      (∃ inverse, Gathers p inverse (List.range n.loops.length) ∧
        Step.applyAll [.interchange 0 p, .interchange 0 inverse] k = .ok k) ∧
      Step.SameEffect k [.tile 0 s, .interchange 0 p] [.interchange 0 p, .tile 0 [some 4, some 8, none]] := by
  intro n k p q s
  have hn : k.nests[0]? = some n := rfl
  have hp : p.Perm (List.range n.loops.length) := by decide
  have hq : q.Perm (List.range n.loops.length) := by decide
  have hr : Gathers q p [0, 2, 1] := by
    intro i
    rcases i with _ | _ | _ | i <;> rfl
  have hs : Gathers p s [some 4, some 8, none] := by
    intro i
    rcases i with _ | _ | _ | i <;> rfl
  obtain ⟨-, hcompose, hinverse, htile⟩ := interchange_action hn
  obtain ⟨r, k', hr', hboth, hone⟩ := hcompose p q hp hq
  obtain ⟨inverse, hleft, -, hback⟩ := hinverse p hp
  obtain ⟨s', hs', heffect⟩ := htile p s hp rfl
  rw [hr'.unique hr] at hone
  rw [hs'.unique hs] at heffect
  exact ⟨hn, hp, hq, ⟨k', hboth, hone⟩, ⟨inverse, hleft, hback⟩, heffect⟩

end Kernel

end LoopTuner
