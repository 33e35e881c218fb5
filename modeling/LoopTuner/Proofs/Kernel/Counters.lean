import LoopTuner.Proofs.Kernel.Rendering

/-!
# The variables of a rendered nest

The loops of a nest have different names, and rendering adds the name `i.p` for the points of a tiled
loop `i`. So the variables that the lines of a nest show are different if and only if no loop is called
like the points of a tiled one (`Kernel.nodup_printedCounters_iff`). Nothing keeps a kernel text from
using such a name (`Kernel.exists_counter_twice`).
-/

namespace LoopTuner

open Text

/-- The word after the first `for` of each line of a rendered nest, apart from its head. -/
def printedCounters (text : String) : List String :=
  ((lineWords text).drop 1).filterMap fun ws => (ws.dropWhile (· != "for"))[1]?

namespace Nest

/-- No loop is called like the points of another, tiled one. -/
def ApartFromPoints (n : Nest) : Prop :=
  ∀ l ∈ n.loops, l.isTiled = true → l.name ++ ".p" ∉ n.loops.map Loop.name

theorem filterMap_scheduleWords (schedule : List ScheduledLoop) :
    (scheduleWords schedule).filterMap (fun ws => (ws.dropWhile (· != "for"))[1]?) =
      schedule.map ScheduledLoop.counter := by
  induction schedule with
  | nil => rfl
  | cons s schedule ih =>
    rw [scheduleWords, List.filterMap_cons, ScheduledLoop.dropWhile_words, ih]
    rfl

theorem printedCounters_render {n : Nest} (h : n.Spelled) :
    printedCounters n.render = n.schedule.map ScheduledLoop.counter := by
  have hlines := lineWords_render h ""
  rw [String.append_empty] at hlines
  unfold printedCounters
  rw [hlines, openWords, List.cons_append, List.drop_succ_cons, List.drop_zero, List.filterMap_append,
    filterMap_scheduleWords]
  exact List.append_nil _

/-- The variables are the names of all loops, and those of the points. -/
theorem map_counter_schedule (n : Nest) :
    n.schedule.map ScheduledLoop.counter =
      n.loops.map Loop.name ++ (n.loops.filter Loop.isTiled).map fun l => l.name ++ ".p" := by
  have houter (l : Loop) : ScheduledLoop.counter ⟨l, false⟩ = l.name := by
    unfold ScheduledLoop.counter
    cases l.tile <;> rfl
  have hpoint : ∀ l ∈ n.loops.filter Loop.isTiled, ScheduledLoop.counter ⟨l, true⟩ = l.name ++ ".p" := by
    intro l hl
    obtain ⟨size, hsize⟩ := Option.isSome_iff_exists.mp (List.mem_filter.mp hl).2
    simp [ScheduledLoop.counter, hsize]
  unfold schedule
  rw [List.map_append, List.map_map, List.map_map]
  exact congrArg₂ _ (List.map_congr_left fun l _ => houter l) (List.map_congr_left hpoint)

theorem nodup_counters_iff {n : Nest} (h : (n.loops.map Loop.name).Nodup) :
    (n.schedule.map ScheduledLoop.counter).Nodup ↔ n.ApartFromPoints := by
  have hpoints : ((n.loops.filter Loop.isTiled).map fun l => l.name ++ ".p").Nodup := by
    have hnames : ((n.loops.filter Loop.isTiled).map Loop.name).Nodup :=
      h.sublist (List.filter_sublist.map Loop.name)
    have hinj : Function.Injective fun name : String => name ++ ".p" := fun _ _ heq =>
      String.append_left_inj ".p" |>.mp heq
    have hmap := hnames.map hinj
    rwa [List.map_map] at hmap
  rw [map_counter_schedule, List.nodup_append']
  constructor
  · rintro ⟨-, -, hdisjoint⟩ l hl htiled hmem
    exact hdisjoint hmem (List.mem_map.mpr ⟨l, List.mem_filter.mpr ⟨hl, htiled⟩, rfl⟩)
  · intro hapart
    refine ⟨h, hpoints, fun name hname hpoint => ?_⟩
    obtain ⟨l, hl, rfl⟩ := List.mem_map.mp hpoint
    obtain ⟨hl, htiled⟩ := List.mem_filter.mp hl
    exact hapart l hl htiled hname

end Nest

namespace Kernel

variable {k k' : Kernel}

/-- Along every chain of candidates the lines of a nest show different variables if and only if no loop
is called like the points of a tiled one. This is always so if no loop of the kernel text is called like
the points of another loop of its operation. -/
theorem nodup_printedCounters_iff {text : String} (hread : Kernel.read text = .ok k)
    (h : Derived k.classify k k') :
    (∀ n ∈ k'.nests, (printedCounters n.render).Nodup ↔
      ∀ l ∈ n.loops, l.isTiled = true → l.name ++ ".p" ∉ n.loops.map Loop.name) ∧
    ((∀ n ∈ k.nests, ∀ l ∈ n.loops, l.name ++ ".p" ∉ n.loops.map Loop.name) →
      ∀ n ∈ k'.nests, (printedCounters n.render).Nodup) := by
  have hdeclared := declared_of_read hread
  have hspelled := spelled_of_read hread
  have hiff : ∀ n ∈ k'.nests, (printedCounters n.render).Nodup ↔ n.ApartFromPoints := by
    intro n hn
    obtain ⟨d, hd, hreshaped⟩ := exists_of_forall₂_of_mem h.reshaped hn
    rw [Nest.printedCounters_render (hreshaped.spelled (hspelled d hd))]
    exact Nest.nodup_counters_iff (hreshaped.names.nodup_iff.mpr (hdeclared d hd).nodup_names)
  refine ⟨hiff, fun hapart n hn => (hiff n hn).mpr fun l hl _ hmem => ?_⟩
  obtain ⟨d, hd, hreshaped⟩ := exists_of_forall₂_of_mem h.reshaped hn
  obtain ⟨l', hl', hname⟩ := List.mem_map.mp (hreshaped.names.subset (List.mem_map_of_mem hl))
  rw [← hname] at hmem
  exact hapart d hd l' hl' (hreshaped.names.subset hmem)

/-- A copy with both loops tiled. -/
theorem nodup_printedCounters_iff_copy :
    let k : Kernel := ⟨[⟨"copy", .elementwise, [.declare "i" 16 false, .declare "j" 16 false]⟩]⟩
    let n : Nest := ⟨"copy", .elementwise,
      [⟨"i", 16, false, some 8, false, none⟩, ⟨"j", 16, false, some 8, false, none⟩]⟩
    Kernel.read "copy elementwise i=16 j=16" = .ok k ∧ Derived k.classify k ⟨[n]⟩ ∧
      (∀ m ∈ k.nests, ∀ l ∈ m.loops, l.name ++ ".p" ∉ m.loops.map Loop.name) ∧
      (printedCounters n.render).Nodup := by
  intro k n
  have hread : Kernel.read "copy elementwise i=16 j=16" = .ok k := by rfl
  have hderived : Derived k.classify k ⟨[n]⟩ := by
    have hcs : Proposals.candidates (Proposals.ofKind .tiling (some [8])) (.root k 0) k.classify =
        .ok [⟨⟨[⟨"copy", .elementwise, [.declare "i" 16 false, ⟨"j", 16, false, some 8, false, none⟩]⟩]⟩,
            .tile 0 [none, some 8], [.tile 0 [none, some 8]]⟩,
          ⟨⟨[⟨"copy", .elementwise, [⟨"i", 16, false, some 8, false, none⟩, .declare "j" 16 false]⟩]⟩,
            .tile 0 [some 8, none], [.tile 0 [some 8, none]]⟩,
          ⟨⟨[n]⟩, .tile 0 [some 8, some 8], [.tile 0 [some 8, some 8]]⟩] := by rfl
    exact .candidate .refl hcs (List.mem_cons_of_mem _ (List.mem_cons_of_mem _ List.mem_cons_self))
  have hapart : ∀ m ∈ k.nests, ∀ l ∈ m.loops, l.name ++ ".p" ∉ m.loops.map Loop.name := by decide
  exact ⟨hread, hderived, hapart,
    (nodup_printedCounters_iff hread hderived).2 hapart n List.mem_cons_self⟩

/-- A loop that is called like the points of another one: once that is tiled, with the default sizes, two
of the loops show the same variable. -/
theorem exists_counter_twice :
    ∃ text k c n, Kernel.read text = .ok k ∧
      Proposals.candidates (Proposals.ofKind .tiling none) (.root k 0) k.classify = .ok [c] ∧
      Derived k.classify k c.program ∧ c.program.nests = [n] ∧
      n.render = "copy elementwise \x7b\n  for i in 0..16 step 8\n    for i.p in 0..4\n" ++
        "      for i.p in 0..8\n\x7d\n" ∧
      printedCounters n.render = ["i", "i.p", "i.p"] ∧ ¬ (printedCounters n.render).Nodup := by
  let k : Kernel := ⟨[⟨"copy", .elementwise, [.declare "i" 16 false, .declare "i.p" 4 false]⟩]⟩
  let n : Nest := ⟨"copy", .elementwise,
    [⟨"i", 16, false, some 8, false, none⟩, .declare "i.p" 4 false]⟩
  let c : Candidate Kernel Step := ⟨⟨[n]⟩, .tile 0 [some 8, none], [.tile 0 [some 8, none]]⟩
  have hcs : Proposals.candidates (Proposals.ofKind .tiling none) (.root k 0) k.classify = .ok [c] := by
    rfl
  have hderived : Derived k.classify k c.program := .candidate .refl hcs List.mem_cons_self
  have hprinted : printedCounters n.render = ["i", "i.p", "i.p"] := by decide +kernel
  exact ⟨"copy elementwise i=16 i.p=4", k, c, n, by rfl, hcs, hderived, rfl, by decide +kernel, hprinted,
    by rw [hprinted]; decide⟩

end Kernel

end LoopTuner
