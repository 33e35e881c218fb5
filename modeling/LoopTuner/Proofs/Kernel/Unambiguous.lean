import LoopTuner.Proofs.Kernel.Rendering
import LoopTuner.Proofs.Kernel.Vector
import Mathlib

/-!
# Renderings are unambiguous

The words of a rendered kernel tell the kernel. A closing brace on a line of its own ends a nest, whatever
its id and its loops are called. The lines with a stride are the outer lines of the tiled loops, and so
they tell how many lines at the end are those of points. The other lines show everything about the loops
but their vector widths, and the last line shows the width of the innermost loop, the only one with a
width (`Kernel.eq_of_render_eq`).
-/

namespace LoopTuner

open Text

/-- A loop apart from its vector width. -/
def Loop.scalar (l : Loop) : Loop := { l with vectorWidth := none }

/-- No loop but the innermost one has a vector width. -/
def Nest.WidthsInside (n : Nest) : Prop :=
  ∀ l ∈ n.loops, l.vectorWidth.isSome = true → ∃ inner, n.innermost? = some inner ∧ inner.source = l

/-! ## Lines -/

namespace ScheduledLoop

/-- What the words of a line say apart from a vector width. -/
def plainWords (ws : List String) : Bool × List String :=
  (ws.head? == some "parallel", ws.dropWhile (· != "for"))

/-- What the words of a line say about a vector width. -/
def widthWords (ws : List String) : List String :=
  (ws.takeWhile (· != "for")).filter (· != "parallel")

theorem not_parallel_of_mem_vectorWords (s : ScheduledLoop) (isLast : Bool) :
    ∀ w ∈ s.vectorWords isLast, (w != "parallel") = true := by
  unfold vectorWords
  split
  · refine List.forall_mem_singleton.mpr (bne_iff_ne.mpr fun heq => ?_)
    simpa using congrArg (fun w => w.toList.head?) heq
  · exact fun _ hw => absurd hw List.not_mem_nil

theorem plainWords_words (s : ScheduledLoop) (isLast : Bool) :
    plainWords (s.words isLast) = (s.source.parallel && !s.point, s.headWords) := by
  unfold plainWords
  rw [dropWhile_words]
  congr 1
  unfold words parallelWords
  cases s.source.parallel && !s.point with
  | true => rfl
  | false =>
    cases hvector : s.vectorWords isLast with
    | nil => rfl
    | cons w ws =>
      have hw := not_parallel_of_mem_vectorWords s isLast w (by simp [hvector])
      simpa using hw

theorem widthWords_words (s : ScheduledLoop) (isLast : Bool) :
    widthWords (s.words isLast) = s.vectorWords isLast := by
  have hparallel : s.parallelWords.filter (· != "parallel") = [] := by
    unfold parallelWords
    split_ifs <;> rfl
  unfold widthWords
  rw [takeWhile_words, List.filter_append, hparallel, List.nil_append,
    List.filter_eq_self.mpr (not_parallel_of_mem_vectorWords s isLast)]

/-- Only the outer line of a tiled loop shows a stride. -/
theorem getElem?_headWords (s : ScheduledLoop) :
    (s.headWords[4]? == some "step") = (s.source.isTiled && !s.point) := by
  unfold headWords strideWords reduceWords Loop.isTiled
  cases s.source.tile <;> cases s.point <;> cases s.source.reduction <;> simp

theorem eq_of_vectorWords_eq {s t : ScheduledLoop} (h : s.vectorWords true = t.vectorWords true) :
    s.source.vectorWidth = t.source.vectorWidth := by
  unfold vectorWords at h
  cases hs : s.source.vectorWidth <;> cases ht : t.source.vectorWidth <;>
    simp_all [Nat.repr_inj]

/-- An outer line shows everything about its loop but the vector width. -/
theorem scalar_eq_of_headWords_eq {l m : Loop} (hparallel : l.parallel = m.parallel)
    (hhead : headWords ⟨l, false⟩ = headWords ⟨m, false⟩) : l.scalar = m.scalar := by
  obtain ⟨name, extent, reduction, tile, parallel, width⟩ := l
  obtain ⟨name', extent', reduction', tile', parallel', width'⟩ := m
  cases tile <;> cases tile' <;> cases reduction <;> cases reduction' <;>
    simp_all [headWords, counter, bound, strideWords, reduceWords, Loop.scalar, Nat.repr_inj]

end ScheduledLoop

theorem map_plainWords_scheduleWords (schedule : List ScheduledLoop) :
    (scheduleWords schedule).map ScheduledLoop.plainWords =
      schedule.map fun s => (s.source.parallel && !s.point, s.headWords) := by
  induction schedule with
  | nil => rfl
  | cons s schedule ih => rw [scheduleWords, List.map_cons, ScheduledLoop.plainWords_words, ih, List.map_cons]

theorem getLast?_scheduleWords (schedule : List ScheduledLoop) :
    (scheduleWords schedule).getLast? = schedule.getLast?.map (·.words true) := by
  induction schedule with
  | nil => rfl
  | cons s schedule ih =>
    cases schedule with
    | nil => rfl
    | cons t schedule =>
      rw [scheduleWords, scheduleWords, List.getLast?_cons_cons, List.getLast?_cons_cons]
      exact ih

/-! ## Nests -/

namespace Nest

variable {n m : Nest}

/-- The lines of the outer loops, without their vector widths. -/
def outerViews (n : Nest) : List (Bool × List String) :=
  n.loops.map fun l => (l.parallel, ScheduledLoop.headWords ⟨l, false⟩)

/-- There are as many lines with a stride as there are lines of points. -/
theorem map_plainWords_schedule (n : Nest) :
    ∃ points, (scheduleWords n.schedule).map ScheduledLoop.plainWords = n.outerViews ++ points ∧
      points.length = ((scheduleWords n.schedule).map ScheduledLoop.plainWords).countP
        fun view => view.2[4]? == some "step" := by
  have hpoints : (n.loops.filter Loop.isTiled).length = n.schedule.countP
      fun s => s.source.isTiled && !s.point := by
    unfold schedule
    rw [List.countP_append, List.countP_map, List.countP_map, List.countP_filter]
    simp [Function.comp_def, List.countP_eq_length_filter]
  refine ⟨(n.loops.filter Loop.isTiled).map fun l =>
    (false, ScheduledLoop.headWords ⟨l, true⟩), ?_, ?_⟩
  · rw [map_plainWords_scheduleWords]
    unfold schedule outerViews
    simp [List.map_append, List.map_map, Function.comp_def]
  · rw [map_plainWords_scheduleWords, List.countP_map, List.length_map, hpoints]
    exact List.countP_congr fun s _ => by simp [← ScheduledLoop.getElem?_headWords]

/-- The lines of a nest tell how many of them are outer lines. -/
theorem outerViews_eq (h : scheduleWords n.schedule = scheduleWords m.schedule) :
    n.outerViews = m.outerViews := by
  obtain ⟨points, hlines, hlength⟩ := map_plainWords_schedule n
  obtain ⟨points', hlines', hlength'⟩ := map_plainWords_schedule m
  rw [h, hlines'] at hlines
  rw [h, ← hlength'] at hlength
  exact (List.append_inj_left' hlines hlength.symm).symm

theorem map_scalar_eq (h : scheduleWords n.schedule = scheduleWords m.schedule) :
    n.loops.map Loop.scalar = m.loops.map Loop.scalar := by
  have hviews := outerViews_eq h
  unfold outerViews at hviews
  have hlength : n.loops.length = m.loops.length := by simpa using congrArg List.length hviews
  refine List.ext_getElem (by simpa using hlength) fun i hi hi' => ?_
  rw [List.length_map] at hi hi'
  have hview := congrArg (·[i]?) hviews
  simp only [List.getElem?_map, List.getElem?_eq_getElem hi, List.getElem?_eq_getElem hi',
    Option.map_some, Option.some.injEq, Prod.mk.injEq] at hview
  rw [List.getElem_map, List.getElem_map]
  exact ScheduledLoop.scalar_eq_of_headWords_eq hview.1 hview.2

/-- The last line tells the width of the innermost loop. -/
theorem innermost_vectorWidth_eq (h : scheduleWords n.schedule = scheduleWords m.schedule) :
    n.innermost?.map (·.source.vectorWidth) = m.innermost?.map (·.source.vectorWidth) := by
  have hlast := congrArg List.getLast? h
  rw [getLast?_scheduleWords, getLast?_scheduleWords] at hlast
  unfold innermost?
  cases hn : n.schedule.getLast? with
  | none =>
    rw [hn, Option.map_none] at hlast
    rw [Option.map_eq_none_iff.mp hlast.symm]
  | some s =>
    rw [hn, Option.map_some] at hlast
    obtain ⟨t, ht, hwords⟩ := Option.map_eq_some_iff.mp hlast.symm
    rw [ht, Option.map_some, Option.map_some, Option.some.injEq]
    refine ScheduledLoop.eq_of_vectorWords_eq ?_
    rw [← ScheduledLoop.widthWords_words, ← ScheduledLoop.widthWords_words, hwords]

/-- Only the loop at the innermost position has a width. -/
theorem WidthsInside.vectorWidth_getElem (h : n.WidthsInside) (hnames : (n.loops.map Loop.name).Nodup)
    {i : Nat} (hi : i < n.loops.length) :
    n.loops[i].vectorWidth = if i = innerPosition n.loops then
      (n.innermost?.map (·.source.vectorWidth)).join else none := by
  have hinner := n.getElem?_innerPosition
  split_ifs with heq
  · subst heq
    rw [List.getElem?_eq_getElem hi] at hinner
    obtain ⟨inner, hinnermost, hsource⟩ := Option.map_eq_some_iff.mp hinner.symm
    rw [hinnermost, ← hsource]
    rfl
  · rw [← Option.not_isSome_iff_eq_none]
    intro hwidth
    obtain ⟨inner, hinnermost, hsource⟩ := h _ (List.getElem_mem hi) hwidth
    rw [hinnermost, Option.map_some, hsource] at hinner
    obtain ⟨hlt, hget⟩ := List.getElem?_eq_some_iff.mp hinner
    exact heq ((hnames.of_map.getElem_inj_iff).mp hget.symm)

theorem loops_eq (hn : n.WidthsInside) (hm : m.WidthsInside) (hnames : (n.loops.map Loop.name).Nodup)
    (h : scheduleWords n.schedule = scheduleWords m.schedule) : n.loops = m.loops := by
  have hscalar := map_scalar_eq h
  have hmap {α : Type} {view : Loop → α} (hview : ∀ l : Loop, view l.scalar = view l) :
      n.loops.map view = m.loops.map view := by
    have hviews := congrArg (List.map view) hscalar
    simpa only [List.map_map, Function.comp_def, hview] using hviews
  have hposition : innerPosition n.loops = innerPosition m.loops :=
    innerPosition_eq_of_map (hmap fun _ => rfl)
  have hnames' : (m.loops.map Loop.name).Nodup := by
    rw [← hmap fun _ => rfl]
    exact hnames
  have hlength : n.loops.length = m.loops.length := by simpa using congrArg List.length hscalar
  refine List.ext_getElem hlength fun i hi hi' => ?_
  have hwidth : n.loops[i].vectorWidth = m.loops[i].vectorWidth := by
    rw [hn.vectorWidth_getElem hnames, hm.vectorWidth_getElem hnames', hposition,
      innermost_vectorWidth_eq h]
  have hget : n.loops[i].scalar = m.loops[i].scalar := by
    have hget := congrArg (·[i]?) hscalar
    simpa [hi, hi'] using hget
  calc n.loops[i] = { n.loops[i].scalar with vectorWidth := n.loops[i].vectorWidth } := rfl
    _ = { m.loops[i].scalar with vectorWidth := m.loops[i].vectorWidth } := by rw [hget, hwidth]
    _ = m.loops[i] := rfl

/-- The lines of a nest tell the nest. -/
theorem eq_of_openWords_eq (hn : n.WidthsInside) (hm : m.WidthsInside)
    (hnames : (n.loops.map Loop.name).Nodup) (h : n.openWords = m.openWords) : n = m := by
  obtain ⟨hhead, hschedule⟩ := List.cons.inj h
  obtain ⟨hid, hhead⟩ := List.cons.inj hhead
  obtain ⟨hclass, -⟩ := List.cons.inj hhead
  have hopClass : n.opClass = m.opClass := by
    have hlabel := congrArg OpClass.ofLabel? hclass
    rwa [OpClass.ofLabel?_name, OpClass.ofLabel?_name, Option.some.injEq] at hlabel
  have hloops := loops_eq hn hm hnames hschedule
  obtain ⟨id, opClass, loops⟩ := n
  obtain ⟨id', opClass', loops'⟩ := m
  cases hid
  cases hopClass
  cases hloops
  rfl

/-- No line of a nest before the closing brace is one. -/
theorem brace_not_mem_openWords (n : Nest) : ["\x7d"] ∉ n.openWords := by
  have hlines : ∀ schedule, ["\x7d"] ∉ scheduleWords schedule := by
    intro schedule
    induction schedule with
    | nil => exact List.not_mem_nil
    | cons s schedule ih =>
      rw [scheduleWords, List.mem_cons, not_or]
      refine ⟨fun heq => ?_, ih⟩
      have hfor : "for" ∈ s.words schedule.isEmpty :=
        List.mem_append_right _ List.mem_cons_self
      rw [← heq] at hfor
      exact absurd hfor (by decide)
  unfold openWords
  rw [List.mem_cons, not_or]
  exact ⟨by simp, hlines _⟩

end Nest

/-! ## Kernels -/

/-- A list of blocks tells the blocks if they end with something that is in none of them. -/
theorem map_eq_of_flatMap_eq {α β : Type} [BEq β] [LawfulBEq β] {block : α → List β} {close : β}
    (hclose : ∀ a, close ∉ block a) {as bs : List α}
    (h : (as.flatMap fun a => block a ++ [close]) = bs.flatMap fun b => block b ++ [close]) :
    as.map block = bs.map block := by
  induction as generalizing bs with
  | nil =>
    cases bs with
    | nil => rfl
    | cons b bs => simp at h
  | cons a as ih =>
    cases bs with
    | nil => simp at h
    | cons b bs =>
      simp only [List.flatMap_cons, List.append_assoc, List.singleton_append] at h
      obtain ⟨htake, hdrop⟩ := takeWhile_append_separator (hclose a)
        (as.flatMap fun a => block a ++ [close])
      obtain ⟨htake', hdrop'⟩ := takeWhile_append_separator (hclose b)
        (bs.flatMap fun b => block b ++ [close])
      rw [h, htake'] at htake
      rw [h, hdrop'] at hdrop
      rw [List.map_cons, List.map_cons, htake, ih (List.cons.inj hdrop).2.symm]

namespace Kernel

theorem nests_eq {ns ms : List Nest}
    (hns : ∀ n ∈ ns, n.WidthsInside ∧ (n.loops.map Loop.name).Nodup) (hms : ∀ m ∈ ms, m.WidthsInside)
    (h : ns.map Nest.openWords = ms.map Nest.openWords) : ns = ms := by
  induction ns generalizing ms with
  | nil => exact (List.map_eq_nil_iff.mp h.symm).symm
  | cons n ns ih =>
    cases ms with
    | nil => cases h
    | cons m ms =>
      obtain ⟨hfirst, hrest⟩ := List.cons.inj h
      obtain ⟨⟨hn, hnames⟩, hns⟩ := List.forall_mem_cons.mp hns
      obtain ⟨hm, hms⟩ := List.forall_mem_cons.mp hms
      rw [Nest.eq_of_openWords_eq hn hm hnames hfirst, ih hns hms hrest]

/-- Whatever steps lead to two kernels from kernel texts: if only the innermost loops have vector widths,
then the kernels are the same if their renderings are. -/
theorem eq_of_render_eq {text₁ text₂ : String} {k₁ k₂ a b : Kernel} {steps₁ steps₂ : List Step}
    (hread₁ : Kernel.read text₁ = .ok k₁) (ha : Step.applyAll steps₁ k₁ = .ok a)
    (hread₂ : Kernel.read text₂ = .ok k₂) (hb : Step.applyAll steps₂ k₂ = .ok b)
    (hwa : ∀ n ∈ a.nests, n.WidthsInside) (hwb : ∀ n ∈ b.nests, n.WidthsInside)
    (h : a.render = b.render) : a = b := by
  have hspelled₁ := spelled_of_applyAll hread₁ ha
  have hspelled₂ := spelled_of_applyAll hread₂ hb
  have hlines := congrArg lineWords h
  rw [lineWords_render fun n hn => (hspelled₁ n hn).1,
    lineWords_render fun n hn => (hspelled₂ n hn).1] at hlines
  have hblocks := map_eq_of_flatMap_eq Nest.brace_not_mem_openWords hlines
  have hnests := nests_eq (fun n hn => ⟨hwa n hn, (hspelled₁ n hn).2⟩) hwb hblocks
  obtain ⟨nests⟩ := a
  obtain ⟨nests'⟩ := b
  exact congrArg Kernel.mk hnests

/-- A copy whose loops are interchanged, and one that is declared with its loops in that order, both with
the inner loop vectorized. Their id is a closing brace, and the loops are called like parts of the
rendering. -/
theorem eq_of_render_eq_interchanged :
    let k₁ : Kernel := ⟨[⟨"\x7d", .elementwise, [.declare "for" 8 false, .declare "for.p" 6 false]⟩]⟩
    let k₂ : Kernel := ⟨[⟨"\x7d", .elementwise, [.declare "for.p" 6 false, .declare "for" 8 false]⟩]⟩
    let steps₁ : List Step := [.tile 0 [none, some 3], .interchange 0 [1, 0], .tile 0 [none, some 4],
      .vectorize 0 4]
    let steps₂ : List Step := [.tile 0 [some 3, some 4], .vectorize 0 4]
    let a : Kernel := ⟨[⟨"\x7d", .elementwise,
      [⟨"for.p", 6, false, some 3, false, none⟩, ⟨"for", 8, false, some 4, false, some 4⟩]⟩]⟩
    let b : Kernel := ⟨[⟨"\x7d", .elementwise,
      [⟨"for.p", 6, false, some 3, false, none⟩, ⟨"for", 8, false, some 4, false, some 4⟩]⟩]⟩
    Kernel.read "\x7d elementwise for=8 for.p=6" = .ok k₁ ∧ Step.applyAll steps₁ k₁ = .ok a ∧
      Kernel.read "\x7d elementwise for.p=6 for=8 # again" = .ok k₂ ∧
      Step.applyAll steps₂ k₂ = .ok b ∧ (∀ n ∈ a.nests, n.WidthsInside) ∧
      (∀ n ∈ b.nests, n.WidthsInside) ∧ a.render = b.render ∧ a = b := by
  intro k₁ k₂ steps₁ steps₂ a b
  have hread₁ : Kernel.read "\x7d elementwise for=8 for.p=6" = .ok k₁ := by rfl
  have hread₂ : Kernel.read "\x7d elementwise for.p=6 for=8 # again" = .ok k₂ := by rfl
  have ha : Step.applyAll steps₁ k₁ = .ok a := by rfl
  have hb : Step.applyAll steps₂ k₂ = .ok b := by rfl
  have hwidths : ∀ n ∈ a.nests, n.WidthsInside := by
    intro n hn
    obtain rfl := List.mem_singleton.mp hn
    intro l hl hwidth
    refine ⟨⟨⟨"for", 8, false, some 4, false, some 4⟩, true⟩, by rfl, ?_⟩
    simp only [List.mem_cons, List.not_mem_nil, or_false] at hl
    rcases hl with rfl | rfl
    · cases hwidth
    · rfl
  exact ⟨hread₁, ha, hread₂, hb, hwidths, hwidths, rfl,
    eq_of_render_eq hread₁ ha hread₂ hb hwidths hwidths rfl⟩

end Kernel

end LoopTuner
