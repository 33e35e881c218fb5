import LoopTuner.Kernel.Reader
import LoopTuner.Proofs.Text.Cuts
import LoopTuner.Proofs.Text.Numerals
import Mathlib.Data.List.Forall2
import Mathlib.Tactic.SplitIfs

/-!
# The grammar of kernels

What the text of a kernel says, without a reader: a word declares a loop (`DeclaresLoop`), the words of a
line declare a nest (`DeclaresNest`), and the lines that have words declare the nests of the kernel in
order (`Describes`). The reader takes a text exactly when it describes a kernel, and answers that kernel
(`read_eq_ok_iff_describes`).
-/

namespace LoopTuner.Kernel

open Text

/-- A word names a loop, and behind the first equals sign its extent. -/
def DeclaresLoop (word : List Char) (declared : String × Nat) : Prop :=
  ∃ name numeral, word = name ++ '=' :: numeral ∧ '=' ∉ name ∧ name ≠ [] ∧
    declared.1 = String.ofList name ∧ Numeral.IsNumeral numeral declared.2 ∧
    0 < declared.2 ∧ declared.2 < 2 ^ 64

/-- The loop at this position of the declared ones. Only the last loop of a nest can be a reduction. -/
def declaredAt (opClass : OpClass) (count position : Nat) (declared : String × Nat) : Loop where
  name := declared.1
  extent := declared.2
  reduction := opClass ≠ .elementwise ∧ position + 1 = count
  tile := none
  parallel := false
  vectorWidth := none

/-- The words of a line are an id, a label, and one or more loops with different names. -/
def DeclaresNest (ws : List (List Char)) (n : Nest) : Prop :=
  ∃ id label loops declared, ws = id :: label :: loops ∧ n.id = String.ofList id ∧
    n.opClass.name = String.ofList label ∧ List.Forall₂ DeclaresLoop loops declared ∧
    declared ≠ [] ∧ (declared.map Prod.fst).Nodup ∧
    n.loops = declared.mapIdx (declaredAt n.opClass declared.length)

/-- The words of a line stand before its comment. -/
def HasWords (line : List Char) (ws : List (List Char)) : Prop :=
  ∃ code, IsBefore '#' line code ∧ IsWords code ws

/-- One or more lines of a text have words, and these declare the nests of the kernel in order, with
different ids. -/
def Describes (text : String) (k : Kernel) : Prop :=
  ∃ ls wss, IsLines text.toList ls ∧ List.Forall₂ HasWords ls wss ∧
    List.Forall₂ DeclaresNest (wss.filter (· ≠ [])) k.nests ∧ k.nests ≠ [] ∧
    (k.nests.map Nest.id).Nodup

/-! ## Names -/

/-- How a reader that remembers the earlier names tells that all names are different. -/
theorem distinct_cons_iff {x : String} {xs earlier : List String} :
    ((x :: xs).Nodup ∧ ∀ y ∈ x :: xs, y ∉ earlier) ↔
      x ∉ earlier ∧ xs.Nodup ∧ ∀ y ∈ xs, y ∉ x :: earlier := by
  constructor
  · rintro ⟨hnodup, hearlier⟩
    obtain ⟨hx, hnodup⟩ := List.nodup_cons.mp hnodup
    obtain ⟨hnew, hearlier⟩ := List.forall_mem_cons.mp hearlier
    refine ⟨hnew, hnodup, fun y hy hmem => ?_⟩
    rcases List.mem_cons.mp hmem with rfl | hmem
    · exact hx hy
    · exact hearlier y hy hmem
  · rintro ⟨hnew, hnodup, hearlier⟩
    refine ⟨List.nodup_cons.mpr ⟨fun hx => ?_, hnodup⟩, List.forall_mem_cons.mpr ⟨hnew, fun y hy hmem => ?_⟩⟩
    · exact hearlier x hx List.mem_cons_self
    · exact hearlier y hy (List.mem_cons_of_mem _ hmem)

/-! ## Loops -/

theorem readLoop_eq_ok_iff {word : List Char} {declared : String × Nat} :
    readLoop word = .ok declared ↔ DeclaresLoop word declared := by
  have hlimit (n : Nat) : n ≤ Numeral.wordLimit ↔ n < 2 ^ 64 := by
    show n ≤ 2 ^ 64 - 1 ↔ _
    omega
  constructor
  · intro h
    unfold readLoop at h
    split at h
    · cases h
    · cases h
    · rename_i name numeral hne hcut
      obtain ⟨hname, rfl⟩ := cutOnce_eq_some_iff.mp hcut
      split at h
      · cases h
      · cases h
      · rename_i extent hzero hread
        cases h
        obtain ⟨hnumeral, hle⟩ := Numeral.read_eq_ok_iff.mp hread
        exact ⟨name, numeral, rfl, hname, hne, rfl, hnumeral, Nat.pos_of_ne_zero hzero,
          (hlimit _).mp hle⟩
  · obtain ⟨loop, extent⟩ := declared
    rintro ⟨name, numeral, rfl, hname, hne, rfl, hnumeral, hpos, hlt⟩
    obtain ⟨c, name, rfl⟩ := List.exists_cons_of_ne_nil hne
    obtain ⟨extent, rfl⟩ := Nat.exists_eq_succ_of_ne_zero (Nat.ne_of_gt hpos)
    have hread : Numeral.readWord numeral = .ok (extent + 1) :=
      Numeral.read_eq_ok_iff.mpr ⟨hnumeral, (hlimit _).mpr hlt⟩
    unfold readLoop
    rw [cutOnce_eq_some_iff.mpr ⟨hname, rfl⟩]
    simp only [hread]

theorem readLoops_eq_ok_iff {id : String} {earlier : List String} {ws : List (List Char)}
    {declared : List (String × Nat)} :
    readLoops id earlier ws = .ok declared ↔ List.Forall₂ DeclaresLoop ws declared ∧
      (declared.map Prod.fst).Nodup ∧ ∀ name ∈ declared.map Prod.fst, name ∉ earlier := by
  induction ws generalizing earlier declared with
  | nil =>
    constructor
    · intro h
      cases h
      exact ⟨.nil, List.nodup_nil, fun _ hname => absurd hname List.not_mem_nil⟩
    · rintro ⟨h, -⟩
      cases h
      rfl
  | cons word ws ih =>
    constructor
    · intro h
      unfold readLoops at h
      split at h
      · cases h
      · rename_i name extent hloop
        split_ifs at h with hnew
        split at h
        · cases h
        · rename_i rest hrest
          cases h
          obtain ⟨hloops, hnames⟩ := ih.mp hrest
          exact ⟨.cons (readLoop_eq_ok_iff.mp hloop) hloops, distinct_cons_iff.mpr ⟨hnew, hnames⟩⟩
    · rintro ⟨h, hnames⟩
      cases h with
      | @cons _ d _ rest hloop hloops =>
        obtain ⟨hnew, hnames⟩ := distinct_cons_iff.mp hnames
        have hrest : readLoops id (d.1 :: earlier) ws = .ok rest := ih.mpr ⟨hloops, hnames⟩
        unfold readLoops
        simp only [readLoop_eq_ok_iff.mpr hloop, if_neg hnew, hrest]

theorem declareLoops_concat (hasReduction : Bool) (front : List (String × Nat))
    (last : String × Nat) :
    declareLoops hasReduction (front ++ [last]) =
      front.map (fun d => Loop.declare d.1 d.2 false) ++
        [.declare last.1 last.2 hasReduction] := by
  induction front with
  | nil => rfl
  | cons d front ih =>
    rw [List.map_cons, List.cons_append, List.cons_append, ← ih]
    cases front with
    | nil => rfl
    | cons d' front => rfl

/-- No loop but the last is a reduction. -/
theorem mapIdx_declaredAt_concat (opClass : OpClass) (front : List (String × Nat))
    (last : String × Nat) :
    (front ++ [last]).mapIdx (declaredAt opClass (front ++ [last]).length) =
      front.map (fun d => Loop.declare d.1 d.2 false) ++
        [.declare last.1 last.2 opClass.hasReduction] := by
  have hreduction : opClass.hasReduction = decide (opClass ≠ .elementwise) := by
    cases opClass <;> rfl
  rw [List.mapIdx_concat, List.length_append, List.length_singleton]
  congr 1
  · refine List.ext_getElem (by simp) fun i hi _ => ?_
    rw [List.length_mapIdx] at hi
    have hlast : i ≠ front.length := Nat.ne_of_lt hi
    simp [declaredAt, Loop.declare, hlast]
  · simp [declaredAt, Loop.declare, hreduction]

theorem declareLoops_eq_mapIdx (opClass : OpClass) (declared : List (String × Nat)) :
    declareLoops opClass.hasReduction declared =
      declared.mapIdx (declaredAt opClass declared.length) := by
  rcases List.eq_nil_or_concat' declared with rfl | ⟨front, last, rfl⟩
  · rfl
  · rw [declareLoops_concat, mapIdx_declaredAt_concat]

/-! ## Nests -/

theorem OpClass.ofLabel?_eq_some_iff {label : String} {opClass : OpClass} :
    OpClass.ofLabel? label = some opClass ↔ opClass.name = label := by
  constructor
  · intro h
    simpa using List.find?_some h
  · rintro rfl
    exact OpClass.ofLabel?_name opClass

theorem readNest_eq_ok_iff {line : List Char} {n : Nest} :
    readNest line = .ok n ↔ DeclaresNest (words line) n := by
  constructor
  · intro h
    unfold readNest at h
    split at h
    · rename_i id label loops hwords
      split at h
      · cases h
      · rename_i opClass hlabel
        split at h
        · cases h
        · cases h
        · rename_i declared hne hread
          cases h
          obtain ⟨hloops, hnodup, -⟩ := readLoops_eq_ok_iff.mp hread
          exact ⟨id, label, loops, declared, hwords, rfl, OpClass.ofLabel?_eq_some_iff.mp hlabel, hloops,
            hne, hnodup, declareLoops_eq_mapIdx opClass declared⟩
    · cases h
  · rintro ⟨id, label, loops, declared, hwords, hid, hlabel, hloops, hne, hnodup, hdeclared⟩
    have hread : readLoops (String.ofList id) [] loops = .ok declared :=
      readLoops_eq_ok_iff.mpr ⟨hloops, hnodup, fun _ _ => List.not_mem_nil⟩
    obtain ⟨d, rest, rfl⟩ := List.exists_cons_of_ne_nil hne
    unfold readNest
    simp only [hwords, OpClass.ofLabel?_eq_some_iff.mpr hlabel, hread]
    rw [declareLoops_eq_mapIdx, ← hdeclared, ← hid]

/-! ## Lines -/

theorem hasWords_iff {line : List Char} {ws : List (List Char)} :
    HasWords line ws ↔ words (code line) = ws := by
  unfold HasWords code
  rw [words_trim]
  constructor
  · rintro ⟨part, hbefore, hwords⟩
    rw [before_eq_iff.mpr hbefore, words_eq_iff.mpr hwords]
  · rintro rfl
    exact ⟨_, before_eq_iff.mp rfl, words_eq_iff.mp rfl⟩

theorem words_code_eq_nil_iff {line : List Char} : words (code line) = [] ↔ code line = [] := by
  unfold code
  rw [words_trim, trim_eq_nil_iff]

theorem readLines_eq_ok_iff {number : Nat} {earlier : List String} {ls : List (List Char)}
    {nests : List Nest} :
    readLines number earlier ls = .ok nests ↔
      List.Forall₂ DeclaresNest ((ls.map fun line => words (code line)).filter (· ≠ [])) nests ∧
        (nests.map Nest.id).Nodup ∧ ∀ id ∈ nests.map Nest.id, id ∉ earlier := by
  induction ls generalizing number earlier nests with
  | nil =>
    constructor
    · intro h
      cases h
      exact ⟨.nil, List.nodup_nil, fun _ hid => absurd hid List.not_mem_nil⟩
    · rintro ⟨h, -⟩
      cases h
      rfl
  | cons line ls ih =>
    by_cases hblank : code line = []
    · have hwords : words (code line) = [] := words_code_eq_nil_iff.mpr hblank
      unfold readLines
      rw [if_pos hblank, ih, List.map_cons, List.filter_cons_of_neg (by simp [hwords])]
    · have hwords : words (code line) ≠ [] := mt words_code_eq_nil_iff.mp hblank
      rw [List.map_cons, List.filter_cons_of_pos (by simp [hwords])]
      constructor
      · intro h
        unfold readLines at h
        rw [if_neg hblank] at h
        split at h
        · cases h
        · rename_i n hnest
          split_ifs at h with hnew
          split at h
          · cases h
          · rename_i rest hrest
            cases h
            obtain ⟨hnests, hids⟩ := ih.mp hrest
            exact ⟨.cons (readNest_eq_ok_iff.mp hnest) hnests, distinct_cons_iff.mpr ⟨hnew, hids⟩⟩
      · rintro ⟨h, hids⟩
        cases h with
        | @cons _ n _ rest hnest hnests =>
          obtain ⟨hnew, hids⟩ := distinct_cons_iff.mp hids
          have hrest : readLines (number + 1) (n.id :: earlier) ls = .ok rest := ih.mpr ⟨hnests, hids⟩
          unfold readLines
          simp only [if_neg hblank, readNest_eq_ok_iff.mpr hnest, if_neg hnew, hrest]

/-! ## Texts -/

theorem readChars_eq_ok_iff {text : List Char} {k : Kernel} :
    readChars text = .ok k ↔ readLines 1 [] (lines text) = .ok k.nests ∧ k.nests ≠ [] := by
  unfold readChars
  constructor
  · intro h
    split at h
    · cases h
    · cases h
    · rename_i nests hne hread
      cases h
      exact ⟨hread, hne⟩
  · rintro ⟨hread, hne⟩
    rw [hread]
    obtain ⟨nests⟩ := k
    obtain ⟨n, rest, rfl⟩ := List.exists_cons_of_ne_nil hne
    rfl

/-- The reader takes the texts of the grammar and no others, and answers the kernel that a text
describes. -/
theorem read_eq_ok_iff_describes (text : String) (k : Kernel) :
    read text = .ok k ↔ Describes text k := by
  unfold read Describes
  rw [readChars_eq_ok_iff, readLines_eq_ok_iff]
  constructor
  · rintro ⟨⟨hnests, hnodup, -⟩, hne⟩
    refine ⟨lines text.toList, _, lines_eq_iff.mp rfl, ?_, hnests, hne, hnodup⟩
    exact List.forall₂_map_right_iff.mpr (List.forall₂_same.mpr fun _ _ => hasWords_iff.mpr rfl)
  · rintro ⟨ls, wss, hlines, hwords, hnests, hne, hnodup⟩
    obtain rfl := lines_eq_iff.mpr hlines
    have hwss := hwords.imp fun _ _ h => hasWords_iff.mp h
    rw [← List.forall₂_map_left_iff (f := fun line => words (code line)), List.forall₂_eq_eq_eq] at hwss
    subst hwss
    exact ⟨⟨hnests, hnodup, fun _ _ => List.not_mem_nil⟩, hne⟩

end LoopTuner.Kernel
