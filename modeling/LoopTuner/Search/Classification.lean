import LoopTuner.Error

/-!
Classifications: for each operation of a program, by its name, a handle and a label. The entries are
in ascending order of the names, each name at most once, so every walk over a classification has the
same order.
-/

namespace LoopTuner

/-- The handle of an operation inside its program, and its label. -/
structure Classified (O : Type) where
  operation : O
  label : String
  deriving DecidableEq, Repr

namespace Classification

variable {α : Type}

/-- Puts an entry into its place; an entry of the same name is replaced. -/
def insertEntry (id : String) (a : α) : List (String × α) → List (String × α)
  | [] => [(id, a)]
  | (id', a') :: rest =>
    if id < id' then (id, a) :: (id', a') :: rest
    else if id = id' then (id, a) :: rest
    else (id', a') :: insertEntry id a rest

theorem mem_insertEntry {id : String} {a : α} {e : String × α} {entries : List (String × α)}
    (h : e ∈ insertEntry id a entries) : e = (id, a) ∨ e ∈ entries := by
  induction entries with
  | nil => simpa [insertEntry] using h
  | cons first rest ih =>
    obtain ⟨id', a'⟩ := first
    simp only [insertEntry] at h
    split at h
    · simpa using h
    · split at h
      · rcases List.mem_cons.1 h with h | h
        · exact .inl h
        · exact .inr (List.mem_cons_of_mem _ h)
      · rcases List.mem_cons.1 h with h | h
        · exact .inr (List.mem_cons.2 (.inl h))
        · rcases ih h with h | h
          · exact .inl h
          · exact .inr (List.mem_cons_of_mem _ h)

/-- The names ascend. -/
def Ascending (entries : List (String × α)) : Prop := entries.Pairwise fun a b => a.1 < b.1

theorem lt_of_not_lt_of_ne {s t : String} (h : ¬ s < t) (hne : s ≠ t) : t < s := by
  rcases Decidable.em (t < s) with h' | h'
  · exact h'
  · exact absurd (String.le_antisymm h' h) hne

theorem Ascending.insertEntry {id : String} {a : α} {entries : List (String × α)}
    (h : Ascending entries) : Ascending (insertEntry id a entries) := by
  induction entries with
  | nil => simp [Ascending, Classification.insertEntry]
  | cons first rest ih =>
    obtain ⟨id', a'⟩ := first
    obtain ⟨hfirst, hrest⟩ := List.pairwise_cons.1 h
    simp only [Classification.insertEntry]
    split
    · rename_i hlt
      refine List.pairwise_cons.2 ⟨fun e he => ?_, h⟩
      rcases List.mem_cons.1 he with rfl | he
      · exact hlt
      · exact String.lt_trans hlt (hfirst e he)
    · rename_i hlt
      split
      · rename_i heq
        subst heq
        exact List.pairwise_cons.2 ⟨hfirst, hrest⟩
      · rename_i hne
        refine List.pairwise_cons.2 ⟨fun e he => ?_, ih hrest⟩
        rcases mem_insertEntry he with rfl | he
        · exact lt_of_not_lt_of_ne hlt hne
        · exact hfirst e he

end Classification

structure Classification (O : Type) where
  entries : List (String × Classified O)
  ascending : Classification.Ascending entries

namespace Classification

variable {O : Type}

def empty : Classification O := ⟨[], .nil⟩

def insert (c : Classification O) (id : String) (entry : Classified O) : Classification O :=
  ⟨insertEntry id entry c.entries, c.ascending.insertEntry⟩

/-- Of several entries of one name the last one is kept. -/
def ofList (entries : List (String × Classified O)) : Classification O :=
  entries.foldl (fun c (id, entry) => c.insert id entry) empty

def contains (c : Classification O) (id : String) : Bool := c.entries.any fun e => e.1 == id

def find? (c : Classification O) (id : String) : Option (Classified O) :=
  (c.entries.find? fun e => e.1 == id).map (·.2)

end Classification

end LoopTuner
