import LoopTuner.Kernel.Proposals
import LoopTuner.Proofs.Kernel.Grammar
import LoopTuner.Proofs.Kernel.Steps
import LoopTuner.Proofs.Text.ByteOrder

/-!
# The operations that a classification resolves to

A classification resolves to one operation for each of its entries, if every nest has an entry and every
entry has a nest and a class (`Kernel.resolve_eq_ok_iff`). Otherwise the cause is the first nest that
lacks an entry or, if there is none, the first of the bad entries (`Kernel.resolve_eq_error_iff`).
-/

namespace LoopTuner

/-! ## Entries -/

namespace Classification

variable {α O : Type}

theorem Ascending.nodup {entries : List (String × α)} (h : Ascending entries) : entries.Nodup := by
  refine h.imp ?_
  rintro a _ hlt rfl
  exact String.lt_irrefl _ hlt

/-- There is only one way to list entries by their names. -/
theorem Ascending.eq_of_mem_iff {entries entries' : List (String × α)} (h : Ascending entries)
    (h' : Ascending entries') (hmem : ∀ e, e ∈ entries ↔ e ∈ entries') : entries = entries' := by
  have hperm := (List.perm_ext_iff_of_nodup h.nodup h'.nodup).mpr hmem
  refine hperm.eq_of_pairwise (fun a b _ _ hab hba => ?_) h h'
  exact absurd hab (String.lt_asymm hba)

theorem mem_ofList {entries : List (String × Classified O)} {e : String × Classified O}
    (h : e ∈ (ofList entries).entries) : e ∈ entries := by
  have hfold : ∀ (entries : List (String × Classified O)) (c : Classification O),
      e ∈ (entries.foldl (fun c first => c.insert first.1 first.2) c).entries →
        e ∈ c.entries ∨ e ∈ entries := by
    intro entries
    induction entries with
    | nil => exact fun c hc => Or.inl hc
    | cons first rest ih =>
      intro c hc
      rcases ih _ hc with hc | hc
      · rcases mem_insertEntry hc with rfl | hc
        · exact Or.inr List.mem_cons_self
        · exact Or.inl hc
      · exact Or.inr (List.mem_cons_of_mem _ hc)
  rcases hfold entries empty h with h | h
  · cases h
  · exact h

theorem mem_names_insertEntry {id name : String} {a : α} {entries : List (String × α)} :
    name ∈ (insertEntry id a entries).map Prod.fst ↔ name = id ∨ name ∈ entries.map Prod.fst := by
  induction entries with
  | nil => simp [insertEntry]
  | cons first rest ih =>
    obtain ⟨id', a'⟩ := first
    unfold insertEntry
    split_ifs with hlt heq
    · simp
    · simp [heq]
    · rw [List.map_cons, List.mem_cons, ih, List.map_cons, List.mem_cons, or_left_comm]

/-- A classification has an entry for every name that it was given. -/
theorem mem_names_ofList {entries : List (String × Classified O)} {name : String} :
    name ∈ (ofList entries).entries.map Prod.fst ↔ name ∈ entries.map Prod.fst := by
  have hfold : ∀ (entries : List (String × Classified O)) (c : Classification O),
      name ∈ (entries.foldl (fun c first => c.insert first.1 first.2) c).entries.map Prod.fst ↔
        name ∈ c.entries.map Prod.fst ∨ name ∈ entries.map Prod.fst := by
    intro entries
    induction entries with
    | nil => simp
    | cons first rest ih =>
      intro c
      rw [List.foldl_cons, ih, List.map_cons, List.mem_cons, ← or_assoc, insert, mem_names_insertEntry,
        or_comm (a := name = first.1)]
  rw [ofList, hfold, empty]
  simp

/-- An entry of a new name is put among the others, and replaces none of them. -/
theorem perm_insertEntry {id : String} {a : α} {entries : List (String × α)}
    (h : id ∉ entries.map Prod.fst) : (insertEntry id a entries).Perm ((id, a) :: entries) := by
  induction entries with
  | nil => exact List.Perm.refl _
  | cons first rest ih =>
    obtain ⟨id', a'⟩ := first
    obtain ⟨hne, hrest⟩ := not_or.mp (mt List.mem_cons.mpr h)
    unfold insertEntry
    split_ifs with hlt
    · exact List.Perm.refl _
    · exact ((ih hrest).cons _).trans (List.Perm.swap _ _ _)

/-- If no name is given twice, every entry is kept. -/
theorem perm_ofList {entries : List (String × Classified O)} (h : (entries.map Prod.fst).Nodup) :
    (ofList entries).entries.Perm entries := by
  have hfold : ∀ (entries : List (String × Classified O)) (c : Classification O),
      ((c.entries ++ entries).map Prod.fst).Nodup →
        (entries.foldl (fun c first => c.insert first.1 first.2) c).entries.Perm
          (c.entries ++ entries) := by
    intro entries
    induction entries with
    | nil =>
      intro c _
      rw [List.append_nil]
      exact List.Perm.refl _
    | cons first rest ih =>
      intro c hnodup
      have hmoved : (first :: c.entries ++ rest).Perm (c.entries ++ first :: rest) :=
        List.perm_middle.symm
      have hnew : first.1 ∉ c.entries.map Prod.fst := by
        have hfirst := ((hmoved.map Prod.fst).nodup_iff.mpr hnodup)
        rw [List.cons_append, List.map_cons, List.map_append] at hfirst
        exact fun hmem => (List.nodup_cons.mp hfirst).1 (List.mem_append_left _ hmem)
      have hinsert : (c.insert first.1 first.2).entries.Perm (first :: c.entries) :=
        perm_insertEntry hnew
      have hall := (hinsert.append_right rest).trans hmoved
      exact (ih _ ((hall.map Prod.fst).nodup_iff.mpr hnodup)).trans hall
  exact hfold entries empty h

theorem contains_iff {c : Classification O} {name : String} :
    c.contains name = true ↔ name ∈ c.entries.map Prod.fst := by
  simp [contains]

end Classification

/-- An entry is labelled with the name of a class. -/
def Classified.Labelled {O : Type} (entry : Classified O) : Prop :=
  ∃ opClass : OpClass, opClass.name = entry.label

namespace Kernel

variable {k : Kernel}

/-- An entry refers to the nest of its id. -/
def Locates (k : Kernel) (id : String) (entry : Classified Nat) : Prop :=
  ∃ n, k.nests[entry.operation]? = some n ∧ n.id = id

theorem resolveEntry_eq_ok_iff {id : String} {entry : Classified Nat} {op : Nat × OpClass} :
    k.resolveEntry id entry = .ok op ↔ k.Locates id entry ∧ entry = ⟨op.1, op.2.name⟩ := by
  obtain ⟨position, label⟩ := entry
  obtain ⟨op, opClass⟩ := op
  simp only [resolveEntry, Locates, Classified.mk.injEq]
  constructor
  · intro h
    split at h
    · cases h
    · rename_i n hn
      split_ifs at h with hid
      split at h
      · cases h
      · rename_i hlabel
        cases h
        exact ⟨⟨n, hn, hid⟩, rfl, (OpClass.ofLabel?_eq_some_iff.mp hlabel).symm⟩
  · rintro ⟨⟨n, hn, hid⟩, rfl, rfl⟩
    simp only [hn, if_pos hid, OpClass.ofLabel?_name]

/-- Which entries resolve. -/
theorem exists_resolveEntry_iff {id : String} {entry : Classified Nat} :
    (∃ op, k.resolveEntry id entry = .ok op) ↔ k.Locates id entry ∧ entry.Labelled := by
  simp only [resolveEntry_eq_ok_iff]
  constructor
  · rintro ⟨op, hlocates, rfl⟩
    exact ⟨hlocates, op.2, rfl⟩
  · rintro ⟨hlocates, opClass, hlabel⟩
    refine ⟨(entry.operation, opClass), hlocates, ?_⟩
    rw [hlabel]

theorem cause_of_resolveEntry {id : String} {entry : Classified Nat} {cause : Cause}
    (h : k.resolveEntry id entry = .error cause) :
    ¬ k.Locates id entry ∧ cause = .unknownOperation id ∨
      k.Locates id entry ∧ ¬ entry.Labelled ∧ cause = .unknownLabel entry.label := by
  unfold resolveEntry at h
  split at h
  · rename_i hnone
    cases h
    refine Or.inl ⟨?_, rfl⟩
    rintro ⟨n, hn, -⟩
    rw [hnone] at hn
    cases hn
  · rename_i n hn
    split_ifs at h with hid
    · split at h
      · rename_i hlabel
        cases h
        refine Or.inr ⟨⟨n, hn, hid⟩, ?_, rfl⟩
        rintro ⟨opClass, hname⟩
        rw [OpClass.ofLabel?_eq_some_iff.mpr hname] at hlabel
        cases hlabel
      · cases h
    · cases h
      refine Or.inl ⟨?_, rfl⟩
      rintro ⟨m, hm, hmid⟩
      cases hn.symm.trans hm
      exact hid hmid

/-- The nest is looked for before the label is. -/
theorem resolveEntry_eq_error_iff {id : String} {entry : Classified Nat} {cause : Cause} :
    k.resolveEntry id entry = .error cause ↔
      ¬ k.Locates id entry ∧ cause = .unknownOperation id ∨
        k.Locates id entry ∧ ¬ entry.Labelled ∧ cause = .unknownLabel entry.label := by
  constructor
  · exact cause_of_resolveEntry
  · intro h
    cases hentry : k.resolveEntry id entry with
    | ok op =>
      obtain ⟨hlocates, hlabelled⟩ := exists_resolveEntry_iff.mp ⟨op, hentry⟩
      rcases h with ⟨h, -⟩ | ⟨-, h, -⟩
      · exact absurd hlocates h
      · exact absurd hlabelled h
    | error cause' =>
      rcases h with ⟨h, rfl⟩ | ⟨hlocates, -, rfl⟩ <;>
        rcases cause_of_resolveEntry hentry with ⟨h', rfl⟩ | ⟨hlocates', -, rfl⟩
      · rfl
      · exact absurd hlocates' h
      · exact absurd hlocates h'
      · rfl

theorem resolveEntries_eq_ok_iff {entries : List (String × Classified Nat)}
    {operations : List (Nat × OpClass)} :
    k.resolveEntries entries = .ok operations ↔
      List.Forall₂ (fun e op => k.resolveEntry e.1 e.2 = .ok op) entries operations := by
  induction entries generalizing operations with
  | nil =>
    rw [List.forall₂_nil_left_iff]
    exact ⟨fun h => (Except.ok.inj h).symm, fun h => h ▸ rfl⟩
  | cons first rest ih =>
    rw [List.forall₂_cons_left_iff]
    unfold resolveEntries
    constructor
    · intro h
      split at h
      · cases h
      · rename_i op hfirst
        split at h
        · cases h
        · rename_i others hrest
          cases h
          exact ⟨op, others, hfirst, ih.mp hrest, rfl⟩
    · rintro ⟨op, others, hfirst, hrest, rfl⟩
      simp only [hfirst, ih.mpr hrest]

/-- The first bad entry is the one that is reported. -/
theorem resolveEntries_eq_error_iff {entries : List (String × Classified Nat)}
    (hascending : Classification.Ascending entries) {cause : Cause} :
    k.resolveEntries entries = .error cause ↔
      ∃ e ∈ entries, k.resolveEntry e.1 e.2 = .error cause ∧
        ∀ e' ∈ entries, e'.1 < e.1 → ∃ op, k.resolveEntry e'.1 e'.2 = .ok op := by
  induction entries with
  | nil =>
    unfold resolveEntries
    simp
  | cons first rest ih =>
    obtain ⟨hless, hrest⟩ := List.pairwise_cons.mp hascending
    unfold resolveEntries
    cases hfirst : k.resolveEntry first.1 first.2 with
    | error cause' =>
      constructor
      · intro h
        cases h
        refine ⟨first, List.mem_cons_self, hfirst, fun e' he' hlt => ?_⟩
        rcases List.mem_cons.mp he' with rfl | he'
        · exact absurd hlt (String.lt_irrefl _)
        · exact absurd hlt (String.lt_asymm (hless e' he'))
      · rintro ⟨e, he, herror, hbefore⟩
        rcases List.mem_cons.mp he with rfl | he
        · cases hfirst.symm.trans herror
          rfl
        · obtain ⟨op, hop⟩ := hbefore first List.mem_cons_self (hless e he)
          cases hfirst.symm.trans hop
    | ok op =>
      have htail : (∃ e ∈ first :: rest, k.resolveEntry e.1 e.2 = .error cause ∧
          ∀ e' ∈ first :: rest, e'.1 < e.1 → ∃ op, k.resolveEntry e'.1 e'.2 = .ok op) ↔
          ∃ e ∈ rest, k.resolveEntry e.1 e.2 = .error cause ∧
            ∀ e' ∈ rest, e'.1 < e.1 → ∃ op, k.resolveEntry e'.1 e'.2 = .ok op := by
        simp only [List.mem_cons, exists_eq_or_imp, forall_eq_or_imp, hfirst, reduceCtorEq, false_and,
          false_or, Except.ok.injEq, exists_eq', implies_true, true_and]
      rw [htail, ← ih hrest]
      cases k.resolveEntries rest <;> simp

/-! ## Classifications -/

/-- A classification has an entry for each nest and no others. The entry refers to its nest and is
labelled with the name of a class. -/
structure ClassifiedBy (k : Kernel) (c : Classification Nat) : Prop where
  mem_names_iff : ∀ id, id ∈ c.entries.map Prod.fst ↔ id ∈ k.nests.map Nest.id
  locates : ∀ e ∈ c.entries, k.Locates e.1 e.2
  labelled : ∀ e ∈ c.entries, e.2.Labelled

/-- Every nest has an entry, and the entries before this one in byte order of the ids are good. -/
structure Reaches (k : Kernel) (c : Classification Nat) (e : String × Classified Nat) : Prop where
  named : ∀ n ∈ k.nests, n.id ∈ c.entries.map Prod.fst
  mem : e ∈ c.entries
  good : ∀ e' ∈ c.entries, Text.bytes e'.1 < Text.bytes e.1 → k.Locates e'.1 e'.2 ∧ e'.2.Labelled

/-- Why a classification does not resolve. The first nest without an entry is looked for before the first
bad entry, and in a bad entry the nest before the class. -/
inductive Refuses (k : Kernel) (c : Classification Nat) : Cause → Prop
  | missing {i : Nat} {n : Nest} (hn : k.nests[i]? = some n) (hid : n.id ∉ c.entries.map Prod.fst)
      (hbefore : ∀ j m, j < i → k.nests[j]? = some m → m.id ∈ c.entries.map Prod.fst) :
      Refuses k c (.missingClassification n.id)
  | operation {e : String × Classified Nat} (h : k.Reaches c e) (hlocates : ¬ k.Locates e.1 e.2) :
      Refuses k c (.unknownOperation e.1)
  | label {e : String × Classified Nat} (h : k.Reaches c e) (hlocates : k.Locates e.1 e.2)
      (hlabelled : ¬ e.2.Labelled) : Refuses k c (.unknownLabel e.2.label)

variable {c : Classification Nat}

theorem find?_eq_none_iff : (k.nests.find? fun n => !c.contains n.id) = none ↔
    ∀ n ∈ k.nests, n.id ∈ c.entries.map Prod.fst := by
  simp only [List.find?_eq_none, ← Classification.contains_iff, Bool.not_eq_true', Bool.not_eq_false]

theorem find?_eq_some_iff {n : Nest} : (k.nests.find? fun n => !c.contains n.id) = some n ↔
    ∃ i : Nat, k.nests[i]? = some n ∧ n.id ∉ c.entries.map Prod.fst ∧
      ∀ j m, j < i → k.nests[j]? = some m → m.id ∈ c.entries.map Prod.fst := by
  simp only [List.find?_eq_some_iff_getElem, ← Classification.contains_iff, Bool.not_eq_true',
    Bool.not_not, Bool.not_eq_true, List.getElem?_eq_some_iff]
  constructor
  · rintro ⟨hn, i, hi, rfl, hbefore⟩
    refine ⟨i, ⟨hi, rfl⟩, hn, ?_⟩
    rintro j m hj ⟨-, rfl⟩
    exact hbefore j hj
  · rintro ⟨i, ⟨hi, rfl⟩, hn, hbefore⟩
    exact ⟨hn, i, hi, rfl, fun j hj => hbefore j _ hj ⟨hj.trans hi, rfl⟩⟩

theorem resolve_eq_ok_iff {operations : List (Nat × OpClass)} :
    k.resolve c = .ok operations ↔
      (∀ n ∈ k.nests, n.id ∈ c.entries.map Prod.fst) ∧
        List.Forall₂ (fun e op => k.resolveEntry e.1 e.2 = .ok op) c.entries operations := by
  unfold resolve
  rw [← find?_eq_none_iff, ← resolveEntries_eq_ok_iff]
  cases k.nests.find? fun n => !c.contains n.id <;> simp

/-- Which classifications resolve. -/
theorem exists_resolve_iff : (∃ operations, k.resolve c = .ok operations) ↔ k.ClassifiedBy c := by
  simp only [resolve_eq_ok_iff]
  constructor
  · rintro ⟨operations, hnests, hentries⟩
    have hgood : ∀ e ∈ c.entries, k.Locates e.1 e.2 ∧ e.2.Labelled := by
      intro e he
      obtain ⟨op, -, hop⟩ := exists_of_forall₂_of_mem hentries.flip he
      exact exists_resolveEntry_iff.mp ⟨op, hop⟩
    refine ⟨fun id => ⟨fun hid => ?_, fun hid => ?_⟩, fun e he => (hgood e he).1,
      fun e he => (hgood e he).2⟩
    · obtain ⟨e, he, rfl⟩ := List.mem_map.mp hid
      obtain ⟨n, hn, hid⟩ := (hgood e he).1
      exact hid ▸ List.mem_map_of_mem (List.mem_of_getElem? hn)
    · obtain ⟨n, hn, rfl⟩ := List.mem_map.mp hid
      exact hnests n hn
  · rintro ⟨hnames, hlocates, hlabelled⟩
    have hgood : ∀ e ∈ c.entries, ∃ op, k.resolveEntry e.1 e.2 = .ok op := fun e he =>
      exists_resolveEntry_iff.mpr ⟨hlocates e he, hlabelled e he⟩
    obtain ⟨operations, hentries⟩ := exists_forall₂ hgood
    exact ⟨operations, fun n hn => (hnames n.id).mpr (List.mem_map_of_mem hn), hentries⟩

/-- Which cause is reported. -/
theorem resolve_eq_error_iff {cause : Cause} : k.resolve c = .error cause ↔ k.Refuses c cause := by
  unfold resolve
  cases hfind : k.nests.find? fun n => !c.contains n.id with
  | some n =>
    obtain ⟨i, hn, hid, hbefore⟩ := find?_eq_some_iff.mp hfind
    constructor
    · intro h
      cases h
      exact .missing hn hid hbefore
    · intro h
      cases h with
      | missing hm hid' hbefore' =>
        rw [find?_eq_some_iff.mpr ⟨_, hm, hid', hbefore'⟩] at hfind
        cases hfind
        rfl
      | operation h => exact absurd (h.named n (List.mem_of_getElem? hn)) hid
      | label h => exact absurd (h.named n (List.mem_of_getElem? hn)) hid
  | none =>
    have hnamed := find?_eq_none_iff.mp hfind
    simp only [resolveEntries_eq_error_iff c.ascending, exists_resolveEntry_iff,
      resolveEntry_eq_error_iff, ← Text.bytes_lt_bytes_iff]
    constructor
    · rintro ⟨e, he, ⟨hlocates, rfl⟩ | ⟨hlocates, hlabelled, rfl⟩, hgood⟩
      · exact .operation ⟨hnamed, he, hgood⟩ hlocates
      · exact .label ⟨hnamed, he, hgood⟩ hlocates hlabelled
    · intro h
      cases h with
      | missing hn hid => exact absurd (hnamed _ (List.mem_of_getElem? hn)) hid
      | operation h hlocates => exact ⟨_, h.mem, Or.inl ⟨hlocates, rfl⟩, h.good⟩
      | label h hlocates hlabelled => exact ⟨_, h.mem, Or.inr ⟨hlocates, hlabelled, rfl⟩, h.good⟩

/-! ## The classification of a kernel -/

theorem exists_of_mem_classify {id : String} {entry : Classified Nat}
    (h : (id, entry) ∈ k.classify.entries) :
    ∃ n, k.nests[entry.operation]? = some n ∧ n.id = id ∧ n.opClass.name = entry.label := by
  obtain ⟨i, hi, heq⟩ := List.mem_mapIdx.mp (Classification.mem_ofList h)
  cases heq
  exact ⟨k.nests[i], List.getElem?_eq_getElem hi, rfl, rfl⟩

theorem map_fst_declared (nests : List Nest) :
    (nests.mapIdx fun i n => (n.id, (⟨i, n.opClass.name⟩ : Classified Nat))).map Prod.fst =
      nests.map Nest.id :=
  List.ext_getElem (by simp) (by simp)

theorem mem_names_classify {id : String} :
    id ∈ k.classify.entries.map Prod.fst ↔ id ∈ k.nests.map Nest.id := by
  unfold classify
  rw [Classification.mem_names_ofList, map_fst_declared]

/-- The classification of a kernel describes every kernel with the same ids. -/
theorem classifiedBy_classify {k' : Kernel} (hids : k'.nests.map Nest.id = k.nests.map Nest.id) :
    k'.ClassifiedBy k.classify where
  mem_names_iff id := by rw [mem_names_classify, hids]
  locates := by
    rintro ⟨id, entry⟩ he
    obtain ⟨n, hn, rfl, -⟩ := exists_of_mem_classify he
    have hid := congrArg (·[entry.operation]?) hids
    simp only [List.getElem?_map, hn, Option.map_some, Option.map_eq_some_iff] at hid
    exact hid
  labelled := by
    rintro ⟨id, entry⟩ he
    obtain ⟨n, -, -, hlabel⟩ := exists_of_mem_classify he
    exact ⟨n.opClass, hlabel⟩

/-- Under the classification of an earlier kernel, an operation has the class of the nest there. -/
theorem exists_of_mem_resolve {k' : Kernel} {operations : List (Nat × OpClass)}
    (h : k'.resolve k.classify = .ok operations) {op : Nat} {opClass : OpClass}
    (hmem : (op, opClass) ∈ operations) : ∃ n, k.nests[op]? = some n ∧ n.opClass = opClass := by
  obtain ⟨-, hentries⟩ := resolve_eq_ok_iff.mp h
  obtain ⟨⟨id, entry⟩, he, hentry⟩ := exists_of_forall₂_of_mem hentries hmem
  obtain ⟨-, rfl⟩ := resolveEntry_eq_ok_iff.mp hentry
  obtain ⟨n, hn, -, hname⟩ := exists_of_mem_classify he
  have hlabel := OpClass.ofLabel?_eq_some_iff.mpr hname
  rw [OpClass.ofLabel?_name] at hlabel
  exact ⟨n, hn, (Option.some.inj hlabel).symm⟩

end Kernel

end LoopTuner
