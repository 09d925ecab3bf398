import Fallow.Analysis
import Fallow.Proofs.Origin

/-!
# Putting outcomes together

The combined index of several files holds what the files record, each definition and reference once,
in whatever order the files are finished.
-/

namespace Fallow

namespace Index

namespace Tidy

variable {x : Index} (h : x.Tidy)
include h

theorem nodup_listing : x.listing.Nodup :=
  (perm_sortedBy _ _).nodup_iff.2 (h.definitions.nodup_values Definition.same_refl)

theorem nodup_references : x.references.values.Nodup :=
  h.references.nodup_values (by simp)

/-- A tidy index holds a definition once. -/
theorem eq_of_alike {d e : Definition} (hd : d ∈ x.definitions.values)
    (he : e ∈ x.definitions.values) (halike : d.Alike e) : d = e :=
  h.definitions.eq_of_same Definition.same_comm hd he halike.1 halike.2

theorem isReferenced_iff {name : String} :
    x.isReferenced name = true ↔ ∃ r ∈ x.referenceListing, r.name = name := by
  have hget : x.isReferenced name = true ↔ ∃ r, r ∈ x.references.get name := by
    simp [isReferenced, referencesFor, List.eq_nil_iff_forall_not_mem]
  rw [hget]
  constructor
  · rintro ⟨r, hr⟩
    have hname : r.name = name := h.references.named name r hr
    refine ⟨r, mem_referenceListing.2 ?_, hname⟩
    rwa [h.references.mem_values, hname]
  · rintro ⟨r, hr, rfl⟩
    exact ⟨r, h.references.mem_values.1 (mem_referenceListing.1 hr)⟩

end Tidy

/-- Several indexes merged one after the other. -/
def mergeAll (xs : List Index) : Index :=
  xs.foldl merge {}

theorem mergeAll_eq (xs : List Index) : mergeAll xs =
    { definitions := Buckets.mergeAll Definition.same (xs.map definitions)
      references := Buckets.mergeAll (· == ·) (xs.map references) } := by
  have hfold : ∀ x : Index, xs.foldl merge x =
      { definitions := (xs.map definitions).foldl (Buckets.merge Definition.same) x.definitions
        references := (xs.map references).foldl (Buckets.merge (· == ·)) x.references } := by
    induction xs with
    | nil => exact fun x => rfl
    | cons y rest ih => exact fun x => ih (x.merge y)
  exact hfold {}

section MergeAll

variable {xs : List Index} (htidy : ∀ x ∈ xs, x.Tidy)
include htidy

theorem tidy_definitions :
    ∀ b ∈ xs.map definitions, b.Tidy Definition.name Definition.same := by
  intro b hb
  obtain ⟨x, hx, rfl⟩ := List.mem_map.1 hb
  exact (htidy x hx).definitions

theorem tidy_references : ∀ b ∈ xs.map references, b.Tidy Reference.name (· == ·) := by
  intro b hb
  obtain ⟨x, hx, rfl⟩ := List.mem_map.1 hb
  exact (htidy x hx).references

theorem Tidy.mergeAll : (mergeAll xs).Tidy := by
  rw [mergeAll_eq]
  exact ⟨.mergeAll (tidy_definitions htidy), .mergeAll (tidy_references htidy)⟩

omit htidy in
theorem of_mem_listing_mergeAll {d : Definition} (h : d ∈ (Index.mergeAll xs).listing) :
    ∃ x ∈ xs, d ∈ x.listing := by
  rw [mem_listing, mergeAll_eq] at h
  obtain ⟨b, hb, hd⟩ := Buckets.of_mem_values_mergeAll h
  obtain ⟨x, hx, rfl⟩ := List.mem_map.1 hb
  exact ⟨x, hx, mem_listing.2 hd⟩

/-- A merge holds every definition, though perhaps as another index has it. -/
theorem exists_alike_mem_listing_mergeAll {x : Index} (hx : x ∈ xs) {d : Definition}
    (hd : d ∈ x.listing) : ∃ e ∈ (Index.mergeAll xs).listing, e.Alike d := by
  obtain ⟨e, he, hname, hsame⟩ := Buckets.exists_same_mem_values_mergeAll (tidy_definitions htidy)
    Definition.same_refl (List.mem_map_of_mem hx) (mem_listing.1 hd)
  refine ⟨e, ?_, hname, ?_⟩
  · rw [mem_listing, mergeAll_eq]
    exact he
  · rw [Definition.same_comm]
    exact hsame

theorem mem_referenceListing_mergeAll {r : Reference} :
    r ∈ (Index.mergeAll xs).referenceListing ↔ ∃ x ∈ xs, r ∈ x.referenceListing := by
  simp only [mem_referenceListing]
  rw [mergeAll_eq, Buckets.mem_values_mergeAll (tidy_references htidy) (by simp)
    (fun _ _ _ _ _ _ _ _ _ hsame => eq_of_beq hsame)]
  simp

end MergeAll
end Index

namespace Analysis

variable {grammar : Grammar} {plugins : List Plugin} {disk : Disk} {files : List FileInfo}
  {done : List Outcome}

/-- The outcomes of all files, in an order in which the files may be finished. -/
def Finishes (grammar : Grammar) (plugins : List Plugin) (disk : Disk) (files : List FileInfo)
    (done : List Outcome) : Prop :=
  done.Perm (files.map (outcome grammar plugins disk))

/-- The definition is in the index of one of the files. -/
def Records (grammar : Grammar) (plugins : List Plugin) (disk : Disk) (files : List FileInfo)
    (d : Definition) : Prop :=
  ∃ info ∈ files, ∃ x, outcome grammar plugins disk info = .ok x ∧ d ∈ x.listing

/-- The reference is in the index of one of the files. -/
def Refers (grammar : Grammar) (plugins : List Plugin) (disk : Disk) (files : List FileInfo)
    (r : Reference) : Prop :=
  ∃ info ∈ files, ∃ x, outcome grammar plugins disk info = .ok x ∧ r ∈ x.referenceListing

theorem outcome_eq_ok_iff {info : FileInfo} {x : Index} :
    outcome grammar plugins disk info = .ok x ↔ ∃ bytes, disk.readBytes info.path = .ok bytes ∧
      (grammar bytes).check = .ok () ∧
      (Walk.run ⟨info.relPath, bytes⟩ plugins (grammar bytes)).index = x := by
  unfold outcome indexTree
  cases hread : disk.readBytes info.path with
  | error e => simp
  | ok bytes =>
      cases hcheck : (grammar bytes).check with
      | error fault => simp [hcheck, bind, Except.bind]
      | ok u => simp [hcheck, bind, Except.bind, pure, Except.pure]

theorem path_of_outcome_eq_error {info : FileInfo} {s : Skipped}
    (h : outcome grammar plugins disk info = .error s) : s.path = info.relPath := by
  unfold outcome at h
  split at h
  · cases h
    rfl
  · split at h
    · cases h
    · cases h
      rfl

theorem outcome_congr {a b : FileInfo} (hrel : a.relPath = b.relPath) (hpath : a.path = b.path) :
    outcome grammar plugins disk a = outcome grammar plugins disk b := by
  simp only [outcome, hrel, hpath]

theorem tidy_of_outcome {info : FileInfo} {x : Index}
    (h : outcome grammar plugins disk info = .ok x) : x.Tidy := by
  obtain ⟨bytes, _, _, rfl⟩ := outcome_eq_ok_iff.1 h
  exact Walk.tidy_run_index _ _ _

theorem file_of_outcome {info : FileInfo} {x : Index} {d : Definition}
    (h : outcome grammar plugins disk info = .ok x) (hd : d ∈ x.definitions.values) :
    d.location.file = info.relPath := by
  obtain ⟨bytes, _, _, rfl⟩ := outcome_eq_ok_iff.1 h
  exact Walk.file_eq_of_mem_run hd

/-- Definitions of different files lie in different files, and one file is indexed in one way. -/
theorem index_eq_of_location_eq
    (hfiles : ∀ a ∈ files, ∀ b ∈ files, a.relPath = b.relPath → a.path = b.path)
    {a b : FileInfo} (ha : a ∈ files) (hb : b ∈ files) {x y : Index} {d e : Definition}
    (hx : outcome grammar plugins disk a = .ok x) (hy : outcome grammar plugins disk b = .ok y)
    (hd : d ∈ x.listing) (he : e ∈ y.listing) (hlocation : d.location = e.location) : x = y := by
  have hrel : a.relPath = b.relPath := by
    rw [← file_of_outcome hx (Index.mem_listing.1 hd), hlocation,
      file_of_outcome hy (Index.mem_listing.1 he)]
  rw [outcome_congr hrel (hfiles a ha b hb hrel), hy] at hx
  exact (Except.ok.inj hx).symm

def indexes (done : List Outcome) : List Index :=
  done.filterMap Except.toOption

def failures (done : List Outcome) : List Skipped :=
  done.filterMap fun
    | .ok _ => none
    | .error s => some s

theorem mem_indexes {x : Index} : x ∈ indexes done ↔ .ok x ∈ done := by
  unfold indexes
  rw [List.mem_filterMap]
  constructor
  · rintro ⟨o, ho, hx⟩
    cases o with
    | ok y => cases hx; exact ho
    | error s => cases hx
  · exact fun h => ⟨.ok x, h, rfl⟩

theorem mem_failures {s : Skipped} : s ∈ failures done ↔ .error s ∈ done := by
  unfold failures
  rw [List.mem_filterMap]
  constructor
  · rintro ⟨o, ho, hs⟩
    cases o with
    | ok y => cases hs
    | error t => cases hs; exact ho
  · exact fun h => ⟨.error s, h, rfl⟩

/-- Indexes are merged and failures collected, independently of each other. -/
theorem combine_eq (done : List Outcome) : combine done =
    (Index.mergeAll (indexes done),
      sortedBy (fun a b => textOrder a.path b.path) (failures done)) := by
  have hfold : ∀ start : Index × List Skipped, done.foldl take start =
      ((indexes done).foldl Index.merge start.1, start.2 ++ failures done) := by
    induction done with
    | nil => simp [indexes, failures]
    | cons o rest ih =>
        intro start
        rw [List.foldl_cons, ih]
        cases o with
        | ok x => rfl
        | error s =>
            have hindexes : indexes (.error s :: rest) = indexes rest := rfl
            have hfailures : failures (.error s :: rest) = s :: failures rest := rfl
            rw [hindexes, hfailures]
            simp [take]
  unfold combine
  rw [hfold]
  rfl

theorem indexFiles_of_nonneg {jobs : Option Int} (h : ∀ n ∈ jobs, 0 ≤ n) :
    indexFiles grammar plugins jobs disk files =
      .ok (combine (files.map (outcome grammar plugins disk))) := by
  cases jobs with
  | none => rfl
  | some n =>
      have hn : ¬ n < 0 := by
        have := h n rfl
        omega
      simp [indexFiles, checkJobs, hn, bind, Except.bind, pure, Except.pure]

namespace Finishes

variable (hdone : Finishes grammar plugins disk files done)
include hdone

theorem mem_iff {o : Outcome} :
    o ∈ done ↔ ∃ info ∈ files, outcome grammar plugins disk info = o := by
  rw [List.Perm.mem_iff hdone, List.mem_map]

theorem mem_indexes_iff {x : Index} :
    x ∈ indexes done ↔ ∃ info ∈ files, outcome grammar plugins disk info = .ok x := by
  rw [mem_indexes, mem_iff hdone]

theorem tidy_indexes : ∀ x ∈ indexes done, x.Tidy := by
  intro x hx
  obtain ⟨info, _, hout⟩ := hdone.mem_indexes_iff.1 hx
  exact tidy_of_outcome hout

theorem tidy : (combine done).1.Tidy := by
  rw [combine_eq]
  exact .mergeAll hdone.tidy_indexes

theorem mem_referenceListing {r : Reference} :
    r ∈ (combine done).1.referenceListing ↔ Refers grammar plugins disk files r := by
  rw [combine_eq, Index.mem_referenceListing_mergeAll hdone.tidy_indexes]
  constructor
  · rintro ⟨x, hx, hr⟩
    obtain ⟨info, hinfo, hout⟩ := hdone.mem_indexes_iff.1 hx
    exact ⟨info, hinfo, x, hout, hr⟩
  · rintro ⟨info, hinfo, x, hout, hr⟩
    exact ⟨x, hdone.mem_indexes_iff.2 ⟨info, hinfo, hout⟩, hr⟩

theorem records_of_mem_listing {d : Definition} (h : d ∈ (combine done).1.listing) :
    Records grammar plugins disk files d := by
  rw [combine_eq] at h
  obtain ⟨x, hx, hd⟩ := Index.of_mem_listing_mergeAll h
  obtain ⟨info, hinfo, hout⟩ := hdone.mem_indexes_iff.1 hx
  exact ⟨info, hinfo, x, hout, hd⟩

theorem exists_alike_mem_listing {d : Definition} (h : Records grammar plugins disk files d) :
    ∃ e ∈ (combine done).1.listing, e.Alike d := by
  obtain ⟨info, hinfo, x, hout, hd⟩ := h
  rw [combine_eq]
  exact Index.exists_alike_mem_listing_mergeAll hdone.tidy_indexes
    (hdone.mem_indexes_iff.2 ⟨info, hinfo, hout⟩) hd

theorem mem_listing
    (hfiles : ∀ a ∈ files, ∀ b ∈ files, a.relPath = b.relPath → a.path = b.path)
    {d : Definition} :
    d ∈ (combine done).1.listing ↔ Records grammar plugins disk files d := by
  refine ⟨hdone.records_of_mem_listing, fun hd => ?_⟩
  obtain ⟨e, he, halike⟩ := hdone.exists_alike_mem_listing hd
  obtain ⟨a, ha, x, hxa, hdx⟩ := hd
  obtain ⟨b, hb, y, hyb, hey⟩ := hdone.records_of_mem_listing he
  obtain rfl := index_eq_of_location_eq hfiles ha hb hxa hyb hdx hey halike.location_eq.symm
  rw [Index.mem_listing] at hdx hey
  rwa [← (tidy_of_outcome hyb).eq_of_alike hey hdx halike]

end Finishes
end Analysis
end Fallow
