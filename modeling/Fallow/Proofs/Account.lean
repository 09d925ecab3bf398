import Fallow.Proofs.Combine
import Fallow.Proofs.FirstFault
import Fallow.Proofs.Places
import Fallow.Snapshot
import Mathlib.Algebra.BigOperators.Group.List.Lemmas
import Mathlib.Algebra.GroupWithZero.Nat

/-!
# The account of files

Of the files of an analysis each is parsed or skipped. A parsed file has all that its own index
holds in the combined index and no complaint; a skipped file has one complaint and nothing in the
combined index. So the numbers of a report can be counted file by file.
-/

namespace Fallow

open Syntax

theorem filter_eq_singleton_of_nodup_map {α : Type} {f : α → String} {l : List α}
    (hn : (l.map f).Nodup) {a : α} (ha : a ∈ l) : l.filter (fun b => f b = f a) = [a] := by
  induction l with
  | nil => cases ha
  | cons b rest ih =>
      obtain ⟨hb, hrest⟩ := List.nodup_cons.1 hn
      rcases List.mem_cons.1 ha with rfl | ha
      · have hnone : rest.filter (fun b => f b = f a) = [] := by
          simp only [List.filter_eq_nil_iff, decide_eq_true_eq]
          exact fun c hc heq => hb (heq ▸ List.mem_map_of_mem hc)
        simp [hnone]
      · have hne : f b ≠ f a := fun heq => hb (heq ▸ List.mem_map_of_mem ha)
        simp [hne, ih hrest ha]

namespace Report

theorem pairwise_countByKind (ds : List Definition) :
    (countByKind ds).Pairwise fun a b => a.1 < b.1 :=
  List.pairwise_map.2 (pairwise_sortedBy_eraseDups _)

/-- Every kind that occurs is counted under its text. -/
theorem mem_countByKind_iff {ds : List Definition} {text : String} {n : Nat} :
    (text, n) ∈ countByKind ds ↔ ∃ kind : Definition.Kind, kind.text = text ∧ 0 < n ∧
      n = ds.countP (·.kind == kind) := by
  have hcount : ∀ kind : Definition.Kind,
      ds.countP (·.kind.text == kind.text) = ds.countP (·.kind == kind) := by
    intro kind
    refine List.countP_congr fun d _ => ?_
    rw [beq_iff_eq, beq_iff_eq]
    exact ⟨Definition.Kind.text_injective, congrArg _⟩
  simp only [countByKind, List.mem_map, mem_sortedBy, List.mem_eraseDups, Prod.mk.injEq]
  constructor
  · rintro ⟨_, ⟨d, hd, rfl⟩, rfl, rfl⟩
    refine ⟨d.kind, rfl, ?_, hcount d.kind⟩
    rw [hcount, List.countP_pos_iff]
    exact ⟨d, hd, beq_self_eq_true _⟩
  · rintro ⟨kind, rfl, hpos, rfl⟩
    obtain ⟨d, hd, hkind⟩ := List.countP_pos_iff.1 hpos
    exact ⟨_, ⟨d, hd, congrArg _ (eq_of_beq hkind)⟩, rfl, hcount kind⟩

theorem sum_countByKind (ds : List Definition) :
    ((countByKind ds).map (·.2)).sum = ds.length := by
  let texts := ds.map (·.kind.text)
  let kinds := sortedBy textOrder texts.eraseDups
  have hcount : ∀ kind, ds.countP (·.kind.text == kind) = texts.count kind := by
    intro kind
    simp [texts, List.count_eq_countP, List.countP_map, Function.comp_def]
  have hdedup : kinds.Perm texts.dedup := by
    have hkinds : kinds.Nodup := (perm_sortedBy _ _).nodup_iff.2 nodup_eraseDups
    rw [List.perm_ext_iff_of_nodup hkinds (List.nodup_dedup texts)]
    intro kind
    rw [mem_sortedBy, List.mem_eraseDups, List.mem_dedup]
  calc ((countByKind ds).map (·.2)).sum
      = (kinds.map fun kind => texts.count kind).sum := by
        simp [countByKind, hcount, kinds, texts, Function.comp_def]
    _ = (texts.dedup.map fun kind => texts.count kind).sum := (hdedup.map _).sum_eq
    _ = ds.length := by rw [List.sum_map_count_dedup_eq_length, List.length_map]

end Report

/-- The references of a file lie in that file. -/
theorem Walk.file_eq_of_mem_referenceListing_run {src : Source} {plugins : List Plugin}
    {root : Node} {r : Reference} (h : r ∈ (Walk.run src plugins root).index.referenceListing) :
    r.location.file = src.path := by
  obtain ⟨site, _, hlocation⟩ := Walk.exists_site_of_mem_referenceListing_run h
  rw [hlocation]
  rfl

namespace Analysis

variable {grammar : Grammar} {plugins : List Plugin} {disk : Disk} {files : List FileInfo}
  {done : List Outcome} {info : FileInfo} {bytes : List UInt8}

/-- The bytes of a file that can be read and whose tree has no fault. -/
def parsed? (grammar : Grammar) (disk : Disk) (info : FileInfo) : Option (List UInt8) :=
  match disk.readBytes info.path with
  | .error _ => none
  | .ok bytes =>
    match (grammar bytes).check with
    | .error _ => none
    | .ok () => some bytes

/-- The index that a file gives for itself. -/
def ownIndex (grammar : Grammar) (plugins : List Plugin) (info : FileInfo) (bytes : List UInt8) :
    Index :=
  (Walk.run ⟨info.relPath, bytes⟩ plugins (grammar bytes)).index

/-- What is said about a file that cannot be read or cannot be parsed. -/
inductive Complaint (grammar : Grammar) (disk : Disk) (info : FileInfo) : String → Prop
  | unreadable {e : Disk.Error} (h : disk.readBytes info.path = .error e) :
    Complaint grammar disk info (e.message (Text.quoted info.path.text))
  | unparsable {bytes : List UInt8} {line column : Nat} (h : disk.readBytes info.path = .ok bytes)
    (hcheck : (grammar bytes).check = .error (.located line column)) :
    Complaint grammar disk info
      ("syntax error at line " ++ toString line ++ ", column " ++ toString column)
  | unlocated {bytes : List UInt8} (h : disk.readBytes info.path = .ok bytes)
    (hcheck : (grammar bytes).check = .error .unlocated) :
    Complaint grammar disk info "syntax error"

theorem complaint_of_check {fault : Fault} (h : disk.readBytes info.path = .ok bytes)
    (hcheck : (grammar bytes).check = .error fault) :
    Complaint grammar disk info fault.message := by
  cases fault with
  | located line column =>
      rw [Fault.message_located]
      exact .unparsable h hcheck
  | unlocated => exact .unlocated h hcheck

theorem outcome_of_parsed (h : parsed? grammar disk info = some bytes) :
    outcome grammar plugins disk info = .ok (ownIndex grammar plugins info bytes) := by
  unfold parsed? at h
  split at h
  · cases h
  · rename_i bytes' hread
    split at h
    · cases h
    · rename_i hcheck
      cases h
      exact outcome_eq_ok_iff.2 ⟨bytes, hread, hcheck, rfl⟩

theorem outcome_of_not_parsed (plugins : List Plugin) (h : parsed? grammar disk info = none) :
    ∃ message, Complaint grammar disk info message ∧
      outcome grammar plugins disk info = .error ⟨info.relPath, message⟩ := by
  unfold parsed? at h
  split at h
  · rename_i e hread
    refine ⟨_, .unreadable hread, ?_⟩
    simp only [outcome, hread]
  · rename_i bytes hread
    split at h
    · rename_i fault hcheck
      refine ⟨_, complaint_of_check hread hcheck, ?_⟩
      simp [outcome, hread, indexTree, hcheck, bind, Except.bind]
    · cases h

theorem outcome_eq_ok_iff_parsed {x : Index} : outcome grammar plugins disk info = .ok x ↔
    ∃ bytes, parsed? grammar disk info = some bytes ∧ ownIndex grammar plugins info bytes = x := by
  cases hp : parsed? grammar disk info with
  | none =>
      obtain ⟨message, _, hout⟩ := outcome_of_not_parsed plugins hp
      simp [hout]
  | some bytes => simp [outcome_of_parsed hp]

/-- The complaint about a file, if there is one. -/
def complaint? (grammar : Grammar) (plugins : List Plugin) (disk : Disk) (info : FileInfo) :
    Option Skipped :=
  match outcome grammar plugins disk info with
  | .ok _ => none
  | .error t => some t

theorem complaint?_eq_some_iff {t : Skipped} : complaint? grammar plugins disk info = some t ↔
    outcome grammar plugins disk info = .error t := by
  unfold complaint?
  cases outcome grammar plugins disk info <;> simp

theorem isSome_complaint? : (complaint? grammar plugins disk info).isSome =
    (parsed? grammar disk info).isNone := by
  cases hp : parsed? grammar disk info with
  | none =>
      obtain ⟨message, _, hout⟩ := outcome_of_not_parsed plugins hp
      rw [complaint?_eq_some_iff.2 hout]
      rfl
  | some bytes =>
      rw [complaint?, outcome_of_parsed hp]
      rfl

/-- The definitions that a file gives for itself, none if it is skipped. -/
def ownDefinitions (grammar : Grammar) (plugins : List Plugin) (disk : Disk) (info : FileInfo) :
    List Definition :=
  match parsed? grammar disk info with
  | some bytes => (ownIndex grammar plugins info bytes).definitions.values
  | none => []

/-- How many definitions are listed in the index that a file gives for itself. -/
def ownCount (grammar : Grammar) (plugins : List Plugin) (disk : Disk) (info : FileInfo) : Nat :=
  match parsed? grammar disk info with
  | some bytes => (ownIndex grammar plugins info bytes).listing.length
  | none => 0

theorem file_of_mem_ownDefinitions {d : Definition}
    (h : d ∈ ownDefinitions grammar plugins disk info) : d.location.file = info.relPath := by
  unfold ownDefinitions at h
  split at h
  · exact Walk.file_eq_of_mem_run h
  · cases h

theorem nodup_ownDefinitions : (ownDefinitions grammar plugins disk info).Nodup := by
  unfold ownDefinitions
  split
  · exact (Walk.tidy_run_index _ _ _).definitions.nodup_values Definition.same_refl
  · exact List.nodup_nil

theorem records_iff {d : Definition} : Records grammar plugins disk files d ↔
    ∃ info ∈ files, d ∈ ownDefinitions grammar plugins disk info := by
  unfold Records ownDefinitions
  constructor
  · rintro ⟨info, hinfo, x, hout, hd⟩
    obtain ⟨bytes, hp, rfl⟩ := outcome_eq_ok_iff_parsed.1 hout
    refine ⟨info, hinfo, ?_⟩
    rw [hp]
    exact Index.mem_listing.1 hd
  · rintro ⟨info, hinfo, hd⟩
    split at hd
    · rename_i bytes hp
      exact ⟨info, hinfo, _, outcome_of_parsed hp, Index.mem_listing.2 hd⟩
    · cases hd

theorem eq_of_relPath_eq (hfiles : (files.map (·.relPath)).Nodup) {a b : FileInfo} (ha : a ∈ files)
    (hb : b ∈ files) (h : a.relPath = b.relPath) : a = b :=
  List.inj_on_of_nodup_map hfiles ha hb h

namespace Finishes

variable (hfiles : (files.map (·.relPath)).Nodup) (hdone : Finishes grammar plugins disk files done)
include hfiles hdone

/-- The combined index holds the definitions of the files, laid end to end. -/
theorem perm_ownDefinitions : (combine done).1.definitions.values.Perm
    (files.flatMap (ownDefinitions grammar plugins disk)) := by
  have hapart : (files.flatMap (ownDefinitions grammar plugins disk)).Nodup := by
    refine List.nodup_flatMap.2 ⟨fun _ _ => nodup_ownDefinitions, ?_⟩
    refine (List.pairwise_map.1 hfiles).imp fun hne d hd hd' => hne ?_
    rw [← file_of_mem_ownDefinitions hd, file_of_mem_ownDefinitions hd']
  rw [List.perm_ext_iff_of_nodup (hdone.tidy.definitions.nodup_values Definition.same_refl) hapart]
  intro d
  rw [← Index.mem_listing, hdone.mem_listing, records_iff, List.mem_flatMap]
  intro a ha b hb h
  rw [eq_of_relPath_eq hfiles ha hb h]

theorem mem_listing_iff (hinfo : info ∈ files) {d : Definition} :
    d ∈ (combine done).1.listing ∧ d.location.file = info.relPath ↔
      d ∈ ownDefinitions grammar plugins disk info := by
  rw [Index.mem_listing, (hdone.perm_ownDefinitions hfiles).mem_iff, List.mem_flatMap]
  constructor
  · rintro ⟨⟨other, hother, hd⟩, hfile⟩
    have hrel : other.relPath = info.relPath := by
      rw [← hfile, file_of_mem_ownDefinitions hd]
    rwa [← eq_of_relPath_eq hfiles hother hinfo hrel]
  · exact fun hd => ⟨⟨info, hinfo, hd⟩, file_of_mem_ownDefinitions hd⟩

theorem mem_referenceListing_iff (hinfo : info ∈ files) {r : Reference} :
    r ∈ (combine done).1.referenceListing ∧ r.location.file = info.relPath ↔
      ∃ bytes, parsed? grammar disk info = some bytes ∧
        r ∈ (ownIndex grammar plugins info bytes).referenceListing := by
  rw [hdone.mem_referenceListing, Refers]
  constructor
  · rintro ⟨⟨other, hother, x, hout, hr⟩, hfile⟩
    obtain ⟨bytes, hp, rfl⟩ := outcome_eq_ok_iff_parsed.1 hout
    have hrel : other.relPath = info.relPath := by
      rw [← hfile, Walk.file_eq_of_mem_referenceListing_run hr]
    obtain rfl := eq_of_relPath_eq hfiles hother hinfo hrel
    exact ⟨bytes, hp, hr⟩
  · rintro ⟨bytes, hp, hr⟩
    exact ⟨⟨info, hinfo, _, outcome_of_parsed hp, hr⟩,
      Walk.file_eq_of_mem_referenceListing_run hr⟩

omit hfiles in
theorem perm_complaints : (combine done).2.Perm
    (files.filterMap (complaint? grammar plugins disk)) := by
  have hfailures : failures (files.map (outcome grammar plugins disk)) =
      files.filterMap (complaint? grammar plugins disk) := by
    rw [failures, List.filterMap_map]
    rfl
  rw [combine_eq, ← hfailures]
  exact (perm_sortedBy _ _).trans (List.Perm.filterMap _ hdone)

omit hfiles in
theorem mem_skipped_iff {t : Skipped} : t ∈ (combine done).2 ↔
    ∃ info ∈ files, outcome grammar plugins disk info = .error t := by
  simp only [hdone.perm_complaints.mem_iff, List.mem_filterMap, complaint?_eq_some_iff]

omit hfiles in
theorem length_skipped : (combine done).2.length =
    files.countP fun info => (parsed? grammar disk info).isNone := by
  rw [hdone.perm_complaints.length_eq, List.length_filterMap_eq_countP]
  simp only [isSome_complaint?]

theorem nodup_paths : ((combine done).2.map (·.path)).Nodup := by
  rw [(hdone.perm_complaints.map _).nodup_iff]
  apply List.pairwise_map.2
  apply List.pairwise_filterMap.2
  apply (List.pairwise_map.1 hfiles).imp
  intro a b hne s hs t ht
  rw [complaint?_eq_some_iff] at hs ht
  rwa [path_of_outcome_eq_error hs, path_of_outcome_eq_error ht]

/-- A file that is skipped has one complaint. -/
theorem filter_skipped_eq (hinfo : info ∈ files) {t : Skipped}
    (h : outcome grammar plugins disk info = .error t) :
    (combine done).2.filter (fun c => c.path = info.relPath) = [t] := by
  have ht : t ∈ (combine done).2 := hdone.mem_skipped_iff.2 ⟨info, hinfo, h⟩
  rw [← path_of_outcome_eq_error h]
  exact filter_eq_singleton_of_nodup_map (hdone.nodup_paths hfiles) ht

/-- A file that is parsed has none. -/
theorem path_ne_of_parsed (hinfo : info ∈ files) (h : parsed? grammar disk info = some bytes) :
    ∀ t ∈ (combine done).2, t.path ≠ info.relPath := by
  intro t ht heq
  obtain ⟨other, hother, hout⟩ := hdone.mem_skipped_iff.1 ht
  have hrel : other.relPath = info.relPath := by rw [← path_of_outcome_eq_error hout, heq]
  rw [eq_of_relPath_eq hfiles hother hinfo hrel, outcome_of_parsed h] at hout
  cases hout

theorem pairwise_skipped : (combine done).2.Pairwise fun a b => a.path < b.path := by
  have htrans := transCmp_on Skipped.path textOrder
  have hsorted : (combine done).2.Pairwise fun a b => (textOrder a.path b.path).isLE := by
    rw [combine_eq]
    exact pairwise_sortedBy _
  exact (hsorted.and (List.pairwise_map.1 (hdone.nodup_paths hfiles))).imp
    fun h => lt_of_isLE_textOrder h.1 h.2

theorem size_combine : (combine done).1.size =
    (files.map (ownCount grammar plugins disk)).sum := by
  have hown : ∀ info, (ownDefinitions grammar plugins disk info).length =
      ownCount grammar plugins disk info := by
    intro info
    unfold ownDefinitions ownCount
    split
    · exact (perm_sortedBy _ _).length_eq.symm
    · rfl
  rw [Index.size, Buckets.size, (hdone.perm_ownDefinitions hfiles).length_eq, List.length_flatMap]
  simp only [hown]

end Finishes

/-- What becomes of one file in a result. -/
structure Accounts (grammar : Grammar) (plugins : List Plugin) (disk : Disk)
    (result : Index × List Skipped) (info : FileInfo) : Prop where
  skipped : parsed? grammar disk info = none → ∃ message, Complaint grammar disk info message ∧
    result.2.filter (fun t => t.path = info.relPath) = [⟨info.relPath, message⟩] ∧
    (∀ d ∈ result.1.listing, d.location.file ≠ info.relPath) ∧
    ∀ r ∈ result.1.referenceListing, r.location.file ≠ info.relPath
  parsed : ∀ bytes, parsed? grammar disk info = some bytes →
    (∀ t ∈ result.2, t.path ≠ info.relPath) ∧
    (∀ d, d ∈ result.1.listing ∧ d.location.file = info.relPath ↔
      d ∈ (ownIndex grammar plugins info bytes).listing) ∧
    ∀ r, r ∈ result.1.referenceListing ∧ r.location.file = info.relPath ↔
      r ∈ (ownIndex grammar plugins info bytes).referenceListing

/-- The numbers of a report are those of the files and of the unused definitions. -/
structure Tallies (grammar : Grammar) (plugins : List Plugin) (disk : Disk)
    (files : List FileInfo) (r : Report) : Prop where
  total : r.summary.lookup "total_files" = some (.int files.length)
  indexed : r.summary.lookup "indexed_files" =
    some (.int (files.countP fun info => (parsed? grammar disk info).isSome))
  failed : r.summary.lookup "failed_files" =
    some (.int (files.countP fun info => (parsed? grammar disk info).isNone))
  shares : files.length = (files.countP fun info => (parsed? grammar disk info).isSome) +
    files.countP fun info => (parsed? grammar disk info).isNone
  definitions : r.summary.lookup "definitions" =
    some (.int ((files.map (ownCount grammar plugins disk)).sum : Nat))
  unused : r.summary.lookup "dead" = some (.int r.unused.length)
  kinds : ∃ counts : List (String × Nat),
    r.summary.lookup "by_kind" = some (.obj (counts.map fun (kind, n) => (kind, .int n))) ∧
    counts.Pairwise (fun a b => a.1 < b.1) ∧
    (∀ text n, (text, n) ∈ counts ↔ ∃ kind : Definition.Kind, kind.text = text ∧ 0 < n ∧
      n = r.unused.countP (·.kind == kind)) ∧
    (counts.map (·.2)).sum = r.unused.length

/-- The report on files that were finished in some order. -/
def reportOn (plugins : List Plugin) (root generatedAt : String) (files : List FileInfo)
    (done : List Outcome) : Except Verdict.Error Report :=
  match (combine done).1.unused with
  | .error e => .error e
  | .ok unused => .ok {
      root
      generatedAt
      unused
      skipped := (combine done).2
      summary := summary plugins files.length (combine done).1 (combine done).2 unused }

theorem reportOn_of_run {jobs : Option Int} {root : Path} {generatedAt : String}
    {includes excludes : List String} {r : Report}
    (h : run grammar plugins jobs disk root generatedAt includes excludes = .ok r) :
    reportOn plugins root.text generatedAt (Collect.files disk root includes excludes)
      ((Collect.files disk root includes excludes).map (outcome grammar plugins disk)) = .ok r := by
  unfold run indexFiles at h
  cases hjobs : checkJobs jobs with
  | error e => simp [hjobs, bind, Except.bind] at h
  | ok u =>
      simp only [hjobs, bind, Except.bind, pure, Except.pure] at h
      cases hunused : (combine ((Collect.files disk root includes excludes).map
          (outcome grammar plugins disk))).1.unused with
      | error e =>
          rw [hunused] at h
          cases h
      | ok unused =>
          rw [hunused] at h
          cases h
          rw [reportOn, hunused]

theorem Finishes.tallies (hfiles : (files.map (·.relPath)).Nodup)
    (hdone : Finishes grammar plugins disk files done) {root generatedAt : String} {r : Report}
    (h : reportOn plugins root generatedAt files done = .ok r) :
    Tallies grammar plugins disk files r := by
  unfold reportOn at h
  split at h
  · cases h
  rename_i unused hunused
  cases h
  have hshares : files.length = (files.countP fun info => (parsed? grammar disk info).isSome) +
      files.countP fun info => (parsed? grammar disk info).isNone := by
    rw [List.length_eq_countP_add_countP fun info => (parsed? grammar disk info).isSome]
    simp only [Bool.not_eq_true, Option.isSome_eq_false_iff, Bool.decide_eq_true]
  have hindexed : (files.length - (combine done).2.length : Int) =
      (files.countP fun info => (parsed? grammar disk info).isSome : Nat) := by
    rw [hdone.length_skipped]
    omega
  exact {
    total := rfl
    indexed := congrArg (some ∘ Json.int) hindexed
    failed := congrArg (fun n : Nat => some (Json.int n)) hdone.length_skipped
    shares := hshares
    definitions := congrArg (fun n : Nat => some (Json.int n)) (hdone.size_combine hfiles)
    unused := rfl
    kinds := ⟨Report.countByKind unused, rfl, Report.pairwise_countByKind unused,
      fun text n => Report.mem_countByKind_iff, Report.sum_countByKind unused⟩ }

/-- Every file is accounted for once, in whatever order the files are finished: it is parsed, and
the result holds its records and no complaint about it, or it is skipped, and the result holds
one complaint about it and nothing else. The numbers of a report say the same. -/
theorem files_accounted (grammar : Grammar) (plugins : List Plugin) (disk : Disk)
    (files : List FileInfo) (hfiles : (files.map (·.relPath)).Nodup) (done : List Outcome)
    (hdone : Finishes grammar plugins disk files done) :
    (∀ info ∈ files, Accounts grammar plugins disk (combine done) info) ∧
      (∀ t ∈ (combine done).2, ∃ info ∈ files, t.path = info.relPath) ∧
      ((combine done).2.Pairwise fun a b => a.path < b.path) ∧
      (∀ root generatedAt r, reportOn plugins root generatedAt files done = .ok r →
        Tallies grammar plugins disk files r) ∧
      ∀ jobs root generatedAt includes excludes r,
        Collect.files disk root includes excludes = files →
        run grammar plugins jobs disk root generatedAt includes excludes = .ok r →
        Tallies grammar plugins disk files r := by
  refine ⟨fun info hinfo => ⟨fun hp => ?_, fun bytes hp => ?_⟩, ?_, hdone.pairwise_skipped hfiles,
    fun root generatedAt r hr => hdone.tallies hfiles hr, ?_⟩
  · obtain ⟨message, hmessage, hout⟩ := outcome_of_not_parsed plugins hp
    refine ⟨message, hmessage, hdone.filter_skipped_eq hfiles hinfo hout, fun d hd hfile => ?_,
      fun r hr hfile => ?_⟩
    · have hown := (hdone.mem_listing_iff hfiles hinfo).1 ⟨hd, hfile⟩
      rw [ownDefinitions, hp] at hown
      cases hown
    · obtain ⟨bytes, hsome, _⟩ := (hdone.mem_referenceListing_iff hfiles hinfo).1 ⟨hr, hfile⟩
      rw [hp] at hsome
      cases hsome
  · refine ⟨hdone.path_ne_of_parsed hfiles hinfo hp, fun d => ?_, fun r => ?_⟩
    · rw [hdone.mem_listing_iff hfiles hinfo, ownDefinitions, hp]
      exact Index.mem_listing.symm
    · rw [hdone.mem_referenceListing_iff hfiles hinfo, hp]
      simp
  · intro t ht
    obtain ⟨info, hinfo, hout⟩ := hdone.mem_skipped_iff.1 ht
    exact ⟨info, hinfo, path_of_outcome_eq_error hout⟩
  · rintro jobs root generatedAt includes excludes r rfl hrun
    exact Finishes.tallies hfiles (List.Perm.refl _) (reportOn_of_run hrun)

/-- The tree of `class A; end` and that of a lone `def`. -/
def soundAndBroken : Grammar :=
  Snapshot.grammarOf
    [(Utf8.encode "class A; end\n",
        .mk (.other "program") ⟨0, 13, ⟨0, 0⟩, ⟨1, 0⟩⟩ ⟨true, false, false⟩ []
          [.mk .classDecl ⟨0, 12, ⟨0, 0⟩, ⟨0, 12⟩⟩ ⟨true, false, false⟩ [(.name, 0)]
            [.mk .constant ⟨6, 7, ⟨0, 6⟩, ⟨0, 7⟩⟩ ⟨true, false, false⟩ [] []]]),
      (Utf8.encode "def\n",
        .mk (.other "program") ⟨0, 4, ⟨0, 0⟩, ⟨1, 0⟩⟩ ⟨true, false, true⟩ []
          [.mk .error ⟨0, 3, ⟨0, 0⟩, ⟨0, 3⟩⟩ ⟨true, false, true⟩ [] []])]

def soundAndBrokenDisk : Disk :=
  ⟨[("a.rb", .file (Utf8.encode "class A; end\n")), ("b.rb", .file (Utf8.encode "def\n")),
    ("d.rb", .dir [])]⟩

/-- A file that is sound, one that is broken, one that is not there, and a directory. -/
def mixedFiles : List FileInfo :=
  [⟨⟨"/", ["c.rb"]⟩, "c.rb", 0, ".rb"⟩, ⟨⟨"/", ["b.rb"]⟩, "b.rb", 4, ".rb"⟩,
    ⟨⟨"/", ["d.rb"]⟩, "d.rb", 0, ".rb"⟩, ⟨⟨"/", ["a.rb"]⟩, "a.rb", 13, ".rb"⟩]

def mixedDone : List Outcome :=
  (mixedFiles.map (outcome soundAndBroken [.ruby] soundAndBrokenDisk)).reverse

theorem files_accounted_mixed :
    (mixedFiles.map (·.relPath)).Nodup ∧
      mixedFiles.map (fun info => (parsed? soundAndBroken soundAndBrokenDisk info).isSome) =
        [false, false, false, true] ∧
      (∀ info ∈ mixedFiles,
        Accounts soundAndBroken [.ruby] soundAndBrokenDisk (combine mixedDone) info) ∧
      ∀ root generatedAt r, reportOn [.ruby] root generatedAt mixedFiles mixedDone = .ok r →
        Tallies soundAndBroken [.ruby] soundAndBrokenDisk mixedFiles r := by
  have hfiles : (mixedFiles.map (·.relPath)).Nodup := by decide
  have haccount := files_accounted soundAndBroken [.ruby] soundAndBrokenDisk mixedFiles hfiles
    mixedDone (List.reverse_perm _)
  exact ⟨hfiles, by decide, haccount.1, haccount.2.2.2.1⟩

end Analysis
end Fallow
