import Fallow.Proofs.Combine

/-!
# Verdicts

The verdict on an analysis names exactly the definitions that some file records, that are not
ignored there and whose bare names no file refers to, each of them once and in order. There is no
verdict when a recorded definition that is not ignored has no bare name.
-/

namespace Fallow

namespace Definition

/-- By location, then by full name, then by kind. -/
def compareReport (a b : Definition) : Ordering :=
  (a.location.compare b.location).then <|
    (textOrder a.fullName b.fullName).then (textOrder a.kind.text b.kind.text)

/-- The order of listings settles what the order of verdicts leaves open. -/
theorem isLE_compareReport {a b : Definition} (hplace : (a.comparePlace b).isLE)
    (htie : a.comparePlace b = .eq → (a.compare b).isLE) : (a.compareReport b).isLE := by
  unfold comparePlace at hplace htie
  unfold Definition.compare at htie
  unfold compareReport
  revert hplace htie
  cases a.location.compare b.location <;> cases textOrder a.fullName b.fullName <;>
    cases textOrder a.kind.text b.kind.text <;> simp

end Definition

namespace Index

variable {x : Index}

/-- Whether a definition is neither ignored nor in use. -/
def isUnused (x : Index) (d : Definition) : Bool :=
  !d.ignored && !x.isReferenced d.name

/-- The first nameless definition that is not ignored stops the search. -/
theorem unusedAmong_eq (ds : List Definition) : x.unusedAmong ds =
    match ds.find? fun d => !d.ignored && d.name = "" with
    | some d => .error (.nameless d)
    | none => .ok (ds.filter x.isUnused) := by
  induction ds with
  | nil => rfl
  | cons d rest ih =>
      rw [unusedAmong, ih]
      by_cases hignored : d.ignored = true
      · simp [hignored, isUnused]
      · by_cases hname : d.name = ""
        · simp [hignored, hname, isUsed, bind, Except.bind]
        · cases hfind : rest.find? fun d => !d.ignored && d.name = "" with
          | some e => simp [hignored, hname, isUsed, hfind, bind, Except.bind]
          | none =>
              cases href : x.isReferenced d.name <;>
                simp [hignored, hname, isUsed, hfind, href, isUnused, bind, Except.bind, pure,
                  Except.pure]

theorem unused_eq : x.unused =
    match x.listing.find? fun d => !d.ignored && d.name = "" with
    | some d => .error (.nameless d)
    | none => .ok (sortedBy Definition.comparePlace (x.listing.filter x.isUnused)) := by
  rw [unused, unusedAmong_eq]
  split <;> rfl

theorem exists_unused_eq_error_iff : (∃ e, x.unused = .error e) ↔
    ∃ d ∈ x.listing, d.ignored = false ∧ d.name = "" := by
  rw [unused_eq]
  constructor
  · rintro ⟨e, he⟩
    split at he
    · rename_i d hfind
      have hd := List.find?_some hfind
      exact ⟨d, List.mem_of_find?_eq_some hfind, by simpa using hd⟩
    · cases he
  · rintro ⟨d, hd, hignored, hname⟩
    split
    · exact ⟨_, rfl⟩
    · rename_i hfind
      have := List.find?_eq_none.1 hfind d hd
      simp [hignored, hname] at this

theorem exists_unused_eq_ok (h : ∀ d ∈ x.listing, d.name ≠ "") : ∃ l, x.unused = .ok l := by
  cases hu : x.unused with
  | ok l => exact ⟨l, rfl⟩
  | error e =>
      obtain ⟨d, hd, _, hname⟩ := exists_unused_eq_error_iff.1 ⟨e, hu⟩
      exact absurd hname (h d hd)

theorem eq_of_unused_eq_ok {l : List Definition} (h : x.unused = .ok l) :
    l = sortedBy Definition.comparePlace (x.listing.filter x.isUnused) := by
  rw [unused_eq] at h
  split at h
  · cases h
  · exact (Except.ok.inj h).symm

theorem Tidy.isUnused_iff (h : x.Tidy) {d : Definition} : x.isUnused d = true ↔
    d.ignored = false ∧ ∀ r ∈ x.referenceListing, r.name ≠ d.name := by
  rw [isUnused, Bool.and_eq_true, Bool.not_eq_true', Bool.not_eq_true',
    ← Bool.not_eq_true (x.isReferenced _), h.isReferenced_iff]
  simp only [not_exists, not_and]

theorem Tidy.mem_unused_iff (h : x.Tidy) {l : List Definition} (hl : x.unused = .ok l)
    {d : Definition} : d ∈ l ↔
      d ∈ x.listing ∧ d.ignored = false ∧ ∀ r ∈ x.referenceListing, r.name ≠ d.name := by
  rw [eq_of_unused_eq_ok hl, mem_sortedBy, List.mem_filter, h.isUnused_iff]

/-- The second sort keeps the order of kinds that the first one made. -/
theorem Tidy.pairwise_compareReport (h : x.Tidy) (p : Definition → Bool) :
    (sortedBy Definition.comparePlace (x.listing.filter p)).Pairwise
      fun a b => (a.compareReport b).isLE := by
  have hnodup : (x.listing.filter p).Nodup := h.nodup_listing.filter p
  have hlisting : (x.listing.filter p).Pairwise fun a b => (a.compare b).isLE :=
    (pairwise_sortedBy _).filter p
  apply (pairwise_sortedBy_of_nodup hnodup hlisting).imp
  intro a b hab
  exact Definition.isLE_compareReport hab.1 hab.2

end Index

namespace Analysis

namespace Finishes

variable {grammar : Grammar} {plugins : List Plugin} {disk : Disk} {files : List FileInfo}
  {done : List Outcome} (hdone : Finishes grammar plugins disk files done)
include hdone

variable (hfiles : ∀ a ∈ files, ∀ b ∈ files, a.relPath = b.relPath → a.path = b.path)
include hfiles

theorem exists_error_iff : (∃ e, (combine done).1.unused = .error e) ↔
    ∃ d, Records grammar plugins disk files d ∧ d.ignored = false ∧ d.name = "" := by
  rw [Index.exists_unused_eq_error_iff]
  simp only [hdone.mem_listing hfiles]

theorem mem_unused_iff {l : List Definition} (hl : (combine done).1.unused = .ok l)
    {d : Definition} : d ∈ l ↔ Records grammar plugins disk files d ∧ d.ignored = false ∧
      ∀ r, Refers grammar plugins disk files r → r.name ≠ d.name := by
  rw [hdone.tidy.mem_unused_iff hl, hdone.mem_listing hfiles]
  simp only [hdone.mem_referenceListing]

end Finishes

/-- The verdict names what is recorded, not ignored and nowhere referred to, once and in order; it
fails exactly on a recorded definition without a name that is not ignored. -/
theorem unused_of_indexFiles (grammar : Grammar) (plugins : List Plugin) (jobs : Option Int)
    (disk : Disk) (files : List FileInfo) (hjobs : ∀ n ∈ jobs, 0 ≤ n)
    (hfiles : (files.map (·.relPath)).Nodup) :
    ∃ x skipped, indexFiles grammar plugins jobs disk files = .ok (x, skipped) ∧
      ((∃ e, x.unused = .error e) ↔
        ∃ d, Records grammar plugins disk files d ∧ d.ignored = false ∧ d.name = "") ∧
      ∀ l, x.unused = .ok l →
        (∀ d, d ∈ l ↔ Records grammar plugins disk files d ∧ d.ignored = false ∧
          ∀ r, Refers grammar plugins disk files r → r.name ≠ d.name) ∧
        l.Nodup ∧ l.Pairwise fun a b => (a.compareReport b).isLE := by
  have hpath : ∀ a ∈ files, ∀ b ∈ files, a.relPath = b.relPath → a.path = b.path := by
    intro a ha b hb hrel
    rw [List.inj_on_of_nodup_map hfiles ha hb hrel]
  have hdone : Finishes grammar plugins disk files (files.map (outcome grammar plugins disk)) :=
    List.Perm.refl _
  refine ⟨(combine (files.map (outcome grammar plugins disk))).1, _, indexFiles_of_nonneg hjobs,
    hdone.exists_error_iff hpath, fun l hl => ⟨fun d => hdone.mem_unused_iff hpath hl, ?_⟩⟩
  have htidy := hdone.tidy
  rw [Index.eq_of_unused_eq_ok hl]
  exact ⟨(perm_sortedBy _ _).nodup_iff.2 (htidy.nodup_listing.filter _),
    htidy.pairwise_compareReport _⟩

/-- A controller with a public and a private method of one name. -/
def controller : List UInt8 :=
  Utf8.encode "class XController\n  def a; end\n  private\n  def a; end\nend\n"

def controllerTree : Syntax.Node :=
  .mk (.other "program") ⟨0, 58, ⟨0, 0⟩, ⟨5, 0⟩⟩ ⟨true, false, false⟩ []
    [.mk .classDecl ⟨0, 57, ⟨0, 0⟩, ⟨4, 3⟩⟩ ⟨true, false, false⟩ [(.name, 0)]
      [.mk .constant ⟨6, 17, ⟨0, 6⟩, ⟨0, 17⟩⟩ ⟨true, false, false⟩ [] [],
        .mk (.other "body_statement") ⟨20, 53, ⟨1, 2⟩, ⟨3, 12⟩⟩ ⟨true, false, false⟩ []
          [.mk .methodDecl ⟨20, 30, ⟨1, 2⟩, ⟨1, 12⟩⟩ ⟨true, false, false⟩ [(.name, 0)]
              [.mk .identifier ⟨24, 25, ⟨1, 6⟩, ⟨1, 7⟩⟩ ⟨true, false, false⟩ [] []],
            .mk .identifier ⟨33, 40, ⟨2, 2⟩, ⟨2, 9⟩⟩ ⟨true, false, false⟩ [] [],
            .mk .methodDecl ⟨43, 53, ⟨3, 2⟩, ⟨3, 12⟩⟩ ⟨true, false, false⟩ [(.name, 0)]
              [.mk .identifier ⟨47, 48, ⟨3, 6⟩, ⟨3, 7⟩⟩ ⟨true, false, false⟩ [] []]]]]

/-- The controller in two files, and a file that is not there. -/
def controllerFiles : List FileInfo :=
  [⟨⟨"/", ["b.rb"]⟩, "b.rb", 58, ".rb"⟩, ⟨⟨"/", ["a.rb"]⟩, "a.rb", 58, ".rb"⟩,
    ⟨⟨"/", ["c.rb"]⟩, "c.rb", 0, ".rb"⟩]

def controllerDisk : Disk :=
  ⟨[("a.rb", .file controller), ("b.rb", .file controller)]⟩

theorem unused_of_indexFiles_controllers :
    (controllerFiles.map (·.relPath)).Nodup ∧
      ∃ x skipped, indexFiles (fun _ => controllerTree) [.ruby, .actionPack] (some 2)
        controllerDisk controllerFiles = .ok (x, skipped) ∧
      ((∃ e, x.unused = .error e) ↔
        ∃ d, Records (fun _ => controllerTree) [.ruby, .actionPack] controllerDisk
          controllerFiles d ∧ d.ignored = false ∧ d.name = "") ∧
      ∀ l, x.unused = .ok l →
        (∀ d, d ∈ l ↔ Records (fun _ => controllerTree) [.ruby, .actionPack] controllerDisk
          controllerFiles d ∧ d.ignored = false ∧
          ∀ r, Refers (fun _ => controllerTree) [.ruby, .actionPack] controllerDisk
            controllerFiles r → r.name ≠ d.name) ∧
        l.Nodup ∧ l.Pairwise fun a b => (a.compareReport b).isLE := by
  have hfiles : (controllerFiles.map (·.relPath)).Nodup := by decide
  exact ⟨hfiles, unused_of_indexFiles (fun _ => controllerTree) [.ruby, .actionPack] (some 2)
    controllerDisk controllerFiles (by simp) hfiles⟩

end Analysis
end Fallow
