import Fallow.Proofs.Combine
import Fallow.Proofs.Identity
import Fallow.Snapshot

/-!
# Orders of completion

Files may be finished in any order. Merging opens the groups of an index in that order and skipped
files are noted in it, but the listings, the skipped files and the verdict come out the same. The
sorts need no tie broken: a definition that is recorded twice comes from one file that was given
twice, and then the two records are equal.
-/

namespace Fallow

/-- In a tree without faults no two declarations stand at the same place: each has a word, sign or
quote of its own. -/
def Grammar.Unambiguous (grammar : Grammar) : Prop :=
  ∀ bytes, (grammar bytes).check = .ok () → (grammar bytes).Unambiguous

theorem Snapshot.unambiguous_grammarOf {trees : List (List UInt8 × Syntax.Node)}
    (h : ∀ t ∈ trees, t.2.Unambiguous) : Grammar.Unambiguous (Snapshot.grammarOf trees) := by
  intro bytes _
  rcases Snapshot.grammarOf_cases trees bytes with hmem | hempty
  · exact h _ hmem
  · rw [hempty]
    decide

namespace Index

theorem unusedAmong_congr {x y : Index} (h : ∀ name, x.isReferenced name = y.isReferenced name)
    (ds : List Definition) : x.unusedAmong ds = y.unusedAmong ds := by
  induction ds with
  | nil => rfl
  | cons d rest ih => simp only [unusedAmong, isUsed, h, ih]

/-- The verdict depends on the listings only. -/
theorem Tidy.unused_congr {x y : Index} (hx : x.Tidy) (hy : y.Tidy) (hl : x.listing = y.listing)
    (hr : x.referenceListing = y.referenceListing) : x.unused = y.unused := by
  have href : ∀ name, x.isReferenced name = y.isReferenced name := by
    intro name
    rw [Bool.eq_iff_iff, hx.isReferenced_iff, hy.isReferenced_iff, hr]
  rw [unused, unused, hl, unusedAmong_congr href]

end Index

namespace Analysis

/-- Two results of an analysis agree in all that can be read off them. -/
structure Agree (r r' : Index × List Skipped) : Prop where
  listing : r.1.listing = r'.1.listing
  references : r.1.referenceListing = r'.1.referenceListing
  skipped : r.2 = r'.2
  unused : r.1.unused = r'.1.unused

variable {grammar : Grammar} {plugins : List Plugin} {disk : Disk} {files : List FileInfo}
  {done done' : List Outcome}

namespace Finishes

theorem perm_references (hdone : Finishes grammar plugins disk files done)
    (hdone' : Finishes grammar plugins disk files done') :
    (combine done).1.references.values.Perm (combine done').1.references.values := by
  rw [List.perm_ext_iff_of_nodup hdone.tidy.nodup_references hdone'.tidy.nodup_references]
  intro r
  rw [← Index.mem_referenceListing, ← Index.mem_referenceListing, hdone.mem_referenceListing,
    hdone'.mem_referenceListing]

variable (hfiles : ∀ a ∈ files, ∀ b ∈ files, a.relPath = b.relPath → a.path = b.path)
  (hdone : Finishes grammar plugins disk files done)
  (hdone' : Finishes grammar plugins disk files done')
include hfiles hdone

/-- The combined index holds nothing twice, not even under two bare names. -/
theorem eq_of_same (hgrammar : grammar.Unambiguous) {d e : Definition}
    (hd : d ∈ (combine done).1.listing) (he : e ∈ (combine done).1.listing)
    (hsame : d.same e = true) : d = e := by
  have hname : d.name = e.name := by
    obtain ⟨a, ha, x, hxa, hdx⟩ := hdone.records_of_mem_listing hd
    obtain ⟨b, hb, y, hyb, hey⟩ := hdone.records_of_mem_listing he
    obtain rfl := index_eq_of_location_eq hfiles ha hb hxa hyb hdx hey
      (Definition.same_iff.1 hsame).2.2
    rw [Index.mem_listing] at hdx hey
    obtain ⟨bytes, _, hcheck, rfl⟩ := outcome_eq_ok_iff.1 hyb
    exact Walk.name_eq_of_same (hgrammar bytes hcheck) hdx hey hsame
  exact hdone.tidy.eq_of_alike (Index.mem_listing.1 hd) (Index.mem_listing.1 he) ⟨hname, hsame⟩

theorem eq_of_path {s t : Skipped} (hs : s ∈ failures done) (ht : t ∈ failures done)
    (hpath : s.path = t.path) : s = t := by
  obtain ⟨a, ha, hsa⟩ := hdone.mem_iff.1 (mem_failures.1 hs)
  obtain ⟨b, hb, htb⟩ := hdone.mem_iff.1 (mem_failures.1 ht)
  have hrel : a.relPath = b.relPath := by
    rw [← path_of_outcome_eq_error hsa, hpath, path_of_outcome_eq_error htb]
  rw [outcome_congr hrel (hfiles a ha b hb hrel), htb] at hsa
  exact (Except.error.inj hsa).symm

include hdone'

theorem perm_definitions :
    (combine done).1.definitions.values.Perm (combine done').1.definitions.values := by
  rw [List.perm_ext_iff_of_nodup (hdone.tidy.definitions.nodup_values Definition.same_refl)
    (hdone'.tidy.definitions.nodup_values Definition.same_refl)]
  intro d
  rw [← Index.mem_listing, ← Index.mem_listing, hdone.mem_listing hfiles,
    hdone'.mem_listing hfiles]

theorem skipped_eq : (combine done).2 = (combine done').2 := by
  have hperm : (failures done).Perm (failures done') :=
    (List.Perm.trans hdone (List.Perm.symm hdone')).filterMap _
  have htrans := transCmp_on Skipped.path textOrder
  rw [combine_eq, combine_eq]
  apply sortedBy_eq_of_perm hperm
  intro s hs t ht htie
  exact hdone.eq_of_path hfiles hs ht (Std.LawfulEqCmp.eq_of_compare htie)

end Finishes

/-- The order in which files are finished cannot be read off the result. -/
theorem agree_of_finishes (grammar : Grammar) (plugins : List Plugin) (disk : Disk)
    (files : List FileInfo) (hgrammar : grammar.Unambiguous)
    (hfiles : ∀ a ∈ files, ∀ b ∈ files, a.relPath = b.relPath → a.path = b.path)
    (done done' : List Outcome) (hdone : Finishes grammar plugins disk files done)
    (hdone' : Finishes grammar plugins disk files done') :
    Agree (combine done) (combine done') ∧
      ∀ jobs : Option Int, (∀ n ∈ jobs, 0 ≤ n) →
        ∃ r, indexFiles grammar plugins jobs disk files = .ok r ∧ Agree (combine done) r := by
  have hagree : ∀ other, Finishes grammar plugins disk files other →
      Agree (combine done) (combine other) := by
    intro other hother
    have hlisting : (combine done).1.listing = (combine other).1.listing := by
      apply sortedBy_eq_of_perm (hdone.perm_definitions hfiles hother)
      intro d hd e he htie
      exact hdone.eq_of_same hfiles hgrammar (Index.mem_listing.2 hd) (Index.mem_listing.2 he)
        (Definition.compare_eq_eq_iff.1 htie)
    have hreferences : (combine done).1.referenceListing = (combine other).1.referenceListing :=
      sortedBy_eq_of_perm (hdone.perm_references hother)
        fun r _ r' _ htie => Reference.eq_of_compare htie
    exact ⟨hlisting, hreferences, hdone.skipped_eq hfiles hother,
      hdone.tidy.unused_congr hother.tidy hlisting hreferences⟩
  refine ⟨hagree done' hdone', fun jobs hjobs => ?_⟩
  exact ⟨_, indexFiles_of_nonneg hjobs, hagree _ (List.Perm.refl _)⟩

/-- The trees of `class A; end` and `def x; end`. -/
def twoTrees : List (List UInt8 × Syntax.Node) :=
  [(Utf8.encode "class A; end\n",
      .mk (.other "program") ⟨0, 13, ⟨0, 0⟩, ⟨1, 0⟩⟩ ⟨true, false, false⟩ []
        [.mk .classDecl ⟨0, 12, ⟨0, 0⟩, ⟨0, 12⟩⟩ ⟨true, false, false⟩ [(.name, 0)]
          [.mk .constant ⟨6, 7, ⟨0, 6⟩, ⟨0, 7⟩⟩ ⟨true, false, false⟩ [] []]]),
    (Utf8.encode "def x; end\n",
      .mk (.other "program") ⟨0, 11, ⟨0, 0⟩, ⟨1, 0⟩⟩ ⟨true, false, false⟩ []
        [.mk .methodDecl ⟨0, 10, ⟨0, 0⟩, ⟨0, 10⟩⟩ ⟨true, false, false⟩ [(.name, 0)]
          [.mk .identifier ⟨4, 5, ⟨0, 4⟩, ⟨0, 5⟩⟩ ⟨true, false, false⟩ [] []]])]

def twoFiles : Disk :=
  ⟨[("a.rb", .file (Utf8.encode "class A; end\n")), ("b.rb", .file (Utf8.encode "def x; end\n"))]⟩

/-- One of the files twice, the other once, and one that is not there. -/
def twiceGiven : List FileInfo :=
  [⟨⟨"/", ["a.rb"]⟩, "a.rb", 13, ".rb"⟩, ⟨⟨"/", ["c.rb"]⟩, "c.rb", 0, ".rb"⟩,
    ⟨⟨"/", ["a.rb"]⟩, "a.rb", 13, ".rb"⟩, ⟨⟨"/", ["b.rb"]⟩, "b.rb", 11, ".rb"⟩]

def twiceDone : List Outcome :=
  twiceGiven.map (outcome (Snapshot.grammarOf twoTrees) [.ruby, .actionPack] twoFiles)

theorem agree_of_finishes_reversed :
    Grammar.Unambiguous (Snapshot.grammarOf twoTrees) ∧
      (∀ a ∈ twiceGiven, ∀ b ∈ twiceGiven, a.relPath = b.relPath → a.path = b.path) ∧
      Agree (combine twiceDone) (combine twiceDone.reverse) ∧
      ∃ r, indexFiles (Snapshot.grammarOf twoTrees) [.ruby, .actionPack] (some 4) twoFiles
        twiceGiven = .ok r ∧ Agree (combine twiceDone) r := by
  have hgrammar : Grammar.Unambiguous (Snapshot.grammarOf twoTrees) :=
    Snapshot.unambiguous_grammarOf (by decide)
  have hfiles : ∀ a ∈ twiceGiven, ∀ b ∈ twiceGiven, a.relPath = b.relPath → a.path = b.path := by
    decide
  have hagree := agree_of_finishes _ [.ruby, .actionPack] twoFiles twiceGiven hgrammar hfiles
    twiceDone twiceDone.reverse (List.Perm.refl _) (List.reverse_perm _)
  exact ⟨hgrammar, hfiles, hagree.1, hagree.2 (some 4) (by simp)⟩

end Analysis
end Fallow
