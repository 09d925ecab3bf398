import Fallow.Proofs.Identity
import Fallow.Proofs.Verdict
import Fallow.Snapshot
import Mathlib.Data.List.TakeWhile

/-!
# Definitions without a name

Names of classes, modules, methods and constants are text of the source, and the name of a writer
ends in a sign of its own. Only a reader can be declared with no name at all, by an empty symbol or
string. Plugins do not ignore accessors, so that one such declaration leaves the whole analysis
without a verdict, and nothing else does.
-/

namespace Fallow

open Syntax

theorem Utf8.replaced_ne_empty {bytes : List UInt8} (h : bytes ≠ []) :
    Utf8.replaced bytes ≠ "" := by
  obtain ⟨lead, rest, rfl⟩ := List.exists_cons_of_ne_nil h
  intro hempty
  have hlist := congrArg String.toList hempty
  simp [Utf8.replaced, Utf8.decode, Utf8.decodeAfter] at hlist

namespace Source

variable {src : Source} {root n : Node} {s : Scope} {c : Definition}

/-- The node covers at least one byte of the source. -/
def Covers (src : Source) (n : Node) : Prop :=
  n.span.startByte < n.span.endByte ∧ n.span.startByte < src.bytes.length

instance (src : Source) (n : Node) : Decidable (src.Covers n) :=
  inferInstanceAs (Decidable (_ ∧ _))

theorem Covers.text_ne_empty (h : src.Covers n) : src.text n ≠ "" := by
  apply Utf8.replaced_ne_empty
  intro hnil
  have hlength := congrArg List.length hnil
  rw [List.length_take, List.length_drop, List.length_nil] at hlength
  obtain ⟨hspan, hbytes⟩ := h
  omega

theorem dropColons_ne_empty {t : String} (h : t.toList.any (· != ':') = true) :
    dropColons t ≠ "" := by
  obtain ⟨ch, hmem, hne⟩ := List.any_eq_true.1 h
  intro hempty
  have hlist := congrArg String.toList hempty
  simp only [dropColons, Text.trimStart, String.toList_ofList, String.toList_empty,
    List.dropWhile_eq_nil_iff, beq_iff_eq] at hlist
  simp [hlist ch hmem] at hne

/-- What names something covers text, and classes and modules have more than colons for names. -/
structure Spelled (src : Source) (root : Node) : Prop where
  name : ∀ n ∈ root.preorder, ∀ name ∈ n.field? .name, src.Covers name
  target : ∀ n ∈ root.preorder, ∀ target ∈ n.field? .left, src.Covers target
  space : ∀ n ∈ root.preorder, n.kind = .classDecl ∨ n.kind = .moduleDecl →
    ∀ name ∈ n.field? .name, (src.text name).toList.any (· != ':') = true

/-- Somewhere outside methods a reader is declared by an empty symbol or string. -/
def DeclaresEmpty (src : Source) (root : Node) : Prop :=
  ∃ n writer arg, src.Visits false root false n ∧ src.Declares n true writer arg ∧
    (src.argument arg).isName = true ∧ (src.argument arg).value = ""

theorem Spelled.bareName_ne_empty (h : src.Spelled root) {name : Node}
    (hname : name ∈ root.preorder) {whole : String} (hwhole : whole ≠ "") :
    src.bareName whole name ≠ "" := by
  unfold bareName
  split
  · cases hlast : name.field? .name with
    | none => exact hwhole
    | some last => exact (h.name name hname last hlast).text_ne_empty
  · exact hwhole

theorem Spelled.of_defines_nameless (h : src.Spelled root) (hn : n ∈ root.preorder)
    (hdef : src.Defines n s c) (hempty : c.name = "") :
    c.kind = .accessorDef ∧ ∃ writer arg, src.Declares n true writer arg ∧
      (src.argument arg).isName = true ∧ (src.argument arg).value = "" := by
  have hinner : ∀ {f : Field} {m : Node}, n.field? f = some m → m ∈ root.preorder := by
    intro f m hm
    exact Node.mem_preorder_trans (Node.mem_preorder_of_mem_inner (Node.mem_inner_of_field? hm)) hn
  cases hdef with
  | @enclosure kind name hk hname =>
      have hspace : n.kind = .classDecl ∨ n.kind = .moduleDecl := by
        cases kind
        · exact .inl hk
        · exact .inr hk
      have hbare : src.bareText name ≠ "" := dropColons_ne_empty (h.space n hn hspace name hname)
      exact absurd hempty (h.bareName_ne_empty (hinner hname) hbare)
  | constant hk ht htk =>
      exact absurd hempty (h.bareName_ne_empty (hinner ht) (h.target n hn _ ht).text_ne_empty)
  | @reader writer arg hd harg => exact ⟨rfl, writer, arg, hd, harg, hempty⟩
  | writer hd harg =>
      have hlist := congrArg String.toList hempty
      simp [Scope.accessor, Scope.fresh] at hlist
  | method hk hname => exact absurd hempty (h.name n hn _ hname).text_ne_empty

theorem Declares.reader_mem_plan {writer : Bool} {arg : Node}
    (h : src.Declares n true writer arg) (hname : (src.argument arg).isName = true) :
    .accessor (src.argument arg).value (src.location arg) ∈ src.plan false n := by
  have hplan : src.plan false n = src.planCall false n := by simp only [plan, h.kind_eq]
  rw [hplan]
  simp only [planCall, h.receiver, h.word, Option.isNone_none, Bool.not_false, Bool.and_self,
    if_true]
  apply List.mem_append_left
  apply List.mem_flatMap.2 ⟨arg, h.mem, ?_⟩
  simp [planAccessor, hname]

end Source

namespace Walk

variable {src : Source} {plugins : List Plugin} {root : Node}

/-- What has no name in the index of a file is an accessor, which no plugin ignores. -/
theorem nameless_of_mem_run (hroot : src.Spelled root) {d : Definition}
    (hd : d ∈ (run src plugins root).index.listing) (hempty : d.name = "") :
    d.ignored = false ∧ src.DeclaresEmpty root := by
  rw [Index.mem_listing] at hd
  obtain ⟨c, hc, halike⟩ := exists_define_of_mem_run hd
  obtain ⟨n, s, hn, hdef⟩ := Source.exists_defines hc
  obtain ⟨hkind, writer, arg, hdecl, hname, hvalue⟩ :=
    hroot.of_defines_nameless hn.mem_preorder hdef (halike.1 ▸ hempty)
  refine ⟨?_, n, writer, arg, hn, hdecl, hname, hvalue⟩
  cases hignored : d.ignored with
  | false => rfl
  | true =>
      have hignorable := isIgnorable_of_mem_run hd hignored
      rw [halike.kind_eq, hkind] at hignorable
      cases hignorable

theorem exists_nameless_of_declaresEmpty (h : src.DeclaresEmpty root) :
    ∃ d ∈ (run src plugins root).index.listing, d.name = "" := by
  obtain ⟨n, writer, arg, hn, hdecl, hname, hvalue⟩ := h
  obtain ⟨s, hs⟩ := hn.exists_own_deeds_subset (hdecl.reader_mem_plan hname) rfl {}
  have hdefine : .define (s.accessor (src.argument arg).value (src.location arg)) ∈
      fileDeeds src root := hs (by simp [Act.deeds])
  obtain ⟨d, hd, halike⟩ := Deed.exists_mem_get_of_define Index.Tidy.empty hdefine
  rw [← run_index src plugins root] at hd
  have hempty : d.name = "" := halike.1.trans hvalue
  refine ⟨d, ?_, hempty⟩
  rw [Index.mem_listing, (tidy_run_index src plugins root).definitions.mem_values, halike.1]
  exact hd

theorem exists_nameless_iff (hroot : src.Spelled root) :
    (∃ d ∈ (run src plugins root).index.listing, d.name = "") ↔ src.DeclaresEmpty root := by
  constructor
  · rintro ⟨d, hd, hempty⟩
    exact (nameless_of_mem_run hroot hd hempty).2
  · exact exists_nameless_of_declaresEmpty

end Walk

/-- In a tree without faults everything that names something is spelled out. -/
def Grammar.Spelled (grammar : Grammar) : Prop :=
  ∀ src : Source, (grammar src.bytes).check = .ok () → src.Spelled (grammar src.bytes)

theorem Snapshot.spelled_grammarOf {trees : List (List UInt8 × Node)}
    (h : ∀ t ∈ trees, Source.Spelled ⟨"", t.1⟩ t.2) :
    Grammar.Spelled (Snapshot.grammarOf trees) := by
  intro src _
  rcases Snapshot.grammarOf_cases trees src.bytes with hmem | hempty
  · -- the path plays no role in what a node covers
    have hroot := h _ hmem
    exact ⟨hroot.name, hroot.target, hroot.space⟩
  · have hfield : ∀ n ∈ Snapshot.emptyTree.preorder, ∀ f : Field, n.field? f = none := by
      intro n hn f
      rw [List.mem_singleton.1 hn]
      rfl
    rw [hempty]
    refine ⟨fun n hn => ?_, fun n hn => ?_, fun n hn _ => ?_⟩ <;> simp [hfield n hn]

namespace Analysis

variable {grammar : Grammar} {plugins : List Plugin} {disk : Disk} {files : List FileInfo}
  {done : List Outcome}

/-- A file that can be analysed declares a reader with an empty name. -/
def HoldsEmpty (grammar : Grammar) (disk : Disk) (info : FileInfo) : Prop :=
  ∃ bytes, disk.readBytes info.path = .ok bytes ∧ (grammar bytes).check = .ok () ∧
    Source.DeclaresEmpty ⟨info.relPath, bytes⟩ (grammar bytes)

theorem of_records_nameless (hgrammar : grammar.Spelled) {d : Definition}
    (hd : Records grammar plugins disk files d) (hempty : d.name = "") :
    d.ignored = false ∧ ∃ info ∈ files, HoldsEmpty grammar disk info := by
  obtain ⟨info, hinfo, x, hout, hdx⟩ := hd
  obtain ⟨bytes, hread, hcheck, rfl⟩ := outcome_eq_ok_iff.1 hout
  obtain ⟨hignored, hdeclares⟩ := Walk.nameless_of_mem_run (hgrammar ⟨_, bytes⟩ hcheck) hdx hempty
  exact ⟨hignored, info, hinfo, bytes, hread, hcheck, hdeclares⟩

theorem exists_records_nameless {info : FileInfo} (hinfo : info ∈ files)
    (h : HoldsEmpty grammar disk info) : ∃ d, Records grammar plugins disk files d ∧ d.name = "" := by
  obtain ⟨bytes, hread, hcheck, hdeclares⟩ := h
  obtain ⟨d, hd, hempty⟩ := Walk.exists_nameless_of_declaresEmpty hdeclares
  exact ⟨d, ⟨info, hinfo, _, outcome_eq_ok_iff.2 ⟨bytes, hread, hcheck, rfl⟩, hd⟩, hempty⟩

/-- Whatever order files are finished in, the verdict fails on a reader with an empty name. -/
theorem Finishes.exists_error_iff_holdsEmpty (hdone : Finishes grammar plugins disk files done)
    (hgrammar : grammar.Spelled) : (∃ e, (combine done).1.unused = .error e) ↔
      ∃ info ∈ files, HoldsEmpty grammar disk info := by
  rw [Index.exists_unused_eq_error_iff]
  constructor
  · rintro ⟨d, hd, _, hempty⟩
    exact (of_records_nameless hgrammar (hdone.records_of_mem_listing hd) hempty).2
  · rintro ⟨info, hinfo, hholds⟩
    obtain ⟨d, hd, hempty⟩ := exists_records_nameless hinfo hholds
    obtain ⟨e, he, halike⟩ := hdone.exists_alike_mem_listing hd
    have hname : e.name = "" := halike.1.trans hempty
    exact ⟨e, he, (of_records_nameless hgrammar (hdone.records_of_mem_listing he) hname).1, hname⟩

/-- A file records something without a name, and the whole analysis is left without a verdict,
exactly when a reader is declared by an empty symbol or string. -/
theorem verdict_fails_iff_holdsEmpty (grammar : Grammar) (hgrammar : grammar.Spelled)
    (plugins : List Plugin) (jobs : Option Int) (hjobs : ∀ n ∈ jobs, 0 ≤ n) (disk : Disk)
    (files : List FileInfo) :
    (∀ info ∈ files, ∀ x, outcome grammar plugins disk info = .ok x →
      ((∃ d ∈ x.listing, d.name = "") ↔ HoldsEmpty grammar disk info)) ∧
    ∃ x skipped, indexFiles grammar plugins jobs disk files = .ok (x, skipped) ∧
      ((∃ e, x.unused = .error e) ↔ ∃ info ∈ files, HoldsEmpty grammar disk info) := by
  constructor
  · intro info _ x hout
    obtain ⟨bytes, hread, hcheck, rfl⟩ := outcome_eq_ok_iff.1 hout
    rw [Walk.exists_nameless_iff (hgrammar ⟨_, bytes⟩ hcheck)]
    constructor
    · exact fun h => ⟨bytes, hread, hcheck, h⟩
    · rintro ⟨bytes', hread', _, h⟩
      rw [hread] at hread'
      cases hread'
      exact h
  · have hdone : Finishes grammar plugins disk files (files.map (outcome grammar plugins disk)) :=
      List.Perm.refl _
    exact ⟨(combine (files.map (outcome grammar plugins disk))).1, _, indexFiles_of_nonneg hjobs,
      hdone.exists_error_iff_holdsEmpty hgrammar⟩

/-- A class with the line `attr_reader ""` in it. -/
def emptyReader : List UInt8 :=
  Utf8.encode "class A\n  attr_reader \"\"\nend\n"

def emptyLiteral : Node :=
  .mk .string ⟨22, 24, ⟨1, 14⟩, ⟨1, 16⟩⟩ ⟨true, false, false⟩ [] []

def emptyReaderCall : Node :=
  .mk .call ⟨10, 24, ⟨1, 2⟩, ⟨1, 16⟩⟩ ⟨true, false, false⟩ [(.arguments, 1), (.method, 0)]
    [.mk .identifier ⟨10, 21, ⟨1, 2⟩, ⟨1, 13⟩⟩ ⟨true, false, false⟩ [] [],
      .mk (.other "argument_list") ⟨22, 24, ⟨1, 14⟩, ⟨1, 16⟩⟩ ⟨true, false, false⟩ []
        [emptyLiteral]]

def emptyReaderBody : Node :=
  .mk (.other "body_statement") ⟨10, 24, ⟨1, 2⟩, ⟨1, 16⟩⟩ ⟨true, false, false⟩ []
    [emptyReaderCall]

def emptyReaderClass : Node :=
  .mk .classDecl ⟨0, 28, ⟨0, 0⟩, ⟨2, 3⟩⟩ ⟨true, false, false⟩ [(.name, 0)]
    [.mk .constant ⟨6, 7, ⟨0, 6⟩, ⟨0, 7⟩⟩ ⟨true, false, false⟩ [] [], emptyReaderBody]

def emptyReaderTree : Node :=
  .mk (.other "program") ⟨0, 29, ⟨0, 0⟩, ⟨3, 0⟩⟩ ⟨true, false, false⟩ [] [emptyReaderClass]

theorem declaresEmpty_emptyReader :
    Source.DeclaresEmpty ⟨"a.rb", emptyReader⟩ emptyReaderTree := by
  have hclass : Source.Visits ⟨"a.rb", emptyReader⟩ false emptyReaderTree false emptyReaderClass :=
    .step .start (v := (false, emptyReaderClass)) List.mem_cons_self List.mem_cons_self
  have hbody : Source.Visits ⟨"a.rb", emptyReader⟩ false emptyReaderTree false emptyReaderBody :=
    .step hclass (v := (false, emptyReaderBody)) List.mem_cons_self List.mem_cons_self
  have hcall : Source.Visits ⟨"a.rb", emptyReader⟩ false emptyReaderTree false emptyReaderCall :=
    .step hbody (v := (false, emptyReaderCall)) List.mem_cons_self List.mem_cons_self
  exact ⟨emptyReaderCall, false, emptyLiteral, hcall,
    ⟨rfl, rfl, by decide, List.mem_cons_self⟩, by decide, by decide⟩

def emptyReaderDisk : Disk :=
  ⟨[("a.rb", .file emptyReader)]⟩

def emptyReaderFile : FileInfo :=
  ⟨⟨"/", ["a.rb"]⟩, "a.rb", 29, ".rb"⟩

theorem verdict_fails_on_emptyReader :
    Grammar.Spelled (Snapshot.grammarOf [(emptyReader, emptyReaderTree)]) ∧
      ∃ x skipped, indexFiles (Snapshot.grammarOf [(emptyReader, emptyReaderTree)])
        [.ruby, .minitest, .actionPack, .activeRecord] (some 1) emptyReaderDisk [emptyReaderFile] =
          .ok (x, skipped) ∧ ∃ e, x.unused = .error e := by
  have hgrammar : Grammar.Spelled (Snapshot.grammarOf [(emptyReader, emptyReaderTree)]) := by
    apply Snapshot.spelled_grammarOf
    intro t ht
    rw [List.mem_singleton.1 ht]
    exact ⟨by decide, by decide, by decide⟩
  have htree : Snapshot.grammarOf [(emptyReader, emptyReaderTree)] emptyReader = emptyReaderTree := by
    simp [Snapshot.grammarOf]
  have hholds : HoldsEmpty (Snapshot.grammarOf [(emptyReader, emptyReaderTree)]) emptyReaderDisk
      emptyReaderFile := by
    refine ⟨emptyReader, rfl, ?_, ?_⟩ <;> rw [htree]
    · rfl
    · exact declaresEmpty_emptyReader
  obtain ⟨_, x, skipped, hindex, hfails⟩ := verdict_fails_iff_holdsEmpty _ hgrammar
    [.ruby, .minitest, .actionPack, .activeRecord] (some 1) (by simp) emptyReaderDisk
    [emptyReaderFile]
  exact ⟨hgrammar, x, skipped, hindex, hfails.2 ⟨emptyReaderFile, List.mem_cons_self, hholds⟩⟩

end Analysis
end Fallow
