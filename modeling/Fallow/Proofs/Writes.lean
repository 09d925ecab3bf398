import Fallow.Proofs.Places
import Fallow.Proofs.Uses
import Fallow.Proofs.Verdict

/-!
# Writers that are used by assignments

An attribute or an element that stands alone on the left side of an assignment is referred to by the
name of its writer, and so the writer is in use. In a list of targets, at any depth, it is visited
like any other call, so that the reader is referred to in place of the writer: a writer that is only
used in such lists is reported as unused.
-/

namespace Fallow

open Syntax

namespace Syntax

/-- The kinds of nodes that hold targets: a list, a list in parentheses, and a splat. -/
def Kind.isTargetList : Kind → Bool
  | .other name =>
    ["left_assignment_list", "destructured_left_assignment", "rest_assignment"].contains name
  | _ => false

/-- The target stands in a list of targets, directly or in a list within the list. -/
inductive Node.Lists (list : Node) : Node → Prop
  | direct {c : Node} (hk : list.kind.isTargetList = true) (hc : c ∈ list.named) : Lists list c
  | nested {inner c : Node} (h : Lists list inner) (hk : inner.kind.isTargetList = true)
    (hc : c ∈ inner.named) : Lists list c

theorem Node.Lists.isTargetList {list c : Node} (h : list.Lists c) :
    list.kind.isTargetList = true := by
  induction h with
  | direct hk => exact hk
  | nested _ _ _ ih => exact ih

end Syntax

namespace Source

variable {src : Source} {within : Bool} {root n left c : Node}

theorem Visits.named_of_isTargetList (h : src.Visits false root within n)
    (hk : n.kind.isTargetList = true) (hc : c ∈ n.named) : src.Visits false root within c := by
  cases hkind : n.kind <;> simp [hkind, Kind.isTargetList] at hk
  have hsuccessor : c ∈ src.successors within n := by
    simpa only [successors, hkind] using hc
  simpa [hkind, Kind.isMethod] using h.successor hsuccessor

/-- The targets in a list are visited, at any depth. -/
theorem Visits.of_lists (h : src.Visits false root within n) (hk : n.kind.isAssignment = true)
    (hl : n.field? .left = some left) (hc : left.Lists c) : src.Visits false root within c := by
  have hlist := hc.isTargetList
  have hleft : src.Visits false root within left := by
    have hsuccessor : left ∈ src.successors within n := by
      rw [successors_of_isAssignment src within hk, hl]
      cases hkind : left.kind <;> simp [hkind, Kind.isTargetList] at hlist
      simp [targetSuccessors, hkind]
    have hmethod : n.kind.isMethod = false := by
      cases hkind : n.kind <;> simp [hkind, Kind.isAssignment] at hk <;> rfl
    simpa [hmethod] using h.successor hsuccessor
  induction hc with
  | direct _ hc => exact hleft.named_of_isTargetList hlist hc
  | nested _ hinner hc ih => exact ih.named_of_isTargetList hinner hc

theorem callee_of_method {method : Node} (h : n.field? .method = some method) :
    src.callee n = src.text method := by
  simp [callee, h]

/-- A call with a receiver is never a declaration. -/
theorem calls_of_receiver {method : Node} (hk : n.kind = .call)
    (hreceiver : (n.field? .receiver).isSome = true) (hm : n.field? .method = some method) :
    src.Calls within n (src.text method) (src.location n) := by
  have hsome : (n.field? .receiver).isNone = false := by simpa using hreceiver
  rw [← callee_of_method hm]
  exact .call hk (by simp [declaresAccessors, hsome]) (by simp [declaresVisibility, hsome])

end Source

namespace Walk

variable {src : Source} {plugins : List Plugin} {root : Node}

/-- A name is referred to when a visited node uses it or a plugin supplies it for a send. -/
theorem exists_reference_iff {name : String} :
    (∃ r ∈ (run src plugins root).index.referenceListing, r.name = name) ↔
      (∃ within n location, src.Visits false root within n ∧ src.Uses within n name location) ∨
        ∃ s p, .sent s ∈ (run src plugins root).events ∧ p ∈ plugins ∧ p.Supplies s name := by
  constructor
  · rintro ⟨⟨name, location, origin⟩, hr, rfl⟩
    cases origin with
    | syntactic =>
        obtain ⟨within, n, hvisits, huses⟩ := mem_referenceListing_run_iff_uses.1 hr
        exact .inl ⟨within, n, location, hvisits, huses⟩
    | synthetic =>
        obtain ⟨s, hs, ⟨p, hp, hsupplies⟩, _⟩ := exists_sent_of_synthetic hr rfl
        exact .inr ⟨s, p, hs, hp, hsupplies⟩
  · rintro (⟨within, n, location, hvisits, huses⟩ | ⟨s, p, hs, hp, hsupplies⟩)
    · exact ⟨_, mem_referenceListing_run_iff_uses.2 ⟨within, n, hvisits, huses⟩, rfl⟩
    · have hname : name ∈ plugins.flatMap (·.referred s) :=
        List.mem_flatMap.2 ⟨p, hp, Plugin.mem_referred_iff.2 hsupplies⟩
      refine ⟨⟨name, s.location, .synthetic⟩, mem_referenceListing_run.2 ?_, rfl⟩
      exact ⟨.send s, sent_mem_events_run.1 hs, List.mem_cons_of_mem _ (List.mem_map_of_mem hname)⟩

/-- What is assigned to by itself is referred to by the name of its writer, which is then not
unused; what is assigned to in a list of targets is referred to by the name of its reader. A name is
referred to in the source exactly where a visited node uses it, and a definition is unused exactly
when no visited node uses its name and no plugin supplies it. -/
theorem writers_used_by_assignments (src : Source) (plugins : List Plugin) (root : Node) :
    (∀ within n name location, src.Visits false root within n → src.Writes n name location →
        ⟨name, location, .syntactic⟩ ∈ (run src plugins root).index.referenceListing ∧
          ∀ l, (run src plugins root).index.unused = .ok l → ∀ d ∈ l, d.name ≠ name) ∧
      (∀ within n left c, src.Visits false root within n → n.kind.isAssignment = true →
        n.field? .left = some left → left.Lists c →
          (∀ method, c.kind = .call → (c.field? .receiver).isSome = true →
            c.field? .method = some method → ⟨src.text method, src.location c, .syntactic⟩ ∈
              (run src plugins root).index.referenceListing) ∧
          (c.kind = .elementReference → ⟨"[]", src.location c, .syntactic⟩ ∈
            (run src plugins root).index.referenceListing)) ∧
      (∀ name location, ⟨name, location, .syntactic⟩ ∈
          (run src plugins root).index.referenceListing ↔
        ∃ within n, src.Visits false root within n ∧ src.Uses within n name location) ∧
      ∀ l, (run src plugins root).index.unused = .ok l → ∀ d, d ∈ l ↔
        d ∈ (run src plugins root).index.listing ∧ d.ignored = false ∧
          (¬ ∃ within n location, src.Visits false root within n ∧
            src.Uses within n d.name location) ∧
          ¬ ∃ s p, .sent s ∈ (run src plugins root).events ∧ p ∈ plugins ∧ p.Supplies s d.name := by
  have hunused : ∀ l, (run src plugins root).index.unused = .ok l → ∀ d, d ∈ l ↔
      d ∈ (run src plugins root).index.listing ∧ d.ignored = false ∧
        ¬ ∃ r ∈ (run src plugins root).index.referenceListing, r.name = d.name := by
    intro l hl d
    rw [(tidy_run_index src plugins root).mem_unused_iff hl]
    simp only [not_exists, not_and, ne_eq]
  refine ⟨fun within n name location hvisits hwrites => ?_, fun within n left c hvisits hk hl hc => ?_,
    fun name location => mem_referenceListing_run_iff_uses, fun l hl d => ?_⟩
  · have hmem : ⟨name, location, .syntactic⟩ ∈ (run src plugins root).index.referenceListing :=
      mem_referenceListing_run_iff_uses.2 ⟨within, n, hvisits, .writes hwrites⟩
    refine ⟨hmem, fun l hl d hd hname => ?_⟩
    exact ((hunused l hl d).1 hd).2.2 ⟨_, hmem, hname.symm⟩
  · have hlisted := hvisits.of_lists hk hl hc
    refine ⟨fun method hcall hreceiver hm => ?_, fun helement => ?_⟩
    · exact mem_referenceListing_run_iff_uses.2
        ⟨within, c, hlisted, .calls (Source.calls_of_receiver hcall hreceiver hm)⟩
    · exact mem_referenceListing_run_iff_uses.2 ⟨within, c, hlisted, .calls (.element helement)⟩
  · rw [hunused l hl d, exists_reference_iff, not_or]

/-- A class with two writers, one used in a list of targets and one by itself. -/
def writerSource : Source :=
  ⟨"a.rb", Utf8.encode "class A\n  attr_writer :x, :y\nend\na.x, b = 1, 2\na.y = 3\n"⟩

def listedMethod : Node :=
  .mk .identifier ⟨35, 36, ⟨3, 2⟩, ⟨3, 3⟩⟩ ⟨true, false, false⟩ [] []

/-- The target `a.x`. -/
def listedTarget : Node :=
  .mk .call ⟨33, 36, ⟨3, 0⟩, ⟨3, 3⟩⟩ ⟨true, false, false⟩
    [(.method, 2), (.operator, 1), (.receiver, 0)]
    [.mk .identifier ⟨33, 34, ⟨3, 0⟩, ⟨3, 1⟩⟩ ⟨true, false, false⟩ [] [],
      .mk (.other ".") ⟨34, 35, ⟨3, 1⟩, ⟨3, 2⟩⟩ ⟨false, false, false⟩ [] [], listedMethod]

def targetList : Node :=
  .mk (.other "left_assignment_list") ⟨33, 39, ⟨3, 0⟩, ⟨3, 6⟩⟩ ⟨true, false, false⟩ []
    [listedTarget, .mk .identifier ⟨38, 39, ⟨3, 5⟩, ⟨3, 6⟩⟩ ⟨true, false, false⟩ [] []]

def listAssignment : Node :=
  .mk .assignment ⟨33, 46, ⟨3, 0⟩, ⟨3, 13⟩⟩ ⟨true, false, false⟩ [(.left, 0), (.right, 1)]
    [targetList,
      .mk (.other "right_assignment_list") ⟨42, 46, ⟨3, 9⟩, ⟨3, 13⟩⟩ ⟨true, false, false⟩ []
        [.mk (.other "integer") ⟨42, 43, ⟨3, 9⟩, ⟨3, 10⟩⟩ ⟨true, false, false⟩ [] [],
          .mk (.other "integer") ⟨45, 46, ⟨3, 12⟩, ⟨3, 13⟩⟩ ⟨true, false, false⟩ [] []]]

def loneMethod : Node :=
  .mk .identifier ⟨49, 50, ⟨4, 2⟩, ⟨4, 3⟩⟩ ⟨true, false, false⟩ [] []

/-- The target `a.y`. -/
def loneTarget : Node :=
  .mk .call ⟨47, 50, ⟨4, 0⟩, ⟨4, 3⟩⟩ ⟨true, false, false⟩
    [(.method, 2), (.operator, 1), (.receiver, 0)]
    [.mk .identifier ⟨47, 48, ⟨4, 0⟩, ⟨4, 1⟩⟩ ⟨true, false, false⟩ [] [],
      .mk (.other ".") ⟨48, 49, ⟨4, 1⟩, ⟨4, 2⟩⟩ ⟨false, false, false⟩ [] [], loneMethod]

def loneAssignment : Node :=
  .mk .assignment ⟨47, 54, ⟨4, 0⟩, ⟨4, 7⟩⟩ ⟨true, false, false⟩ [(.left, 0), (.right, 1)]
    [loneTarget, .mk (.other "integer") ⟨53, 54, ⟨4, 6⟩, ⟨4, 7⟩⟩ ⟨true, false, false⟩ [] []]

def writerTree : Node :=
  .mk (.other "program") ⟨0, 55, ⟨0, 0⟩, ⟨5, 0⟩⟩ ⟨true, false, false⟩ []
    [.mk .classDecl ⟨0, 32, ⟨0, 0⟩, ⟨2, 3⟩⟩ ⟨true, false, false⟩ [(.name, 0)]
      [.mk .constant ⟨6, 7, ⟨0, 6⟩, ⟨0, 7⟩⟩ ⟨true, false, false⟩ [] [],
        .mk (.other "body_statement") ⟨10, 28, ⟨1, 2⟩, ⟨1, 20⟩⟩ ⟨true, false, false⟩ []
          [.mk .call ⟨10, 28, ⟨1, 2⟩, ⟨1, 20⟩⟩ ⟨true, false, false⟩ [(.arguments, 1), (.method, 0)]
            [.mk .identifier ⟨10, 21, ⟨1, 2⟩, ⟨1, 13⟩⟩ ⟨true, false, false⟩ [] [],
              .mk (.other "argument_list") ⟨22, 28, ⟨1, 14⟩, ⟨1, 20⟩⟩ ⟨true, false, false⟩ []
                [.mk .simpleSymbol ⟨22, 24, ⟨1, 14⟩, ⟨1, 16⟩⟩ ⟨true, false, false⟩ [] [],
                  .mk .simpleSymbol ⟨26, 28, ⟨1, 18⟩, ⟨1, 20⟩⟩ ⟨true, false, false⟩ [] []]]]],
      listAssignment, loneAssignment]

/-- The writer that is used in a list of targets only. -/
def listedWriter : Definition :=
  ⟨.accessorDef, "x=", "A#x=", ⟨"a.rb", 2, 14, 2, 16⟩, .pub, false⟩

/-- The writer `x=` is reported, although `a.x` is assigned to; the writer `y=` is not. -/
theorem writers_used_by_assignments_list :
    ⟨"x", ⟨"a.rb", 4, 0, 4, 3⟩, .syntactic⟩ ∈
        (run writerSource [] writerTree).index.referenceListing ∧
      ⟨"y=", ⟨"a.rb", 5, 0, 5, 3⟩, .syntactic⟩ ∈
        (run writerSource [] writerTree).index.referenceListing ∧
      (∀ location, ⟨"x=", location, .syntactic⟩ ∉
        (run writerSource [] writerTree).index.referenceListing) ∧
      ∃ l, (run writerSource [] writerTree).index.unused = .ok l ∧ listedWriter ∈ l ∧
        ∀ d ∈ l, d.name ≠ "y=" := by
  obtain ⟨hlone, hlisted, huses, hunused⟩ := writers_used_by_assignments writerSource [] writerTree
  have hlist : writerSource.Visits false writerTree false listAssignment :=
    Source.Visits.start.successor (List.mem_cons_of_mem _ List.mem_cons_self)
  have halone : writerSource.Visits false writerTree false loneAssignment :=
    Source.Visits.start.successor
      (List.mem_cons_of_mem _ (List.mem_cons_of_mem _ List.mem_cons_self))
  have hreader := (hlisted false _ _ listedTarget hlist rfl rfl
    (.direct rfl List.mem_cons_self)).1 listedMethod rfl rfl rfl
  have hwrites : writerSource.Writes loneAssignment (writerSource.text loneMethod ++ "=")
      (writerSource.location loneTarget) := .member rfl rfl rfl rfl
  have hwriter := hlone false _ _ _ halone hwrites
  have hx : writerSource.text listedMethod = "x" := by decide +kernel
  have hy : writerSource.text loneMethod = "y" := by decide +kernel
  rw [hx] at hreader
  rw [hy] at hwriter
  have hunwritten : ∀ location, ⟨"x=", location, .syntactic⟩ ∉
      (run writerSource [] writerTree).index.referenceListing := by
    have hnames : ∀ r ∈ (run writerSource [] writerTree).index.references.values,
        r.name ≠ "x=" := by
      decide +kernel
    exact fun location hr => hnames _ (Index.mem_referenceListing.1 hr) rfl
  have hnamed : ∀ d ∈ (run writerSource [] writerTree).index.definitions.values, d.name ≠ "" := by
    decide +kernel
  obtain ⟨l, hl⟩ := Index.exists_unused_eq_ok fun d hd => hnamed d (Index.mem_listing.1 hd)
  have hrecorded : listedWriter ∈ (run writerSource [] writerTree).index.definitions.values := by
    decide +kernel
  refine ⟨hreader, hwriter.1, hunwritten, l, hl, ?_, hwriter.2 l hl⟩
  refine (hunused l hl listedWriter).2 ⟨Index.mem_listing.2 hrecorded, rfl, ?_, ?_⟩
  · rintro ⟨within, n, location, huse⟩
    exact hunwritten location ((huses _ _).2 ⟨within, n, huse⟩)
  · rintro ⟨s, p, _, hp, _⟩
    cases hp

end Walk
end Fallow
