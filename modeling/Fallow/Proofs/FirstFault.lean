import Fallow.Analysis
import Fallow.Proofs.Outline
import Fallow.Proofs.Spelling

/-!
# The first fault of a tree

A tree is refused at its first fault, parents before children, although the search only goes down
where a fault is announced. For that it is enough that nothing is passed over on the way: the root
announces a fault exactly if there is one, and a child of a sound node does if it holds one. What
the flags say below a fault does not matter. The message gives the line and the column.
-/

namespace Fallow

namespace Syntax.Node

/-- Text that the grammar could not make sense of, or that it had to add. -/
def IsFault (n : Node) : Prop :=
  n.kind = .error ∨ n.flags.missing = true

theorem isFault_iff {n : Node} : n.isFault = true ↔ n.IsFault := by
  simp [isFault, IsFault]

theorem isFault_eq_false_iff {n : Node} : n.isFault = false ↔ ¬ n.IsFault := by
  rw [← isFault_iff, Bool.not_eq_true]

instance (n : Node) : Decidable n.IsFault :=
  inferInstanceAs (Decidable (_ ∨ _))

/-- A node or one below it is a fault. -/
def HasFault (n : Node) : Prop :=
  ∃ d ∈ n.preorder, d.IsFault

instance (n : Node) : Decidable n.HasFault :=
  inferInstanceAs (Decidable (∃ d ∈ n.preorder, d.IsFault))

/-- The flags say of every node whether it has a fault. -/
def Consistent (root : Node) : Prop :=
  ∀ n ∈ root.preorder, (n.flags.faulty = true ↔ n.HasFault)

instance (root : Node) : Decidable root.Consistent :=
  inferInstanceAs (Decidable (∀ n ∈ root.preorder, (_ ↔ _)))

/-- A fault before which there is none, parents before children. -/
def FirstFault (root n : Node) : Prop :=
  ∃ before after, root.preorder = before ++ n :: after ∧ n.IsFault ∧ ∀ d ∈ before, ¬ d.IsFault

theorem find?_isFault_eq_some_iff {root n : Node} :
    root.preorder.find? isFault = some n ↔ root.FirstFault n := by
  rw [List.find?_eq_some_iff_append, isFault_iff]
  constructor
  · rintro ⟨hn, before, after, heq, hbefore⟩
    refine ⟨before, after, heq, hn, fun d hd => ?_⟩
    simpa [isFault_eq_false_iff] using hbefore d hd
  · rintro ⟨before, after, heq, hn, hbefore⟩
    refine ⟨hn, before, after, heq, fun d hd => ?_⟩
    simpa [isFault_eq_false_iff] using hbefore d hd

theorem find?_isFault_eq_none_iff {n : Node} :
    n.preorder.find? isFault = none ↔ ¬ n.HasFault := by
  simp [isFault_iff, HasFault]

/-- The search enters a node. -/
def Entered (c : Node) : Prop :=
  c.flags.faulty = true ∨ c.flags.missing = true

/-- No sound node at or below a node has a child that holds a fault and is not entered. -/
def Leads (n : Node) : Prop :=
  ∀ d ∈ n.preorder, ¬ d.IsFault → ∀ c ∈ d.children, c.HasFault → c.Entered

theorem Leads.of_mem {n d : Node} (h : n.Leads) (hd : d ∈ n.preorder) : d.Leads :=
  fun e he => h e (mem_preorder_trans he hd)

theorem Leads.of_mem_children {n c : Node} (h : n.Leads) (hc : c ∈ n.children) : c.Leads :=
  h.of_mem (mem_preorder_of_mem_inner (mem_inner_of_mem_children hc))

mutual

/-- Where every fault is led to, the search finds the first one of the whole tree. -/
theorem firstFault?_eq_find? : ∀ {n : Node}, n.Leads →
    n.firstFault? = n.preorder.find? isFault
  | mk kind span flags fields children, h => by
      rw [firstFault?, preorder, List.find?_cons]
      cases hfault : isFault (mk kind span flags fields children) with
      | true => rfl
      | false =>
          have hsound := isFault_eq_false_iff.1 hfault
          rw [if_neg (by simp)]
          exact firstFaultAmong?_eq_find? (fun c hc => h.of_mem_children hc)
            (h _ (mem_preorder_self _) hsound)

theorem firstFaultAmong?_eq_find? : ∀ {cs : List Node}, (∀ c ∈ cs, c.Leads) →
    (∀ c ∈ cs, c.HasFault → c.Entered) →
    firstFaultAmong? cs = (preorderAll cs).find? isFault
  | [], _, _ => rfl
  | c :: rest, hleads, hentered => by
      obtain ⟨hc, hrest⟩ := List.forall_mem_cons.1 hleads
      obtain ⟨hc', hrest'⟩ := List.forall_mem_cons.1 hentered
      rw [firstFaultAmong?, preorderAll, List.find?_append,
        ← firstFaultAmong?_eq_find? hrest hrest', firstFault?_eq_find? hc]
      by_cases henter : c.Entered
      · rw [if_pos (by simpa [Entered] using henter)]
      · rw [if_neg (by simpa [Entered] using henter)]
        -- A child that is not entered holds no fault, so there was nothing to be found in it.
        have hnone := find?_isFault_eq_none_iff.2 fun hfault => henter (hc' hfault)
        rw [hnone, Option.none_or]

end

/-- What has to be announced for a search to miss nothing. -/
structure Announces (root : Node) : Prop where
  start : root.flags.faulty = true ↔ root.HasFault
  leads : root.Leads

theorem Consistent.announces {root : Node} (h : root.Consistent) : root.Announces where
  start := h root (mem_preorder_self root)
  leads := by
    intro n hn _ c hc hfault
    have hmem : c ∈ root.preorder :=
      mem_preorder_trans (mem_preorder_of_mem_inner (mem_inner_of_mem_children hc)) hn
    exact .inl ((h c hmem).2 hfault)

theorem Announces.check_eq_ok_iff {root : Node} (h : root.Announces) :
    root.check = .ok () ↔ ¬ root.HasFault := by
  rw [check, ← h.start]
  cases root.flags.faulty with
  | false => simp
  | true => cases root.firstFault? <;> simp

/-- A tree with faults is refused at the first one. -/
theorem Announces.check_of_firstFault {root n : Node} (h : root.Announces)
    (hn : root.FirstFault n) :
    root.check = .error (.located (n.span.start.row + 1) n.span.start.column) := by
  have hfind := find?_isFault_eq_some_iff.2 hn
  have hfault : root.HasFault :=
    ⟨n, List.mem_of_find?_eq_some hfind, isFault_iff.1 (List.find?_some hfind)⟩
  rw [check, if_pos (h.start.2 hfault), firstFault?_eq_find? h.leads, hfind]

theorem exists_firstFault {root : Node} (h : root.HasFault) : ∃ n, root.FirstFault n := by
  cases hfind : root.preorder.find? isFault with
  | none => exact absurd h (find?_isFault_eq_none_iff.1 hfind)
  | some n => exact ⟨n, find?_isFault_eq_some_iff.1 hfind⟩

end Syntax.Node

namespace Syntax

open Node

theorem Fault.message_located (line column : Nat) : (Fault.located line column).message =
    "syntax error at line " ++ toString line ++ ", column " ++ toString column := by
  have hmessage : message (.located line column) =
      "syntax error at line " ++ Numeral.text line ++ ", column " ++ Numeral.text column := rfl
  rw [hmessage, Numeral.text_natCast, Numeral.text_natCast]

theorem Fault.message_located_ne (line column : Nat) :
    (Fault.located line column).message ≠ "syntax error" := by
  rw [message_located, ne_eq, ← String.toList_inj]
  simp

/-- A tree with consistent flags is accepted exactly if it has no fault. Otherwise it is refused
with the place of its first fault, which the message gives, and never without a place. -/
theorem check_locates_first_fault (root : Node) (h : root.Consistent) :
    (root.check = .ok () ↔ ∀ n ∈ root.preorder, n.kind ≠ .error ∧ n.flags.missing = false) ∧
      (∀ fault, root.check = .error fault ↔ ∃ n, root.FirstFault n ∧
        fault = .located (n.span.start.row + 1) n.span.start.column) ∧
      ∀ fault, root.check = .error fault →
        (∃ n, root.FirstFault n ∧ fault.message = "syntax error at line " ++
          toString (n.span.start.row + 1) ++ ", column " ++ toString n.span.start.column) ∧
        fault.message ≠ "syntax error" := by
  have hannounces := h.announces
  have herror : ∀ fault, root.check = .error fault ↔ ∃ n, root.FirstFault n ∧
      fault = .located (n.span.start.row + 1) n.span.start.column := by
    intro fault
    constructor
    · intro hcheck
      by_cases hfault : root.HasFault
      · obtain ⟨n, hn⟩ := exists_firstFault hfault
        rw [hannounces.check_of_firstFault hn] at hcheck
        exact ⟨n, hn, (Except.error.inj hcheck).symm⟩
      · rw [hannounces.check_eq_ok_iff.2 hfault] at hcheck
        cases hcheck
    · rintro ⟨n, hn, rfl⟩
      exact hannounces.check_of_firstFault hn
  refine ⟨?_, herror, fun fault hcheck => ?_⟩
  · rw [hannounces.check_eq_ok_iff]
    simp [HasFault, IsFault]
  · obtain ⟨n, hn, rfl⟩ := (herror fault).1 hcheck
    exact ⟨⟨n, hn, Fault.message_located _ _⟩, Fault.message_located_ne _ _⟩

/-- The bracket that was added to close an element reference. -/
def addedBracket : Node :=
  .mk (.other "]") ⟨4, 4, ⟨0, 4⟩, ⟨0, 4⟩⟩ ⟨false, true, true⟩ [] []

/-- The tree of `foo[` and `class` on two lines: a bracket is missing, and the word is an error. -/
def twofoldTree : Node :=
  .mk (.other "program") ⟨0, 11, ⟨0, 0⟩, ⟨2, 0⟩⟩ ⟨true, false, true⟩ []
    [.mk .elementReference ⟨0, 4, ⟨0, 0⟩, ⟨0, 4⟩⟩ ⟨true, false, true⟩ [(.object, 0)]
      [.mk .identifier ⟨0, 3, ⟨0, 0⟩, ⟨0, 3⟩⟩ ⟨true, false, false⟩ [] [], addedBracket],
      .mk .error ⟨5, 10, ⟨1, 0⟩, ⟨1, 5⟩⟩ ⟨true, false, true⟩ [] []]

theorem check_locates_first_fault_twofold : twofoldTree.Consistent ∧
    twofoldTree.FirstFault addedBracket ∧ twofoldTree.check = .error (.located 1 4) := by
  have hconsistent : twofoldTree.Consistent := by decide
  have hfirst : twofoldTree.FirstFault addedBracket := by
    refine ⟨twofoldTree.preorder.take 3, twofoldTree.preorder.drop 4, rfl, .inr rfl, ?_⟩
    decide
  obtain ⟨_, herror, _⟩ := check_locates_first_fault twofoldTree hconsistent
  exact ⟨hconsistent, hfirst, (herror _).2 ⟨addedBracket, hfirst, rfl⟩⟩

end Syntax
end Fallow
