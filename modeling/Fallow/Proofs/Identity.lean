import Fallow.Proofs.Origin
import Mathlib.Data.List.Nodup

/-!
# Identity and bare names

Two definitions are the same when kind, full name and location agree, whatever their bare names. In
a tree whose declarations stand at places of their own the bare name follows: the place gives the
declaring node, and the node gives the name. Only an accessor argument gives two names, that of the
reader and that of the writer, and these differ in the full name as well.
-/

namespace Fallow

open Syntax

/-- The nodes at whose place a definition can be recorded. -/
def Syntax.Kind.isDeclaration : Kind → Bool
  | .classDecl | .moduleDecl | .methodDecl | .singletonMethodDecl | .assignment
  | .operatorAssignment | .simpleSymbol | .delimitedSymbol | .string => true
  | _ => false

namespace Syntax.Node

def place (n : Node) : Point × Point :=
  (n.span.start, n.span.stop)

def declarations (root : Node) : List Node :=
  root.preorder.filter (·.kind.isDeclaration)

/-- No two declarations of the tree stand at the same place. -/
def Unambiguous (root : Node) : Prop :=
  (root.declarations.map place).Nodup

instance (root : Node) : Decidable root.Unambiguous :=
  inferInstanceAs (Decidable (List.Nodup _))

theorem Unambiguous.eq_of_place_eq {root a b : Node} (h : root.Unambiguous)
    (ha : a ∈ root.preorder) (hb : b ∈ root.preorder) (hka : a.kind.isDeclaration = true)
    (hkb : b.kind.isDeclaration = true) (hplace : a.place = b.place) : a = b :=
  List.inj_on_of_nodup_map h (List.mem_filter.2 ⟨ha, hka⟩) (List.mem_filter.2 ⟨hb, hkb⟩) hplace

end Syntax.Node

/-- A reader and a writer of one name never have the same full name. -/
theorem Walk.qualifyMethod_ne_writer (w w' : Walk) (onSelf onSelf' : Bool) (name : String) :
    w.qualifyMethod onSelf name ≠ w'.qualifyMethod onSelf' (name ++ "=") := by
  -- the separator before the name would have to make up for the sign behind it
  have hshape : ∀ (v : Walk) (b : Bool) (t : String), ∃ front : List Char,
      (v.qualifyMethod b t).toList = front ++ t.toList ∧
        (front = [] ∨ ∃ outer mark, front = outer ++ [mark] ∧ mark ≠ '=') := by
    intro v b t
    unfold Walk.qualifyMethod
    split
    · exact ⟨[], by simp, .inl rfl⟩
    · refine ⟨v.space.toList ++ (if b then ['.'] else ['#']), ?_, .inr ⟨v.space.toList, ?_⟩⟩
      · cases b <;> simp
      · cases b
        · exact ⟨'#', rfl, by decide⟩
        · exact ⟨'.', rfl, by decide⟩
  intro heq
  obtain ⟨front, hfront, hends⟩ := hshape w onSelf name
  obtain ⟨front', hfront', _⟩ := hshape w' onSelf' (name ++ "=")
  have hlist : front ++ name.toList = front' ++ (name.toList ++ ['=']) := by
    rw [← hfront, heq, hfront', String.toList_append]
    rfl
  rcases hends with rfl | ⟨outer, mark, rfl, hmark⟩
  · have hlength := congrArg List.length hlist
    simp only [List.nil_append, List.length_append, List.length_cons, List.length_nil] at hlength
    omega
  · have hlength : outer.length = front'.length := by
      have := congrArg List.length hlist
      simp only [List.length_append, List.length_cons, List.length_nil] at this
      omega
    rw [List.append_assoc] at hlist
    have hcount := congrArg (List.count '=') (List.append_inj_right hlist hlength)
    simp [hmark] at hcount

namespace Source

variable {src : Source} {n : Node}

/-- Only symbols and plain strings name something; pairs and hashes do not. -/
theorem argument_of_isName {arg : Node} (h : (src.argument arg).isName = true) :
    src.argument arg = src.leafArgument arg := by
  obtain ⟨depth, hdepth⟩ := Nat.exists_eq_succ_of_ne_zero (Nat.ne_of_gt arg.height_pos)
  simp only [argument, hdepth, argumentTo] at h ⊢
  split at h
  · split at h
    · simp [Argument.isName, Argument.kind] at h
    · rfl
  · simp [Argument.isName, Argument.kind] at h
  · rfl

theorem isDeclaration_of_isName {arg : Node} (h : (src.argument arg).isName = true) :
    arg.kind.isDeclaration = true := by
  rw [argument_of_isName h] at h
  unfold leafArgument at h
  cases hk : arg.kind <;> simp_all [Kind.isDeclaration, Argument.isName, Argument.kind]

theorem place_eq_of_location_eq {a b : Node} (h : src.location a = src.location b) :
    a.place = b.place := by
  simp only [location, Location.mk.injEq, true_and] at h
  obtain ⟨hrow, hcolumn, hrow', hcolumn'⟩ := h
  have hpoint : ∀ p q : Point, p.row = q.row → p.column = q.column → p = q := by
    rintro ⟨r, c⟩ ⟨r', c'⟩ rfl rfl
    rfl
  apply Prod.ext
  · apply hpoint <;> simp only [Node.place] <;> omega
  · apply hpoint <;> simp only [Node.place] <;> omega

theorem Declares.mem_preorder {reader writer : Bool} {arg : Node}
    (h : src.Declares n reader writer arg) : arg ∈ n.preorder :=
  Node.mem_preorder_of_mem_inner (mem_inner_of_mem_argumentNodes h.mem)

/-- The bare names that a node gives to definitions of a kind recorded at its place. -/
def namesAt (src : Source) (n : Node) : Definition.Kind → List String
  | .classDef | .moduleDef =>
    (n.field? .name).toList.map fun name => src.bareName (src.bareText name) name
  | .constantDef => (n.field? .left).toList.map fun target => src.bareName (src.text target) target
  | .methodDef | .singletonDef => (n.field? .name).toList.map src.text
  | .accessorDef => [(src.argument n).value, (src.argument n).value ++ "="]

theorem Defines.exists_site {s : Scope} {c : Definition} (h : src.Defines n s c) :
    ∃ site ∈ n.preorder, site.kind.isDeclaration = true ∧ c.location = src.location site ∧
      c.name ∈ src.namesAt site c.kind := by
  cases h with
  | @enclosure kind name hk hn =>
      refine ⟨n, by simp, ?_, rfl, ?_⟩
      · rw [hk]
        cases kind <;> rfl
      · cases kind <;> simp [Scope.constant, Scope.fresh, NamespaceKind.definitionKind, namesAt, hn]
  | constant hk ht htk =>
      refine ⟨n, by simp, ?_, rfl, by simp [Scope.constant, Scope.fresh, namesAt, ht]⟩
      rcases hk with hk | hk <;> rw [hk] <;> rfl
  | @reader writer arg hd hn =>
      exact ⟨arg, hd.mem_preorder, isDeclaration_of_isName hn, rfl, List.mem_cons_self⟩
  | @writer reader arg hd hn =>
      exact ⟨arg, hd.mem_preorder, isDeclaration_of_isName hn, rfl,
        List.mem_cons_of_mem _ List.mem_cons_self⟩
  | @method onSelf name hk hn =>
      refine ⟨n, by simp, ?_, rfl, ?_⟩
      · rw [hk]
        cases onSelf <;> rfl
      · simp only [Scope.method, Scope.fresh]
        split <;> simp [namesAt, hn]

theorem Defines.fullName_of_accessor {s : Scope} {c : Definition} (h : src.Defines n s c)
    (hk : c.kind = .accessorDef) :
    c.fullName = s.walk.qualifyMethod s.body.singleton c.name := by
  cases h with
  | @enclosure kind => cases kind <;> cases hk
  | constant => cases hk
  | reader | writer => rfl
  | method =>
      simp only [Scope.method, Scope.fresh] at hk
      split at hk <;> cases hk

/-- Within one tree the same definition has one bare name. -/
theorem Defines.name_eq {root n n' : Node} {s s' : Scope} {c c' : Definition}
    (hroot : root.Unambiguous) (hn : n ∈ root.preorder) (hn' : n' ∈ root.preorder)
    (h : src.Defines n s c) (h' : src.Defines n' s' c') (hsame : c.same c' = true) :
    c.name = c'.name := by
  obtain ⟨hkind, hfull, hlocation⟩ := Definition.same_iff.1 hsame
  obtain ⟨site, hsite, hdecl, hloc, hname⟩ := h.exists_site
  obtain ⟨site', hsite', hdecl', hloc', hname'⟩ := h'.exists_site
  obtain rfl : site = site' :=
    hroot.eq_of_place_eq (Node.mem_preorder_trans hsite hn) (Node.mem_preorder_trans hsite' hn')
      hdecl hdecl' (place_eq_of_location_eq (hloc.symm.trans (hlocation.trans hloc')))
  rw [← hkind] at hname'
  by_cases hk : c.kind = .accessorDef
  · rw [h.fullName_of_accessor hk, h'.fullName_of_accessor (hkind ▸ hk)] at hfull
    rw [hk] at hname hname'
    simp only [namesAt, List.mem_cons, List.not_mem_nil, or_false] at hname hname'
    rcases hname with hname | hname <;> rcases hname' with hname' | hname'
    · rw [hname, hname']
    · rw [hname, hname'] at hfull
      exact absurd hfull (Walk.qualifyMethod_ne_writer _ _ _ _ _)
    · rw [hname, hname'] at hfull
      exact absurd hfull.symm (Walk.qualifyMethod_ne_writer _ _ _ _ _)
    · rw [hname, hname']
  · have hone : ∀ (o : Option Node) (f : Node → String), c.name ∈ o.toList.map f →
        c'.name ∈ o.toList.map f → c.name = c'.name := by
      intro o f ha hb
      cases o <;> simp_all
    cases hc : c.kind with
    | accessorDef => exact absurd hc hk
    | _ =>
        rw [hc] at hname hname'
        exact hone _ _ hname hname'

end Source

/-- In the index of an unambiguous tree the same definition is recorded under one bare name. -/
theorem Walk.name_eq_of_same {src : Source} {plugins : List Plugin} {root : Node}
    (hroot : root.Unambiguous) {d e : Definition}
    (hd : d ∈ (Walk.run src plugins root).index.definitions.values)
    (he : e ∈ (Walk.run src plugins root).index.definitions.values)
    (hsame : d.same e = true) : d.name = e.name := by
  obtain ⟨c, hc, hdc⟩ := Walk.exists_define_of_mem_run hd
  obtain ⟨c', hc', hec⟩ := Walk.exists_define_of_mem_run he
  obtain ⟨n, s, hn, hdef⟩ := Source.exists_defines hc
  obtain ⟨n', s', hn', hdef'⟩ := Source.exists_defines hc'
  rw [hdc.1, hec.1]
  apply hdef.name_eq hroot hn.mem_preorder hn'.mem_preorder hdef'
  rw [← hdc.same_eq hec]
  exact hsame

end Fallow
