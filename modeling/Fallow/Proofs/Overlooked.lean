import Fallow.Proofs.Identity
import Fallow.Proofs.Regular
import Fallow.Proofs.Uses
import Fallow.Syntax.Fault

/-!
# Calls that are overlooked

A call that is visited and is no declaration is referred to by its name. The visit of a node passes
over some of what is below it; `Overlooks` lists these places. In a regular tree a call is visited
unless it stands in one of them or is itself assigned to.
-/

namespace Fallow

open Syntax

namespace Syntax.Node

/-- A node stands below `n`, but not below the children in the given roles. -/
def Beside (n : Node) (roles : List Field) (c : Node) : Prop :=
  c ∈ n.inner ∧ ∀ f ∈ roles, ∀ d, n.field? f = some d → c ∉ d.preorder

theorem exists_or_beside {n c : Node} (roles : List Field) (hc : c ∈ n.inner) :
    (∃ f ∈ roles, ∃ d, n.field? f = some d ∧ c ∈ d.preorder) ∨ n.Beside roles c := by
  by_cases h : ∃ f ∈ roles, ∃ d, n.field? f = some d ∧ c ∈ d.preorder
  · exact .inl h
  · exact .inr ⟨hc, fun f hf d hd hcd => h ⟨f, hf, d, hd, hcd⟩⟩

/-- The call is the left side of the assignment. -/
structure AssignsTo (n c : Node) : Prop where
  assignment : n.kind.isAssignment = true
  left : n.field? .left = some c
  kind_eq : c.kind = .call

end Syntax.Node

namespace Source

open Syntax.Node

/-- The visit of `n` takes the qualified name apart. -/
def TakesApart (within : Bool) (n q : Node) : Prop :=
  q.kind = .scopeResolution ∧ (n = q ∨ within = false ∧
    (n.kind.isNamespace = true ∧ n.field? .name = some q ∨
      n.kind.isAssignment = true ∧ n.field? .left = some q))

/-- The plain name of what `n` calls or defines. -/
def NamedBy (within : Bool) (n d : Node) : Prop :=
  n.kind = .call ∧ n.field? .method = some d ∨
    n.kind.isMethod = true ∧ n.field? .name = some d ∨
      within = false ∧ n.kind.isNamespace = true ∧ n.field? .name = some d ∧
        d.kind ≠ .scopeResolution

/-- The visit of `n` passes over `c`. -/
inductive Overlooks (src : Source) (within : Bool) (n c : Node) : Prop
  /-- A block attached to a visibility word, and all that is no argument of it. -/
  | attachment (hk : n.kind = .call) (hword : src.declaresVisibility within n = true)
    (hc : c ∈ n.inner) (hargs : ∀ arg ∈ argumentNodes (n.field? .arguments), c ∉ arg.preorder)
  /-- What is on neither side of an operator or an assignment, such as the text of a heredoc. -/
  | aside (hk : n.kind = .binary ∨ n.kind.isAssignment = true) (hc : n.Beside [.left, .right] c)
  /-- The arguments of a call that is assigned to. -/
  | target {target : Node} (ht : n.AssignsTo target) (hc : target.Beside [.receiver] c)
  | path {q : Node} (hq : TakesApart within n q) (hc : q.Beside [.scope] c)
  /-- What is not in the default value of a parameter. -/
  | parameter (hk : n.kind.isParameters = true) (hc : c ∈ n.inner)
    (hvalue : ∀ p ∈ n.named, ∀ value, p.field? .value = some value → c ∉ value.preorder)
  | aliased (hk : n.kind = .aliasDecl) (hc : c ∈ n.inner)
  /-- A key without a value. -/
  | key (hk : n.kind = .pair) (hkey : (n.field? .key).isSome = true)
    (hvalue : n.field? .value = none) (hc : c ∈ n.inner)
  | name {d : Node} (hd : NamedBy within n d) (hc : c ∈ d.preorder)

section Step

variable {src : Source} {within : Bool} {n c d : Node}

theorem not_mem_of_literal {content : String} (hn : n.Regular)
    (hcontent : src.literal? n = some content) (hk : n.kind ≠ .call) (hc : c.kind = .call) :
    c ∉ n.preorder := by
  intro hmem
  rcases mem_preorder_iff.1 hmem with rfl | hinner
  · exact hk hc
  · obtain ⟨d, hd, hcd⟩ := mem_inner.1 hinner
    have hall : n.named.all (·.kind = .stringContent) = true := by
      unfold literal? at hcontent
      split at hcontent
      · assumption
      · cases hcontent
    have hcontent : d.kind = .stringContent := by
      simpa using List.all_eq_true.1 hall d (hn.mem_named_of_mem hd hcd hc)
    have hword : d.kind.isWord = true := by rw [hcontent]; rfl
    exact (hn.of_mem_children hd).not_mem_of_isWord hword hc hcd

/-- There are no calls in the names that a declaration is given. -/
theorem not_mem_of_isName {arg : Node} (harg : arg.Regular)
    (hname : (src.argument arg).isName = true) (hc : c.kind = .call) : c ∉ arg.preorder := by
  rw [argument_of_isName hname] at hname
  unfold leafArgument at hname
  cases hk : arg.kind <;> simp only [hk] at hname
  case simpleSymbol => exact harg.not_mem_of_isWord (by simp [hk, Kind.isWord]) hc
  case string | delimitedSymbol =>
    cases hcontent : src.literal? arg with
    | none => simp [hcontent, Argument.isName, Argument.kind] at hname
    | some content => exact not_mem_of_literal harg hcontent (by simp [hk]) hc
  all_goals simp [Argument.isName, Argument.kind] at hname

/-- The visit of `n` leads to a node at or above `c`. -/
def PassesOn (src : Source) (within : Bool) (n c : Node) : Prop :=
  ∃ s ∈ src.successors within n, c ∈ s.preorder

theorem passesOn_of_named (hn : n.Regular) (hsuccessors : src.successors within n = n.named)
    (hinner : c ∈ n.inner) (hc : c.kind = .call) : src.PassesOn within n c := by
  obtain ⟨d, hd, hcd⟩ := mem_inner.1 hinner
  exact ⟨d, hsuccessors ▸ hn.mem_named_of_mem hd hcd hc, hcd⟩

theorem exists_mem_field_or_rest (f : Field) (hn : n.Regular) (hinner : c ∈ n.inner)
    (hc : c.kind = .call) :
    ∃ s ∈ (n.field? f).toList ++ n.namedExcept [n.field? f], c ∈ s.preorder := by
  obtain ⟨d, hd, hcd⟩ := mem_inner.1 hinner
  refine ⟨d, ?_, hcd⟩
  rw [List.mem_append]
  rcases hn.mem_namedExcept_or [f] hd hcd hc with hrest | ⟨g, hg, hfield⟩
  · exact .inr hrest
  · cases List.mem_singleton.1 hg
    exact .inl (Option.mem_toList.2 hfield)

theorem passesOn_or_of_scope {q : Node} (hq : TakesApart within n q) (hinner : c ∈ q.inner)
    (hsuccessors : ∀ s, q.field? .scope = some s → s ∈ src.successors within n) :
    src.PassesOn within n c ∨ src.Overlooks within n c := by
  rcases exists_or_beside [.scope] hinner with ⟨f, hf, s, hs, hcs⟩ | hbeside
  · cases List.mem_singleton.1 hf
    exact .inl ⟨s, hsuccessors s hs, hcs⟩
  · exact .inr (.path hq hbeside)

theorem passesOn_or_of_isNamespace (hn : n.Regular) (hk : n.kind.isNamespace = true)
    (hinner : c ∈ n.inner) (hc : c.kind = .call) :
    src.PassesOn within n c ∨ src.Overlooks within n c := by
  have hsuccessors := src.successors_of_isNamespace within hk
  cases hname : n.field? .name with
  | none =>
      simp only [namespaceSuccessors, hname] at hsuccessors
      exact .inl (passesOn_of_named hn hsuccessors hinner hc)
  | some name =>
      simp only [namespaceSuccessors, hname] at hsuccessors
      cases within with
      | true => exact .inl (passesOn_of_named hn hsuccessors hinner hc)
      | false =>
          simp only at hsuccessors
          obtain ⟨d, hd, hcd⟩ := mem_inner.1 hinner
          rcases hn.mem_namedExcept_or [.name] hd hcd hc with hrest | ⟨f, hf, hfield⟩
          · rw [List.map_singleton, hname] at hrest
            exact .inl ⟨d, hsuccessors ▸ List.mem_append_right _ hrest, hcd⟩
          · cases List.mem_singleton.1 hf
            cases hname.symm.trans hfield
            by_cases hscope : name.kind = .scopeResolution
            · rcases mem_preorder_iff.1 hcd with rfl | hcd
              · simp [hscope] at hc
              · apply passesOn_or_of_scope ⟨hscope, .inr ⟨rfl, .inl ⟨hk, hname⟩⟩⟩ hcd
                intro s hs
                rw [hsuccessors, scopeOf, if_pos hscope, hs]
                exact List.mem_append_left _ (List.mem_singleton_self s)
            · exact .inr (.name (.inr (.inr ⟨rfl, hk, hname, hscope⟩)) hcd)

theorem passesOn_or_of_isMethod (hn : n.Regular) (hk : n.kind.isMethod = true)
    (hinner : c ∈ n.inner) (hc : c.kind = .call) :
    src.PassesOn within n c ∨ src.Overlooks within n c := by
  obtain ⟨d, hd, hcd⟩ := mem_inner.1 hinner
  rcases hn.mem_namedExcept_or [.name] hd hcd hc with hrest | ⟨f, hf, hfield⟩
  · exact .inl ⟨d, src.successors_of_isMethod within hk ▸ hrest, hcd⟩
  · cases List.mem_singleton.1 hf
    exact .inr (.name (.inr (.inl ⟨hk, hfield⟩)) hcd)

theorem passesOn_or_of_isParameters (hk : n.kind.isParameters = true) (hinner : c ∈ n.inner) :
    src.PassesOn within n c ∨ src.Overlooks within n c := by
  by_cases h : ∃ p ∈ n.named, ∃ value, p.field? .value = some value ∧ c ∈ value.preorder
  · obtain ⟨p, hp, value, hvalue, hcvalue⟩ := h
    have hmem : value ∈ src.successors within n := by
      rw [successors_of_isParameters src within hk]
      exact List.mem_filterMap.2 ⟨p, hp, hvalue⟩
    exact .inl ⟨value, hmem, hcvalue⟩
  · refine .inr (.parameter hk hinner fun p hp value hvalue hcvalue => ?_)
    exact h ⟨p, hp, value, hvalue, hcvalue⟩

/-- The left side of an assignment. -/
theorem passesOn_or_of_target {target : Node} (hk : n.kind.isAssignment = true)
    (ht : n.field? .left = some target) (htarget : target.Regular)
    (hmem : c ∈ target.preorder) (hc : c.kind = .call) :
    src.PassesOn within n c ∨ n.AssignsTo c ∨ src.Overlooks within n c := by
  have hsuccessors : ∀ {s}, s ∈ targetSuccessors within target → s ∈ src.successors within n := by
    intro s hs
    rw [successors_of_isAssignment src within hk, ht]
    exact List.mem_append_left _ (List.mem_flatMap.2 ⟨target, List.mem_singleton_self _, hs⟩)
  have hself : targetSuccessors within target = [target] → src.PassesOn within n c := fun h =>
    ⟨target, hsuccessors (h ▸ List.mem_singleton_self target), hmem⟩
  have hinner : target.kind ≠ .call → c ∈ target.inner := by
    intro hne
    rcases mem_preorder_iff.1 hmem with rfl | hinner
    · exact absurd hc hne
    · exact hinner
  have hword : target.kind.isWord = true → False := fun hword =>
    htarget.not_mem_of_isWord hword hc hmem
  cases htk : target.kind
  case constant | identifier | instanceVariable | classVariable | globalVariable =>
    exact absurd (by simp [htk, Kind.isWord]) hword
  case scopeResolution =>
    cases within with
    | true => exact .inl (hself (by simp [targetSuccessors, htk]))
    | false =>
        have hstep : src.PassesOn false n c ∨ src.Overlooks false n c :=
          passesOn_or_of_scope ⟨htk, .inr ⟨rfl, .inr ⟨hk, ht⟩⟩⟩ (hinner (by simp [htk]))
            fun s hs => hsuccessors (by simp [targetSuccessors, htk, hs])
        exact hstep.imp_right .inr
  case call =>
    rcases mem_preorder_iff.1 hmem with rfl | hinner
    · exact .inr (.inl ⟨hk, ht, htk⟩)
    · rcases exists_or_beside [.receiver] hinner with ⟨f, hf, s, hs, hcs⟩ | hbeside
      · cases List.mem_singleton.1 hf
        exact .inl ⟨s, hsuccessors (by simp [targetSuccessors, htk, hs]), hcs⟩
      · exact .inr (.inr (.target ⟨hk, ht, htk⟩ hbeside))
  case elementReference =>
    obtain ⟨s, hs, hcs⟩ :=
      exists_mem_field_or_rest .object htarget (hinner (by simp [htk])) hc
    exact .inl ⟨s, hsuccessors (by simpa [targetSuccessors, htk] using hs), hcs⟩
  all_goals exact .inl (hself (by simp [targetSuccessors, htk]))

theorem passesOn_or_of_isAssignment (hn : n.Regular) (hk : n.kind.isAssignment = true)
    (hinner : c ∈ n.inner) (hc : c.kind = .call) :
    src.PassesOn within n c ∨ n.AssignsTo c ∨ src.Overlooks within n c := by
  rcases exists_or_beside [.left, .right] hinner with ⟨f, hf, d, hd, hcd⟩ | hbeside
  · simp only [List.mem_cons, List.not_mem_nil, or_false] at hf
    rcases hf with rfl | rfl
    · exact passesOn_or_of_target hk hd (hn.of_mem_children (mem_children_of_field? hd)) hcd hc
    · have hmem : d ∈ src.successors within n := by
        rw [successors_of_isAssignment src within hk, hd]
        exact List.mem_append_right _ (List.mem_singleton_self d)
      exact .inl ⟨d, hmem, hcd⟩
  · exact .inr (.inr (.aside (.inr hk) hbeside))

theorem mem_callSuccessors_of_arg {arg : Node} (harg : arg ∈ argumentNodes (n.field? .arguments))
    (hname : (src.argument arg).isName = false) : arg ∈ src.callSuccessors within n := by
  have hnameless : arg ∈ src.nameless (argumentNodes (n.field? .arguments)) :=
    List.mem_filter.2 ⟨harg, by simp [hname]⟩
  simp only [callSuccessors]
  split
  · exact List.mem_append_left _ hnameless
  · split
    · exact hnameless
    · exact List.mem_append_left _ (List.mem_append_right _ harg)

theorem mem_callSuccessors_of_rest (hword : src.declaresVisibility within n = false)
    (hrest : d ∈ n.namedExcept [n.field? .receiver, n.field? .method, n.field? .arguments]) :
    d ∈ src.callSuccessors within n := by
  simp only [callSuccessors, hword]
  split <;> exact List.mem_append_right _ hrest

theorem mem_callSuccessors_of_receiver (hreceiver : n.field? .receiver = some d) :
    d ∈ src.callSuccessors within n := by
  simp [callSuccessors, declaresAccessors, declaresVisibility, hreceiver]

/-- The list of arguments is no call, and a call below it stands in an argument. -/
theorem exists_arg_of_mem (hn : n.Regular) (harguments : n.field? .arguments = some d)
    (hcd : c ∈ d.preorder) (hc : c.kind = .call) :
    ∃ arg ∈ argumentNodes (n.field? .arguments), c ∈ arg.preorder := by
  rcases mem_preorder_iff.1 hcd with rfl | hinner
  · exact absurd hc (hn.lists n (mem_preorder_self n) c harguments)
  · obtain ⟨arg, harg, hcarg⟩ := mem_inner.1 hinner
    have hlist := hn.of_mem_children (mem_children_of_field? harguments)
    have hcomment : arg.kind ≠ .comment := fun hcomment =>
      (hlist.of_mem_children harg).not_mem_of_isWord (by simp [hcomment, Kind.isWord]) hc hcarg
    have hnamed := hlist.mem_named_of_mem harg hcarg hc
    exact ⟨arg, mem_argumentNodes.2 ⟨d, harguments, hnamed, hcomment⟩, hcarg⟩

theorem passesOn_or_of_call (hn : n.Regular) (hk : n.kind = .call) (hinner : c ∈ n.inner)
    (hc : c.kind = .call) : src.PassesOn within n c ∨ src.Overlooks within n c := by
  have hsuccessors : src.successors within n = src.callSuccessors within n := by
    simp only [successors, hk]
  by_cases hargs : ∃ arg ∈ argumentNodes (n.field? .arguments), c ∈ arg.preorder
  · obtain ⟨arg, harg, hcarg⟩ := hargs
    have hregular : arg.Regular :=
      hn.of_mem (mem_preorder_of_mem_inner (mem_inner_of_mem_argumentNodes harg))
    have hname : (src.argument arg).isName = false := by
      rw [← Bool.not_eq_true]
      exact fun hname => not_mem_of_isName hregular hname hc hcarg
    exact .inl ⟨arg, hsuccessors ▸ mem_callSuccessors_of_arg harg hname, hcarg⟩
  · have hout : ∀ arg ∈ argumentNodes (n.field? .arguments), c ∉ arg.preorder :=
      fun arg harg hcarg => hargs ⟨arg, harg, hcarg⟩
    cases hword : src.declaresVisibility within n with
    | true => exact .inr (.attachment hk hword hinner hout)
    | false =>
        obtain ⟨d, hd, hcd⟩ := mem_inner.1 hinner
        rcases hn.mem_namedExcept_or [.receiver, .method, .arguments] hd hcd hc with
          hrest | ⟨f, hf, hfield⟩
        · exact .inl ⟨d, hsuccessors ▸ mem_callSuccessors_of_rest hword hrest, hcd⟩
        · simp only [List.mem_cons, List.not_mem_nil, or_false] at hf
          rcases hf with rfl | rfl | rfl
          · exact .inl ⟨d, hsuccessors ▸ mem_callSuccessors_of_receiver hfield, hcd⟩
          · exact .inr (.name (.inl ⟨hk, hfield⟩) hcd)
          · exact absurd (exists_arg_of_mem hn hfield hcd hc) hargs

/-- A call below a node is passed on to a successor, is assigned to or is overlooked. -/
theorem passesOn_or_overlooks (hn : n.Regular) (hinner : c ∈ n.inner) (hc : c.kind = .call) :
    src.PassesOn within n c ∨ n.AssignsTo c ∨ src.Overlooks within n c := by
  have hword : n.kind.isWord = true → False := fun hword =>
    hn.not_mem_of_isWord hword hc (mem_preorder_of_mem_inner hinner)
  cases hk : n.kind
  case classDecl | moduleDecl =>
    exact (passesOn_or_of_isNamespace hn (by simp [hk, Kind.isNamespace]) hinner hc).imp_right .inr
  case methodDecl | singletonMethodDecl =>
    exact (passesOn_or_of_isMethod hn (by simp [hk, Kind.isMethod]) hinner hc).imp_right .inr
  case methodParameters | blockParameters | lambdaParameters =>
    exact (passesOn_or_of_isParameters (by simp [hk, Kind.isParameters]) hinner).imp_right .inr
  case assignment | operatorAssignment =>
    exact passesOn_or_of_isAssignment hn (by simp [hk, Kind.isAssignment]) hinner hc
  case call => exact (passesOn_or_of_call hn hk hinner hc).imp_right .inr
  case identifier | constant => exact absurd (by simp [hk, Kind.isWord]) hword
  case aliasDecl => exact .inr (.inr (.aliased hk hinner))
  case scopeResolution =>
    have hstep : src.PassesOn within n c ∨ src.Overlooks within n c :=
      passesOn_or_of_scope ⟨hk, .inl rfl⟩ hinner fun s hs => by simp [successors, hk, hs]
    exact hstep.imp_right .inr
  case singletonClass =>
    obtain ⟨s, hs, hcs⟩ := exists_mem_field_or_rest .value hn hinner hc
    exact .inl ⟨s, by simpa [successors, hk] using hs, hcs⟩
  case elementReference =>
    obtain ⟨s, hs, hcs⟩ := exists_mem_field_or_rest .object hn hinner hc
    exact .inl ⟨s, by simpa [successors, hk] using hs, hcs⟩
  case binary =>
    rcases exists_or_beside [.left, .right] hinner with ⟨f, hf, d, hd, hcd⟩ | hbeside
    · simp only [List.mem_cons, List.not_mem_nil, or_false] at hf
      rcases hf with rfl | rfl <;> exact .inl ⟨d, by simp [successors, hk, hd], hcd⟩
    · exact .inr (.inr (.aside (.inl hk) hbeside))
  case blockArgument =>
    obtain ⟨d, hd, hcd⟩ := mem_inner.1 hinner
    have hsymbol : d.kind ≠ .simpleSymbol := fun hsymbol =>
      (hn.of_mem_children hd).not_mem_of_isWord (by simp [hsymbol, Kind.isWord]) hc hcd
    exact .inl ⟨d, by simp [successors, hk, hsymbol, hn.mem_named_of_mem hd hcd hc], hcd⟩
  case pair =>
    by_cases halone : (n.field? .key).isSome = true ∧ n.field? .value = none
    · exact .inr (.inr (.key hk halone.1 halone.2 hinner))
    · refine .inl (passesOn_of_named hn ?_ hinner hc)
      simp only [successors, hk]
      rw [if_neg]
      simpa using halone
  all_goals exact .inl (passesOn_of_named hn (by simp only [successors, hk]) hinner hc)

theorem declaresAccessors_of_declaresVisibility (h : src.declaresVisibility within n = true) :
    src.declaresAccessors within n = false := by
  simp only [declaresVisibility, Bool.and_eq_true, Option.isSome_iff_exists] at h
  obtain ⟨_, visibility, hword⟩ := h
  simp [declaresAccessors, accessors?_of_ofText? hword]

theorem exists_target_or_right {s : Node} (hk : n.kind.isAssignment = true)
    (hs : s ∈ src.successors within n) :
    (∃ target, n.field? .left = some target ∧ s ∈ targetSuccessors within target) ∨
      n.field? .right = some s := by
  rw [successors_of_isAssignment src within hk, List.mem_append, List.mem_flatMap] at hs
  simpa using hs

/-- What is on the left of an assignment is not on its right. -/
theorem not_mem_right (hn : n.Regular) {target right : Node} (ht : n.field? .left = some target)
    (hc : c ∈ target.preorder) (hright : n.field? .right = some right) : c ∉ right.preorder := by
  intro hmem
  cases hn.eq_of_mem_preorder (mem_children_of_field? ht) (mem_children_of_field? hright) hc hmem
  cases hn.field_inj ht hright

theorem not_assignsTo_of_passesOn (hn : n.Regular) (hpass : src.PassesOn within n c) :
    ¬ n.AssignsTo c := by
  rintro ⟨hk, hleft, hc⟩
  obtain ⟨s, hs, hcs⟩ := hpass
  rcases exists_target_or_right hk hs with ⟨target, ht, hs⟩ | hright
  · cases hleft.symm.trans ht
    simp only [targetSuccessors, hc, Option.mem_toList] at hs
    have hlt := height_lt_of_mem_children (mem_children_of_field? hs)
    have hle := height_le_of_mem_preorder hcs
    omega
  · exact not_mem_right hn hleft (mem_preorder_self c) hright hcs

theorem not_mem_of_takesApart (hn : n.Regular) {q s : Node} (hq : TakesApart within n q)
    (hc : q.Beside [.scope] c) (hs : s ∈ src.successors within n) : c ∉ s.preorder := by
  obtain ⟨hinner, hscope⟩ := hc
  have hcq := mem_preorder_of_mem_inner hinner
  obtain ⟨hk, rfl | ⟨rfl, ⟨hspace, hname⟩ | ⟨hassign, hleft⟩⟩⟩ := hq
  · simp only [successors, hk, Option.mem_toList] at hs
    exact hscope .scope List.mem_cons_self s hs
  · rw [successors_of_isNamespace src false hspace] at hs
    simp only [namespaceSuccessors, hname, List.mem_append, scopeOf, if_pos hk,
      Option.mem_toList] at hs
    rcases hs with hs | hs
    · exact hscope .scope List.mem_cons_self s hs
    · intro hcs
      cases hn.eq_of_mem_preorder (mem_children_of_mem_namedExcept hs)
        (mem_children_of_field? hname) hcs hcq
      exact not_mem_namedExcept_of_mem List.mem_cons_self hs
  · rcases exists_target_or_right hassign hs with ⟨target, ht, hs⟩ | hright
    · cases hleft.symm.trans ht
      simp only [targetSuccessors, hk, Bool.false_eq_true, if_false, Option.mem_toList] at hs
      exact hscope .scope List.mem_cons_self s hs
    · exact not_mem_right hn hleft hcq hright

theorem not_mem_of_namedBy (hn : n.Regular) {s : Node} (hd : NamedBy within n d)
    (hc : c ∈ d.preorder) (hs : s ∈ src.successors within n) : c ∉ s.preorder := by
  -- Above `c` there is only the child `d`.
  have honly : ∀ {e : Node}, e ∈ n.children → d ∈ n.children → c ∈ e.preorder → e = d :=
    fun he hd hce => hn.eq_of_mem_preorder he hd hce hc
  intro hcs
  rcases hd with ⟨hk, hmethod⟩ | ⟨hk, hname⟩ | ⟨rfl, hk, hname, hplain⟩
  · have hdn := mem_children_of_field? hmethod
    simp only [successors, hk] at hs
    rcases mem_of_mem_callSuccessors hs with hreceiver | harg | hrest
    · cases honly (mem_children_of_field? hreceiver) hdn hcs
      cases hn.field_inj hmethod hreceiver
    · obtain ⟨a, ha, harg, _⟩ := mem_argumentNodes.1 harg
      have hca : c ∈ a.preorder := mem_preorder_of_mem_inner
        (mem_inner_trans (mem_inner_of_mem_named harg) hcs)
      cases honly (mem_children_of_field? ha) hdn hca
      cases hn.field_inj hmethod ha
    · cases honly (mem_children_of_mem_namedExcept hrest) hdn hcs
      exact not_mem_namedExcept_of_mem (by simp [hmethod]) hrest
  · rw [successors_of_isMethod src within hk] at hs
    cases honly (mem_children_of_mem_namedExcept hs) (mem_children_of_field? hname) hcs
    exact not_mem_namedExcept_of_mem (by simp [hname]) hs
  · rw [successors_of_isNamespace src false hk] at hs
    simp only [namespaceSuccessors, hname, List.mem_append, scopeOf, if_neg hplain,
      Option.toList_none, List.not_mem_nil, false_or] at hs
    cases honly (mem_children_of_mem_namedExcept hs) (mem_children_of_field? hname) hcs
    exact not_mem_namedExcept_of_mem List.mem_cons_self hs

/-- What is passed on to a successor is not overlooked. -/
theorem not_overlooks_of_passesOn (hn : n.Regular) (hpass : src.PassesOn within n c) :
    ¬ src.Overlooks within n c := by
  obtain ⟨s, hs, hcs⟩ := hpass
  intro h
  cases h with
  | attachment hk hword hc hargs =>
      simp only [successors, hk, callSuccessors, declaresAccessors_of_declaresVisibility hword,
        hword, Bool.false_eq_true, if_false, if_true] at hs
      exact hargs s (List.mem_filter.1 hs).1 hcs
  | aside hk hc =>
      rcases hk with hk | hk
      · simp only [successors, hk, List.mem_append, Option.mem_toList] at hs
        rcases hs with hs | hs
        · exact hc.2 .left (by simp) s hs hcs
        · exact hc.2 .right (by simp) s hs hcs
      · rcases exists_target_or_right hk hs with ⟨target, ht, hs⟩ | hright
        · have hct : c ∈ target.preorder := by
            rcases targetSuccessors_eq_or within target with hself | hbelow
            · rw [hself, List.mem_singleton] at hs
              exact hs ▸ hcs
            · exact mem_preorder_of_mem_inner
                (mem_inner_trans (mem_inner_of_mem_children (hbelow s hs)) hcs)
          exact hc.2 .left (by simp) target ht hct
        · exact hc.2 .right (by simp) s hright hcs
  | target ht hc =>
      rcases exists_target_or_right ht.assignment hs with ⟨target, hleft, hs⟩ | hright
      · cases ht.left.symm.trans hleft
        simp only [targetSuccessors, ht.kind_eq, Option.mem_toList] at hs
        exact hc.2 .receiver List.mem_cons_self s hs hcs
      · exact not_mem_right hn ht.left (mem_preorder_of_mem_inner hc.1) hright hcs
  | path hq hc => exact not_mem_of_takesApart hn hq hc hs hcs
  | parameter hk hc hvalue =>
      rw [successors_of_isParameters src within hk] at hs
      obtain ⟨p, hp, hs⟩ := List.mem_filterMap.1 hs
      exact hvalue p hp s hs hcs
  | aliased hk hc => simp [successors, hk] at hs
  | key hk hkey hvalue hc => simp [successors, hk, hkey, hvalue] at hs
  | name hd hc => exact not_mem_of_namedBy hn hd hc hs hcs

theorem Overlooks.mem_inner (h : src.Overlooks within n c) : c ∈ n.inner := by
  cases h with
  | aside _ hc => exact hc.1
  | target ht hc =>
      exact mem_inner_trans (mem_inner_of_field? ht.left) (mem_preorder_of_mem_inner hc.1)
  | path hq hc =>
      have hcq := mem_preorder_of_mem_inner hc.1
      obtain ⟨_, rfl | ⟨_, ⟨_, hname⟩ | ⟨_, hleft⟩⟩⟩ := hq
      · exact hc.1
      · exact mem_inner_trans (mem_inner_of_field? hname) hcq
      · exact mem_inner_trans (mem_inner_of_field? hleft) hcq
  | name hd hc =>
      rcases hd with ⟨_, hfield⟩ | ⟨_, hfield⟩ | ⟨_, _, hfield, _⟩ <;>
        exact mem_inner_trans (mem_inner_of_field? hfield) hc
  | _ => assumption

end Step

section Run

variable {src : Source} {inMethod within : Bool} {root n c : Node}

/-- Somewhere on the way from the root the call is assigned to or overlooked. -/
def Missed (src : Source) (inMethod : Bool) (root c : Node) : Prop :=
  ∃ within n, src.Visits inMethod root within n ∧ (n.AssignsTo c ∨ src.Overlooks within n c)

theorem visits_or_missed (hroot : root.Regular) (hmem : c ∈ root.preorder)
    (hc : c.kind = .call) :
    (∃ within, src.Visits inMethod root within c) ∨ src.Missed inMethod root c := by
  induction hh : root.height using Nat.strongRecOn generalizing inMethod root with
  | ind height ih =>
      rcases mem_preorder_iff.1 hmem with rfl | hinner
      · exact .inl ⟨inMethod, .start⟩
      · rcases passesOn_or_overlooks hroot hinner hc with ⟨s, hs, hcs⟩ | hmissed
        · have hsroot := mem_inner_of_mem_successors hs
          have hstep := Visits.start.successor hs
          rcases ih s.height (hh ▸ height_lt_of_mem_inner hsroot)
              (hroot.of_mem (mem_preorder_of_mem_inner hsroot)) hcs rfl with
            ⟨within, hvisits⟩ | ⟨within, n, hn, hmissed⟩
          · exact .inl ⟨within, hstep.trans hvisits⟩
          · exact .inr ⟨within, n, hstep.trans hn, hmissed⟩
        · exact .inr ⟨inMethod, root, .start, hmissed⟩

theorem Missed.not_visits (hroot : root.Regular) (h : src.Missed inMethod root c) :
    ¬ src.Visits inMethod root within c := by
  obtain ⟨m, n, hn, hmissed⟩ := h
  intro hvisits
  have hinner : c ∈ n.inner := by
    rcases hmissed with hassigns | hoverlooks
    · exact mem_inner_of_field? hassigns.left
    · exact hoverlooks.mem_inner
  have hregular := hroot.of_mem hn.mem_preorder
  have hfrom := hn.of_mem_preorder hroot hvisits (mem_preorder_of_mem_inner hinner)
  rcases hfrom.eq_or_exists_successor with ⟨_, rfl⟩ | ⟨s, hs, hsc⟩
  · exact absurd (height_lt_of_mem_inner hinner) (Nat.lt_irrefl _)
  · have hpass : src.PassesOn m n c := ⟨s, hs, hsc.mem_preorder⟩
    rcases hmissed with hassigns | hoverlooks
    · exact not_assignsTo_of_passesOn hregular hpass hassigns
    · exact not_overlooks_of_passesOn hregular hpass hoverlooks

end Run

end Source

namespace Walk

variable {src : Source} {plugins : List Plugin} {root c : Node} {within : Bool}

theorem mem_referenceListing_of_visits (hvisits : src.Visits false root within c)
    (hk : c.kind = .call) (haccessors : src.declaresAccessors within c = false)
    (hvisibility : src.declaresVisibility within c = false) :
    ⟨src.callee c, src.location c, .syntactic⟩ ∈
      (run src plugins root).index.referenceListing :=
  mem_referenceListing_run_iff_uses.2 ⟨within, c, hvisits, .calls (.call hk haccessors hvisibility)⟩

/-- In a regular tree the calls that are visited are those that are neither assigned to nor
overlooked on the way from the root. Each of them is referred to, unless it is a declaration. -/
theorem visits_call_iff (src : Source) (plugins : List Plugin) (root c : Node)
    (hroot : root.Regular) (hmem : c ∈ root.preorder) (hk : c.kind = .call) :
    ((∃ within, src.Visits false root within c) ↔ ¬ src.Missed false root c) ∧
      ∀ within, src.Visits false root within c → src.declaresAccessors within c = false →
        src.declaresVisibility within c = false →
          ⟨src.callee c, src.location c, .syntactic⟩ ∈
            (run src plugins root).index.referenceListing := by
  refine ⟨⟨?_, ?_⟩, ?_⟩
  · rintro ⟨within, hvisits⟩ hmissed
    exact hmissed.not_visits hroot hvisits
  · intro hmissed
    exact (Source.visits_or_missed hroot hmem hk).resolve_right hmissed
  · intro within hvisits haccessors hvisibility
    exact mem_referenceListing_of_visits hvisits hk haccessors hvisibility

/-- The lines `private(:a) { b() }` and `c()`. -/
def attachedBlock : Source :=
  ⟨"a.rb", Utf8.encode "private(:a) { b() }\nc()\n"⟩

def attachedCall : Node :=
  .mk .call ⟨14, 17, ⟨0, 14⟩, ⟨0, 17⟩⟩ ⟨true, false, false⟩ [(.arguments, 1), (.method, 0)]
    [.mk .identifier ⟨14, 15, ⟨0, 14⟩, ⟨0, 15⟩⟩ ⟨true, false, false⟩ [] [],
      .mk (.other "argument_list") ⟨15, 17, ⟨0, 15⟩, ⟨0, 17⟩⟩ ⟨true, false, false⟩ [] []]

def attachedSymbol : Node :=
  .mk .simpleSymbol ⟨8, 10, ⟨0, 8⟩, ⟨0, 10⟩⟩ ⟨true, false, false⟩ [] []

def attachedWord : Node :=
  .mk .call ⟨0, 19, ⟨0, 0⟩, ⟨0, 19⟩⟩ ⟨true, false, false⟩ [(.arguments, 1), (.method, 0)]
    [.mk .identifier ⟨0, 7, ⟨0, 0⟩, ⟨0, 7⟩⟩ ⟨true, false, false⟩ [] [],
      .mk (.other "argument_list") ⟨7, 11, ⟨0, 7⟩, ⟨0, 11⟩⟩ ⟨true, false, false⟩ []
        [attachedSymbol],
      .mk (.other "block") ⟨12, 19, ⟨0, 12⟩, ⟨0, 19⟩⟩ ⟨true, false, false⟩ []
        [.mk (.other "block_body") ⟨14, 17, ⟨0, 14⟩, ⟨0, 17⟩⟩ ⟨true, false, false⟩ []
          [attachedCall]]]

def detachedCall : Node :=
  .mk .call ⟨20, 23, ⟨1, 0⟩, ⟨1, 3⟩⟩ ⟨true, false, false⟩ [(.arguments, 1), (.method, 0)]
    [.mk .identifier ⟨20, 21, ⟨1, 0⟩, ⟨1, 1⟩⟩ ⟨true, false, false⟩ [] [],
      .mk (.other "argument_list") ⟨21, 23, ⟨1, 1⟩, ⟨1, 3⟩⟩ ⟨true, false, false⟩ [] []]

def attachedTree : Node :=
  .mk (.other "program") ⟨0, 24, ⟨0, 0⟩, ⟨2, 0⟩⟩ ⟨true, false, false⟩ []
    [attachedWord, detachedCall]

theorem regular_attachedTree : attachedTree.Regular where
  nodup := by
    have hkeys : (attachedTree.preorder.map fun n => (n.kind, n.span)).Nodup := by decide
    exact hkeys.of_map _
  siblings := by decide
  roles := by decide
  words := by decide
  tokens := by decide
  lists := by decide

theorem visits_call_iff_attached : attachedTree.check = .ok () ∧ attachedTree.Regular ∧
    attachedCall ∈ attachedTree.preorder ∧ detachedCall ∈ attachedTree.preorder ∧
    (¬ ∃ within, attachedBlock.Visits false attachedTree within attachedCall) ∧
    ⟨"b", ⟨"a.rb", 1, 14, 1, 17⟩, .syntactic⟩ ∉
      (run attachedBlock [] attachedTree).index.referenceListing ∧
    ⟨"c", ⟨"a.rb", 2, 0, 2, 3⟩, .syntactic⟩ ∈
      (run attachedBlock [] attachedTree).index.referenceListing := by
  have hinner : attachedCall ∈ attachedWord.inner := by
    simp [Node.inner, attachedWord, Node.children, Node.preorderAll, Node.preorder]
  have hlost : attachedCall ∈ attachedTree.preorder :=
    List.mem_cons_of_mem _ (List.mem_append_left _ (Node.mem_preorder_of_mem_inner hinner))
  have hfound : detachedCall ∈ attachedTree.preorder :=
    Node.mem_preorder_of_mem_inner
      (Node.mem_inner_of_mem_children (List.mem_cons_of_mem _ List.mem_cons_self))
  have hword : attachedBlock.Visits false attachedTree false attachedWord :=
    Source.Visits.start.successor List.mem_cons_self
  have hcall : attachedBlock.Visits false attachedTree false detachedCall :=
    Source.Visits.start.successor (List.mem_cons_of_mem _ List.mem_cons_self)
  have hmissed : attachedBlock.Missed false attachedTree attachedCall := by
    refine ⟨false, attachedWord, hword, .inr (.attachment rfl (by decide) hinner ?_)⟩
    intro arg harg hcall
    rw [List.mem_singleton.1 (harg : arg ∈ [attachedSymbol])] at hcall
    cases List.mem_singleton.1 (hcall : attachedCall ∈ [attachedSymbol])
  refine ⟨rfl, regular_attachedTree, hlost, hfound, ?_, ?_, ?_⟩
  · rw [(visits_call_iff attachedBlock [] attachedTree attachedCall regular_attachedTree hlost
      rfl).1]
    exact fun h => h hmissed
  · intro hr
    obtain ⟨d, hd, hr⟩ := mem_referenceListing_run.1 hr
    have hnames : ∀ d ∈ fileDeeds attachedBlock attachedTree, ∀ r ∈ d.references [],
        r.name ≠ "b" := by decide
    exact hnames d hd _ hr rfl
  · have hname : attachedBlock.callee detachedCall = "c" := by decide
    have hreferred := (visits_call_iff attachedBlock [] attachedTree detachedCall
      regular_attachedTree hfound rfl).2 false hcall (by decide) (by decide)
    rwa [hname] at hreferred

end Walk
end Fallow
