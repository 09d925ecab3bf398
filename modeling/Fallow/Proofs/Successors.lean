import Fallow.Proofs.Outline

/-!
# The successors of a node

The nodes that the visit of a node leads to, apart from everything else that the visit does. They
are children of the node, or children of a child that is not visited itself: an argument list, a
parameter, the left side of an assignment or a qualified name.
-/

namespace Fallow

open Syntax

namespace Syntax.Kind

def isNamespace : Kind → Bool
  | .classDecl | .moduleDecl => true
  | _ => false

def isMethod : Kind → Bool
  | .methodDecl | .singletonMethodDecl => true
  | _ => false

def isParameters : Kind → Bool
  | .methodParameters | .blockParameters | .lambdaParameters => true
  | _ => false

def isAssignment : Kind → Bool
  | .assignment | .operatorAssignment => true
  | _ => false

end Syntax.Kind

namespace Source

/-- The name under which a call is recorded. -/
def callee (src : Source) (n : Node) : String :=
  ((n.field? .method).map src.text).getD "call"

/-- The arguments that are not mere names. -/
def nameless (src : Source) (args : List Node) : List Node :=
  args.filter fun arg => !(src.argument arg).isName

def namespaceSuccessors (within : Bool) (n : Node) : List Node :=
  match n.field? .name, within with
  | some name, false => (scopeOf name).toList ++ n.namedExcept [name]
  | _, _ => n.named

def targetSuccessors (within : Bool) (target : Node) : List Node :=
  match target.kind with
  | .constant => if within then [target] else []
  | .scopeResolution => if within then [target] else (target.field? .scope).toList
  | .call => (target.field? .receiver).toList
  | .elementReference =>
    (target.field? .object).toList ++ target.namedExcept [target.field? .object]
  | .identifier | .instanceVariable | .classVariable | .globalVariable => []
  | _ => [target]

/-- A call without a receiver, outside methods, that declares accessors. -/
def declaresAccessors (src : Source) (within : Bool) (n : Node) : Bool :=
  (n.field? .receiver).isNone && !within && (accessors? (src.callee n)).isSome

/-- A call without a receiver, outside methods, that declares a visibility. -/
def declaresVisibility (src : Source) (within : Bool) (n : Node) : Bool :=
  (n.field? .receiver).isNone && !within && (Visibility.ofText? (src.callee n)).isSome

/-- No word declares both. -/
theorem accessors?_of_ofText? {word : String} {visibility : Visibility}
    (h : Visibility.ofText? word = some visibility) : accessors? word = none := by
  have htext : visibility.text = word := by simpa using List.find?_some h
  subst htext
  cases visibility <;> rfl

def callSuccessors (src : Source) (within : Bool) (n : Node) : List Node :=
  let args := argumentNodes (n.field? .arguments)
  let rest := n.namedExcept [n.field? .receiver, n.field? .method, n.field? .arguments]
  if src.declaresAccessors within n then src.nameless args ++ rest
  else if src.declaresVisibility within n then src.nameless args
  else (n.field? .receiver).toList ++ args ++ rest

/-- The nodes that the visit of a node leads to, in order. -/
def successors (src : Source) (within : Bool) (n : Node) : List Node :=
  match n.kind with
  | .classDecl | .moduleDecl => namespaceSuccessors within n
  | .singletonClass => (n.field? .value).toList ++ n.namedExcept [n.field? .value]
  | .methodDecl | .singletonMethodDecl => n.namedExcept [n.field? .name]
  | .methodParameters | .blockParameters | .lambdaParameters =>
    n.named.filterMap (·.field? .value)
  | .assignment | .operatorAssignment =>
    (n.field? .left).toList.flatMap (targetSuccessors within) ++ (n.field? .right).toList
  | .call => src.callSuccessors within n
  | .identifier | .aliasDecl | .constant => []
  | .binary => (n.field? .left).toList ++ (n.field? .right).toList
  | .elementReference => (n.field? .object).toList ++ n.namedExcept [n.field? .object]
  | .blockArgument => n.named.filter (·.kind ≠ .simpleSymbol)
  | .pair => if (n.field? .key).isSome && (n.field? .value).isNone then [] else n.named
  | .scopeResolution => (n.field? .scope).toList
  | _ => n.named

variable {src : Source} {within : Bool} {n : Node}

section Families

variable (src within)

theorem successors_of_isNamespace (hk : n.kind.isNamespace = true) :
    src.successors within n = namespaceSuccessors within n := by
  cases h : n.kind <;> simp [h, Kind.isNamespace] at hk <;> simp only [successors, h]

theorem successors_of_isMethod (hk : n.kind.isMethod = true) :
    src.successors within n = n.namedExcept [n.field? .name] := by
  cases h : n.kind <;> simp [h, Kind.isMethod] at hk <;> simp only [successors, h]

theorem successors_of_isParameters (hk : n.kind.isParameters = true) :
    src.successors within n = n.named.filterMap (·.field? .value) := by
  cases h : n.kind <;> simp [h, Kind.isParameters] at hk <;> simp only [successors, h]

theorem successors_of_isAssignment (hk : n.kind.isAssignment = true) :
    src.successors within n = (n.field? .left).toList.flatMap (targetSuccessors within) ++
      (n.field? .right).toList := by
  cases h : n.kind <;> simp [h, Kind.isAssignment] at hk <;> simp only [successors, h]

end Families

section Visits

theorem visitsAll_append (within : Bool) (as bs : List Act) :
    Act.visitsAll within (as ++ bs) = Act.visitsAll within as ++ Act.visitsAll within bs := by
  induction as with
  | nil => rfl
  | cons a rest ih => rw [List.cons_append, Act.visitsAll, ih, Act.visitsAll, List.append_assoc]

theorem visitsAll_walkAll (within : Bool) (cs : List Node) :
    Act.visitsAll within (walkAll cs) = cs.map (Prod.mk within) := by
  induction cs with
  | nil => rfl
  | cons c rest ih =>
      rw [List.map_cons, ← ih]
      rfl

theorem visitsAll_walk? (within : Bool) (o : Option Node) :
    Act.visitsAll within (Act.walk? o) = o.toList.map (Prod.mk within) := by
  cases o <;> rfl

theorem visitsAll_planNamespace (kind : NamespaceKind) :
    Act.visitsAll within (src.planNamespace kind within n) =
      (namespaceSuccessors within n).map (Prod.mk within) := by
  unfold planNamespace namespaceSuccessors
  cases n.field? .name <;> cases within <;>
    simp [visitsAll_append, visitsAll_walk?, visitsAll_walkAll, Act.visitsAll, Act.visits]

theorem visitsAll_planMethod (onSelf : Bool) :
    Act.visitsAll within (src.planMethod onSelf within n) =
      (n.namedExcept [n.field? .name]).map (Prod.mk true) := by
  unfold planMethod
  simp only [visitsAll_append]
  split <;> simp [Act.visitsAll, Act.visits, visitsAll_walkAll]

theorem visitsAll_planParameters : Act.visitsAll within (planParameters n) =
    (n.named.filterMap (·.field? .value)).map (Prod.mk within) := by
  unfold planParameters
  induction n.named with
  | nil => rfl
  | cons p rest ih =>
      rw [List.flatMap_cons, visitsAll_append, ih, visitsAll_walk?]
      cases hp : p.field? .value <;> simp [hp]

theorem visitsAll_planConstant (target : Node) :
    Act.visitsAll within (src.planConstant target n) =
      (scopeOf target).toList.map (Prod.mk within) := by
  simp [planConstant, visitsAll_append, visitsAll_walk?, Act.visitsAll, Act.visits]

theorem visitsAll_planTarget (reads : Bool) (target : Node) :
    Act.visitsAll within (src.planTarget reads within target n) =
      (targetSuccessors within target).map (Prod.mk within) := by
  have hwalk : Act.visitsAll within [.walk target] = [(within, target)] := rfl
  cases hk : target.kind <;> simp only [planTarget, targetSuccessors, hk]
  case constant =>
    cases within
    · simp [visitsAll_planConstant, scopeOf, hk]
    · simp [isLocalTarget, hk, hwalk]
  case scopeResolution =>
    cases within
    · simp [visitsAll_planConstant, scopeOf, hk]
    · simp [isLocalTarget, hk, hwalk]
  case call =>
    rw [visitsAll_append, visitsAll_walk?]
    cases target.field? .method <;> cases reads <;> simp [Act.visitsAll, Act.visits, call]
  case elementReference =>
    cases reads <;>
      simp [visitsAll_append, visitsAll_walk?, visitsAll_walkAll, Act.visitsAll, Act.visits, call]
  all_goals simp [isLocalTarget, hk, Act.visitsAll, hwalk]

theorem visitsAll_planAccessor (reader writer : Bool) (args : List Node) :
    Act.visitsAll within (args.flatMap (src.planAccessor reader writer)) =
      (src.nameless args).map (Prod.mk within) := by
  induction args with
  | nil => rfl
  | cons arg rest ih =>
      rw [List.flatMap_cons, visitsAll_append, ih, nameless, nameless, List.filter_cons, planAccessor]
      cases (src.argument arg).isName
      · simp [Act.visitsAll, Act.visits, Act.walk]
      · cases reader <;> cases writer <;> simp [Act.visitsAll, Act.visits]

theorem visitsAll_planVisibility (visibility : Visibility) (args : List Node) :
    Act.visitsAll within (src.planVisibility visibility args) =
      (src.nameless args).map (Prod.mk within) := by
  have hargs : Act.visitsAll within (args.map (src.planVisible visibility)) =
      (src.nameless args).map (Prod.mk within) := by
    induction args with
    | nil => rfl
    | cons arg rest ih =>
        rw [List.map_cons, Act.visitsAll, ih, nameless, nameless, List.filter_cons, planVisible]
        cases (src.argument arg).isName <;> simp [Act.visitsAll, Act.visits, Act.walk]
  unfold planVisibility
  split
  · rename_i hempty
    rw [List.isEmpty_iff.1 hempty]
    rfl
  · exact hargs

theorem visitsAll_planSend (name : String) (receiver : Option Node) (args rest : List Node) :
    Act.visitsAll within (src.planSend name receiver args rest n) =
      (receiver.toList ++ args ++ rest).map (Prod.mk within) := by
  simp [planSend, visitsAll_append, visitsAll_walk?, visitsAll_walkAll, Act.visitsAll, Act.visits,
    call]

theorem visitsAll_planCall : Act.visitsAll within (src.planCall within n) =
    (src.callSuccessors within n).map (Prod.mk within) := by
  simp only [planCall, callSuccessors, declaresAccessors, declaresVisibility, callee]
  by_cases hbare : ((n.field? .receiver).isNone && !within) = true
  · simp only [hbare, if_true, Bool.true_and]
    cases accessors? (((n.field? .method).map src.text).getD "call") with
    | some access => simp [visitsAll_append, visitsAll_planAccessor, visitsAll_walkAll]
    | none =>
        cases Visibility.ofText? (((n.field? .method).map src.text).getD "call") with
        | some visibility => exact visitsAll_planVisibility _ _
        | none => exact visitsAll_planSend _ _ _ _
  · rw [Bool.not_eq_true] at hbare
    simp only [hbare, Bool.false_and, Bool.false_eq_true, if_false]
    exact visitsAll_planSend _ _ _ _

theorem visitsAll_planIdentifier : Act.visitsAll within (src.planIdentifier within n) = [] := by
  unfold planIdentifier
  split <;> rfl

theorem visitsAll_planBinary : Act.visitsAll within (src.planBinary n) =
    ((n.field? .left).toList ++ (n.field? .right).toList).map (Prod.mk within) := by
  unfold planBinary
  simp only [visitsAll_append, visitsAll_walk?, List.map_append]
  split
  · split <;> simp [Act.visitsAll, Act.visits, call]
  · simp [Act.visitsAll]

theorem visitsAll_planBlockArgument : Act.visitsAll within (src.planBlockArgument n) =
    (n.named.filter (·.kind ≠ .simpleSymbol)).map (Prod.mk within) := by
  unfold planBlockArgument
  induction n.named with
  | nil => rfl
  | cons c rest ih =>
      rw [List.map_cons, Act.visitsAll, ih, List.filter_cons]
      by_cases hc : c.kind = .simpleSymbol <;> simp [hc, Act.visits, Act.walk]

theorem visitsAll_planPair : Act.visitsAll within (src.planPair n) =
    (if (n.field? .key).isSome && (n.field? .value).isNone then [] else n.named).map
      (Prod.mk within) := by
  unfold planPair
  cases n.field? .key <;> cases n.field? .value <;>
    simp [visitsAll_walkAll, Act.visitsAll, Act.visits, call]

theorem visitsAll_planScope : Act.visitsAll within (src.planScope n) =
    (n.field? .scope).toList.map (Prod.mk within) := by
  unfold planScope
  rw [visitsAll_append, visitsAll_walk?]
  cases n.field? .name <;> simp [Act.visitsAll, Act.visits, reference]

theorem visitsAll_planAssignment (reads : Bool) :
    Act.visitsAll within (src.planAssignment reads within n) =
      ((n.field? .left).toList.flatMap (targetSuccessors within) ++
        (n.field? .right).toList).map (Prod.mk within) := by
  unfold planAssignment
  rw [visitsAll_append, visitsAll_walk?, List.map_append]
  cases n.field? .left with
  | none => rfl
  | some left => simp [visitsAll_planTarget]

/-- The visits of a plan go to the successors of the node. -/
theorem visitsAll_plan (src : Source) (within : Bool) (n : Node) :
    Act.visitsAll within (src.plan within n) =
      (src.successors within n).map (Prod.mk (within || n.kind.isMethod)) := by
  cases hk : n.kind <;>
    simp only [plan, successors, hk, Kind.isMethod, Bool.or_false, Bool.or_true]
  case classDecl | moduleDecl => exact visitsAll_planNamespace _
  case methodDecl | singletonMethodDecl => exact visitsAll_planMethod _
  case methodParameters | blockParameters | lambdaParameters => exact visitsAll_planParameters
  case assignment | operatorAssignment => exact visitsAll_planAssignment _
  case call => exact visitsAll_planCall
  case identifier => exact visitsAll_planIdentifier
  case binary => exact visitsAll_planBinary
  case blockArgument => exact visitsAll_planBlockArgument
  case pair => exact visitsAll_planPair
  case scopeResolution => exact visitsAll_planScope
  case constant => rfl
  case aliasDecl =>
    unfold planAlias
    split <;> rfl
  case singletonClass =>
    simp [visitsAll_append, visitsAll_walk?, visitsAll_walkAll, Act.visitsAll, Act.visits]
  case elementReference =>
    simp [planElement, visitsAll_append, visitsAll_walk?, visitsAll_walkAll, Act.visitsAll,
      Act.visits, call]
  all_goals exact visitsAll_walkAll _ _

theorem exists_visits_of_mem_successors {s : Node} (hs : s ∈ src.successors within n) :
    ∃ a ∈ src.plan within n, (within || n.kind.isMethod, s) ∈ a.visits within := by
  rw [← Act.mem_visitsAll, visitsAll_plan]
  exact List.mem_map_of_mem hs

theorem mem_inner_of_mem_successors {s : Node} (hs : s ∈ src.successors within n) :
    s ∈ n.inner := by
  obtain ⟨a, ha, hv⟩ := exists_visits_of_mem_successors hs
  exact (planned_of_mem_plan ha).mem_inner_of_mem_visits hv

theorem Visits.successor {inMethod : Bool} {root s : Node}
    (h : src.Visits inMethod root within n) (hs : s ∈ src.successors within n) :
    src.Visits inMethod root (within || n.kind.isMethod) s := by
  obtain ⟨a, ha, hv⟩ := exists_visits_of_mem_successors hs
  exact .step h ha hv

/-- A visit is the first one, or it comes from the visit of a successor. -/
theorem Visits.eq_or_exists_successor {inMethod : Bool} {root : Node}
    (h : src.Visits inMethod root within n) : (within = inMethod ∧ n = root) ∨
      ∃ s ∈ src.successors inMethod root,
        src.Visits (inMethod || root.kind.isMethod) s within n := by
  induction h with
  | start => exact .inl ⟨rfl, rfl⟩
  | @step m c a v _ ha hv ih =>
      have hvisits : v ∈ Act.visitsAll m (src.plan m c) := Act.mem_visitsAll.2 ⟨a, ha, hv⟩
      rcases ih with ⟨rfl, rfl⟩ | ⟨s, hs, hsc⟩
      · rw [visitsAll_plan] at hvisits
        obtain ⟨s, hs, rfl⟩ := List.mem_map.1 hvisits
        exact .inr ⟨s, hs, .start⟩
      · exact .inr ⟨s, hs, .step hsc ha hv⟩

end Visits

end Source
end Fallow
