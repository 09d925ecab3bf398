import Fallow.Outline.Basic

/-!
# What is planned for a node

`Planned` lists what the visit of a node can do, with the facts about the node that each act rests
on. Every visit that a plan leads to goes to a node below, so that the outline of a node is its plan
with the outlines of the visited nodes put in. `Visits` follows these visits from the root of a
tree.
-/

namespace Fallow

open Syntax

namespace Syntax.Node

/-- The nodes below a node, without the node itself. -/
def inner (n : Node) : List Node :=
  preorderAll n.children

theorem preorder_eq (n : Node) : n.preorder = n :: n.inner := by
  cases n
  rfl

theorem mem_preorderAll {d : Node} {cs : List Node} :
    d ∈ preorderAll cs ↔ ∃ c ∈ cs, d ∈ c.preorder := by
  induction cs with
  | nil => simp [preorderAll]
  | cons c rest ih => simp [preorderAll, ih]

theorem mem_inner {n d : Node} : d ∈ n.inner ↔ ∃ c ∈ n.children, d ∈ c.preorder :=
  mem_preorderAll

@[simp] theorem mem_preorder_self (n : Node) : n ∈ n.preorder := by
  simp [preorder_eq]

theorem mem_preorder_of_mem_inner {n d : Node} (h : d ∈ n.inner) : d ∈ n.preorder := by
  rw [preorder_eq]
  exact List.mem_cons_of_mem _ h

theorem mem_inner_of_mem_children {n c : Node} (h : c ∈ n.children) : c ∈ n.inner :=
  mem_inner.2 ⟨c, h, mem_preorder_self c⟩

theorem mem_inner_of_mem_named {n c : Node} (h : c ∈ n.named) : c ∈ n.inner :=
  mem_inner_of_mem_children (mem_children_of_mem_named h)

theorem mem_inner_of_mem_namedExcept {n c : Node} {skipped : List (Option Node)}
    (h : c ∈ n.namedExcept skipped) : c ∈ n.inner :=
  mem_inner_of_mem_children (mem_children_of_mem_namedExcept h)

theorem mem_inner_of_field? {n c : Node} {f : Field} (h : n.field? f = some c) : c ∈ n.inner :=
  mem_inner_of_mem_children (mem_children_of_field? h)

mutual

theorem mem_preorder_trans {d c : Node} (hd : d ∈ c.preorder) :
    ∀ {n : Node}, c ∈ n.preorder → d ∈ n.preorder
  | mk kind span flags fields children, hc => by
      rcases List.mem_cons.1 hc with rfl | hc
      · exact hd
      · exact List.mem_cons_of_mem _ (mem_preorderAll_trans hd hc)

theorem mem_preorderAll_trans {d c : Node} (hd : d ∈ c.preorder) :
    ∀ {cs : List Node}, c ∈ preorderAll cs → d ∈ preorderAll cs
  | [], hc => by simp [preorderAll] at hc
  | b :: rest, hc => by
      rcases List.mem_append.1 hc with hc | hc
      · exact List.mem_append_left _ (mem_preorder_trans hd hc)
      · exact List.mem_append_right _ (mem_preorderAll_trans hd hc)

end

theorem mem_inner_trans {n c d : Node} (hc : c ∈ n.inner) (hd : d ∈ c.preorder) : d ∈ n.inner :=
  mem_preorderAll_trans hd hc

mutual

theorem height_le_of_mem_preorder {d : Node} : ∀ {n : Node}, d ∈ n.preorder → d.height ≤ n.height
  | mk kind span flags fields children, hd => by
      rcases List.mem_cons.1 hd with rfl | hd
      · exact Nat.le_refl _
      · exact Nat.le_succ_of_le (height_le_of_mem_preorderAll hd)

theorem height_le_of_mem_preorderAll {d : Node} :
    ∀ {cs : List Node}, d ∈ preorderAll cs → d.height ≤ tallest cs
  | [], hd => by simp [preorderAll] at hd
  | c :: rest, hd => by
      rw [tallest]
      rcases List.mem_append.1 hd with hd | hd
      · exact Nat.le_trans (height_le_of_mem_preorder hd) (Nat.le_max_left _ _)
      · exact Nat.le_trans (height_le_of_mem_preorderAll hd) (Nat.le_max_right _ _)

end

theorem height_pos (n : Node) : 0 < n.height := by
  cases n
  exact Nat.succ_pos _

theorem height_lt_of_mem_inner {n d : Node} (h : d ∈ n.inner) : d.height < n.height := by
  obtain ⟨c, hc, hd⟩ := mem_inner.1 h
  exact Nat.lt_of_le_of_lt (height_le_of_mem_preorder hd) (height_lt_of_mem_children hc)

end Syntax.Node

/-- The kind of node that opens a namespace. -/
def NamespaceKind.nodeKind : NamespaceKind → Kind
  | classSpace => .classDecl
  | moduleSpace => .moduleDecl

namespace Source

open Syntax.Node

/-- The node declares accessors without a receiver, and `arg` is one of its arguments. -/
structure Declares (src : Source) (n : Node) (reader writer : Bool) (arg : Node) : Prop where
  kind_eq : n.kind = .call
  receiver : n.field? .receiver = none
  word : accessors? (((n.field? .method).map src.text).getD "call") = some (reader, writer)
  mem : arg ∈ argumentNodes (n.field? .arguments)

/-- The node is a call of a visibility word without a receiver. -/
structure IsWordCall (src : Source) (n : Node) (visibility : Visibility) : Prop where
  kind_eq : n.kind = .call
  receiver : n.field? .receiver = none
  word : Visibility.ofText? (((n.field? .method).map src.text).getD "call") = some visibility

/-- The node is a visibility word alone. -/
inductive IsBareWord (src : Source) (n : Node) (visibility : Visibility) : Prop
  | identifier (hk : n.kind = .identifier)
    (hw : Visibility.ofText? (src.text n) = some visibility)
  | call (hw : src.IsWordCall n visibility) (hargs : argumentNodes (n.field? .arguments) = [])

/-- What the visit of a node can do, outside methods or in one. -/
inductive Planned (src : Source) (inMethod : Bool) (n : Node) : Act → Prop
  | walk {c : Node} (hc : c ∈ n.inner) : Planned src inMethod n (.walk c)
  | constantUse (hk : n.kind = .constant) : Planned src inMethod n (src.reference n)
  | scopedUse {name : Node} (hk : n.kind = .scopeResolution) (hn : n.field? .name = some name) :
    Planned src inMethod n (src.reference name)
  | symbolUse {c : Node} (hk : n.kind = .blockArgument) (hc : c ∈ n.named)
    (hs : c.kind = .simpleSymbol) : Planned src inMethod n (.refer (src.symbol c) (src.location c))
  | aliasUse {c : Node} (hk : n.kind = .aliasDecl) (hc : n.field? .aliased = some c) :
    Planned src inMethod n (.refer (src.symbol c) (src.location c))
  | send {name : String} {receiver : Option Node} {args : List Node} {site : Node}
    (hs : site ∈ n.preorder) : Planned src inMethod n (src.call name receiver args site)
  | declare {visibility : Visibility} (hm : inMethod = false)
    (hw : src.IsBareWord n visibility) : Planned src inMethod n (.declare visibility)
  | remark {visibility : Visibility} {name : String} (hm : inMethod = false) :
    Planned src inMethod n (.remark visibility name)
  | inline {visibility : Visibility} {arg : Node} (hm : inMethod = false) (ha : arg ∈ n.inner) :
    Planned src inMethod n (.inline visibility [.walk arg])
  | constant {target : Node} (hm : inMethod = false)
    (hk : n.kind = .assignment ∨ n.kind = .operatorAssignment)
    (ht : n.field? .left = some target)
    (htk : target.kind = .constant ∨ target.kind = .scopeResolution) :
    Planned src inMethod n (.constant (src.bareName (src.text target) target)
      (src.bareText target) (src.location n))
  | reader {writer : Bool} {arg : Node} (hm : inMethod = false)
    (hd : src.Declares n true writer arg) (hn : (src.argument arg).isName = true) :
    Planned src inMethod n (.accessor (src.argument arg).value (src.location arg))
  | writer {reader : Bool} {arg : Node} (hm : inMethod = false)
    (hd : src.Declares n reader true arg) (hn : (src.argument arg).isName = true) :
    Planned src inMethod n (.accessor ((src.argument arg).value ++ "=") (src.location arg))
  | method {onSelf : Bool} {name : Node} (hm : inMethod = false)
    (hk : n.kind = if onSelf then .singletonMethodDecl else .methodDecl)
    (hn : n.field? .name = some name) :
    Planned src inMethod n (.method onSelf (src.text name) (src.location n))
  | methodBody {onSelf : Bool} (hk : n.kind = if onSelf then .singletonMethodDecl else .methodDecl) :
    Planned src inMethod n (.methodBody (walkAll (n.namedExcept [n.field? .name])))
  | enclosure {kind : NamespaceKind} {name : Node} (hm : inMethod = false)
    (hk : n.kind = kind.nodeKind) (hn : n.field? .name = some name) :
    Planned src inMethod n (.enclosure kind (src.bareName (src.bareText name) name)
      (src.bareText name) (src.location n) (walkAll (n.namedExcept [name])))
  | singletonBody (hk : n.kind = .singletonClass) :
    Planned src inMethod n (.singletonBody (walkAll (n.namedExcept [n.field? .value])))

section Plans

variable {src : Source} {inMethod : Bool} {n : Node} {a : Act}

theorem planned_of_mem_walkAll {cs : List Node} (hcs : ∀ c ∈ cs, c ∈ n.inner)
    (ha : a ∈ walkAll cs) : src.Planned inMethod n a := by
  obtain ⟨c, hc, rfl⟩ := List.mem_map.1 ha
  exact .walk (hcs c hc)

theorem planned_of_mem_walk? {o : Option Node} (ho : ∀ c, o = some c → c ∈ n.inner)
    (ha : a ∈ Act.walk? o) : src.Planned inMethod n a := by
  cases o with
  | none => simp [Act.walk?] at ha
  | some c =>
      rw [List.mem_singleton.1 ha]
      exact .walk (ho c rfl)

theorem planned_of_mem_named (ha : a ∈ walkAll n.named) : src.Planned inMethod n a :=
  planned_of_mem_walkAll (fun _ => mem_inner_of_mem_named) ha

theorem planned_of_mem_namedExcept {skipped : List (Option Node)}
    (ha : a ∈ walkAll (n.namedExcept skipped)) : src.Planned inMethod n a :=
  planned_of_mem_walkAll (fun _ => mem_inner_of_mem_namedExcept) ha

theorem planned_of_mem_field? {f : Field} (ha : a ∈ Act.walk? (n.field? f)) :
    src.Planned inMethod n a :=
  planned_of_mem_walk? (fun _ => mem_inner_of_field?) ha

theorem mem_inner_of_scopeOf {c d : Node} (hc : c ∈ n.inner) (h : scopeOf c = some d) :
    d ∈ n.inner := by
  unfold scopeOf at h
  split at h
  · exact mem_inner_trans hc (mem_preorder_of_mem_inner (mem_inner_of_field? h))
  · cases h

theorem mem_inner_of_mem_argumentNodes {f : Field} {c : Node}
    (h : c ∈ argumentNodes (n.field? f)) : c ∈ n.inner := by
  cases hf : n.field? f with
  | none => simp [argumentNodes, hf] at h
  | some args =>
      simp only [argumentNodes, hf, List.mem_filter] at h
      exact mem_inner_trans (mem_inner_of_field? hf)
        (mem_preorder_of_mem_inner (mem_inner_of_mem_named h.1))

theorem planned_of_mem_planNamespace {kind : NamespaceKind} (hk : n.kind = kind.nodeKind)
    (ha : a ∈ src.planNamespace kind inMethod n) : src.Planned inMethod n a := by
  unfold planNamespace at ha
  split at ha
  · rename_i name hname
    rcases List.mem_append.1 ha with ha | ha
    · exact planned_of_mem_walk? (fun d => mem_inner_of_scopeOf (mem_inner_of_field? hname)) ha
    · rw [List.mem_singleton.1 ha]
      exact .enclosure rfl hk hname
  · exact planned_of_mem_named ha

theorem planned_of_mem_planMethod {onSelf : Bool}
    (hk : n.kind = if onSelf then .singletonMethodDecl else .methodDecl)
    (ha : a ∈ src.planMethod onSelf inMethod n) : src.Planned inMethod n a := by
  simp only [planMethod] at ha
  rcases List.mem_append.1 ha with hdef | hbody
  · split at hdef
    · rename_i name hname
      rw [List.mem_singleton.1 hdef]
      exact .method rfl hk hname
    · simp at hdef
  · rw [List.mem_singleton.1 hbody]
    exact .methodBody hk

theorem planned_of_mem_planAccessor {reader writer : Bool} {arg : Node}
    (hm : inMethod = false) (hd : src.Declares n reader writer arg)
    (ha : a ∈ src.planAccessor reader writer arg) : src.Planned inMethod n a := by
  simp only [planAccessor] at ha
  split at ha
  · rename_i hname
    rcases List.mem_append.1 ha with ha | ha
    · cases reader with
      | false => simp at ha
      | true =>
          rw [List.mem_singleton.1 ha]
          exact .reader hm hd hname
    · cases writer with
      | false => simp at ha
      | true =>
          rw [List.mem_singleton.1 ha]
          exact .writer hm hd hname
  · rw [List.mem_singleton.1 ha]
    exact .walk (mem_inner_of_mem_argumentNodes hd.mem)

theorem planned_of_mem_planVisibility {visibility : Visibility} {args : List Node}
    (hm : inMethod = false) (hw : args = [] → src.IsBareWord n visibility)
    (hargs : ∀ c ∈ args, c ∈ n.inner) (ha : a ∈ src.planVisibility visibility args) :
    src.Planned inMethod n a := by
  unfold planVisibility at ha
  split at ha
  · rename_i hempty
    rw [List.mem_singleton.1 ha]
    exact .declare hm (hw (List.isEmpty_iff.1 hempty))
  · obtain ⟨arg, harg, rfl⟩ := List.mem_map.1 ha
    unfold planVisible
    simp only
    split
    · exact .remark hm
    · exact .inline hm (hargs arg harg)

theorem planned_of_mem_planSend {name : String} {receiver : Option Node} {args rest : List Node}
    (hr : ∀ c, receiver = some c → c ∈ n.inner) (hargs : ∀ c ∈ args, c ∈ n.inner)
    (hrest : ∀ c ∈ rest, c ∈ n.inner) (ha : a ∈ src.planSend name receiver args rest n) :
    src.Planned inMethod n a := by
  simp only [planSend, List.mem_append, List.mem_singleton] at ha
  rcases ha with ((ha | rfl) | ha) | ha
  · exact planned_of_mem_walk? hr ha
  · exact .send (mem_preorder_self n)
  · exact planned_of_mem_walkAll hargs ha
  · exact planned_of_mem_walkAll hrest ha

theorem planned_of_mem_planCall (hk : n.kind = .call) (ha : a ∈ src.planCall inMethod n) :
    src.Planned inMethod n a := by
  have hsend : a ∈ src.planSend (((n.field? .method).map src.text).getD "call")
      (n.field? .receiver) (argumentNodes (n.field? .arguments))
      (n.namedExcept [n.field? .receiver, n.field? .method, n.field? .arguments]) n →
      src.Planned inMethod n a :=
    planned_of_mem_planSend (fun _ => mem_inner_of_field?)
      (fun _ => mem_inner_of_mem_argumentNodes) (fun _ => mem_inner_of_mem_namedExcept)
  unfold planCall at ha
  simp only at ha
  split at ha
  · rename_i hguard
    simp only [Bool.and_eq_true, Option.isNone_iff_eq_none, Bool.not_eq_true'] at hguard
    obtain ⟨hreceiver, hm⟩ := hguard
    split at ha
    · rename_i reader writer hword
      rcases List.mem_append.1 ha with ha | ha
      · obtain ⟨arg, harg, ha⟩ := List.mem_flatMap.1 ha
        exact planned_of_mem_planAccessor hm ⟨hk, hreceiver, hword, harg⟩ ha
      · exact planned_of_mem_namedExcept ha
    · rename_i visibility _ hword
      exact planned_of_mem_planVisibility hm (.call ⟨hk, hreceiver, hword⟩)
        (fun _ => mem_inner_of_mem_argumentNodes) ha
    · exact hsend ha
  · exact hsend ha

theorem planned_of_mem_planIdentifier (hk : n.kind = .identifier)
    (ha : a ∈ src.planIdentifier inMethod n) : src.Planned inMethod n a := by
  unfold planIdentifier at ha
  split at ha
  · rename_i hword
    rw [List.mem_singleton.1 ha]
    exact .declare rfl (.identifier hk hword)
  · rw [List.mem_singleton.1 ha]
    exact .send (mem_preorder_self n)

theorem planned_of_mem_planBinary (ha : a ∈ src.planBinary n) : src.Planned inMethod n a := by
  simp only [planBinary, List.mem_append] at ha
  rcases ha with (ha | ha) | ha
  · exact planned_of_mem_field? ha
  · split at ha
    · split at ha
      · simp at ha
      · rw [List.mem_singleton.1 ha]
        exact .send (mem_preorder_self n)
    · simp at ha
  · exact planned_of_mem_field? ha

theorem planned_of_mem_planElement (ha : a ∈ src.planElement n) : src.Planned inMethod n a := by
  simp only [planElement, List.mem_append, List.mem_singleton] at ha
  rcases ha with (ha | rfl) | ha
  · exact planned_of_mem_field? ha
  · exact .send (mem_preorder_self n)
  · exact planned_of_mem_namedExcept ha

theorem planned_of_mem_planBlockArgument (hk : n.kind = .blockArgument)
    (ha : a ∈ src.planBlockArgument n) : src.Planned inMethod n a := by
  obtain ⟨c, hc, rfl⟩ := List.mem_map.1 ha
  by_cases hs : c.kind = .simpleSymbol
  · rw [if_pos hs]
    exact .symbolUse hk hc hs
  · rw [if_neg hs]
    exact .walk (mem_inner_of_mem_named hc)

theorem planned_of_mem_planPair (ha : a ∈ src.planPair n) : src.Planned inMethod n a := by
  unfold planPair at ha
  split at ha
  · rename_i key hkey _
    rw [List.mem_singleton.1 ha]
    exact .send (mem_preorder_of_mem_inner (mem_inner_of_field? hkey))
  · exact planned_of_mem_named ha

theorem planned_of_mem_planParameters (ha : a ∈ planParameters n) :
    src.Planned inMethod n a := by
  obtain ⟨p, hp, ha⟩ := List.mem_flatMap.1 ha
  refine planned_of_mem_walk? (fun c hc => ?_) ha
  exact mem_inner_trans (mem_inner_of_mem_named hp)
    (mem_preorder_of_mem_inner (mem_inner_of_field? hc))

theorem planned_of_mem_planTarget {reads : Bool} {target : Node}
    (hk : n.kind = .assignment ∨ n.kind = .operatorAssignment)
    (ht : n.field? .left = some target) (ha : a ∈ src.planTarget reads inMethod target n) :
    src.Planned inMethod n a := by
  have hin : target ∈ n.inner := mem_inner_of_field? ht
  have hbelow : ∀ {c : Node}, c ∈ target.inner → c ∈ n.inner := fun hc =>
    mem_inner_trans hin (mem_preorder_of_mem_inner hc)
  have hcall : ∀ {name receiver args}, src.Planned inMethod n (src.call name receiver args target) :=
    .send (mem_preorder_of_mem_inner hin)
  have hconstant : (target.kind = .constant ∨ target.kind = .scopeResolution) →
      inMethod = false → a ∈ src.planConstant target n → src.Planned inMethod n a := by
    intro htk hm ha
    rcases List.mem_append.1 ha with ha | ha
    · exact planned_of_mem_walk? (fun d => mem_inner_of_scopeOf hin) ha
    · rw [List.mem_singleton.1 ha]
      exact .constant hm hk ht htk
  unfold planTarget at ha
  split at ha
  · exact hconstant (Or.inl ‹_›) rfl ha
  · exact hconstant (Or.inr ‹_›) rfl ha
  · rcases List.mem_append.1 ha with ha | ha
    · exact planned_of_mem_walk? (fun c hc => hbelow (mem_inner_of_field? hc)) ha
    · split at ha
      · rcases List.mem_append.1 ha with ha | ha
        · split at ha
          · rw [List.mem_singleton.1 ha]
            exact hcall
          · simp at ha
        · rw [List.mem_singleton.1 ha]
          exact hcall
      · simp at ha
  · simp only [List.mem_append, List.mem_singleton] at ha
    rcases ha with ((ha | ha) | rfl) | ha
    · exact planned_of_mem_walk? (fun c hc => hbelow (mem_inner_of_field? hc)) ha
    · split at ha
      · rw [List.mem_singleton.1 ha]
        exact hcall
      · simp at ha
    · exact hcall
    · exact planned_of_mem_walkAll (fun c hc => hbelow (mem_inner_of_mem_namedExcept hc)) ha
  · split at ha
    · simp at ha
    · rw [List.mem_singleton.1 ha]
      exact .walk hin

theorem planned_of_mem_planAssignment {reads : Bool}
    (hk : n.kind = .assignment ∨ n.kind = .operatorAssignment)
    (ha : a ∈ src.planAssignment reads inMethod n) : src.Planned inMethod n a := by
  rcases List.mem_append.1 ha with hleft | hright
  · split at hleft
    · exact planned_of_mem_planTarget hk ‹_› hleft
    · simp at hleft
  · exact planned_of_mem_field? hright

theorem planned_of_mem_planAlias (hk : n.kind = .aliasDecl) (ha : a ∈ src.planAlias n) :
    src.Planned inMethod n a := by
  unfold planAlias at ha
  split at ha
  · rw [List.mem_singleton.1 ha]
    exact .aliasUse hk ‹_›
  · simp at ha

theorem planned_of_mem_planScope (hk : n.kind = .scopeResolution) (ha : a ∈ src.planScope n) :
    src.Planned inMethod n a := by
  rcases List.mem_append.1 ha with hscope | hname
  · exact planned_of_mem_field? hscope
  · split at hname
    · rw [List.mem_singleton.1 hname]
      exact .scopedUse hk ‹_›
    · simp at hname

theorem planned_of_mem_plan (ha : a ∈ src.plan inMethod n) : src.Planned inMethod n a := by
  unfold plan at ha
  split at ha
  · exact planned_of_mem_planNamespace ‹_› ha
  · exact planned_of_mem_planNamespace ‹_› ha
  · rcases List.mem_append.1 ha with hvalue | hbody
    · exact planned_of_mem_field? hvalue
    · rw [List.mem_singleton.1 hbody]
      exact .singletonBody ‹_›
  · exact planned_of_mem_planMethod ‹_› ha
  · exact planned_of_mem_planMethod ‹_› ha
  · exact planned_of_mem_planParameters ha
  · exact planned_of_mem_planParameters ha
  · exact planned_of_mem_planParameters ha
  · exact planned_of_mem_planAssignment (Or.inl ‹_›) ha
  · exact planned_of_mem_planAssignment (Or.inr ‹_›) ha
  · exact planned_of_mem_planCall ‹_› ha
  · exact planned_of_mem_planIdentifier ‹_› ha
  · exact planned_of_mem_planBinary ha
  · exact planned_of_mem_planElement ha
  · exact planned_of_mem_planBlockArgument ‹_› ha
  · exact planned_of_mem_planPair ha
  · exact planned_of_mem_planAlias ‹_› ha
  · rw [List.mem_singleton.1 ha]
    exact .constantUse ‹_›
  · exact planned_of_mem_planScope ‹_› ha
  · exact planned_of_mem_named ha

/-- Only a visibility word alone, outside methods, changes the visibility in force. -/
theorem isBareWord_of_mem_plan {visibility : Visibility}
    (h : .declare visibility ∈ src.plan inMethod n) :
    inMethod = false ∧ src.IsBareWord n visibility := by
  generalize ha : Act.declare visibility = a at h
  cases planned_of_mem_plan h with
  | declare hm hw =>
      obtain rfl := Act.declare.inj ha
      exact ⟨hm, hw⟩
  | _ => simp [Act.walk, reference, call] at ha

end Plans
end Source

namespace Act

mutual

/-- The visits that an act leads to, each with whether it takes place in a method. -/
def visits (inMethod : Bool) : Act → List (Bool × Node)
  | .visit site _ => [(inMethod, site)]
  | .inline _ acts => visitsAll inMethod acts
  | .methodBody acts => visitsAll true acts
  | .enclosure _ _ _ _ acts => visitsAll inMethod acts
  | .singletonBody acts => visitsAll inMethod acts
  | _ => []

def visitsAll (inMethod : Bool) : List Act → List (Bool × Node)
  | [] => []
  | a :: rest => visits inMethod a ++ visitsAll inMethod rest

end

theorem fillAll_eq_map (f : Bool → Node → List Act) (inMethod : Bool) (acts : List Act) :
    fillAll f inMethod acts = acts.map (fill f inMethod) := by
  induction acts with
  | nil => rfl
  | cons a rest ih => rw [fillAll, ih, List.map_cons]

theorem mem_visitsAll {inMethod : Bool} {acts : List Act} {v : Bool × Node} :
    v ∈ visitsAll inMethod acts ↔ ∃ a ∈ acts, v ∈ a.visits inMethod := by
  induction acts with
  | nil => simp [visitsAll]
  | cons a rest ih => simp [visitsAll, ih]

mutual

/-- Filling looks at the visited nodes only. -/
theorem fill_congr {f g : Bool → Node → List Act} : ∀ {inMethod : Bool} {a : Act},
    (∀ v ∈ a.visits inMethod, f v.1 v.2 = g v.1 v.2) → fill f inMethod a = fill g inMethod a
  | inMethod, .visit site _, h => by
      have hsite : f inMethod site = g inMethod site := h (inMethod, site) (by simp [visits])
      rw [fill, fill, hsite]
  | _, .inline _ acts, h => by rw [fill, fill, fillAll_congr h]
  | _, .methodBody acts, h => by rw [fill, fill, fillAll_congr h]
  | _, .enclosure _ _ _ _ acts, h => by rw [fill, fill, fillAll_congr h]
  | _, .singletonBody acts, h => by rw [fill, fill, fillAll_congr h]
  | _, .refer _ _, _ | _, .send _, _ | _, .declare _, _ | _, .remark _ _, _
  | _, .constant _ _ _, _ | _, .accessor _ _, _ | _, .method _ _ _, _ => rfl

theorem fillAll_congr {f g : Bool → Node → List Act} : ∀ {inMethod : Bool} {acts : List Act},
    (∀ v ∈ visitsAll inMethod acts, f v.1 v.2 = g v.1 v.2) →
      fillAll f inMethod acts = fillAll g inMethod acts
  | _, [], _ => rfl
  | _, a :: rest, h => by
      rw [fillAll, fillAll, fill_congr fun v hv => h v (List.mem_append_left _ hv),
        fillAll_congr fun v hv => h v (List.mem_append_right _ hv)]

end

end Act

namespace Source

open Syntax.Node

variable {src : Source} {inMethod : Bool} {n : Node}

theorem exists_of_mem_fillAll_walkAll {f : Bool → Node → List Act} {cs : List Node} {a : Act}
    (ha : a ∈ Act.fillAll f inMethod (walkAll cs)) :
    ∃ c ∈ cs, a = Act.fill f inMethod (.walk c) := by
  rw [Act.fillAll_eq_map] at ha
  obtain ⟨b, hb, rfl⟩ := List.mem_map.1 ha
  obtain ⟨c, hc, rfl⟩ := List.mem_map.1 hb
  exact ⟨c, hc, rfl⟩

theorem mem_of_mem_visitsAll_walkAll {cs : List Node} {v : Bool × Node}
    (hv : v ∈ Act.visitsAll inMethod (walkAll cs)) : v.1 = inMethod ∧ v.2 ∈ cs := by
  obtain ⟨a, ha, hv⟩ := Act.mem_visitsAll.1 hv
  obtain ⟨c, hc, rfl⟩ := List.mem_map.1 ha
  rw [List.mem_singleton.1 hv]
  exact ⟨rfl, hc⟩

theorem Planned.mem_inner_of_mem_visits {a : Act} (h : src.Planned inMethod n a)
    {v : Bool × Node} (hv : v ∈ a.visits inMethod) : v.2 ∈ n.inner := by
  cases h with
  | walk hc =>
      rw [List.mem_singleton.1 hv]
      exact hc
  | inline _ ha =>
      simp only [Act.visits, Act.visitsAll, Act.walk, List.append_nil, List.mem_singleton] at hv
      rw [hv]
      exact ha
  | methodBody => exact mem_inner_of_mem_namedExcept (mem_of_mem_visitsAll_walkAll hv).2
  | enclosure => exact mem_inner_of_mem_namedExcept (mem_of_mem_visitsAll_walkAll hv).2
  | singletonBody => exact mem_inner_of_mem_namedExcept (mem_of_mem_visitsAll_walkAll hv).2
  | _ => simp [Act.visits, reference, call] at hv

/-- Levels beyond the height of a node add nothing to its outline. -/
theorem outlineTo_eq_of_height_le {depth depth' : Nat} (h : n.height ≤ depth)
    (h' : n.height ≤ depth') : src.outlineTo depth inMethod n = src.outlineTo depth' inMethod n := by
  have hpos := n.height_pos
  induction depth generalizing depth' inMethod n with
  | zero => omega
  | succ depth ih =>
      cases depth' with
      | zero => omega
      | succ depth' =>
          rw [outlineTo, outlineTo]
          apply Act.fillAll_congr
          intro v hv
          obtain ⟨a, ha, hv⟩ := Act.mem_visitsAll.1 hv
          have hlt := height_lt_of_mem_inner ((planned_of_mem_plan ha).mem_inner_of_mem_visits hv)
          exact ih (by omega) (by omega) v.2.height_pos

/-- The outline of a node is its plan with the outlines of the visited nodes. -/
theorem outline_eq (src : Source) (inMethod : Bool) (n : Node) :
    src.outline inMethod n = Act.fillAll src.outline inMethod (src.plan inMethod n) := by
  have hroot : src.outline inMethod n = src.outlineTo (n.height + 1) inMethod n :=
    outlineTo_eq_of_height_le (Nat.le_refl _) (Nat.le_succ _)
  rw [hroot, outlineTo]
  apply Act.fillAll_congr
  intro v hv
  obtain ⟨a, ha, hv⟩ := Act.mem_visitsAll.1 hv
  have hlt := height_lt_of_mem_inner ((planned_of_mem_plan ha).mem_inner_of_mem_visits hv)
  exact outlineTo_eq_of_height_le (Nat.le_of_lt hlt) (Nat.le_refl _)

/-- A visit of `root` leads, directly or through other visits, to a visit of a node. -/
inductive Visits (src : Source) (inMethod : Bool) (root : Node) : Bool → Node → Prop
  | start : Visits src inMethod root inMethod root
  | step {within : Bool} {n : Node} {a : Act} {v : Bool × Node}
    (h : Visits src inMethod root within n) (ha : a ∈ src.plan within n)
    (hv : v ∈ a.visits within) : Visits src inMethod root v.1 v.2

theorem Visits.trans {m k : Bool} {root c d : Node} (hc : src.Visits inMethod root m c)
    (hd : src.Visits m c k d) : src.Visits inMethod root k d := by
  induction hd with
  | start => exact hc
  | step _ ha hv ih => exact .step ih ha hv

theorem Visits.mem_preorder {within : Bool} {root : Node} (h : src.Visits inMethod root within n) :
    n ∈ root.preorder := by
  induction h with
  | start => exact mem_preorder_self _
  | step _ ha hv ih =>
      exact mem_preorder_trans
        (mem_preorder_of_mem_inner ((planned_of_mem_plan ha).mem_inner_of_mem_visits hv)) ih

end Source
end Fallow
