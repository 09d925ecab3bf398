import Fallow.Proofs.Events
import Fallow.Proofs.Tour
import Mathlib.Data.List.Perm.Basic

/-!
# What a tour sends

The sends that visits give rise to, each at the spot it is about. That is the visited spot, the left
side of an assignment, or a key without a value. No spot is sent twice, but for what an operator
assignment reads and then writes.
-/

namespace Fallow

open Syntax

namespace Act

mutual

/-- The sends of an act, in order. -/
def sends : Act → List Send
  | .visit _ acts => sendsAll acts
  | .send s => [s]
  | .inline _ acts => sendsAll acts
  | .methodBody acts => sendsAll acts
  | .enclosure _ _ _ _ acts => sendsAll acts
  | .singletonBody acts => sendsAll acts
  | _ => []

def sendsAll : List Act → List Send
  | [] => []
  | a :: rest => sends a ++ sendsAll rest

end

mutual

/-- The sends of an act outside the visits it leads to. -/
def ownSends : Act → List Send
  | .send s => [s]
  | .inline _ acts => ownSendsAll acts
  | .methodBody acts => ownSendsAll acts
  | .enclosure _ _ _ _ acts => ownSendsAll acts
  | .singletonBody acts => ownSendsAll acts
  | _ => []

def ownSendsAll : List Act → List Send
  | [] => []
  | a :: rest => ownSends a ++ ownSendsAll rest

end

mutual

/-- An act sends what it sends by itself and what the visits it leads to send. -/
theorem sends_fill (f : Bool → Node → List Act) : ∀ (within : Bool) (a : Act),
    (fill f within a).sends.Perm
      (a.ownSends ++ (a.visits within).flatMap fun v => sendsAll (f v.1 v.2))
  | within, .visit site _ => by simp [fill, sends, visits, ownSends]
  | within, .inline _ acts => sendsAll_fillAll f within acts
  | within, .methodBody acts => sendsAll_fillAll f true acts
  | within, .enclosure _ _ _ _ acts => sendsAll_fillAll f within acts
  | within, .singletonBody acts => sendsAll_fillAll f within acts
  | _, .refer _ _ | _, .send _ | _, .declare _ | _, .remark _ _
  | _, .constant _ _ _ | _, .accessor _ _ | _, .method _ _ _ => .refl _

theorem sendsAll_fillAll (f : Bool → Node → List Act) : ∀ (within : Bool) (acts : List Act),
    (sendsAll (fillAll f within acts)).Perm
      (ownSendsAll acts ++ (visitsAll within acts).flatMap fun v => sendsAll (f v.1 v.2))
  | _, [] => .refl _
  | within, a :: rest => by
      rw [fillAll, sendsAll, ownSendsAll, visitsAll, List.flatMap_append]
      refine ((sends_fill f within a).append (sendsAll_fillAll f within rest)).trans ?_
      -- both sides have the same four parts, the middle two exchanged
      rw [List.append_assoc, List.append_assoc]
      apply List.Perm.append_left
      rw [← List.append_assoc, ← List.append_assoc]
      exact List.perm_append_comm.append_right _

end

end Act

/-- The send that a deed is. -/
def Deed.sent? : Deed → Option Send
  | .send s => some s
  | _ => none

/-- The send that an event announces. -/
def Event.sent? : Event → Option Send
  | .sent s => some s
  | _ => none

mutual

/-- The sends of an act do not depend on where it is carried out. -/
theorem Act.filterMap_sent?_deeds : ∀ (a : Act) (s : Scope),
    (a.deeds s).filterMap Deed.sent? = a.sends
  | .visit _ acts, s => Act.filterMap_sent?_deedsAll acts s
  | .inline visibility acts, s => Act.filterMap_sent?_deedsAll acts _
  | .methodBody acts, s => Act.filterMap_sent?_deedsAll acts s
  | .enclosure _ _ qualified _ acts, s => by
      rw [Act.deeds, Act.sends, ← Act.filterMap_sent?_deedsAll acts ⟨qualified :: s.nesting, {}⟩]
      simp [List.filterMap_cons, Deed.sent?]
  | .singletonBody acts, s => Act.filterMap_sent?_deedsAll acts _
  | .refer _ _, _ | .send _, _ | .declare _, _ | .remark _ _, _
  | .constant _ _ _, _ | .accessor _ _, _ | .method _ _ _, _ => rfl

theorem Act.filterMap_sent?_deedsAll : ∀ (acts : List Act) (s : Scope),
    (Act.deedsAll acts s).filterMap Deed.sent? = Act.sendsAll acts
  | [], _ => rfl
  | a :: rest, s => by
      rw [Act.deedsAll, List.filterMap_append, Act.filterMap_sent?_deeds,
        Act.filterMap_sent?_deedsAll, Act.sendsAll]

end

theorem Walk.filterMap_sent?_events (src : Source) (plugins : List Plugin) (root : Node)
    (x : Index) :
    (run src plugins root x).events.filterMap Event.sent? =
      Act.sendsAll (src.outline false root) := by
  rw [events_run, List.filterMap_filterMap, ← Act.filterMap_sent?_deedsAll _ {}]
  apply List.filterMap_congr
  intro d _
  cases d <;> rfl

namespace Spot

open Source

/-- A send at a spot. -/
def sendOf (src : Source) (name : String) (receiver : Option Spot) (args : List Spot)
    (site : Spot) : Spot × Send :=
  (site, ⟨name, receiver.map (src.text ·.node), args.map (src.argument ·.node),
    src.location site.node⟩)

/-- What is sent when a spot is written, and perhaps read before. -/
def written (src : Source) (reads : Bool) (name : String) (receiver : Option Spot)
    (args : List Spot) (site : Spot) : List (Spot × Send) :=
  (if reads then [sendOf src name receiver args site] else []) ++
    [sendOf src (name ++ "=") receiver args site]

/-- What is sent for the left side of an assignment. -/
def targetSends (src : Source) (reads : Bool) (target : Spot) : List (Spot × Send) :=
  match target.node.kind with
  | .call => (target.field? .method).toList.flatMap fun method =>
    written src reads (src.text method.node) (target.field? .receiver) [] target
  | .elementReference =>
    written src reads "[]" (target.field? .object) (target.namedExcept [target.field? .object])
      target
  | _ => []

/-- What the visit of a spot sends by itself, each time with the spot that is sent. -/
def sends (src : Source) (within : Bool) (s : Spot) : List (Spot × Send) :=
  match s.node.kind with
  | .assignment => (s.field? .left).toList.flatMap (targetSends src false)
  | .operatorAssignment => (s.field? .left).toList.flatMap (targetSends src true)
  | .call =>
    if src.declaresAccessors within s.node || src.declaresVisibility within s.node then []
    else [sendOf src (src.callee s.node) (s.field? .receiver) s.arguments s]
  | .identifier =>
    if !within && (Visibility.ofText? (src.text s.node)).isSome then []
    else [sendOf src (src.text s.node) none [] s]
  | .binary =>
    ((s.field? .operator).toList.filter fun o => !shortCircuits.contains (src.text o.node)).map
      fun o => sendOf src (src.text o.node) (s.field? .left) (s.field? .right).toList s
  | .elementReference =>
    [sendOf src "[]" (s.field? .object) (s.namedExcept [s.field? .object]) s]
  | .pair =>
    if (s.field? .value).isNone then
      (s.field? .key).toList.map fun key => sendOf src (src.key key.node) none [] key
    else []
  | _ => []

section Plans

variable {src : Source} {within : Bool} {s : Spot}

@[simp] theorem ownSendsAll_nil : Act.ownSendsAll [] = [] := rfl

@[simp] theorem ownSendsAll_append (as bs : List Act) :
    Act.ownSendsAll (as ++ bs) = Act.ownSendsAll as ++ Act.ownSendsAll bs := by
  induction as with
  | nil => rfl
  | cons a rest ih => rw [List.cons_append, Act.ownSendsAll, ih, Act.ownSendsAll, List.append_assoc]

@[simp] theorem ownSendsAll_walkAll (cs : List Node) : Act.ownSendsAll (walkAll cs) = [] := by
  induction cs with
  | nil => rfl
  | cons c rest ih => exact ih

@[simp] theorem ownSendsAll_walk? (o : Option Node) : Act.ownSendsAll (Act.walk? o) = [] := by
  cases o <;> rfl

theorem ownSendsAll_call (name : String) (receiver : Option Spot) (args : List Spot)
    (site : Spot) (rest : List Act) :
    Act.ownSendsAll (src.call name (receiver.map node) (args.map node) site.node :: rest) =
      (sendOf src name receiver args site).2 :: Act.ownSendsAll rest := by
  simp [Act.ownSendsAll, Act.ownSends, call, sendOf, Function.comp_def]

theorem ownSendsAll_planSend (name : String) (receiver : Option Spot) (args : List Spot)
    (rest : List Node) :
    Act.ownSendsAll (src.planSend name (receiver.map node) (args.map node) rest s.node) =
      [(sendOf src name receiver args s).2] := by
  simp [planSend, ownSendsAll_call]

theorem ownSendsAll_planAccessor (reader writer : Bool) (args : List Node) :
    Act.ownSendsAll (args.flatMap (src.planAccessor reader writer)) = [] := by
  induction args with
  | nil => rfl
  | cons arg rest ih =>
      rw [List.flatMap_cons, ownSendsAll_append, ih, planAccessor]
      cases (src.argument arg).isName <;> cases reader <;> cases writer <;> rfl

theorem ownSendsAll_planVisibility (visibility : Visibility) (args : List Node) :
    Act.ownSendsAll (src.planVisibility visibility args) = [] := by
  have hargs : Act.ownSendsAll (args.map (src.planVisible visibility)) = [] := by
    induction args with
    | nil => rfl
    | cons arg rest ih =>
        rw [List.map_cons, Act.ownSendsAll, ih, planVisible]
        cases (src.argument arg).isName <;> rfl
  unfold planVisibility
  split
  · rfl
  · exact hargs

theorem ownSendsAll_planCall : Act.ownSendsAll (src.planCall within s.node) =
    (if src.declaresAccessors within s.node || src.declaresVisibility within s.node then []
      else [sendOf src (src.callee s.node) (s.field? .receiver) s.arguments s]).map Prod.snd := by
  have hsend : ∀ rest, Act.ownSendsAll (src.planSend (src.callee s.node) (s.node.field? .receiver)
      (argumentNodes (s.node.field? .arguments)) rest s.node) =
        [(sendOf src (src.callee s.node) (s.field? .receiver) s.arguments s).2] := by
    intro rest
    rw [arguments_node, field?_node]
    exact ownSendsAll_planSend _ _ _ _
  simp only [planCall, declaresAccessors, declaresVisibility, ← callee.eq_def]
  by_cases hbare : ((s.node.field? .receiver).isNone && !within) = true
  · simp only [hbare, if_true, Bool.true_and]
    cases accessors? (src.callee s.node) with
    | some access => simp [ownSendsAll_planAccessor]
    | none =>
        cases Visibility.ofText? (src.callee s.node) with
        | some visibility => simp [ownSendsAll_planVisibility]
        | none => exact hsend _
  · rw [Bool.not_eq_true] at hbare
    simp only [hbare, Bool.false_and, Bool.false_eq_true, if_false, Bool.or_self]
    exact hsend _

theorem ownSendsAll_planIdentifier : Act.ownSendsAll (src.planIdentifier within s.node) =
    (if !within && (Visibility.ofText? (src.text s.node)).isSome then []
      else [sendOf src (src.text s.node) none [] s]).map Prod.snd := by
  unfold planIdentifier
  cases Visibility.ofText? (src.text s.node) <;> cases within <;> rfl

theorem ownSendsAll_planBinary : Act.ownSendsAll (src.planBinary s.node) =
    (((s.field? .operator).toList.filter fun o => !shortCircuits.contains (src.text o.node)).map
      fun o => sendOf src (src.text o.node) (s.field? .left) (s.field? .right).toList s).map
        Prod.snd := by
  simp only [planBinary, field?_node, toList_map_node]
  cases s.field? .operator with
  | none => simp
  | some operator =>
      by_cases hs : src.text operator.node ∈ shortCircuits
      · simp [hs]
      · simp [hs, ownSendsAll_call]

theorem ownSendsAll_planElement : Act.ownSendsAll (src.planElement s.node) =
    [(sendOf src "[]" (s.field? .object) (s.namedExcept [s.field? .object]) s).2] := by
  simp only [planElement, field?_node, namedExcept_one_node]
  simp [ownSendsAll_call]

theorem ownSendsAll_planBlockArgument (n : Node) :
    Act.ownSendsAll (src.planBlockArgument n) = [] := by
  unfold planBlockArgument
  induction n.named with
  | nil => rfl
  | cons c rest ih =>
      rw [List.map_cons, Act.ownSendsAll, ih]
      split <;> rfl

theorem ownSendsAll_planPair : Act.ownSendsAll (src.planPair s.node) =
    (if (s.field? .value).isNone then
      (s.field? .key).toList.map fun key => sendOf src (src.key key.node) none [] key
    else []).map Prod.snd := by
  simp only [planPair, field?_node]
  cases s.field? .key <;> cases s.field? .value <;> simp
  exact ownSendsAll_call _ none [] _ _

theorem ownSendsAll_planParameters (n : Node) : Act.ownSendsAll (planParameters n) = [] := by
  unfold planParameters
  induction n.named with
  | nil => rfl
  | cons p rest ih => rw [List.flatMap_cons, ownSendsAll_append, ih, ownSendsAll_walk?]; rfl

theorem ownSendsAll_written (reads : Bool) (name : String) (receiver : Option Spot)
    (args : List Spot) (target : Spot) (rest : List Act) :
    Act.ownSendsAll
        ((if reads then [src.call name (receiver.map node) (args.map node) target.node] else []) ++
          src.call (name ++ "=") (receiver.map node) (args.map node) target.node :: rest) =
      (written src reads name receiver args target).map Prod.snd ++ Act.ownSendsAll rest := by
  rw [ownSendsAll_append, ownSendsAll_call, written]
  cases reads
  · rfl
  · simp [ownSendsAll_call]

theorem ownSendsAll_planTarget (reads : Bool) (target : Spot) (n : Node) :
    Act.ownSendsAll (src.planTarget reads within target.node n) =
      (targetSends src reads target).map Prod.snd := by
  cases hk : target.node.kind <;> simp only [planTarget, targetSends, hk]
  case constant | scopeResolution =>
    cases within <;> simp [planConstant, isLocalTarget, hk, Act.ownSendsAll, Act.ownSends, Act.walk]
  case call =>
    rw [field?_node, field?_node, ownSendsAll_append, ownSendsAll_walk?, List.nil_append]
    cases target.field? .method with
    | none => rfl
    | some method =>
        simp only [Option.map_some, Option.toList_some, List.flatMap_singleton]
        exact (ownSendsAll_written reads _ _ [] target []).trans (List.append_nil _)
  case elementReference =>
    have hname : "[]=" = "[]" ++ "=" := rfl
    rw [field?_node, namedExcept_one_node, hname, List.append_assoc, List.append_assoc,
      ownSendsAll_append, ownSendsAll_walk?, List.nil_append]
    refine (ownSendsAll_written reads "[]" _ _ target (walkAll _)).trans ?_
    rw [ownSendsAll_walkAll, List.append_nil]
  all_goals simp [isLocalTarget, hk, Act.ownSendsAll, Act.ownSends, Act.walk]

/-- The spots of what the visit of a node sends by itself. -/
theorem ownSendsAll_plan (src : Source) (within : Bool) (s : Spot) :
    Act.ownSendsAll (src.plan within s.node) = (s.sends src within).map Prod.snd := by
  cases hk : s.node.kind <;> simp only [plan, sends, hk]
  case assignment | operatorAssignment =>
    unfold planAssignment
    rw [field?_node, ownSendsAll_append, ownSendsAll_walk?, List.append_nil]
    cases s.field? .left with
    | none => rfl
    | some left =>
        rw [Option.toList_some, List.flatMap_singleton]
        exact ownSendsAll_planTarget _ _ _
  case call => exact ownSendsAll_planCall
  case identifier => exact ownSendsAll_planIdentifier
  case binary => exact ownSendsAll_planBinary
  case elementReference => exact ownSendsAll_planElement
  case blockArgument => exact ownSendsAll_planBlockArgument _
  case pair => exact ownSendsAll_planPair
  case methodParameters | blockParameters | lambdaParameters => exact ownSendsAll_planParameters _
  case classDecl | moduleDecl =>
    unfold planNamespace
    split <;> simp [Act.ownSendsAll, Act.ownSends]
  case methodDecl | singletonMethodDecl =>
    simp only [planMethod]
    split <;> simp [Act.ownSendsAll, Act.ownSends]
  case singletonClass => simp [Act.ownSendsAll, Act.ownSends]
  case aliasDecl =>
    unfold planAlias
    split <;> rfl
  case scopeResolution =>
    unfold planScope
    rw [ownSendsAll_append, ownSendsAll_walk?]
    split <;> rfl
  case constant => rfl
  all_goals exact ownSendsAll_walkAll _

end Plans

section Sites

variable {src : Source} {within reads : Bool} {s t target : Spot} {e : Send}

theorem of_mem_written {name : String} {receiver : Option Spot} {args : List Spot}
    (h : (t, e) ∈ written src reads name receiver args target) :
    t = target ∧ e.location = src.location target.node := by
  rcases List.mem_append.1 h with h | h
  · split at h
    · cases List.mem_singleton.1 h
      exact ⟨rfl, rfl⟩
    · cases h
  · cases List.mem_singleton.1 h
    exact ⟨rfl, rfl⟩

/-- What is sent for the left side of an assignment is sent there, and is not visited. -/
theorem of_mem_targetSends (within : Bool) (h : (t, e) ∈ targetSends src reads target) :
    t = target ∧ e.location = src.location target.node ∧
      target.Spread (targetSuccessors within target) := by
  unfold targetSends at h
  split at h
  · rename_i hk
    obtain ⟨method, _, h⟩ := List.mem_flatMap.1 h
    obtain ⟨hsite, hlocation⟩ := of_mem_written h
    refine ⟨hsite, hlocation, ?_⟩
    simp only [targetSuccessors, hk]
    exact .field? target .receiver
  · rename_i hk
    obtain ⟨hsite, hlocation⟩ := of_mem_written h
    refine ⟨hsite, hlocation, ?_⟩
    simp only [targetSuccessors, hk]
    exact .field?_append_namedExcept target .object
  · cases h

/-- What is sent is at the visited spot or below, and is not visited in turn. -/
structure SentBy (src : Source) (within : Bool) (s t : Spot) (e : Send) : Prop where
  above : s.Above t
  location : e.location = src.location t.node
  unvisited : ∀ c ∈ s.successors src within, ¬ c.way <+: t.way

theorem sentBy_self (hroles : s.node.RolesApart) (name : String) (receiver : Option Spot)
    (args : List Spot) : SentBy src within s s (sendOf src name receiver args s).2 where
  above := .refl s
  location := rfl
  unvisited := fun _ hc => (spread_successors hroles).not_isPrefix hc

theorem sentBy_left (hroles : s.node.RolesApart) (hk : s.node.kind.isAssignment = true)
    (h : (t, e) ∈ (s.field? .left).toList.flatMap (targetSends src reads)) :
    SentBy src within s t e := by
  obtain ⟨left, hleft, h⟩ := List.mem_flatMap.1 h
  rw [Option.mem_toList] at hleft
  obtain ⟨rfl, hlocation, hspread⟩ := of_mem_targetSends within h
  refine ⟨above_of_mem_children (mem_children_of_field? hleft), hlocation, ?_⟩
  intro c hc
  have hsuccessors : s.successors src within =
      targetSuccessors within t ++ (s.field? .right).toList := by
    cases hkind : s.node.kind <;> simp [hkind, Kind.isAssignment] at hk <;>
      simp [successors, hkind, hleft]
  rw [hsuccessors] at hc
  rcases List.mem_append.1 hc with hc | hc
  · exact hspread.not_isPrefix hc
  · exact (apart_of_field? hroles (by decide) (Option.mem_toList.1 hc) hleft).1

theorem sentBy_of_mem_sends (hroles : s.node.RolesApart) (h : (t, e) ∈ s.sends src within) :
    SentBy src within s t e := by
  unfold sends at h
  split at h
  · rename_i hk
    exact sentBy_left hroles (by rw [hk]; rfl) h
  · rename_i hk
    exact sentBy_left hroles (by rw [hk]; rfl) h
  · split at h
    · cases h
    · cases List.mem_singleton.1 h
      exact sentBy_self hroles _ _ _
  · split at h
    · cases h
    · cases List.mem_singleton.1 h
      exact sentBy_self hroles _ _ _
  · obtain ⟨operator, _, heq⟩ := List.mem_map.1 h
    cases heq
    exact sentBy_self hroles _ _ _
  · cases List.mem_singleton.1 h
    exact sentBy_self hroles _ _ _
  · rename_i hk
    split at h
    · rename_i hvalue
      obtain ⟨key, hkey, heq⟩ := List.mem_map.1 h
      cases heq
      rw [Option.mem_toList] at hkey
      refine ⟨above_of_mem_children (mem_children_of_field? hkey), rfl, ?_⟩
      simp [successors, hk, hkey, hvalue]
    · cases h
  · cases h

theorem written_cases (src : Source) (reads : Bool) (name : String) (receiver : Option Spot)
    (args : List Spot) (target : Spot) :
    (written src reads name receiver args target).length ≤ 1 ∨ (reads = true ∧ ∃ read : Send,
      written src reads name receiver args target =
        [(target, read), (target, { read with name := read.name ++ "=" })]) := by
  cases reads with
  | false => exact .inl (Nat.le_refl 1)
  | true => exact .inr ⟨rfl, _, rfl⟩

theorem targetSends_cases (src : Source) (reads : Bool) (target : Spot) :
    (targetSends src reads target).length ≤ 1 ∨ (reads = true ∧ ∃ read : Send,
      targetSends src reads target =
        [(target, read), (target, { read with name := read.name ++ "=" })]) := by
  unfold targetSends
  split
  · cases target.field? .method with
    | none => exact .inl (Nat.zero_le 1)
    | some method =>
        rw [Option.toList_some, List.flatMap_singleton]
        exact written_cases src reads _ _ _ target
  · exact written_cases src reads _ _ _ target
  · exact .inl (Nat.zero_le 1)

/-- A visit sends once, or it reads and writes the left side of an operator assignment. -/
theorem sends_cases (src : Source) (within : Bool) (s : Spot) :
    (s.sends src within).length ≤ 1 ∨ (s.node.kind = .operatorAssignment ∧
      ∃ (left : Spot) (read : Send), s.field? .left = some left ∧ s.sends src within =
        [(left, read), (left, { read with name := read.name ++ "=" })]) := by
  unfold sends
  split
  · cases s.field? .left with
    | none => exact .inl (Nat.zero_le 1)
    | some left =>
        rw [Option.toList_some, List.flatMap_singleton]
        rcases targetSends_cases src false left with hone | ⟨hreads, _⟩
        · exact .inl hone
        · cases hreads
  · rename_i hk
    cases hleft : s.field? .left with
    | none => exact .inl (Nat.zero_le 1)
    | some left =>
        rw [Option.toList_some, List.flatMap_singleton]
        rcases targetSends_cases src true left with hone | ⟨_, read, hboth⟩
        · exact .inl hone
        · exact .inr ⟨hk, left, read, rfl, hboth⟩
  · left
    split <;> simp
  · left
    split <;> simp
  · left
    rw [List.length_map]
    exact Nat.le_trans (List.length_filter_le _ _) (Option.length_toList_le)
  · exact .inl (Nat.le_refl 1)
  · left
    split
    · rw [List.length_map]
      exact Option.length_toList_le
    · exact Nat.zero_le 1
  · exact .inl (Nat.zero_le 1)

end Sites

end Spot

/-- What is sent at the end of a way. -/
def sentAt (way : List Nat) (calls : List (Spot × Send)) : List Send :=
  (calls.filter (·.1.way = way)).map Prod.snd

/-- One send at most, or the two that an operator assignment makes of its left side. -/
def SentOnce (visits : List (Bool × Spot)) (way : List Nat) (sent : List Send) : Prop :=
  sent.length ≤ 1 ∨ ∃ v ∈ visits, v.2.node.kind = .operatorAssignment ∧
    ∃ (left : Spot) (read : Send), v.2.field? .left = some left ∧ left.way = way ∧
      sent = [read, { read with name := read.name ++ "=" }]

theorem SentOnce.mono {visits more : List (Bool × Spot)} {way : List Nat} {sent : List Send}
    (h : SentOnce visits way sent) (hsub : visits ⊆ more) : SentOnce more way sent := by
  rcases h with hone | ⟨v, hv, hboth⟩
  · exact .inl hone
  · exact .inr ⟨v, hsub hv, hboth⟩

namespace Source

/-- What the visits of a tour send, each time with the spot that is sent. -/
def calls (src : Source) (within : Bool) (s : Spot) : List (Spot × Send) :=
  (src.tour within s).flatMap fun v => v.2.sends src v.1

variable {src : Source} {within : Bool} {s : Spot} {way : List Nat}

theorem calls_eq (src : Source) (within : Bool) (s : Spot) :
    src.calls within s = s.sends src within ++ (s.successors src within).flatMap
      (src.calls (within || s.node.kind.isMethod)) := by
  rw [calls, tour_eq, List.flatMap_cons, List.flatMap_assoc]
  rfl

/-- The sends of an outline are those of the tour, in another order. -/
theorem sendsAll_outline_perm (src : Source) (within : Bool) (s : Spot) :
    (Act.sendsAll (src.outline within s.node)).Perm ((src.calls within s).map Prod.snd) := by
  induction within, s using tour_induction src with
  | step within s ih =>
      rw [outline_eq, calls_eq, List.map_append, List.map_flatMap, ← Spot.ownSendsAll_plan]
      refine (Act.sendsAll_fillAll _ within _).trans (List.Perm.append_left _ ?_)
      rw [visitsAll_plan, Spot.successors_node, List.map_map, List.flatMap_map]
      apply List.Perm.flatMap_left
      intro t ht
      exact ih t ht

theorem of_mem_calls {c : Spot × Send} (hroles : s.node.RolesApart)
    (h : c ∈ src.calls within s) : s.Above c.1 ∧ c.2.location = src.location c.1.node := by
  induction within, s using tour_induction src with
  | step within s ih =>
      rw [calls_eq] at h
      rcases List.mem_append.1 h with h | h
      · have hsent := Spot.sentBy_of_mem_sends hroles h
        exact ⟨hsent.above, hsent.location⟩
      · obtain ⟨t, ht, h⟩ := List.mem_flatMap.1 h
        obtain ⟨habove, hlocation⟩ := ih t ht (rolesApart_of_mem_successors hroles ht) h
        exact ⟨((Spot.spread_successors hroles).above ht).trans habove, hlocation⟩

/-- Nothing is sent at the end of a way by a visit that is not on the way. -/
theorem sentAt_calls_eq_nil (hroles : s.node.RolesApart) (h : ¬ s.way <+: way) :
    sentAt way (src.calls within s) = [] := by
  rw [sentAt, List.map_eq_nil_iff, List.filter_eq_nil_iff]
  intro c hc hway
  have habove := (of_mem_calls hroles hc).1.way
  rw [of_decide_eq_true hway] at habove
  exact h habove

theorem sentAt_append (calls more : List (Spot × Send)) :
    sentAt way (calls ++ more) = sentAt way calls ++ sentAt way more := by
  rw [sentAt, List.filter_append, List.map_append]
  rfl

/-- Of spots that are apart at most one sends at the end of a way. -/
theorem sentAt_flatMap_calls {ts : List Spot} (hapart : ts.Pairwise Spot.Apart)
    (hroles : ∀ t ∈ ts, t.node.RolesApart) :
    sentAt way (ts.flatMap (src.calls within)) = [] ∨
      ∃ t ∈ ts, t.way <+: way ∧
        sentAt way (ts.flatMap (src.calls within)) = sentAt way (src.calls within t) := by
  induction ts with
  | nil => exact .inl rfl
  | cons t rest ih =>
      obtain ⟨hfirst, hrest⟩ := List.pairwise_cons.1 hapart
      have hroles' : ∀ u ∈ rest, u.node.RolesApart :=
        fun u hu => hroles u (List.mem_cons_of_mem _ hu)
      rw [List.flatMap_cons, sentAt_append]
      rcases ih hrest hroles' with hnil | ⟨u, hu, hway, heq⟩
      · rw [hnil, List.append_nil]
        by_cases hway : t.way <+: way
        · exact .inr ⟨t, List.mem_cons_self, hway, rfl⟩
        · exact .inl (sentAt_calls_eq_nil (hroles t List.mem_cons_self) hway)
      · -- the way leads through the later spot, hence not through this one
        have hnot : ¬ t.way <+: way := by
          intro hway'
          rcases List.prefix_or_prefix_of_prefix hway hway' with hut | htu
          · exact (hfirst u hu).2 hut
          · exact (hfirst u hu).1 htu
        rw [sentAt_calls_eq_nil (hroles t List.mem_cons_self) hnot, List.nil_append]
        exact .inr ⟨u, List.mem_cons_of_mem _ hu, hway, heq⟩

theorem sentOnce_sends (src : Source) (within : Bool) (s : Spot) :
    SentOnce (src.tour within s) way (sentAt way (s.sends src within)) := by
  rcases s.sends_cases src within with hone | ⟨hk, left, read, hleft, hboth⟩
  · have hle : (sentAt way (s.sends src within)).length ≤ (s.sends src within).length := by
      rw [sentAt, List.length_map]
      exact List.length_filter_le _ _
    exact .inl (Nat.le_trans hle hone)
  · rw [hboth]
    by_cases hway : left.way = way
    · refine .inr ⟨(within, s), ?_, hk, left, read, hleft, hway, by simp [sentAt, hway]⟩
      rw [tour_eq]
      exact List.mem_cons_self
    · exact .inl (by simp [sentAt, hway])

/-- No spot is sent twice. -/
theorem sentOnce_calls (hroles : s.node.RolesApart) :
    SentOnce (src.tour within s) way (sentAt way (src.calls within s)) := by
  induction within, s using tour_induction src with
  | step within s ih =>
      have hspread : s.Spread (s.successors src within) := Spot.spread_successors hroles
      have hbelow : ∀ t ∈ s.successors src within, t.node.RolesApart :=
        fun t ht => rolesApart_of_mem_successors hroles ht
      rw [calls_eq, sentAt_append]
      rcases sentAt_flatMap_calls hspread.apart hbelow with hnil | ⟨t, ht, hway, heq⟩
      · rw [hnil, List.append_nil]
        exact sentOnce_sends src within s
      · -- what a visit sends by itself is not at or below a spot that it leads to
        have hown : sentAt way (s.sends src within) = [] := by
          rw [sentAt, List.map_eq_nil_iff, List.filter_eq_nil_iff]
          intro c hc hend
          rw [← of_decide_eq_true hend] at hway
          exact (Spot.sentBy_of_mem_sends hroles hc).unvisited t ht hway
        rw [hown, List.nil_append, heq]
        apply (ih t ht (hbelow t ht)).mono
        intro v hv
        rw [tour_eq]
        exact List.mem_cons_of_mem _ (List.mem_flatMap.2 ⟨t, ht, hv⟩)

end Source

namespace Walk

/-- A run visits no node twice: the nodes it visits stand at the ends of different ways. What it
sends is sent at the end of some way, and once at most, but for the left sides of operator
assignments, which are read and then written. -/
theorem run_visits_once (src : Source) (root : Node) (h : root.RolesApart) :
    (∀ plugins x, run src plugins root x =
        act ⟨src.path, plugins⟩ (.visit root (src.outline false root)) { index := x }) ∧
      (src.tour false (.top root)).map (·.2.node) =
        (Act.visit root (src.outline false root)).sites ∧
      (∀ v ∈ src.tour false (.top root), root.at? v.2.way = some v.2.node) ∧
      ((src.tour false (.top root)).map (·.2.way)).Nodup ∧
      (∀ plugins x, ((run src plugins root x).events.filterMap Event.sent?).Perm
        ((src.calls false (.top root)).map Prod.snd)) ∧
      (∀ c ∈ src.calls false (.top root), root.at? c.1.way = some c.1.node ∧
        c.2.location = src.location c.1.node) ∧
      ∀ way, SentOnce (src.tour false (.top root)) way
        (sentAt way (src.calls false (.top root))) := by
  refine ⟨fun _ _ => rfl, src.map_node_tour false (.top root), ?_, Source.nodup_tour h, ?_, ?_,
    fun _ => Source.sentOnce_calls h⟩
  · intro v hv
    exact Spot.above_top_iff.1 (Source.above_of_mem_tour h hv)
  · intro plugins x
    rw [filterMap_sent?_events]
    exact src.sendsAll_outline_perm false (.top root)
  · intro c hc
    obtain ⟨habove, hlocation⟩ := Source.of_mem_calls h hc
    exact ⟨Spot.above_top_iff.1 habove, hlocation⟩

/-- An attribute that is read and written. -/
def updateSource : Source :=
  ⟨"a.rb", Utf8.encode "a.b += c"⟩

def updateTree : Node :=
  .mk (.other "program") ⟨0, 8, ⟨0, 0⟩, ⟨0, 8⟩⟩ ⟨true, false, false⟩ []
    [.mk .operatorAssignment ⟨0, 8, ⟨0, 0⟩, ⟨0, 8⟩⟩ ⟨true, false, false⟩
      [(.left, 0), (.operator, 1), (.right, 2)]
      [.mk .call ⟨0, 3, ⟨0, 0⟩, ⟨0, 3⟩⟩ ⟨true, false, false⟩ [(.receiver, 0), (.method, 2)]
          [.mk .identifier ⟨0, 1, ⟨0, 0⟩, ⟨0, 1⟩⟩ ⟨true, false, false⟩ [] [],
            .mk (.other ".") ⟨1, 2, ⟨0, 1⟩, ⟨0, 2⟩⟩ ⟨false, false, false⟩ [] [],
            .mk .identifier ⟨2, 3, ⟨0, 2⟩, ⟨0, 3⟩⟩ ⟨true, false, false⟩ [] []],
        .mk (.other "+=") ⟨4, 6, ⟨0, 4⟩, ⟨0, 6⟩⟩ ⟨false, false, false⟩ [] [],
        .mk .identifier ⟨7, 8, ⟨0, 7⟩, ⟨0, 8⟩⟩ ⟨true, false, false⟩ [] []]]

theorem run_visits_once_update :
    (updateTree.RolesApart ∧ ((updateSource.tour false (.top updateTree)).map (·.2.way)).Nodup) ∧
      (updateSource.tour false (.top updateTree)).map (·.2.way) = [[], [0], [0, 0, 0], [0, 2]] ∧
      (sentAt [0, 0] (updateSource.calls false (.top updateTree))).map (·.name) = ["b", "b="] ∧
      SentOnce (updateSource.tour false (.top updateTree)) [0, 0]
        (sentAt [0, 0] (updateSource.calls false (.top updateTree))) := by
  have hroles : updateTree.RolesApart :=
    Node.rolesApart_of_nodup (by decide +kernel)
  obtain ⟨_, _, _, hnodup, _, _, honce⟩ := run_visits_once updateSource updateTree hroles
  exact ⟨⟨hroles, hnodup⟩, by decide +kernel, by decide +kernel, honce [0, 0]⟩

end Walk
end Fallow
