import Fallow.Proofs.Successors
import Mathlib.Data.List.Nodup
import Mathlib.Data.List.Pairwise

/-!
# Regular trees

What can be relied on in the tree of a sound source: no node occurs twice, siblings stand at
different sites and play different roles, and words and tokens have nothing below them. In such a
tree a node stands below at most one successor of a node, so that all visits of what is below a
visited node come from its visit.
-/

namespace Fallow

open Syntax

/-- The kinds of nodes that are a single word. -/
def Syntax.Kind.isWord : Kind → Bool
  | .identifier | .constant | .simpleSymbol | .stringContent | .comment | .instanceVariable
  | .classVariable | .globalVariable => true
  | _ => false

namespace Syntax.Node

/-- A tree as sound sources have it. -/
structure Regular (root : Node) : Prop where
  nodup : root.preorder.Nodup
  siblings : ∀ n ∈ root.preorder, n.children.Pairwise fun a b => a.sameSite b = false
  roles : ∀ n ∈ root.preorder, (n.fields.map Prod.snd).Nodup
  words : ∀ n ∈ root.preorder, n.kind.isWord = true → n.children = []
  tokens : ∀ n ∈ root.preorder, n.flags.named = false → n.children = [] ∧ n.kind ≠ .call
  lists : ∀ n ∈ root.preorder, ∀ a, n.field? .arguments = some a → a.kind ≠ .call

mutual

theorem preorder_sublist {c : Node} :
    ∀ {n : Node}, c ∈ n.preorder → c.preorder.Sublist n.preorder
  | mk kind span flags fields children, hc => by
      rcases List.mem_cons.1 hc with rfl | hc
      · exact List.Sublist.refl _
      · exact (preorder_sublist_preorderAll hc).cons _

theorem preorder_sublist_preorderAll {c : Node} :
    ∀ {cs : List Node}, c ∈ preorderAll cs → c.preorder.Sublist (preorderAll cs)
  | [], hc => by simp [preorderAll] at hc
  | b :: rest, hc => by
      rcases List.mem_append.1 hc with hc | hc
      · exact (preorder_sublist hc).trans (List.sublist_append_left _ _)
      · exact (preorder_sublist_preorderAll hc).trans (List.sublist_append_right _ _)

end

theorem not_mem_children_self (n : Node) : n ∉ n.children := fun h =>
  Nat.lt_irrefl _ (height_lt_of_mem_children h)

theorem mem_preorder_iff {n c : Node} : c ∈ n.preorder ↔ c = n ∨ c ∈ n.inner := by
  rw [preorder_eq, List.mem_cons]

theorem not_mem_preorder_of_leaf {n c : Node} (hn : n.children = []) (hk : n.kind ≠ .call)
    (hc : c.kind = .call) : c ∉ n.preorder := by
  intro hmem
  rcases mem_preorder_iff.1 hmem with rfl | hinner
  · exact hk hc
  · rw [inner, hn] at hinner
    cases hinner

theorem sameSite_refl (n : Node) : n.sameSite n = true := by
  simp [sameSite]

theorem sameSite_comm (a b : Node) : a.sameSite b = b.sameSite a := by
  simp [sameSite, eq_comm]

theorem mem_namedExcept {n c : Node} {skipped : List (Option Node)} :
    c ∈ n.namedExcept skipped ↔ c ∈ n.children ∧ c.flags.named = true ∧
      ∀ d, some d ∈ skipped → c.sameSite d = false := by
  simp only [namedExcept, named, List.mem_filter, and_assoc, Bool.not_eq_true', List.any_eq_false,
    Bool.not_eq_true]
  apply and_congr_right
  intro _
  apply and_congr_right
  intro _
  constructor
  · intro h d hd
    exact h (some d) hd
  · intro h o ho
    cases o with
    | none => rfl
    | some d => exact h d ho

theorem not_mem_namedExcept_of_mem {n d : Node} {skipped : List (Option Node)}
    (hd : some d ∈ skipped) : d ∉ n.namedExcept skipped := by
  intro h
  have hsite := (mem_namedExcept.1 h).2.2 d hd
  rw [sameSite_refl] at hsite
  cases hsite

/-- Where no child has two fields, a child is found under one field only. -/
theorem eq_of_lookup_eq_some {fields : List (Field × Nat)} {f g : Field} {i : Nat}
    (h : (fields.map Prod.snd).Nodup) (hf : fields.lookup f = some i)
    (hg : fields.lookup g = some i) : f = g := by
  have hmem : ∀ {f : Field}, fields.lookup f = some i → (f, i) ∈ fields := by
    intro f hf
    obtain ⟨front, back, hfields, _⟩ := List.lookup_eq_some_iff.1 hf
    rw [hfields]
    exact List.mem_append_right _ List.mem_cons_self
  exact congrArg Prod.fst (List.inj_on_of_nodup_map h (hmem hf) (hmem hg) rfl)

/-- In a list without repetition no node stands below two. -/
theorem eq_of_mem_preorderAll {cs : List Node} {c d e : Node} (h : (preorderAll cs).Nodup)
    (hd : d ∈ cs) (he : e ∈ cs) (hcd : c ∈ d.preorder) (hce : c ∈ e.preorder) : d = e := by
  induction cs with
  | nil => cases hd
  | cons b rest ih =>
      obtain ⟨_, hrest, hapart⟩ := List.nodup_append.1 h
      rcases List.mem_cons.1 hd with rfl | hd' <;> rcases List.mem_cons.1 he with rfl | he'
      · rfl
      · exact absurd rfl (hapart c hcd c (mem_preorderAll.2 ⟨e, he', hce⟩))
      · exact absurd rfl (hapart c hce c (mem_preorderAll.2 ⟨d, hd', hcd⟩))
      · exact ih hrest hd' he'

namespace Regular

variable {root n c d e : Node}

theorem of_mem (h : root.Regular) (hn : n ∈ root.preorder) : n.Regular where
  nodup := h.nodup.sublist (preorder_sublist hn)
  siblings := fun c hc => h.siblings c (mem_preorder_trans hc hn)
  roles := fun c hc => h.roles c (mem_preorder_trans hc hn)
  words := fun c hc => h.words c (mem_preorder_trans hc hn)
  tokens := fun c hc => h.tokens c (mem_preorder_trans hc hn)
  lists := fun c hc => h.lists c (mem_preorder_trans hc hn)

theorem of_mem_children (h : n.Regular) (hd : d ∈ n.children) : d.Regular :=
  h.of_mem (mem_preorder_of_mem_inner (mem_inner_of_mem_children hd))

/-- No node stands below two children. -/
theorem eq_of_mem_preorder (h : n.Regular) (hd : d ∈ n.children) (he : e ∈ n.children)
    (hcd : c ∈ d.preorder) (hce : c ∈ e.preorder) : d = e := by
  have hnodup := h.nodup
  rw [preorder_eq, List.nodup_cons] at hnodup
  exact eq_of_mem_preorderAll hnodup.2 hd he hcd hce

theorem nodup_children (h : n.Regular) : n.children.Nodup := by
  apply (h.siblings n (mem_preorder_self n)).imp
  rintro a b hab rfl
  rw [sameSite_refl] at hab
  cases hab

/-- A child plays one role only. -/
theorem field_inj (h : n.Regular) {f g : Field} (hf : n.field? f = some c)
    (hg : n.field? g = some c) : f = g := by
  simp only [field?, Option.bind_eq_some_iff] at hf hg
  obtain ⟨i, hi, hci⟩ := hf
  obtain ⟨j, hj, hcj⟩ := hg
  have hbound : i < n.children.length := (List.getElem?_eq_some_iff.1 hci).1
  have hij : i = j := (List.getElem?_inj hbound h.nodup_children).1 (hci.trans hcj.symm)
  subst hij
  exact eq_of_lookup_eq_some (h.roles n (mem_preorder_self n)) hi hj

/-- There are no calls in words. -/
theorem not_mem_of_isWord (h : n.Regular) (hword : n.kind.isWord = true) (hc : c.kind = .call) :
    c ∉ n.preorder := by
  apply not_mem_preorder_of_leaf (h.words n (mem_preorder_self n) hword) _ hc
  intro hk
  simp [hk, Kind.isWord] at hword

/-- A call stands below named children only. -/
theorem named_of_mem (h : n.Regular) (hd : d ∈ n.children) (hcd : c ∈ d.preorder)
    (hc : c.kind = .call) : d.flags.named = true := by
  rw [← Bool.not_eq_false]
  intro hnamed
  have hdn := mem_preorder_of_mem_inner (mem_inner_of_mem_children hd)
  obtain ⟨hchildren, hkind⟩ := h.tokens d hdn hnamed
  exact not_mem_preorder_of_leaf hchildren hkind hc hcd

theorem mem_named_of_mem (h : n.Regular) (hd : d ∈ n.children) (hcd : c ∈ d.preorder)
    (hc : c.kind = .call) : d ∈ n.named :=
  List.mem_filter.2 ⟨hd, h.named_of_mem hd hcd hc⟩

theorem eq_of_sameSite (h : n.Regular) (hd : d ∈ n.children) (he : e ∈ n.children)
    (hsite : d.sameSite e = true) : d = e := by
  by_contra hne
  have hsymm : Std.Symm fun a b : Node => a.sameSite b = false :=
    ⟨fun a b hab => by rw [sameSite_comm]; exact hab⟩
  have hapart := (h.siblings n (mem_preorder_self n)).forall hd he hne
  simp [hsite] at hapart

/-- A child above a call is among the rest or plays one of the roles left out. -/
theorem mem_namedExcept_or (h : n.Regular) (roles : List Field) (hd : d ∈ n.children)
    (hcd : c ∈ d.preorder) (hc : c.kind = .call) :
    d ∈ n.namedExcept (roles.map n.field?) ∨ ∃ f ∈ roles, n.field? f = some d := by
  by_cases hrole : ∃ f ∈ roles, n.field? f = some d
  · exact .inr hrole
  · refine .inl (mem_namedExcept.2 ⟨hd, h.named_of_mem hd hcd hc, fun e he => ?_⟩)
    obtain ⟨f, hf, hfe⟩ := List.mem_map.1 he
    rw [← Bool.not_eq_true]
    intro hsite
    cases h.eq_of_sameSite hd (mem_children_of_field? hfe) hsite
    exact hrole ⟨f, hf, hfe⟩

end Regular
end Syntax.Node

namespace Source

open Syntax.Node

variable {src : Source} {within : Bool} {n s t c target : Node}

theorem mem_children_of_scopeOf (h : scopeOf n = some s) : s ∈ n.children := by
  unfold scopeOf at h
  split at h
  · exact mem_children_of_field? h
  · cases h

theorem mem_argumentNodes {arguments : Option Node} : s ∈ argumentNodes arguments ↔
    ∃ a, arguments = some a ∧ s ∈ a.named ∧ s.kind ≠ .comment := by
  cases arguments <;> simp [argumentNodes]

theorem mem_children_of_mem_field {f : Field} (hs : s ∈ (n.field? f).toList) : s ∈ n.children :=
  mem_children_of_field? (Option.mem_toList.1 hs)

/-- The left side of an assignment is visited itself, or only children of it are. -/
theorem targetSuccessors_eq_or (within : Bool) (target : Node) :
    targetSuccessors within target = [target] ∨
      ∀ s ∈ targetSuccessors within target, s ∈ target.children := by
  cases hk : target.kind <;> simp only [targetSuccessors, hk]
  case constant => cases within <;> simp
  case scopeResolution =>
    cases within
    · exact .inr fun s hs => mem_children_of_mem_field hs
    · exact .inl rfl
  case call => exact .inr fun s hs => mem_children_of_mem_field hs
  case elementReference =>
    refine .inr fun s hs => ?_
    rcases List.mem_append.1 hs with hs | hs
    · exact mem_children_of_mem_field hs
    · exact mem_children_of_mem_namedExcept hs
  all_goals simp

/-- A successor is a child, or a child of a child that is not visited itself. -/
def Follows (src : Source) (within : Bool) (n s : Node) : Prop :=
  s ∈ n.children ∨ ∃ e ∈ n.children, s ∈ e.children ∧ e ∉ src.successors within n

theorem follows_of_isNamespace (hk : n.kind.isNamespace = true)
    (hs : s ∈ src.successors within n) : src.Follows within n s := by
  have hsuccessors := src.successors_of_isNamespace within hk
  rw [hsuccessors] at hs
  unfold namespaceSuccessors at hs hsuccessors
  split at hs
  · rename_i name hname
    rcases List.mem_append.1 hs with hs | hs
    · have hscope : s ∈ name.children := mem_children_of_scopeOf (Option.mem_toList.1 hs)
      refine .inr ⟨name, mem_children_of_field? hname, hscope, ?_⟩
      simp only [hname] at hsuccessors
      rw [hsuccessors, List.mem_append]
      rintro (hmem | hmem)
      · exact not_mem_children_self name (mem_children_of_scopeOf (Option.mem_toList.1 hmem))
      · exact not_mem_namedExcept_of_mem (List.mem_singleton_self _) hmem
    · exact .inl (mem_children_of_mem_namedExcept hs)
  · exact .inl (mem_children_of_mem_named hs)

theorem follows_of_isParameters (hn : n.Regular) (hk : n.kind.isParameters = true)
    (hs : s ∈ src.successors within n) : src.Follows within n s := by
  have hsuccessors := src.successors_of_isParameters within hk
  rw [hsuccessors] at hs
  obtain ⟨p, hp, hs⟩ := List.mem_filterMap.1 hs
  have hpn := mem_children_of_mem_named hp
  refine .inr ⟨p, hpn, mem_children_of_field? hs, ?_⟩
  rw [hsuccessors]
  intro hmem
  obtain ⟨q, hq, hvalue⟩ := List.mem_filterMap.1 hmem
  have hpq : p ∈ q.children := mem_children_of_field? hvalue
  have heq : p = q := hn.eq_of_mem_preorder hpn (mem_children_of_mem_named hq)
    (mem_preorder_self p) (mem_preorder_of_mem_inner (mem_inner_of_mem_children hpq))
  exact not_mem_children_self q (heq ▸ hpq)

theorem follows_of_isAssignment (hn : n.Regular) (hk : n.kind.isAssignment = true)
    (hs : s ∈ src.successors within n) : src.Follows within n s := by
  have hsuccessors := src.successors_of_isAssignment within hk
  rw [hsuccessors, List.mem_append] at hs
  rcases hs with hs | hs
  · obtain ⟨left, hleft, hs⟩ := List.mem_flatMap.1 hs
    have hleft := Option.mem_toList.1 hleft
    have hchild : left ∈ n.children := mem_children_of_field? hleft
    rcases targetSuccessors_eq_or within left with htarget | htarget
    · rw [htarget, List.mem_singleton] at hs
      exact .inl (hs ▸ hchild)
    · refine .inr ⟨left, hchild, htarget s hs, ?_⟩
      rw [hsuccessors, List.mem_append, hleft]
      rintro (hmem | hmem)
      · exact not_mem_children_self left (htarget left (by simpa using hmem))
      · cases hn.field_inj hleft (Option.mem_toList.1 hmem)
  · exact .inl (mem_children_of_mem_field hs)

theorem mem_of_mem_callSuccessors (hs : s ∈ src.callSuccessors within n) :
    n.field? .receiver = some s ∨ s ∈ argumentNodes (n.field? .arguments) ∨
      s ∈ n.namedExcept [n.field? .receiver, n.field? .method, n.field? .arguments] := by
  have hargs : ∀ {args : List Node}, s ∈ src.nameless args → s ∈ args := fun h =>
    (List.mem_filter.1 h).1
  simp only [callSuccessors] at hs
  split at hs
  · rcases List.mem_append.1 hs with hs | hs
    · exact .inr (.inl (hargs hs))
    · exact .inr (.inr hs)
  · split at hs
    · exact .inr (.inl (hargs hs))
    · simp only [List.mem_append, Option.mem_toList, or_assoc] at hs
      exact hs

theorem follows_of_call (hn : n.Regular) (hk : n.kind = .call)
    (hs : s ∈ src.callSuccessors within n) : src.Follows within n s := by
  rcases mem_of_mem_callSuccessors hs with hs | hs | hs
  · exact .inl (mem_children_of_field? hs)
  · obtain ⟨a, ha, hs, _⟩ := mem_argumentNodes.1 hs
    refine .inr ⟨a, mem_children_of_field? ha, mem_children_of_mem_named hs, ?_⟩
    simp only [successors, hk]
    intro hself
    rcases mem_of_mem_callSuccessors hself with hself | hself | hself
    · cases hn.field_inj ha hself
    · obtain ⟨b, hb, hself, _⟩ := mem_argumentNodes.1 hself
      cases ha.symm.trans hb
      exact not_mem_children_self a (mem_children_of_mem_named hself)
    · exact not_mem_namedExcept_of_mem (by simp [ha]) hself
  · exact .inl (mem_children_of_mem_namedExcept hs)

theorem follows_of_mem_successors (hn : n.Regular) (hs : s ∈ src.successors within n) :
    src.Follows within n s := by
  have hfield : ∀ {f : Field} {skipped : List (Option Node)},
      s ∈ (n.field? f).toList ++ n.namedExcept skipped → s ∈ n.children := by
    intro f skipped h
    rcases List.mem_append.1 h with h | h
    · exact mem_children_of_mem_field h
    · exact mem_children_of_mem_namedExcept h
  cases hk : n.kind
  case classDecl | moduleDecl => exact follows_of_isNamespace (by simp [hk, Kind.isNamespace]) hs
  case methodParameters | blockParameters | lambdaParameters =>
    exact follows_of_isParameters hn (by simp [hk, Kind.isParameters]) hs
  case assignment | operatorAssignment =>
    exact follows_of_isAssignment hn (by simp [hk, Kind.isAssignment]) hs
  all_goals simp only [successors, hk] at hs
  case call => exact follows_of_call hn hk hs
  case singletonClass | elementReference => exact .inl (hfield hs)
  case methodDecl | singletonMethodDecl => exact .inl (mem_children_of_mem_namedExcept hs)
  case binary =>
    rcases List.mem_append.1 hs with hs | hs
    · exact .inl (mem_children_of_mem_field hs)
    · exact .inl (mem_children_of_mem_field hs)
  case blockArgument => exact .inl (mem_children_of_mem_named (List.mem_filter.1 hs).1)
  case pair =>
    split at hs
    · cases hs
    · exact .inl (mem_children_of_mem_named hs)
  case scopeResolution => exact .inl (mem_children_of_mem_field hs)
  case identifier | aliasDecl | constant => cases hs
  all_goals exact .inl (mem_children_of_mem_named hs)

/-- No node stands below two successors. -/
theorem eq_of_mem_successors (hn : n.Regular) (hs : s ∈ src.successors within n)
    (ht : t ∈ src.successors within n) (hcs : c ∈ s.preorder) (hct : c ∈ t.preorder) : s = t := by
  have hbelow : ∀ {s e : Node}, s ∈ e.children → c ∈ s.preorder → c ∈ e.preorder := fun hs hc =>
    mem_preorder_of_mem_inner (mem_inner_trans (mem_inner_of_mem_children hs) hc)
  rcases follows_of_mem_successors hn hs with hsn | ⟨d, hd, hsd, hout⟩ <;>
    rcases follows_of_mem_successors hn ht with htn | ⟨e, he, hte, hout'⟩
  · exact hn.eq_of_mem_preorder hsn htn hcs hct
  · cases hn.eq_of_mem_preorder hsn he hcs (hbelow hte hct)
    exact absurd hs hout'
  · cases hn.eq_of_mem_preorder hd htn (hbelow hsd hcs) hct
    exact absurd ht hout
  · cases hn.eq_of_mem_preorder hd he (hbelow hsd hcs) (hbelow hte hct)
    exact (hn.of_mem_children hd).eq_of_mem_preorder hsd hte hcs hct

/-- All visits of what is below a visited node come from its visit. -/
theorem Visits.of_mem_preorder {inMethod k j : Bool} {root : Node} (hroot : root.Regular)
    (hn : src.Visits inMethod root j n) (hc : src.Visits inMethod root k c)
    (hcn : c ∈ n.preorder) : src.Visits j n k c := by
  induction hh : root.height using Nat.strongRecOn generalizing inMethod root with
  | ind height ih =>
      rcases hn.eq_or_exists_successor with ⟨rfl, rfl⟩ | ⟨s, hs, hsn⟩
      · exact hc
      · have hsroot := mem_inner_of_mem_successors hs
        have hcs : c ∈ s.preorder := mem_preorder_trans hcn hsn.mem_preorder
        rcases hc.eq_or_exists_successor with ⟨_, rfl⟩ | ⟨t, ht, htc⟩
        · have hlt := height_lt_of_mem_inner (mem_inner_trans hsroot hcs)
          exact absurd hlt (Nat.lt_irrefl _)
        · cases eq_of_mem_successors hroot hs ht hcs htc.mem_preorder
          exact ih s.height (hh ▸ height_lt_of_mem_inner hsroot)
            (hroot.of_mem (mem_preorder_of_mem_inner hsroot)) hsn htc rfl

end Source
end Fallow
