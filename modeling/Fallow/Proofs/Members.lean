import Fallow.Proofs.Brackets
import Fallow.Proofs.Identity
import Fallow.Proofs.Standing
import Fallow.Proofs.Successors

/-!
# The visibility of members

The members of a class or module declare methods and accessors, and visibility words among them say
who may call these. `Register.step` is the reference for the words: a machine with the mode in force
and the table of what has been declared so far. A word alone sets the mode, a word before a
declaration holds for that declaration only, and a word with a name marks what stands in the table
under that full name. The walk through a body does to the index what the machine does to the table,
from the mode and the table that the superclass leaves.
-/

namespace Fallow

open Syntax

/-- What a member declares: a method, on the object itself if `onSelf`, or an accessor. -/
inductive Declaration where
  | method (onSelf : Bool) (name : String) (location : Location)
  | accessor (name : String) (location : Location)
  deriving DecidableEq, Repr

/-- An argument of a visibility word: a name, or declarations. -/
inductive Mark where
  | name (name : String)
  | inline (declarations : List Declaration)
  deriving DecidableEq, Repr

inductive Member where
  | declares (declarations : List Declaration)
  /-- A visibility word alone. -/
  | word (visibility : Visibility)
  | marks (visibility : Visibility) (marks : List Mark)
  deriving DecidableEq, Repr

/-- The definition that a declaration makes in a namespace, under a visibility. -/
def Declaration.definition (space : String) (visibility : Visibility) : Declaration → Definition
  | method onSelf name location =>
    ⟨if onSelf then .singletonDef else .methodDef, name,
      space ++ (if onSelf then "." else "#") ++ name, location, visibility, false⟩
  | accessor name location =>
    ⟨.accessorDef, name, space ++ "#" ++ name, location, visibility, false⟩

/-- The machine: the mode in force, and what stands in the file. -/
structure Register where
  mode : Visibility := .pub
  table : List Definition := []

namespace Register

def declare (space : String) (visibility : Visibility) (t : List Definition)
    (declarations : List Declaration) : List Definition :=
  declarations.foldl (fun t d => Table.enter (d.definition space visibility) t) t

def mark (space : String) (visibility : Visibility) (t : List Definition) :
    Mark → List Definition
  | .name name => Table.mark visibility name (space ++ "#" ++ name) t
  | .inline declarations => declare space visibility t declarations

def step (space : String) (r : Register) : Member → Register
  | .declares declarations => { r with table := declare space r.mode r.table declarations }
  | .word visibility => { r with mode := visibility }
  | .marks visibility marks => { r with table := marks.foldl (mark space visibility) r.table }

def run (space : String) (r : Register) (members : List Member) : Register :=
  members.foldl (step space) r

end Register

namespace Source

/-- The accessors that an argument of an accessor declaration names. -/
def accessorsOf (src : Source) (reader writer : Bool) (arg : Node) : List Declaration :=
  (if reader then [.accessor (src.argument arg).value (src.location arg)] else [])
    ++ (if writer then [.accessor ((src.argument arg).value ++ "=") (src.location arg)] else [])

/-- The node declares a method, or accessors by their names. -/
inductive Declaring (src : Source) (n : Node) : List Declaration → Prop
  | method {onSelf : Bool} {name : Node}
    (hk : n.kind = if onSelf then .singletonMethodDecl else .methodDecl)
    (hn : n.field? .name = some name) :
    Declaring src n [.method onSelf (src.text name) (src.location n)]
  | accessors {reader writer : Bool} (hk : n.kind = .call) (hr : n.field? .receiver = none)
    (hw : accessors? (src.callee n) = some (reader, writer))
    (hargs : ∀ arg ∈ argumentNodes (n.field? .arguments), (src.argument arg).isName = true)
    (hrest : n.namedExcept [n.field? .receiver, n.field? .method, n.field? .arguments] = []) :
    Declaring src n
      ((argumentNodes (n.field? .arguments)).flatMap (src.accessorsOf reader writer))

inductive Marking (src : Source) (arg : Node) : Mark → Prop
  | name (hn : (src.argument arg).isName = true) :
    Marking src arg (.name (src.argument arg).value)
  | inline {declarations : List Declaration} (h : src.Declaring arg declarations) :
    Marking src arg (.inline declarations)

inductive Stating (src : Source) (n : Node) : Member → Prop
  | declares {declarations : List Declaration} (h : src.Declaring n declarations) :
    Stating src n (.declares declarations)
  | word {visibility : Visibility} (h : src.IsBareWord n visibility) :
    Stating src n (.word visibility)
  | marks {visibility : Visibility} {marks : List Mark} (hw : src.IsWordCall n visibility)
    (hargs : argumentNodes (n.field? .arguments) ≠ [])
    (hmarks : List.Forall₂ src.Marking (argumentNodes (n.field? .arguments)) marks) :
    Stating src n (.marks visibility marks)

/-- The nodes of a body are members, apart from comments. -/
inductive Members (src : Source) : List Node → List Member → Prop
  | nil : Members src [] []
  | comment {n : Node} {ns : List Node} {members : List Member} (hk : n.kind = .comment)
    (hn : n.named = []) (h : Members src ns members) : Members src (n :: ns) members
  | member {n : Node} {ns : List Node} {m : Member} {members : List Member}
    (hm : src.Stating n m) (h : Members src ns members) : Members src (n :: ns) (m :: members)
  | body {n : Node} {ns : List Node} {inner members : List Member}
    (hk : n.kind = .other "body_statement") (hn : Members src n.named inner)
    (h : Members src ns members) : Members src (n :: ns) (inner ++ members)

end Source

/-! ### What members do -/

/-- A deed of a member of a namespace in a file. -/
def Deed.OfMember (path space : String) : Deed → Prop
  | .define d => (d.kind.isMember = true ∧ d.location.file = path) ∧ d.Proper
  | .remark _ name fullName => fullName = space ++ "#" ++ name
  | .close _ => False
  | .refer _ _ | .send _ => True

theorem Deed.OfMember.fits {path space : String} {d : Deed} (h : d.OfMember path space) :
    d.Fits := by
  cases d with
  | define d => exact h.2
  | remark visibility name fullName => exact ⟨space, h⟩
  | refer | send | close => trivial

theorem Deed.IsUse.ofMember {path space : String} {d : Deed} (h : d.IsUse) :
    d.OfMember path space := by
  cases d with
  | refer | send => trivial
  | define | remark | close => exact h.elim

theorem Deed.tabulateAll_append (path : String) (t : List Definition) (ds es : List Deed) :
    tabulateAll path t (ds ++ es) = tabulateAll path (tabulateAll path t ds) es :=
  List.foldl_append

theorem Deed.tabulateAll_of_isUse {path : String} {t : List Definition} {ds : List Deed}
    (h : ∀ d ∈ ds, d.IsUse) : tabulateAll path t ds = t := by
  induction ds with
  | nil => rfl
  | cons d rest ih =>
      have hd : d.tabulate path t = t := by
        have huse := h d List.mem_cons_self
        cases d with
        | refer | send => rfl
        | define | remark | close => exact huse.elim
      rw [tabulateAll, List.foldl_cons, hd]
      exact ih fun e he => h e (List.mem_cons_of_mem _ he)

namespace Act

theorem modeAfterAll_append (acts rest : List Act) (mode : Visibility) :
    modeAfterAll (acts ++ rest) mode = modeAfterAll rest (modeAfterAll acts mode) := by
  induction acts generalizing mode with
  | nil => rfl
  | cons a acts ih => exact ih _

theorem deedsAll_append (acts rest : List Act) (s : Scope) :
    deedsAll (acts ++ rest) s =
      deedsAll acts s ++ deedsAll rest (s.withMode (modeAfterAll acts s.body.mode)) := by
  induction acts generalizing s with
  | nil => rfl
  | cons a acts ih =>
      rw [List.cons_append, deedsAll, ih, deedsAll, List.append_assoc, modeAfterAll]
      rfl

end Act

/-- The scope is the body of a namespace with a name. -/
structure Scope.IsBodyOf (s : Scope) (space : String) : Prop where
  space_eq : s.walk.space = space
  ne_empty : space ≠ ""
  singleton : s.body.singleton = false

namespace Scope.IsBodyOf

variable {s : Scope} {space : String}

theorem withMode (h : s.IsBodyOf space) (mode : Visibility) : (s.withMode mode).IsBodyOf space :=
  ⟨h.space_eq, h.ne_empty, h.singleton⟩

theorem qualifyMethod (h : s.IsBodyOf space) (onSelf : Bool) (name : String) :
    s.walk.qualifyMethod onSelf name = space ++ (if onSelf then "." else "#") ++ name := by
  rw [Walk.qualifyMethod, h.space_eq, if_neg h.ne_empty]

end Scope.IsBodyOf

/-- In a scope, acts have deeds of members only, and do to table and mode what the machine does. -/
structure Simulates (path space : String) (acts : List Act) (s : Scope)
    (f : Register → Register) : Prop where
  ofMember : ∀ d ∈ Act.deedsAll acts s, d.OfMember path space
  register : ∀ t, ⟨Act.modeAfterAll acts s.body.mode,
    Deed.tabulateAll path t (Act.deedsAll acts s)⟩ = f ⟨s.body.mode, t⟩

namespace Simulates

variable {path space : String} {acts rest : List Act} {s : Scope} {f g : Register → Register}

theorem nil : Simulates path space [] s id where
  ofMember := fun _ hd => absurd hd List.not_mem_nil
  register := fun _ => rfl

theorem append (h : Simulates path space acts s f)
    (h' : Simulates path space rest (s.withMode (Act.modeAfterAll acts s.body.mode)) g) :
    Simulates path space (acts ++ rest) s (g ∘ f) where
  ofMember := by
    intro d hd
    rw [Act.deedsAll_append] at hd
    rcases List.mem_append.1 hd with hd | hd
    · exact h.ofMember d hd
    · exact h'.ofMember d hd
  register := by
    intro t
    rw [Act.modeAfterAll_append, Act.deedsAll_append, Deed.tabulateAll_append,
      Function.comp_apply, ← h.register t]
    exact h'.register _

theorem of_isUse (hmode : Act.modeAfterAll acts s.body.mode = s.body.mode)
    (huse : ∀ d ∈ Act.deedsAll acts s, d.IsUse) : Simulates path space acts s id where
  ofMember := fun d hd => (huse d hd).ofMember
  register := by
    intro t
    rw [hmode, Deed.tabulateAll_of_isUse huse]
    rfl

/-- The visit of a node does what its outline does. -/
theorem visit (h : Simulates path space acts s f) (n : Node) :
    Simulates path space [.visit n acts] s f where
  ofMember := by simpa only [Act.deedsAll, Act.deeds, List.append_nil] using h.ofMember
  register := by
    simpa only [Act.deedsAll, Act.deeds, Act.modeAfterAll, Act.modeAfter, List.append_nil]
      using h.register

end Simulates

namespace Declaration

variable {path space : String} {s : Scope}

/-- The act of a declaration. -/
def act : Declaration → Act
  | method onSelf name location => .method onSelf name location
  | accessor name location => .accessor name location

def location : Declaration → Location
  | method _ _ location => location
  | accessor _ location => location

theorem deeds_act (h : s.IsBodyOf space) (d : Declaration) :
    d.act.deeds s = [.define (d.definition space s.body.mode)] := by
  cases d with
  | method onSelf name location =>
      simp [act, Act.deeds, Scope.method, Scope.fresh, h.singleton, h.qualifyMethod, definition]
  | accessor name location =>
      simp [act, Act.deeds, Scope.accessor, Scope.fresh, h.singleton, h.qualifyMethod, definition]

theorem proper_definition (h : s.IsBodyOf space) (visibility : Visibility) (d : Declaration) :
    (d.definition space visibility).Proper := by
  intro hk other
  cases d with
  | method onSelf name location =>
      cases onSelf with
      | false => cases hk
      | true =>
          have hname := s.walk.qualifyMethod_ne_instance other name
          rwa [h.qualifyMethod] at hname
  | accessor name location => cases hk

theorem isMember_definition (visibility : Visibility) (d : Declaration) :
    (d.definition space visibility).kind.isMember = true := by
  cases d with
  | method onSelf name location => cases onSelf <;> rfl
  | accessor name location => rfl

theorem location_definition (visibility : Visibility) (d : Declaration) :
    (d.definition space visibility).location = d.location := by
  cases d <;> rfl

theorem plain_definition (visibility : Visibility) (d : Declaration) :
    (d.definition space visibility).plain = d.definition space visibility := by
  cases d <;> rfl

theorem modeAfter_act (d : Declaration) (mode : Visibility) : d.act.modeAfter mode = mode := by
  cases d <;> rfl

theorem simulates_act (h : s.IsBodyOf space) {d : Declaration} (hd : d.location.file = path) :
    Simulates path space [d.act] s fun r =>
      { r with table := Table.enter (d.definition space r.mode) r.table } where
  ofMember := by
    intro e he
    rw [Act.deedsAll, Act.deedsAll, deeds_act h, List.append_nil, List.mem_singleton] at he
    rw [he]
    exact ⟨⟨d.isMember_definition _, by rw [location_definition, hd]⟩, proper_definition h _ d⟩
  register := by
    intro t
    have hfile : (d.definition space s.body.mode).location.file = path := by
      rw [location_definition, hd]
    simp [Act.modeAfterAll, modeAfter_act, Act.deedsAll, deeds_act h, Deed.tabulateAll,
      Deed.tabulate, isMember_definition, hfile, plain_definition]

theorem simulates_acts (h : s.IsBodyOf space) {ds : List Declaration}
    (hds : ∀ d ∈ ds, d.location.file = path) :
    Simulates path space (ds.map act) s fun r =>
      { r with table := Register.declare space r.mode r.table ds } := by
  induction ds with
  | nil => exact .nil
  | cons d rest ih =>
      have hrest := ih fun e he => hds e (List.mem_cons_of_mem _ he)
      have hscope : s.withMode (Act.modeAfterAll [d.act] s.body.mode) = s := by
        rw [Act.modeAfterAll, modeAfter_act]
        rfl
      exact (simulates_act h (hds d List.mem_cons_self)).append (hscope.symm ▸ hrest)

end Declaration

namespace Source

variable {src : Source} {n : Node} {space : String} {s : Scope}

theorem file_of_mem_accessorsOf {reader writer : Bool} {arg : Node} {d : Declaration}
    (h : d ∈ src.accessorsOf reader writer arg) : d.location.file = src.path := by
  cases reader <;> cases writer <;> simp [accessorsOf] at h
  · rw [h]
    rfl
  · rw [h]
    rfl
  · rcases h with rfl | rfl <;> rfl

theorem planAccessor_of_isName {reader writer : Bool} {arg : Node}
    (h : (src.argument arg).isName = true) :
    src.planAccessor reader writer arg =
      (src.accessorsOf reader writer arg).map Declaration.act := by
  cases reader <;> cases writer <;> simp [planAccessor, accessorsOf, h, Declaration.act]

theorem fillAll_map_act (f : Bool → Node → List Act) (inMethod : Bool) (ds : List Declaration) :
    Act.fillAll f inMethod (ds.map Declaration.act) = ds.map Declaration.act := by
  induction ds with
  | nil => rfl
  | cons d rest ih =>
      rw [List.map_cons, Act.fillAll, ih]
      cases d <;> rfl

/-- The body of a method only uses names. -/
theorem simulates_methodBody (cs : List Node) :
    Simulates src.path space (Act.fillAll src.outline false [.methodBody (walkAll cs)]) s id := by
  apply Simulates.of_isUse
  · apply modeAfterAll_fillAll_walkAll
    exact fun c _ => src.modeAfterAll_outline c
  · intro d hd
    have hbody : d ∈ Act.deedsAll (Act.fillAll src.outline true (walkAll cs)) s := by
      simpa [Act.fillAll, Act.fill, Act.deedsAll, Act.deeds] using hd
    obtain ⟨v, hv, s', hd⟩ := exists_visit_of_mem_deedsAll_walkAll hbody
    rw [(mem_of_mem_visitsAll_walkAll hv).1] at hd
    exact isUse_of_mem_outline hd

theorem Declaring.simulates {ds : List Declaration} (h : src.Declaring n ds)
    (hs : s.IsBodyOf space) : Simulates src.path space (src.outline false n) s fun r =>
      { r with table := Register.declare space r.mode r.table ds } := by
  rw [outline_eq]
  cases h with
  | @method onSelf name hk hn =>
      have hplan : src.plan false n = [Declaration.method onSelf (src.text name) (src.location n)].map
          Declaration.act ++ [.methodBody (walkAll (n.namedExcept [n.field? .name]))] := by
        cases onSelf <;> simp [plan, hk, planMethod, hn, Declaration.act]
      rw [hplan, Act.fillAll_append, fillAll_map_act]
      exact (Declaration.simulates_acts hs (by simp [Declaration.location, location])).append
        (simulates_methodBody _)
  | @accessors reader writer hk hr hw hargs hrest =>
      have hplan : src.plan false n = ((argumentNodes (n.field? .arguments)).flatMap
          (src.accessorsOf reader writer)).map Declaration.act := by
        have hcall : ((n.field? .method).map src.text).getD "call" = src.callee n := rfl
        simp only [plan, hk, planCall, hcall, hr, hw, Option.isNone_none, Bool.not_false,
          Bool.and_self, if_true, List.map_flatMap]
        rw [hr] at hrest
        rw [hrest, walkAll, List.map_nil, List.append_nil, List.flatMap_def, List.flatMap_def]
        exact congrArg List.flatten
          (List.map_congr_left fun arg harg => planAccessor_of_isName (hargs arg harg))
      rw [hplan, fillAll_map_act]
      apply Declaration.simulates_acts hs
      intro d hd
      obtain ⟨arg, _, hd⟩ := List.mem_flatMap.1 hd
      exact file_of_mem_accessorsOf hd

theorem Declaring.isName_eq {ds : List Declaration} (h : src.Declaring n ds) :
    (src.argument n).isName = false := by
  rw [← Bool.not_eq_true]
  intro hname
  rw [argument_of_isName hname] at hname
  unfold leafArgument at hname
  cases h with
  | @method onSelf _ hk =>
      cases onSelf <;> simp [hk, Argument.isName, Argument.kind] at hname
  | accessors hk => simp [hk, Argument.isName, Argument.kind] at hname

theorem Marking.simulates {visibility : Visibility} {m : Mark} (h : src.Marking n m)
    (hs : s.IsBodyOf space) :
    Simulates src.path space (Act.fillAll src.outline false [src.planVisible visibility n]) s fun r =>
      { r with table := Register.mark space visibility r.table m } := by
  cases h with
  | name hn =>
      have hdeeds : Act.deedsAll (Act.fillAll src.outline false [src.planVisible visibility n]) s =
          [.remark visibility (src.argument n).value (space ++ "#" ++ (src.argument n).value)] := by
        simp [planVisible, hn, Act.fillAll, Act.fill, Act.deedsAll, Act.deeds, hs.singleton,
          hs.qualifyMethod]
      constructor
      · intro d hd
        rw [hdeeds, List.mem_singleton] at hd
        rw [hd]
        rfl
      · intro t
        rw [hdeeds]
        simp [planVisible, hn, Act.fillAll, Act.fill, Act.modeAfterAll, Act.modeAfter,
          Deed.tabulateAll, Deed.tabulate, Register.mark]
  | @inline ds hds =>
      have hinner := hds.simulates (hs.withMode visibility)
      have hdeeds : Act.deedsAll (Act.fillAll src.outline false [src.planVisible visibility n]) s =
          Act.deedsAll (src.outline false n) (s.withMode visibility) := by
        simp [planVisible, hds.isName_eq, Act.fillAll, Act.fill, Act.walk, Act.deedsAll, Act.deeds]
      constructor
      · rw [hdeeds]
        exact hinner.ofMember
      · intro t
        have htable : Deed.tabulateAll src.path t (Act.deedsAll (src.outline false n)
            (s.withMode visibility)) = Register.declare space visibility t ds :=
          congrArg Register.table (hinner.register t)
        rw [hdeeds, htable]
        simp [planVisible, hds.isName_eq, Act.fillAll, Act.fill, Act.modeAfterAll, Act.modeAfter,
          Register.mark]

theorem simulates_marks {visibility : Visibility} {args : List Node} {marks : List Mark}
    (h : List.Forall₂ src.Marking args marks) (hs : s.IsBodyOf space) :
    Simulates src.path space (Act.fillAll src.outline false (args.map (src.planVisible visibility)))
      s fun r => { r with table := marks.foldl (Register.mark space visibility) r.table } := by
  induction h with
  | nil => exact .nil
  | @cons arg m args marks hm _ ih =>
      have hfirst := @Marking.simulates _ _ _ _ visibility _ hm hs
      have hmode : Act.modeAfterAll (Act.fillAll src.outline false [src.planVisible visibility arg])
          s.body.mode = s.body.mode := congrArg Register.mode (hfirst.register [])
      have hscope : s.withMode (Act.modeAfterAll (Act.fillAll src.outline false
          [src.planVisible visibility arg]) s.body.mode) = s := by
        rw [hmode]
        rfl
      exact hfirst.append (hscope.symm ▸ ih)

theorem IsWordCall.plan_eq {visibility : Visibility} (h : src.IsWordCall n visibility) :
    src.plan false n =
      src.planVisibility visibility (argumentNodes (n.field? .arguments)) := by
  simp [plan, h.kind_eq, planCall, h.receiver, accessors?_of_ofText? h.word, h.word]

theorem IsBareWord.plan_eq {visibility : Visibility} (h : src.IsBareWord n visibility) :
    src.plan false n = [.declare visibility] := by
  cases h with
  | identifier hk hw => simp [plan, hk, planIdentifier, hw]
  | call hw hargs =>
      rw [hw.plan_eq, hargs]
      rfl

theorem simulates_declare (visibility : Visibility) :
    Simulates src.path space (Act.fillAll src.outline false [.declare visibility]) s fun r =>
      { r with mode := visibility } where
  ofMember := fun _ hd => absurd hd List.not_mem_nil
  register := fun _ => rfl

theorem Stating.simulates {m : Member} (h : src.Stating n m) (hs : s.IsBodyOf space) :
    Simulates src.path space (src.outline false n) s (Register.step space · m) := by
  cases h with
  | declares h => exact h.simulates hs
  | word h =>
      rw [outline_eq, h.plan_eq]
      exact simulates_declare _
  | @marks visibility marks hw hargs hmarks =>
      have hplan : src.plan false n =
          (argumentNodes (n.field? .arguments)).map (src.planVisible visibility) := by
        rw [hw.plan_eq, planVisibility, if_neg]
        simpa using hargs
      rw [outline_eq, hplan]
      exact simulates_marks hmarks hs

/-- The members of a body do to the index what they do to the registers. -/
theorem Members.simulates {ns : List Node} {members : List Member} (h : src.Members ns members)
    (hs : s.IsBodyOf space) :
    Simulates src.path space (Act.fillAll src.outline false (walkAll ns)) s
      (Register.run space · members) := by
  induction h generalizing s with
  | nil => exact .nil
  | @comment n ns members hk hn _ ih =>
      have hempty : src.outline false n = [] := by
        simp [outline_eq, plan, hk, hn, walkAll, Act.fillAll]
      have hfirst : Simulates src.path space (src.outline false n) s id := hempty ▸ .nil
      exact (hfirst.visit n).append (ih (hs.withMode _))
  | @member n ns m members hm _ ih =>
      exact ((hm.simulates hs).visit n).append (ih (hs.withMode _))
  | @body n ns inner members hk _ _ ihn ih =>
      have hplan : src.plan false n = walkAll n.named := by simp [plan, hk]
      have hinner : Simulates src.path space (src.outline false n) s
          (Register.run space · inner) := by
        rw [outline_eq, hplan]
        exact ihn hs
      have hrun : (Register.run space · (inner ++ members)) =
          (Register.run space · members) ∘ (Register.run space · inner) :=
        funext fun _ => List.foldl_append
      rw [hrun]
      exact (hinner.visit n).append (ih (hs.withMode _))

end Source

namespace Walk

variable {src : Source} {plugins : List Plugin} {kind : NamespaceKind} {n name : Node} {w : Walk}

theorem qualifyConstant_ne_empty {bare : String} (h : bare ≠ "") (w : Walk) :
    w.qualifyConstant bare ≠ "" := by
  have heq : w.qualifyConstant bare = spaceName w.scope.space? bare :=
    w.scope.qualifyConstant_eq bare
  rw [heq]
  cases w.scope.space? with
  | none => exact h
  | some outer => simp [spaceName, h]

/-- What precedes the members of a class or module leaves the walk in its body. -/
theorem isBodyOf_enter (front : List Node) (h : src.bareText name ≠ "") :
    (visitAll src plugins front (enter src plugins kind n name w).2).scope.IsBodyOf
      (w.qualifyConstant (src.bareText name)) := by
  have hlevel := @level_visitAll src plugins front (enter src plugins kind n name w).2
  have hnesting : (enter src plugins kind n name w).2.nesting =
      src.bareText name :: w.nesting :=
    congrArg _ (level_visitAll (Source.scopeOf name).toList w).nesting
  refine ⟨?_, qualifyConstant_ne_empty h w, (List.cons.inj hlevel.singletons).1⟩
  simp only [space, scope, Scope.walk, hlevel.nesting, hnesting, List.reverse_cons]
  rfl

theorem mode_visitAll_of_silent {ns : List Node} (hdepth : w.methodDepth = 0)
    (h : ∀ n ∈ ns, ∀ c ∈ n.preorder, ∀ visibility, ¬ src.IsBareWord c visibility) :
    (visitAll src plugins ns w).body.mode = w.body.mode := by
  rw [← actAll_walkAll _ _ _ _ hdepth, actAll_eq]
  apply Source.modeAfterAll_fillAll_walkAll
  intro c hc
  apply Source.modeAfterAll_outline_of_silent
  intro within d hvisits visibility hmem
  exact h c hc d hvisits.mem_preorder visibility (Source.isBareWord_of_mem_plan hmem).2

/-- The definition with which a class or module is opened. -/
def opened (src : Source) (plugins : List Plugin) (kind : NamespaceKind) (n name : Node) (w : Walk) :
    Definition :=
  (visitAll src plugins (Source.scopeOf name).toList w).scope.constant kind.definitionKind
    (src.bareName (src.bareText name) name) (src.bareText name) (src.location n)

theorem index_leave (w v : Walk) :
    (leave src plugins (enter src plugins kind n name w).1 v).index =
      (Deed.close (opened src plugins kind n name w)).change ⟨src.path, plugins⟩ v.index := by
  have hexit : v.exitBody.index = v.index := by
    unfold exitBody
    split <;> rfl
  rw [← hexit]
  rfl

section Body

variable {front rest : List Node} {members : List Member}

/-- The walk before the members of a class or module. -/
def atMembers (src : Source) (plugins : List Plugin) (kind : NamespaceKind) (n name : Node)
    (front : List Node) (w : Walk) : Walk :=
  visitAll src plugins front (enter src plugins kind n name w).2

theorem methodDepth_atMembers (h : w.methodDepth = 0) :
    (atMembers src plugins kind n name front w).methodDepth = 0 :=
  (level_visitAll _ _).methodDepth.trans ((level_visitAll _ w).methodDepth.trans h)

/-- The deeds of the members, and the close of the class or module. -/
theorem index_visit_of_members (hk : n.kind = kind.nodeKind) (hname : n.field? .name = some name)
    (h : w.methodDepth = 0) (hnodes : n.namedExcept [name] = front ++ rest) :
    (visit src plugins n w).index = Deed.changeAll ⟨src.path, plugins⟩
      (atMembers src plugins kind n name front w).index
      (deedsOf src rest (atMembers src plugins kind n name front w).scope ++
        [.close (opened src plugins kind n name w)]) := by
  rw [visit_namespace hk hname h, hnodes, visitAll_append, index_leave, Deed.changeAll_append,
    ← index_visitAll rest (methodDepth_atMembers h)]
  rfl

theorem simulates_atMembers (hne : src.bareText name ≠ "") (hmembers : src.Members rest members) :
    Simulates src.path (w.qualifyConstant (src.bareText name))
      (Act.fillAll src.outline false (Source.walkAll rest))
      (atMembers src plugins kind n name front w).scope
      (Register.run (w.qualifyConstant (src.bareText name)) · members) :=
  hmembers.simulates (isBodyOf_enter front hne)

theorem proper_atMembers (h : w.index.Proper) :
    (atMembers src plugins kind n name front w).index.Proper :=
  proper_visitAll (proper_enter h kind n name) front

variable (hk : n.kind = kind.nodeKind) (hname : n.field? .name = some name)
  (hne : src.bareText name ≠ "") (hdepth : w.methodDepth = 0) (hproper : w.index.Proper)
  (hnodes : n.namedExcept [name] = front ++ rest) (hmembers : src.Members rest members)
include hk hname hne hdepth hproper hnodes hmembers

theorem represents_visit_of_members :
    Represents src.path
      (Register.run (w.qualifyConstant (src.bareText name))
        ⟨(atMembers src plugins kind n name front w).body.mode,
          (atMembers src plugins kind n name front w).index.standing src.path⟩ members).table
      (visit src plugins n w).index := by
  let start := atMembers src plugins kind n name front w
  have hsim := @simulates_atMembers src plugins kind n name w front rest members hne hmembers
  -- The close of the class or module leaves the table as it is.
  have htable : Deed.tabulateAll src.path (start.index.standing src.path)
      (deedsOf src rest start.scope ++ [.close (opened src plugins kind n name w)]) =
      (Register.run (w.qualifyConstant (src.bareText name))
        ⟨start.body.mode, start.index.standing src.path⟩ members).table := by
    rw [Deed.tabulateAll_append]
    exact congrArg Register.table (hsim.register _)
  rw [index_visit_of_members hk hname hdepth hnodes, ← htable]
  apply Represents.changeAll (fun _ => Iff.rfl) (proper_atMembers hproper)
  intro d hd
  rcases List.mem_append.1 hd with hd | hd
  · exact (hsim.ofMember d hd).fits
  · rw [List.mem_singleton.1 hd]
    trivial

theorem isMember_of_mem_since {d : Definition} (hd : d ∈ (visit src plugins n w).index.since
      (atMembers src plugins kind n name front w).index) :
    d.kind.isMember = true ∧ d.location.file = src.path := by
  have hsim := @simulates_atMembers src plugins kind n name w front rest members hne hmembers
  rw [index_visit_of_members hk hname hdepth hnodes] at hd
  obtain ⟨c, hc, hdc⟩ := (proper_atMembers hproper).tidy.exists_define_of_mem_since hd
  have hmember : (Deed.define c).OfMember src.path (w.qualifyConstant (src.bareText name)) :=
    hsim.ofMember _ ((List.mem_append.1 hc).resolve_right (by simp))
  rw [hdc.kind_eq, hdc.location_eq]
  exact hmember.1

end Body

/-- After a class or module the methods and accessors of its file are those that the machine has in
its table, with the visibilities that they have there. The machine starts in the mode in which what
precedes the members leaves the body: `public` if there is no visibility word alone. -/
theorem visibility_of_members (src : Source) (plugins : List Plugin) :
    Index.Proper {} ∧ (∀ n w, w.index.Proper → (visit src plugins n w).index.Proper) ∧
      ∀ (kind : NamespaceKind) (n name : Node) (w : Walk) (front rest : List Node)
        (members : List Member), n.kind = kind.nodeKind → n.field? .name = some name →
        src.bareText name ≠ "" → w.methodDepth = 0 → w.index.Proper →
        n.namedExcept [name] = front ++ rest → src.Members rest members →
        let start := atMembers src plugins kind n name front w
        let last := Register.run (w.qualifyConstant (src.bareText name))
          ⟨start.body.mode, start.index.standing src.path⟩ members
        (∀ d, d ∈ last.table ↔ d ∈ (visit src plugins n w).index.standing src.path) ∧
          (∀ d ∈ (visit src plugins n w).index.since start.index, d.plain ∈ last.table) ∧
          ((∀ v ∈ front, ∀ c ∈ v.preorder, ∀ visibility, ¬ src.IsBareWord c visibility) →
            start.body.mode = .pub) := by
  refine ⟨.empty, fun n w h => proper_visit h n, ?_⟩
  intro kind n name w front rest members hk hname hne hdepth hproper hnodes hmembers start last
  have hrepresents : Represents src.path last.table (visit src plugins n w).index :=
    represents_visit_of_members hk hname hne hdepth hproper hnodes hmembers
  refine ⟨hrepresents, fun d hd => ?_, fun hsilent => ?_⟩
  · have hmember := isMember_of_mem_since hk hname hne hdepth hproper hnodes hmembers hd
    have hlisted : d ∈ (visit src plugins n w).index.listing := (List.mem_filter.1 hd).1
    exact hrepresents.mem_iff.2 ⟨d, Index.mem_listing.1 hlisted, hmember, rfl⟩
  · exact mode_visitAll_of_silent ((level_visitAll _ w).methodDepth.trans hdepth) hsilent

/-- The superclass of a class, with a visibility word in a block. -/
def wordySuperclass : Node :=
  .mk (.other "superclass") ⟨8, 36, ⟨0, 8⟩, ⟨0, 36⟩⟩ ⟨true, false, false⟩ []
    [.mk .call ⟨10, 36, ⟨0, 10⟩, ⟨0, 36⟩⟩ ⟨true, false, false⟩
      [(.arguments, 3), (.method, 2), (.operator, 1), (.receiver, 0)]
      [.mk .constant ⟨10, 16, ⟨0, 10⟩, ⟨0, 16⟩⟩ ⟨true, false, false⟩ [] [],
        .mk (.other ".") ⟨16, 17, ⟨0, 16⟩, ⟨0, 17⟩⟩ ⟨false, false, false⟩ [] [],
        .mk .identifier ⟨17, 20, ⟨0, 17⟩, ⟨0, 20⟩⟩ ⟨true, false, false⟩ [] [],
        .mk (.other "argument_list") ⟨20, 24, ⟨0, 20⟩, ⟨0, 24⟩⟩ ⟨true, false, false⟩ []
          [.mk .simpleSymbol ⟨21, 23, ⟨0, 21⟩, ⟨0, 23⟩⟩ ⟨true, false, false⟩ [] []],
        .mk (.other "block") ⟨25, 36, ⟨0, 25⟩, ⟨0, 36⟩⟩ ⟨true, false, false⟩ []
          [.mk (.other "block_body") ⟨27, 34, ⟨0, 27⟩, ⟨0, 34⟩⟩ ⟨true, false, false⟩ []
            [.mk .identifier ⟨27, 34, ⟨0, 27⟩, ⟨0, 34⟩⟩ ⟨true, false, false⟩ [] []]]]]

def wordyName : Node :=
  .mk .constant ⟨6, 7, ⟨0, 6⟩, ⟨0, 7⟩⟩ ⟨true, false, false⟩ [] []

def wordyBody : Node :=
  .mk (.other "body_statement") ⟨39, 49, ⟨1, 2⟩, ⟨1, 12⟩⟩ ⟨true, false, false⟩ []
    [.mk .methodDecl ⟨39, 49, ⟨1, 2⟩, ⟨1, 12⟩⟩ ⟨true, false, false⟩ [(.name, 0)]
      [.mk .identifier ⟨43, 44, ⟨1, 6⟩, ⟨1, 7⟩⟩ ⟨true, false, false⟩ [] []]]

def wordyClass : Node :=
  .mk .classDecl ⟨0, 53, ⟨0, 0⟩, ⟨2, 3⟩⟩ ⟨true, false, false⟩ [(.name, 0)]
    [wordyName, wordySuperclass, wordyBody]

def wordySource : Source :=
  ⟨"a.rb", Utf8.encode "class A < Struct.new(:a) { private }\n  def b; end\nend\n"⟩

/-- A word in the superclass makes the first method private; the singleton method of a class stays
public when the instance method of its name is marked. -/
theorem visibility_of_members_superclass :
    ⟨.methodDef, "b", "A#b", ⟨"a.rb", 2, 2, 2, 12⟩, .priv, false⟩ ∈
        (visit wordySource [] wordyClass {}).index.standing "a.rb" ∧
      (atMembers lateSource [] .classSpace lateClass lateName [] {}).body.mode = .pub ∧
      ⟨.methodDef, "a", "A#a", ⟨"a.rb", 3, 2, 3, 12⟩, .priv, false⟩ ∈
        (visit lateSource [] lateClass {}).index.standing "a.rb" ∧
      ⟨.singletonDef, "a", "A.a", ⟨"a.rb", 2, 2, 2, 17⟩, .pub, false⟩ ∈
        (visit lateSource [] lateClass {}).index.standing "a.rb" := by
  have hwordy := (visibility_of_members wordySource []).2.2 .classSpace wordyClass wordyName {}
    [wordySuperclass] [wordyBody] _ rfl rfl (by decide +kernel) rfl .empty rfl
    (.body rfl (.member (.declares (@Source.Declaring.method _ _ false _ rfl rfl)) .nil) .nil)
  have hlate := (visibility_of_members lateSource []).2.2 .classSpace lateClass lateName {}
    [] (lateClass.namedExcept [lateName]) _ rfl rfl (by decide +kernel) rfl .empty rfl
    (.body rfl
      (.member (.declares (@Source.Declaring.method _ _ true _ rfl rfl))
        (.member (.declares (@Source.Declaring.method _ _ false _ rfl rfl))
          (.member (@Source.Stating.marks _ _ .priv _ ⟨rfl, rfl, by decide +kernel⟩ (by decide)
            (.cons (.name rfl) .nil)) .nil))) .nil)
  exact ⟨(hwordy.1 _).1 (by decide +kernel), hlate.2.2 (by simp), (hlate.1 _).1 (by decide +kernel),
    (hlate.1 _).1 (by decide +kernel)⟩

end Walk
end Fallow
