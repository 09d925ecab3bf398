import Fallow.Walk

/-!
# Deeds of a walk

What an act comes down to in the place where it is carried out: a list of deeds, each of which
changes the index in one way and may be announced. The deeds depend on the open namespaces and the
open body only, never on what the index holds or on the plugins.

`Walk.act_eq` says that a walk carries out exactly these deeds, one after the other, and leaves
everything else as it was but for the visibility in force.
-/

namespace Fallow

inductive Deed where
  /-- A name is used without a call. -/
  | refer (name : String) (location : Location)
  | send (call : Send)
  /-- A definition is recorded, as it is before the plugins see it. -/
  | define (d : Definition)
  | remark (visibility : Visibility) (name fullName : String)
  /-- The namespace that was opened with a definition is closed. -/
  | close (d : Definition)

namespace Deed

/-- The references that a send adds: its own, and those of the plugins. -/
def sendReferences (plugins : List Plugin) (s : Send) : List Reference :=
  ⟨s.name, s.location, .syntactic⟩ ::
    (plugins.flatMap (·.referred s)).map (⟨·, s.location, .synthetic⟩)

/-- What a deed does to the index. -/
def change (setting : Walk.Setting) (x : Index) : Deed → Index
  | refer name location => x.addReference ⟨name, location, .syntactic⟩
  | send s => (sendReferences setting.plugins s).foldl Index.addReference x
  | define d => x.addDefinition (Walk.judged setting.plugins d)
  | remark visibility name fullName =>
    { x with definitions := x.definitions.mapAt name fun d =>
        if d.fullName = fullName && d.location.file = setting.path then d.mark visibility else d }
  | close d =>
    { x with definitions := x.definitions.map fun m =>
        if m.location.file = setting.path &&
          setting.plugins.any (·.isAction (Walk.judged setting.plugins d) m) then m.ignore else m }

/-- What is announced of a deed. -/
def moments (setting : Walk.Setting) (x : Index) : Deed → List Moment
  | send s => [⟨.sent s, x.addReference ⟨s.name, s.location, .syntactic⟩⟩]
  | define d => [⟨.defined (Walk.judged setting.plugins d), x.addDefinition d⟩]
  | close d => [⟨.closed (Walk.judged setting.plugins d), x⟩]
  | _ => []

def changeAll (setting : Walk.Setting) (x : Index) (ds : List Deed) : Index :=
  ds.foldl (change setting) x

def momentsAll (setting : Walk.Setting) : Index → List Deed → List Moment
  | _, [] => []
  | x, d :: rest => moments setting x d ++ momentsAll setting (change setting x d) rest

@[simp] theorem changeAll_nil (setting : Walk.Setting) (x : Index) :
    changeAll setting x [] = x := rfl

@[simp] theorem changeAll_cons (setting : Walk.Setting) (x : Index) (d : Deed) (ds : List Deed) :
    changeAll setting x (d :: ds) = changeAll setting (change setting x d) ds := rfl

theorem changeAll_append (setting : Walk.Setting) (x : Index) (ds es : List Deed) :
    changeAll setting x (ds ++ es) = changeAll setting (changeAll setting x ds) es :=
  List.foldl_append

theorem momentsAll_append (setting : Walk.Setting) (x : Index) (ds es : List Deed) :
    momentsAll setting x (ds ++ es) =
      momentsAll setting x ds ++ momentsAll setting (changeAll setting x ds) es := by
  induction ds generalizing x with
  | nil => rfl
  | cons d rest ih => simp [momentsAll, ih, List.append_assoc]

end Deed

/-- Where an act is carried out: the open namespaces, the innermost first, and the open body. -/
structure Scope where
  nesting : List String := []
  body : Body := {}

namespace Scope

def walk (s : Scope) : Walk :=
  { nesting := s.nesting, body := s.body }

def withMode (s : Scope) (mode : Visibility) : Scope :=
  { s with body := { s.body with mode } }

/-- A definition as it is first recorded here. -/
def fresh (s : Scope) (kind : Definition.Kind) (name fullName : String) (location : Location) :
    Definition :=
  ⟨kind, name, fullName, location, s.body.mode, false⟩

def constant (s : Scope) (kind : Definition.Kind) (name qualified : String)
    (location : Location) : Definition :=
  s.fresh kind name (s.walk.qualifyConstant qualified) location

def accessor (s : Scope) (name : String) (location : Location) : Definition :=
  s.fresh .accessorDef name (s.walk.qualifyMethod s.body.singleton name) location

def method (s : Scope) (onSelf : Bool) (name : String) (location : Location) : Definition :=
  let onSelf := onSelf || s.body.singleton
  s.fresh (if onSelf then .singletonDef else .methodDef) name
    (s.walk.qualifyMethod onSelf name) location

end Scope

def Walk.scope (w : Walk) : Scope :=
  ⟨w.nesting, w.body⟩

namespace Act

mutual

/-- The visibility in force after an act. -/
def modeAfter : Act → Visibility → Visibility
  | .visit _ acts, mode => modeAfterAll acts mode
  | .declare visibility, _ => visibility
  | .methodBody acts, mode => modeAfterAll acts mode
  | _, mode => mode

def modeAfterAll : List Act → Visibility → Visibility
  | [], mode => mode
  | a :: rest, mode => modeAfterAll rest (modeAfter a mode)

end

mutual

/-- The deeds of an act, in order. -/
def deeds : Act → Scope → List Deed
  | .visit _ acts, s => deedsAll acts s
  | .refer name location, _ => [.refer name location]
  | .send call, _ => [.send call]
  | .declare _, _ => []
  | .remark visibility name, s =>
    [.remark visibility name (s.walk.qualifyMethod s.body.singleton name)]
  | .inline visibility acts, s => deedsAll acts (s.withMode visibility)
  | .constant name qualified location, s => [.define (s.constant .constantDef name qualified location)]
  | .accessor name location, s => [.define (s.accessor name location)]
  | .method onSelf name location, s => [.define (s.method onSelf name location)]
  | .methodBody acts, s => deedsAll acts s
  | .enclosure kind name qualified location acts, s =>
    .define (s.constant kind.definitionKind name qualified location) ::
      deedsAll acts ⟨qualified :: s.nesting, {}⟩ ++
      [.close (s.constant kind.definitionKind name qualified location)]
  | .singletonBody acts, s => deedsAll acts ⟨s.nesting, { singleton := true }⟩

def deedsAll : List Act → Scope → List Deed
  | [], _ => []
  | a :: rest, s => deeds a s ++ deedsAll rest (s.withMode (modeAfter a s.body.mode))

end

end Act

namespace Walk

/-- Carries out deeds. -/
def perform (setting : Setting) (w : Walk) (ds : List Deed) : Walk :=
  { w with
    index := Deed.changeAll setting w.index ds
    trace := (Deed.momentsAll setting w.index ds).reverse ++ w.trace }

@[simp] theorem perform_nil (setting : Setting) (w : Walk) : w.perform setting [] = w := rfl

theorem perform_append (setting : Setting) (w : Walk) (ds es : List Deed) :
    w.perform setting (ds ++ es) = (w.perform setting ds).perform setting es := by
  simp [perform, Deed.changeAll_append, Deed.momentsAll_append]

theorem perform_cons (setting : Setting) (w : Walk) (d : Deed) (ds : List Deed) :
    w.perform setting (d :: ds) = (w.perform setting [d]).perform setting ds :=
  perform_append setting w [d] ds

theorem foldl_refer_eq (names : List String) (location : Location) (origin : Origin) (w : Walk) :
    names.foldl (fun w name => w.refer name location origin) w =
      { w with index := (names.map (⟨·, location, origin⟩)).foldl Index.addReference w.index } := by
  induction names generalizing w with
  | nil => rfl
  | cons name rest ih =>
      rw [List.foldl_cons, ih]
      rfl

theorem send_eq (setting : Setting) (s : Send) (w : Walk) :
    w.send setting s = w.perform setting [.send s] := by
  unfold send
  rw [foldl_refer_eq]
  rfl

mutual

theorem act_eq (setting : Setting) : ∀ (a : Act) (w : Walk),
    act setting a w = (w.perform setting (a.deeds w.scope)).setMode (a.modeAfter w.body.mode)
  | .visit _ acts, w => by
      simp only [act, Act.deeds, Act.modeAfter]
      exact actAll_eq setting acts w
  | .refer name location, w => rfl
  | .send call, w => by
      simp only [act, Act.deeds, Act.modeAfter]
      exact send_eq setting call w
  | .declare visibility, w => rfl
  | .remark visibility name, w => rfl
  | .inline visibility acts, w => by
      simp only [act, Act.deeds, Act.modeAfter]
      rw [actAll_eq setting acts]
      rfl
  | .constant name qualified location, w => rfl
  | .accessor name location, w => rfl
  | .method onSelf name location, w => rfl
  | .methodBody acts, w => by
      simp only [act, Act.deeds, Act.modeAfter]
      rw [actAll_eq setting acts]
      rfl
  | .enclosure kind name qualified location acts, w => by
      simp only [act, Act.deeds, Act.modeAfter]
      rw [actAll_eq setting acts, List.cons_append, perform_cons, perform_append]
      rfl
  | .singletonBody acts, w => by
      simp only [act, Act.deeds, Act.modeAfter]
      rw [actAll_eq setting acts]
      rfl

theorem actAll_eq (setting : Setting) : ∀ (acts : List Act) (w : Walk),
    actAll setting acts w =
      (w.perform setting (Act.deedsAll acts w.scope)).setMode (Act.modeAfterAll acts w.body.mode)
  | [], w => rfl
  | a :: rest, w => by
      rw [actAll, act_eq setting a w, actAll_eq setting rest, Act.deedsAll, Act.modeAfterAll,
        perform_append]
      rfl

end

end Walk
end Fallow
