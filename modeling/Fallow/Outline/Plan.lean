import Fallow.Outline.Act
import Fallow.Outline.Argument

/-!
# Plans

`Source.plan` says, for every kind of node, what its visit does by itself and which nodes are
visited in turn. Outside method bodies names are defined; inside them they are only used.
-/

namespace Fallow

open Syntax

namespace Source

def accessors? : String → Option (Bool × Bool)
  | "attr_reader" => some (true, false)
  | "attr_writer" => some (false, true)
  | "attr_accessor" => some (true, true)
  | _ => none

def shortCircuits : List String :=
  ["&&", "||", "and", "or"]

/-- Targets of an assignment that name nothing outside their method or object. -/
def isLocalTarget (n : Node) : Bool :=
  n.kind = .identifier || n.kind = .instanceVariable || n.kind = .classVariable
    || n.kind = .globalVariable

def walkAll (ns : List Node) : List Act :=
  ns.map Act.walk

def reference (src : Source) (n : Node) : Act :=
  .refer (src.text n) (src.location n)

def call (src : Source) (name : String) (receiver : Option Node) (args : List Node)
    (site : Node) : Act :=
  .send ⟨name, receiver.map src.text, args.map src.argument, src.location site⟩

/-- The scope of a qualified name is visited; the name itself is the last part. -/
def scopeOf (n : Node) : Option Node :=
  if n.kind = .scopeResolution then n.field? .scope else none

def bareName (src : Source) (whole : String) (n : Node) : String :=
  if n.kind = .scopeResolution then ((n.field? .name).map src.text).getD whole else whole

def planNamespace (src : Source) (kind : NamespaceKind) (inMethod : Bool) (n : Node) : List Act :=
  match n.field? .name, inMethod with
  | some name, false =>
    let qualified := src.bareText name
    Act.walk? (scopeOf name) ++
      [.enclosure kind (src.bareName qualified name) qualified (src.location n)
        (walkAll (n.namedExcept [name]))]
  | _, _ => walkAll n.named

def planMethod (src : Source) (onSelf inMethod : Bool) (n : Node) : List Act :=
  let name? := n.field? .name
  let definition := match name?, inMethod with
    | some name, false => [Act.method onSelf (src.text name) (src.location n)]
    | _, _ => []
  definition ++ [.methodBody (walkAll (n.namedExcept [name?]))]

def planAccessor (src : Source) (reader writer : Bool) (arg : Node) : List Act :=
  let a := src.argument arg
  if a.isName then
    (if reader then [Act.accessor a.value (src.location arg)] else [])
      ++ (if writer then [Act.accessor (a.value ++ "=") (src.location arg)] else [])
  else [.walk arg]

/-- One argument of a visibility word: a name that is marked, or a declaration. -/
def planVisible (src : Source) (visibility : Visibility) (arg : Node) : Act :=
  let a := src.argument arg
  if a.isName then .remark visibility a.value else .inline visibility [.walk arg]

def planVisibility (src : Source) (visibility : Visibility) (args : List Node) : List Act :=
  if args.isEmpty then [.declare visibility] else args.map (src.planVisible visibility)

def planSend (src : Source) (name : String) (receiver : Option Node) (args rest : List Node)
    (n : Node) : List Act :=
  Act.walk? receiver ++ [src.call name receiver args n] ++ walkAll args ++ walkAll rest

/-- A call: outside methods and without a receiver it may be a declaration. -/
def planCall (src : Source) (inMethod : Bool) (n : Node) : List Act :=
  let receiver := n.field? .receiver
  let method := n.field? .method
  let arguments := n.field? .arguments
  let name := (method.map src.text).getD "call"
  let args := argumentNodes arguments
  let rest := n.namedExcept [receiver, method, arguments]
  if receiver.isNone && !inMethod then
    match accessors? name, Visibility.ofText? name with
    | some (reader, writer), _ => args.flatMap (src.planAccessor reader writer) ++ walkAll rest
    | none, some visibility => src.planVisibility visibility args
    | none, none => src.planSend name receiver args rest n
  else src.planSend name receiver args rest n

/-- A bare word is a local name or a call; it counts as a call. -/
def planIdentifier (src : Source) (inMethod : Bool) (n : Node) : List Act :=
  match Visibility.ofText? (src.text n), inMethod with
  | some visibility, false => [.declare visibility]
  | _, _ => [src.call (src.text n) none [] n]

def planBinary (src : Source) (n : Node) : List Act :=
  let left := n.field? .left
  let right := n.field? .right
  let operation := match n.field? .operator with
    | some operator =>
      if shortCircuits.contains (src.text operator) then []
      else [src.call (src.text operator) left right.toList n]
    | none => []
  Act.walk? left ++ operation ++ Act.walk? right

def planElement (src : Source) (n : Node) : List Act :=
  let object := n.field? .object
  let args := n.namedExcept [object]
  Act.walk? object ++ [src.call "[]" object args n] ++ walkAll args

/-- `&:name` uses a name without a call. -/
def planBlockArgument (src : Source) (n : Node) : List Act :=
  n.named.map fun c =>
    if c.kind = .simpleSymbol then .refer (src.symbol c) (src.location c) else .walk c

/-- A key without a value passes the result of a call of that name. -/
def planPair (src : Source) (n : Node) : List Act :=
  match n.field? .key, n.field? .value with
  | some key, none => [src.call (src.key key) none [] key]
  | _, _ => walkAll n.named

/-- The names of parameters are local; only their default values matter. -/
def planParameters (n : Node) : List Act :=
  n.named.flatMap fun p => Act.walk? (p.field? .value)

def planConstant (src : Source) (target site : Node) : List Act :=
  Act.walk? (scopeOf target) ++
    [.constant (src.bareName (src.text target) target) (src.bareText target) (src.location site)]

/-- The left side of an assignment; `reads` says that its old value is used. -/
def planTarget (src : Source) (reads inMethod : Bool) (target site : Node) : List Act :=
  match target.kind, inMethod with
  | .constant, false | .scopeResolution, false => src.planConstant target site
  | .call, _ =>
    let receiver := target.field? .receiver
    Act.walk? receiver ++ match target.field? .method with
      | some method =>
        let name := src.text method
        (if reads then [src.call name receiver [] target] else [])
          ++ [src.call (name ++ "=") receiver [] target]
      | none => []
  | .elementReference, _ =>
    let object := target.field? .object
    let args := target.namedExcept [object]
    Act.walk? object ++ (if reads then [src.call "[]" object args target] else [])
      ++ [src.call "[]=" object args target] ++ walkAll args
  | _, _ => if isLocalTarget target then [] else [.walk target]

def planAssignment (src : Source) (reads inMethod : Bool) (n : Node) : List Act :=
  (match n.field? .left with
    | some left => src.planTarget reads inMethod left n
    | none => []) ++ Act.walk? (n.field? .right)

def planAlias (src : Source) (n : Node) : List Act :=
  match n.field? .aliased with
  | some aliased => [.refer (src.symbol aliased) (src.location aliased)]
  | none => []

def planScope (src : Source) (n : Node) : List Act :=
  Act.walk? (n.field? .scope) ++ match n.field? .name with
    | some name => [src.reference name]
    | none => []

/-- What the visit of a node does, with the visits it leads to still to be filled. -/
def plan (src : Source) (inMethod : Bool) (n : Node) : List Act :=
  match n.kind with
  | .classDecl => src.planNamespace .classSpace inMethod n
  | .moduleDecl => src.planNamespace .moduleSpace inMethod n
  | .singletonClass =>
    let value := n.field? .value
    Act.walk? value ++ [.singletonBody (walkAll (n.namedExcept [value]))]
  | .methodDecl => src.planMethod false inMethod n
  | .singletonMethodDecl => src.planMethod true inMethod n
  | .methodParameters | .blockParameters | .lambdaParameters => planParameters n
  | .assignment => src.planAssignment false inMethod n
  | .operatorAssignment => src.planAssignment true inMethod n
  | .call => src.planCall inMethod n
  | .identifier => src.planIdentifier inMethod n
  | .binary => src.planBinary n
  | .elementReference => src.planElement n
  | .blockArgument => src.planBlockArgument n
  | .pair => src.planPair n
  | .aliasDecl => src.planAlias n
  | .constant => [src.reference n]
  | .scopeResolution => src.planScope n
  | _ => walkAll n.named

end Source
end Fallow
