import Fallow.Json.Basic
import Fallow.Location

/-!
# Sends

A method call as plugins see it: the name, the text of the receiver, and the arguments as far as
they name something.
-/

namespace Fallow

namespace Argument

inductive Kind where
  | symbol
  | string
  | constant
  | pair
  | hash
  | other
  deriving DecidableEq, Repr, Inhabited

namespace Kind

def text : Kind → String
  | symbol => "symbol"
  | string => "string"
  | constant => "constant"
  | pair => "pair"
  | hash => "hash"
  | other => "other"

def ofText? (s : String) : Option Kind :=
  [symbol, string, constant, pair, hash, other].find? (·.text == s)

end Kind
end Argument

inductive Argument where
  | mk (kind : Argument.Kind) (value : String) (location : Location)
    (pairs : List (String × Argument))

namespace Argument

def kind : Argument → Kind
  | mk kind _ _ _ => kind

def value : Argument → String
  | mk _ value _ _ => value

def location : Argument → Location
  | mk _ _ location _ => location

def pairs : Argument → List (String × Argument)
  | mk _ _ _ pairs => pairs

def isName (a : Argument) : Bool :=
  a.kind = .symbol || a.kind = .string

def isSymbol (a : Argument) : Bool :=
  a.kind = .symbol

def hasKeywords (a : Argument) : Bool :=
  a.kind = .pair || a.kind = .hash

end Argument

structure Send where
  name : String
  receiver : Option String
  args : List Argument
  location : Location

namespace Send

def hasReceiver (s : Send) : Bool :=
  s.receiver.isSome

/-- The keywords of all pair and hash arguments: a repeated one keeps its first place and its last
value. -/
def keywords (s : Send) : List (String × Argument) :=
  Json.ofMembers ((s.args.filter (·.hasKeywords)).flatMap (·.pairs))

def keyword? (s : Send) (key : String) : Option Argument :=
  s.keywords.lookup key

end Send
end Fallow
