import Fallow.Outline.Source
import Fallow.Send

/-!
# Arguments of sends

What an argument node names: a symbol or a plain string its content, a constant its path, a pair or
a hash its keywords; everything else is only text.
-/

namespace Fallow

open Syntax

namespace Source

/-- An argument that is neither a pair nor a hash. -/
def leafArgument (src : Source) (n : Node) : Argument :=
  let location := src.location n
  match n.kind with
  | .simpleSymbol => .mk .symbol (src.symbol n) location []
  | .string =>
    match src.literal? n with
    | some content => .mk .string content location []
    | none => .mk .other (src.text n) location []
  | .delimitedSymbol =>
    match src.literal? n with
    | some content => .mk .symbol content location []
    | none => .mk .other (src.text n) location []
  | .constant | .scopeResolution => .mk .constant (src.bareText n) location []
  | _ => .mk .other (src.text n) location []

/-- An argument, reading pairs at most `depth` levels down. -/
def argumentTo (src : Source) : Nat → Node → Argument
  | 0, n => src.leafArgument n
  | depth + 1, n =>
    let pair? (p : Node) : Option (String × Argument) :=
      match p.field? .key with
      | none => none
      | some key =>
        match p.field? .value with
        | none => some (src.key key, .mk .other (src.key key) (src.location key) [])
        | some value => some (src.key key, src.argumentTo depth value)
    match n.kind with
    | .pair =>
      match pair? n with
      | some (key, value) => .mk .pair key (src.location n) [(key, value)]
      | none => src.leafArgument n
    | .hash =>
      .mk .hash (src.text n) (src.location n)
        ((n.named.filter (·.kind = .pair)).filterMap pair?)
    | _ => src.leafArgument n

def argument (src : Source) (n : Node) : Argument :=
  src.argumentTo n.height n

/-- The argument nodes of a call: comments pass nothing. -/
def argumentNodes (arguments : Option Node) : List Node :=
  match arguments with
  | some n => n.named.filter (·.kind ≠ .comment)
  | none => []

end Source
end Fallow
