import Fallow.Location
import Fallow.Syntax.Node
import Fallow.Text.Lines
import Fallow.Text.Utf8

/-!
# Sources

A file under its path: the text and the location of a node, and the names that symbols, literals
and keys write.
-/

namespace Fallow

open Syntax

structure Source where
  path : String
  bytes : List UInt8

namespace Source

def text (src : Source) (n : Node) : String :=
  Utf8.replaced ((src.bytes.drop n.span.startByte).take (n.span.endByte - n.span.startByte))

/-- Lines count from one, columns from zero. -/
def location (src : Source) (n : Node) : Location where
  file := src.path
  startLine := n.span.start.row + 1
  startColumn := n.span.start.column
  endLine := n.span.stop.row + 1
  endColumn := n.span.stop.column

def dropColons (s : String) : String :=
  String.ofList (Text.trimStart (· == ':') s.toList)

def bareText (src : Source) (n : Node) : String :=
  dropColons (src.text n)

/-- The content of a literal that is nothing but content. -/
def literal? (src : Source) (n : Node) : Option String :=
  if n.named.all (·.kind = .stringContent) then some (String.join (n.named.map src.text)) else none

def symbol (src : Source) (n : Node) : String :=
  match n.kind with
  | .delimitedSymbol => (src.literal? n).getD (src.bareText n)
  | _ => src.bareText n

def key (src : Source) (n : Node) : String :=
  match n.kind with
  | .simpleSymbol | .delimitedSymbol => src.symbol n
  | .string => (src.literal? n).getD (src.text n)
  | _ => String.ofList (Text.trimEnd (· == ':') (src.text n).toList)

end Source
end Fallow
