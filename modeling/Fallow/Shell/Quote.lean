/-!
# Quoting for the shell

A text that the shell could misread is put between single quotes; a single quote in it is written
between double quotes.
-/

namespace Fallow.Shell

/-- Characters that mean nothing special to the shell. -/
def isSafe (c : Char) : Bool :=
  c.isAlphanum || "_@%+=:,./-".toList.contains c

def quoteChar (c : Char) : List Char :=
  if c = '\'' then ['\'', '"', '\'', '"', '\''] else [c]

def quote (s : String) : String :=
  if s = "" then "''"
  else if s.toList.all isSafe then s
  else String.ofList ('\'' :: s.toList.flatMap quoteChar ++ ['\''])

end Fallow.Shell
