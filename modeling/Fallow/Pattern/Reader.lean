import Fallow.Json.Reader
import Fallow.Pattern.Basic

/-!
# Reading of patterns

The written form of patterns: characters, sets, groups, alternatives and repetitions, with inline
flags. An `Error` says why a text is no pattern, or that it could not be read to its end.
-/

namespace Fallow.Pattern

inductive Error where
  | badEscape
  | unterminatedSet
  | badRange
  | nothingToRepeat
  | multipleRepeat
  | emptyRepeat
  | hugeRepeat
  | longBound
  | unterminatedGroup
  | unbalanced
  | unknownExtension
  | badFlags
  | lateFlags
  | clashingFlags
  | badGroupName
  | badReference
  | unlimitedLookBehind
  deriving DecidableEq, Repr

def Error.message : Error → String
  | .badEscape => "bad escape"
  | .unterminatedSet => "unterminated character set"
  | .badRange => "bad character range"
  | .nothingToRepeat => "nothing to repeat"
  | .multipleRepeat => "multiple repeat"
  | .emptyRepeat => "min repeat greater than max repeat"
  | .hugeRepeat => "the repetition number is too large"
  | .longBound => "the repetition number has too many digits"
  | .unterminatedGroup => "missing ), unterminated subpattern"
  | .unbalanced => "unbalanced parenthesis"
  | .unknownExtension => "unknown extension"
  | .badFlags => "bad inline flags"
  | .lateFlags => "global flags not at the start of the expression"
  | .clashingFlags => "ASCII and UNICODE flags are incompatible"
  | .badGroupName => "bad character in group name"
  | .badReference => "invalid group reference"
  | .unlimitedLookBehind => "look-behind requires fixed-width pattern"

structure Flags where
  ignoreCase : Bool := false
  multiline : Bool := false
  dotAll : Bool := false
  verbose : Bool := false
  ascii : Bool := false
  unicode : Bool := false

/-- What has been read so far besides the pattern: the number of the next group, the names of
groups, and the groups that are still open. -/
structure Context where
  flags : Flags := {}
  next : Nat := 1
  names : List (String × Nat) := []
  opened : List Nat := []

def one (flags : Flags) (n : Nat) : Pattern :=
  .chars { items := [.range n n], folded := flags.ignoreCase, ascii := flags.ascii }

def classOf? : Char → Option Item
  | 'd' => some (.digit false)
  | 'D' => some (.digit true)
  | 's' => some (.space false)
  | 'S' => some (.space true)
  | 'w' => some (.word false)
  | 'W' => some (.word true)
  | _ => none

def controlOf? : Char → Option Nat
  | 'a' => some 0x07
  | 'b' => some 0x08
  | 'f' => some 0x0c
  | 'n' => some 0x0a
  | 'r' => some 0x0d
  | 't' => some 0x09
  | 'v' => some 0x0b
  | '\\' => some 0x5c
  | _ => none

def isOctal (c : Char) : Bool :=
  '0' ≤ c && c ≤ '7'

def isAsciiLetter (c : Char) : Bool :=
  ('a' ≤ c && c ≤ 'z') || ('A' ≤ c && c ≤ 'Z')

def octalValue (ds : List Char) : Nat :=
  ds.foldl (fun n c => n * 8 + (c.toNat - 0x30)) 0

def decimalValue (ds : List Char) : Nat :=
  Numeral.value 0 (ds.map fun c => c.toNat - 0x30)

def hexCode (count : Nat) (s : List Char) : Except Error (Nat × List Char) :=
  match (s.take count).mapM Json.hexValue? with
  | some ds =>
    let n := ds.foldl (fun n d => n * 16 + d) 0
    if ds.length = count && n < 0x110000 then .ok (n, s.drop count) else .error .badEscape
  | none => .error .badEscape

/-- The code of a numeric or punctuation escape; octal codes start with any octal digit inside a
set and are read elsewhere by the caller. -/
def codeEscape (e : Char) (rest : List Char) : Except Error (Nat × List Char) :=
  if e = 'x' then hexCode 2 rest
  else if e = 'u' then hexCode 4 rest
  else if e = 'U' then hexCode 8 rest
  else if isAsciiLetter e || Text.isAsciiDigit e then .error .badEscape
  else .ok (e.toNat, rest)

def setEscape (e : Char) (rest : List Char) : Except Error (Item × List Char) :=
  match controlOf? e, classOf? e with
  | some n, _ => .ok (.range n n, rest)
  | none, some item => .ok (item, rest)
  | none, none =>
    if isOctal e then
      let more := (rest.take 2).takeWhile isOctal
      let n := octalValue (e :: more)
      if n ≤ 0o377 then .ok (.range n n, rest.drop more.length) else .error .badEscape
    else do
      let (n, rest) ← codeEscape e rest
      return (.range n n, rest)

def setMember : List Char → Except Error (Item × List Char)
  | [] => .error .unterminatedSet
  | ['\\'] => .error .badEscape
  | '\\' :: e :: rest => setEscape e rest
  | c :: rest => .ok (.range c.toNat c.toNat, rest)

def single? : Item → Option Nat
  | .range first last => if first = last then some first else none
  | _ => none

/-- The members of a set up to its closing bracket, which does not count as such in front. -/
def setItems : Nat → List Item → List Char → Except Error (List Item × List Char)
  | 0, _, _ => .error .unterminatedSet
  | fuel + 1, items, s =>
    match s, items with
    | ']' :: rest, _ :: _ => .ok (items.reverse, rest)
    | s, items => do
      let (item, rest) ← setMember s
      match rest with
      | '-' :: ']' :: rest => return ((.range 0x2d 0x2d :: item :: items).reverse, rest)
      | '-' :: rest => do
        let (upper, rest) ← setMember rest
        match single? item, single? upper with
        | some first, some last =>
          if first ≤ last then setItems fuel (.range first last :: items) rest
          else .error .badRange
        | _, _ => .error .badRange
      | rest => setItems fuel (item :: items) rest

def readSet (flags : Flags) (s : List Char) : Except Error (Pattern × List Char) := do
  let (negated, s) := match s with
    | '^' :: rest => (true, rest)
    | s => (false, s)
  let (items, rest) ← setItems (s.length + 1) [] s
  return (.chars { items, negated, folded := flags.ignoreCase, ascii := flags.ascii }, rest)

/-- Whether an element of a sequence can be repeated. -/
inductive Shape where
  | plain
  | anchor
  | repeated

abbrev Element := Pattern × Shape

def escape (ctx : Context) (e : Char) (rest : List Char) : Except Error (Element × List Char) :=
  let flags := ctx.flags
  let plain (p : Pattern) (rest : List Char) : Except Error (Element × List Char) :=
    .ok ((p, .plain), rest)
  let anchored (a : Anchor) : Except Error (Element × List Char) := .ok ((.anchor a, .anchor), rest)
  if e = 'A' then anchored .textStart
  else if e = 'Z' then anchored .textEnd
  else if e = 'b' then anchored (.boundary false flags.ascii)
  else if e = 'B' then anchored (.boundary true flags.ascii)
  else match classOf? e, controlOf? e with
    | some item, _ => plain (.chars { items := [item], ascii := flags.ascii }) rest
    | none, some n => plain (one flags n) rest
    | none, none =>
      if e = '0' then
        let more := (rest.take 2).takeWhile isOctal
        plain (one flags (octalValue more)) (rest.drop more.length)
      else if Text.isAsciiDigit e then
        match rest with
        | f :: g :: tail =>
          if isOctal e && isOctal f && isOctal g then
            let n := octalValue [e, f, g]
            if n ≤ 0o377 then plain (one flags n) tail else .error .badEscape
          else reference (e :: rest.takeWhile Text.isAsciiDigit |>.take 2)
        | _ => reference (e :: rest.takeWhile Text.isAsciiDigit |>.take 2)
      else do
        let (n, rest) ← codeEscape e rest
        plain (one flags n) rest
where
  reference (ds : List Char) : Except Error (Element × List Char) :=
    let n := decimalValue ds
    if n < ctx.next && !ctx.opened.contains n then
      .ok ((.back n ctx.flags.ignoreCase, .plain), rest.drop (ds.length - 1))
    else .error .badReference

/-- The bounds of a repetition after its opening brace; `none` if the brace is a plain character. -/
def bounds? (s : List Char) : Option ((List Char × List Char) × List Char) :=
  let low := s.takeWhile Text.isAsciiDigit
  let rest := s.dropWhile Text.isAsciiDigit
  let (high, rest) := match rest with
    | ',' :: rest => (rest.takeWhile Text.isAsciiDigit, rest.dropWhile Text.isAsciiDigit)
    | rest => (low, rest)
  match s, rest with
  | '\x7d' :: _, _ => none
  | _, '\x7d' :: rest => some ((low, high), rest)
  | _, _ => none

def repetitionLimit : Nat := 4294967295

def bound (digits : List Char) : Except Error Nat :=
  if digits.length > Numeral.maxDigits then .error .longBound
  else if decimalValue digits ≥ repetitionLimit then .error .hugeRepeat
  else .ok (decimalValue digits)

def checkBounds (low high : List Char) : Except Error (Nat × Option Nat) := do
  let least ← if low.isEmpty then .ok 0 else bound low
  if high.isEmpty then return (least, none)
  let most ← bound high
  if most < least then throw .emptyRepeat
  return (least, some most)

/-- Repeats the last of the elements read, which are listed last first. -/
def repeatLast (least : Nat) (most : Option Nat) (elements : List Element) (rest : List Char) :
    Except Error (List Element × List Char) :=
  match elements with
  | [] => .error .nothingToRepeat
  | (_, .anchor) :: _ => .error .nothingToRepeat
  | (_, .repeated) :: _ => .error .multipleRepeat
  | (p, .plain) :: others =>
    let (greed, rest) := match rest with
      | '?' :: rest => (Greed.lazy, rest)
      | '+' :: rest => (Greed.possessive, rest)
      | rest => (Greed.greedy, rest)
    .ok ((.repeated greed least most p, .repeated) :: others, rest)

def sequence (elements : List Element) : Pattern :=
  elements.foldl (fun p element => .seq element.1 p) .nothing

def isNameStart (c : Char) : Bool :=
  Text.isWord c && (Text.digitValue? c).isNone

def groupName (close : Char) (s : List Char) : Except Error (String × List Char) :=
  let name := s.takeWhile (· != close)
  match name, s.dropWhile (· != close) with
  | first :: others, _ :: rest =>
    if isNameStart first && others.all Text.isWord then .ok (String.ofList name, rest)
    else .error .badGroupName
  | _, _ => .error .badGroupName

def setFlag? (on : Bool) (flags : Flags) : Char → Option Flags
  | 'i' => some { flags with ignoreCase := on }
  | 'm' => some { flags with multiline := on }
  | 's' => some { flags with dotAll := on }
  | 'x' => some { flags with verbose := on }
  | 'a' => if on then some { flags with ascii := true } else none
  | 'u' => if on then some { flags with unicode := true } else none
  | _ => none

/-- Inside a group the letters for the kind of text replace the one that was set before. -/
def Flags.forGroup (flags : Flags) (added : List Char) : Flags :=
  if added.contains 'a' || added.contains 'u' then { flags with ascii := false, unicode := false }
  else flags

/-- Inline flags: how they end and what they make of the flags so far. -/
def readFlags (flags : Flags) (s : List Char) : Except Error ((Flags × Char) × List Char) :=
  let added := s.takeWhile isAsciiLetter
  let rest := s.dropWhile isAsciiLetter
  let start := if rest.head? = some ')' then flags else flags.forGroup added
  if added.contains 'a' && added.contains 'u' then .error .badFlags
  else match added.foldlM (setFlag? true) start, rest with
  | some flags, ')' :: rest => if added.isEmpty then .error .badFlags else .ok ((flags, ')'), rest)
  | some flags, ':' :: rest => if added.isEmpty then .error .badFlags else .ok ((flags, ':'), rest)
  | some flags, '-' :: rest =>
    let removed := rest.takeWhile isAsciiLetter
    match removed.foldlM (setFlag? false) flags, rest.dropWhile isAsciiLetter with
    | some flags, ':' :: rest =>
      if removed.isEmpty || removed.any added.contains then .error .badFlags
      else .ok ((flags, ':'), rest)
    | _, _ => .error .badFlags
  | _, _ => .error .badFlags

def close : List Char → Except Error (List Char)
  | ')' :: rest => .ok rest
  | _ => .error .unterminatedGroup

def lookBehind (negated : Bool) (p : Pattern) : Except Error Element :=
  match p.fixedWidth? with
  | some width => .ok (.behind negated width p, .plain)
  | none => .error .unlimitedLookBehind

mutual

/-- Alternatives up to a closing parenthesis or the end. -/
def readAlternatives : Nat → Bool → Context → List Char →
    Except Error (Pattern × Context × List Char)
  | 0, _, _, _ => .error .unterminatedGroup
  | fuel + 1, outermost, ctx, s => do
    let (p, ctx, rest) ← readSequence fuel outermost [] ctx s
    match rest with
    | '|' :: rest => do
      let (q, ctx, rest) ← readLater fuel ctx rest
      return (.alt p q, ctx, rest)
    | rest => return (p, ctx, rest)

def readLater : Nat → Context → List Char → Except Error (Pattern × Context × List Char)
  | 0, _, _ => .error .unterminatedGroup
  | fuel + 1, ctx, s => do
    let (p, ctx, rest) ← readSequence fuel false [] ctx s
    match rest with
    | '|' :: rest => do
      let (q, ctx, rest) ← readLater fuel ctx rest
      return (.alt p q, ctx, rest)
    | rest => return (p, ctx, rest)

/-- Elements up to a bar, a closing parenthesis or the end, after those already read, which are
listed last first. -/
def readSequence : Nat → Bool → List Element → Context → List Char →
    Except Error (Pattern × Context × List Char)
  | 0, _, _, _, _ => .error .unterminatedGroup
  | fuel + 1, first, elements, ctx, s =>
    let go (ctx : Context) (elements : List Element) (rest : List Char) :=
      readSequence fuel first elements ctx rest
    match s with
    | [] => .ok (sequence elements, ctx, [])
    | '|' :: _ | ')' :: _ => .ok (sequence elements, ctx, s)
    | '\\' :: rest =>
      match rest with
      | [] => .error .badEscape
      | e :: rest => do
        let (element, rest) ← escape ctx e rest
        go ctx (element :: elements) rest
    | '[' :: rest => do
      let (p, rest) ← readSet ctx.flags rest
      go ctx ((p, .plain) :: elements) rest
    | '?' :: rest => do
      let (elements, rest) ← repeatLast 0 (some 1) elements rest
      go ctx elements rest
    | '*' :: rest => do
      let (elements, rest) ← repeatLast 0 none elements rest
      go ctx elements rest
    | '+' :: rest => do
      let (elements, rest) ← repeatLast 1 none elements rest
      go ctx elements rest
    | '\x7b' :: rest =>
      match bounds? rest with
      | none => go ctx ((one ctx.flags 0x7b, .plain) :: elements) rest
      | some ((low, high), rest) => do
        let (least, most) ← checkBounds low high
        let (elements, rest) ← repeatLast least most elements rest
        go ctx elements rest
    | '.' :: rest =>
      let items := if ctx.flags.dotAll then [] else [Item.range 0x0a 0x0a]
      go ctx ((.chars { items, negated := true }, .plain) :: elements) rest
    | '^' :: rest =>
      let a := if ctx.flags.multiline then Anchor.lineStart else .textStart
      go ctx ((.anchor a, .anchor) :: elements) rest
    | '$' :: rest =>
      let a := if ctx.flags.multiline then Anchor.lineEnd else .beforeLastBreak
      go ctx ((.anchor a, .anchor) :: elements) rest
    | '(' :: '?' :: rest =>
      match rest with
      | '#' :: rest =>
        match rest.dropWhile (· != ')') with
        | _ :: rest => go ctx elements rest
        | [] => .error .unterminatedGroup
      | ':' :: rest => do
        let (p, inner, rest) ← readAlternatives fuel false ctx rest
        go { inner with flags := ctx.flags } ((p, .plain) :: elements) (← close rest)
      | '>' :: rest => do
        let (p, inner, rest) ← readAlternatives fuel false ctx rest
        go { inner with flags := ctx.flags } ((.atomic p, .plain) :: elements) (← close rest)
      | '=' :: rest => do
        let (p, inner, rest) ← readAlternatives fuel false ctx rest
        go { inner with flags := ctx.flags } ((.ahead false p, .plain) :: elements) (← close rest)
      | '!' :: rest => do
        let (p, inner, rest) ← readAlternatives fuel false ctx rest
        go { inner with flags := ctx.flags } ((.ahead true p, .plain) :: elements) (← close rest)
      | '<' :: '=' :: rest => do
        let (p, inner, rest) ← readAlternatives fuel false ctx rest
        let rest ← close rest
        go { inner with flags := ctx.flags } ((← lookBehind false p) :: elements) rest
      | '<' :: '!' :: rest => do
        let (p, inner, rest) ← readAlternatives fuel false ctx rest
        let rest ← close rest
        go { inner with flags := ctx.flags } ((← lookBehind true p) :: elements) rest
      | 'P' :: '<' :: rest => do
        let (name, rest) ← groupName '>' rest
        if (ctx.names.lookup name).isSome then .error .badGroupName
        else
          let number := ctx.next
          let (p, inner, rest) ← readAlternatives fuel false { ctx with
            next := number + 1
            names := (name, number) :: ctx.names
            opened := number :: ctx.opened } rest
          go { inner with flags := ctx.flags, opened := ctx.opened }
            ((.group number p, .plain) :: elements) (← close rest)
      | 'P' :: '=' :: rest => do
        let (name, rest) ← groupName ')' rest
        match ctx.names.lookup name with
        | some number =>
          if ctx.opened.contains number then .error .badReference
          else go ctx ((.back number ctx.flags.ignoreCase, .plain) :: elements) rest
        | none => .error .badReference
      | '(' :: rest => do
        let digits := rest.takeWhile Text.isAsciiDigit
        let (number, rest) ← match digits, rest.dropWhile Text.isAsciiDigit with
          | _ :: _, ')' :: rest => Except.ok (decimalValue digits, rest)
          | _, _ => do
            let (name, rest) ← groupName ')' rest
            match ctx.names.lookup name with
            | some number => Except.ok (number, rest)
            | none => .error .badReference
        if number = 0 then .error .badReference
        else
          let (p, inner, rest) ← readSequence fuel false [] ctx rest
          let inner := { inner with flags := ctx.flags }
          match rest with
          | '|' :: rest => do
            let (q, inner, rest) ← readSequence fuel false [] inner rest
            go { inner with flags := ctx.flags } ((.choice number p q, .plain) :: elements)
              (← close rest)
          | rest => go inner ((.choice number p .nothing, .plain) :: elements) (← close rest)
      | rest =>
        match rest.head? with
        | some c =>
          if isAsciiLetter c && (setFlag? true {} c).isSome || c = '-' then do
            let ((flags, ending), rest) ← readFlags ctx.flags rest
            if ending = ')' then
              if first && elements.isEmpty then go { ctx with flags } elements rest
              else .error .lateFlags
            else
              let (p, inner, rest) ← readAlternatives fuel false { ctx with flags } rest
              go { inner with flags := ctx.flags } ((p, .plain) :: elements) (← close rest)
          else .error .unknownExtension
        | none => .error .unknownExtension
    | '(' :: rest => do
      let number := ctx.next
      let (p, inner, rest) ← readAlternatives fuel false { ctx with
        next := number + 1, opened := number :: ctx.opened } rest
      go { inner with flags := ctx.flags, opened := ctx.opened }
        ((.group number p, .plain) :: elements) (← close rest)
    | c :: rest =>
      if ctx.flags.verbose && [' ', '\t', '\n', '\r', '\x0b', '\x0c'].contains c then
        go ctx elements rest
      else if ctx.flags.verbose && c = '#' then
        go ctx elements ((rest.dropWhile (· != '\n')).drop 1)
      else go ctx ((one ctx.flags c.toNat, .plain) :: elements) rest

end

def askedGroup : Pattern → Nat
  | .choice number a b => max number (max (askedGroup a) (askedGroup b))
  | .seq a b => max (askedGroup a) (askedGroup b)
  | .alt a b => max (askedGroup a) (askedGroup b)
  | .repeated _ _ _ a => askedGroup a
  | .group _ a => askedGroup a
  | .ahead _ a => askedGroup a
  | .behind _ _ a => askedGroup a
  | .atomic a => askedGroup a
  | _ => 0

def read (text : String) : Except Error Pattern := do
  let s := text.toList
  let (p, ctx, rest) ← readAlternatives (2 * s.length + 4) true {} s
  if ctx.flags.ascii && ctx.flags.unicode then .error .clashingFlags
  else if !rest.isEmpty then .error .unbalanced
  else if askedGroup p ≥ ctx.next then .error .badReference
  else return p

end Fallow.Pattern
