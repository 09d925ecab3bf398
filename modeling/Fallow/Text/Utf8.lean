/-!
# UTF-8

`decode` reads bytes as characters and marks every maximal ill-formed piece with `none`; the three
readers below differ only in what they make of a mark.
-/

namespace Fallow.Utf8

def encode (s : String) : List UInt8 :=
  s.toList.flatMap String.utf8EncodeChar

def isTail (b : UInt8) : Bool :=
  0x80 ≤ b && b ≤ 0xbf

def isSecond (lead b : UInt8) : Bool :=
  if lead = 0xe0 then 0xa0 ≤ b && b ≤ 0xbf
  else if lead = 0xed then 0x80 ≤ b && b ≤ 0x9f
  else if lead = 0xf0 then 0x90 ≤ b && b ≤ 0xbf
  else if lead = 0xf4 then 0x80 ≤ b && b ≤ 0x8f
  else isTail b

def join (lead : Nat) (tails : List UInt8) : Char :=
  Char.ofNat (tails.foldl (fun n b => n * 64 + b.toNat % 64) lead)

/-- What stands at a leading byte, and how many of the bytes after it belong to that. -/
def step (lead : UInt8) (rest : List UInt8) : Option Char × Nat :=
  if lead < 0x80 then (some (Char.ofNat lead.toNat), 0)
  else if lead < 0xc2 || 0xf4 < lead then (none, 0)
  else match rest with
    | [] => (none, 0)
    | b :: rest =>
      if !isSecond lead b then (none, 0)
      else if lead < 0xe0 then (some (join (lead.toNat % 32) [b]), 1)
      else match rest with
        | [] => (none, 1)
        | c :: rest =>
          if !isTail c then (none, 1)
          else if lead < 0xf0 then (some (join (lead.toNat % 16) [b, c]), 2)
          else match rest with
            | [] => (none, 2)
            | d :: _ =>
              if !isTail d then (none, 2) else (some (join (lead.toNat % 8) [b, c, d]), 3)

/-- Decodes after the next `skip` bytes, which belong to what was read before. -/
def decodeAfter : Nat → List UInt8 → List (Option Char)
  | _, [] => []
  | skip + 1, _ :: rest => decodeAfter skip rest
  | 0, lead :: rest => (step lead rest).1 :: decodeAfter (step lead rest).2 rest

def decode (bytes : List UInt8) : List (Option Char) :=
  decodeAfter 0 bytes

@[simp] theorem decode_nil : decode [] = [] := rfl

/-- Every ill-formed piece becomes a replacement character. -/
def replaced (bytes : List UInt8) : String :=
  String.ofList ((decode bytes).map (·.getD '�'))

/-- Every ill-formed piece is dropped. -/
def cleaned (bytes : List UInt8) : String :=
  String.ofList ((decode bytes).filterMap id)

def text? (bytes : List UInt8) : Option String :=
  ((decode bytes).mapM id).map String.ofList

end Fallow.Utf8
