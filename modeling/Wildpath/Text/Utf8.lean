import Wildpath.Text.Basic

/-!
# Text as bytes

The encoding of text as bytes of one to four per character, and the strict decoding, which names
the first bytes that are no character and says why.
-/

set_option autoImplicit false

namespace Wildpath.Utf8

def encodeChar (c : Char) : List UInt8 :=
  let n := c.toNat
  if n < 0x80 then [n.toUInt8]
  else if n < 0x800 then [(0xc0 + n / 64).toUInt8, (0x80 + n % 64).toUInt8]
  else if n < 0x10000 then
    [(0xe0 + n / 4096).toUInt8, (0x80 + n / 64 % 64).toUInt8, (0x80 + n % 64).toUInt8]
  else
    [(0xf0 + n / 262144).toUInt8, (0x80 + n / 4096 % 64).toUInt8, (0x80 + n / 64 % 64).toUInt8,
      (0x80 + n % 64).toUInt8]

def encode (s : Text) : List UInt8 := s.flatMap encodeChar

/-- The first characters in a row that have no bytes of their own: where they start, how many they
are, and the byte that the first of them stands for. -/
structure Stray where
  position : Nat
  span : Nat
  first : UInt8
  deriving DecidableEq

def Stray.message (e : Stray) : Text :=
  let place :=
    if e.span = 1 then
      "character '\\udc".toList ++ Text.ofNat 16 2 e.first.toNat ++ "' in position ".toList
        ++ Text.ofNat 10 1 e.position
    else
      "characters in position ".toList ++ Text.ofNat 10 1 e.position ++ ['-']
        ++ Text.ofNat 10 1 (e.position + e.span - 1)
  "'utf-8' codec can't encode ".toList ++ place ++ ": surrogates not allowed".toList

/-- What keeps a text from being encoded, where some characters stand for bytes that are no text. -/
def stray? (byteOf : Char → Option UInt8) (position : Nat) : Text → Option Stray
  | [] => none
  | c :: rest =>
    match byteOf c with
    | none => stray? byteOf (position + 1) rest
    | some first =>
      some ⟨position, (rest.takeWhile fun d => (byteOf d).isSome).length + 1, first⟩

inductive Reason where
  | invalidStart
  | invalidContinuation
  | unexpectedEnd
  deriving DecidableEq

def Reason.message : Reason → String
  | .invalidStart => "invalid start byte"
  | .invalidContinuation => "invalid continuation byte"
  | .unexpectedEnd => "unexpected end of data"

/-- The bytes that were refused: where they start, how many they are, and the first of them. -/
structure Error where
  position : Nat
  span : Nat
  first : UInt8
  reason : Reason

def Error.message (e : Error) : Text :=
  let place :=
    if e.span = 1 then
      "byte 0x".toList ++ Text.ofNat 16 2 e.first.toNat ++ " in position ".toList
        ++ Text.ofNat 10 1 e.position
    else
      "bytes in position ".toList ++ Text.ofNat 10 1 e.position ++ ['-']
        ++ Text.ofNat 10 1 (e.position + e.span - 1)
  "'utf-8' codec can't decode ".toList ++ place ++ ": ".toList ++ e.reason.message.toList

def isTail (b : UInt8) : Bool := 0x80 ≤ b && b ≤ 0xbf

/-- May the second byte follow this first one? Four first bytes allow only a part of the tails:
below it lie longer spellings of smaller characters, above it surrogates or nothing. -/
def isSecond (a b : UInt8) : Bool :=
  isTail b && (a != 0xe0 || 0xa0 ≤ b) && (a != 0xed || b ≤ 0x9f) && (a != 0xf0 || 0x90 ≤ b)
    && (a != 0xf4 || b ≤ 0x8f)

def tailBits (b : UInt8) : Nat := b.toNat % 64

def decodeFrom (position : Nat) : List UInt8 → Except Error Text
  | [] => .ok []
  | a :: rest =>
    if a < 0x80 then
      return Char.ofNat a.toNat :: (← decodeFrom (position + 1) rest)
    else if a < 0xc2 || 0xf4 < a then .error ⟨position, 1, a, .invalidStart⟩
    else match rest with
      | [] => .error ⟨position, 1, a, .unexpectedEnd⟩
      | b :: rest =>
        if !isSecond a b then .error ⟨position, 1, a, .invalidContinuation⟩
        else if a < 0xe0 then
          return Char.ofNat (a.toNat % 32 * 64 + tailBits b) :: (← decodeFrom (position + 2) rest)
        else match rest with
          | [] => .error ⟨position, 2, a, .unexpectedEnd⟩
          | c :: rest =>
            if !isTail c then .error ⟨position, 2, a, .invalidContinuation⟩
            else if a < 0xf0 then
              return Char.ofNat (a.toNat % 16 * 4096 + tailBits b * 64 + tailBits c)
                :: (← decodeFrom (position + 3) rest)
            else match rest with
              | [] => .error ⟨position, 3, a, .unexpectedEnd⟩
              | d :: rest =>
                if !isTail d then .error ⟨position, 3, a, .invalidContinuation⟩
                else
                  return Char.ofNat
                      (a.toNat % 8 * 262144 + tailBits b * 4096 + tailBits c * 64 + tailBits d)
                    :: (← decodeFrom (position + 4) rest)

def decode (bytes : List UInt8) : Except Error Text := decodeFrom 0 bytes

end Wildpath.Utf8
