import Inlay.Text.Basic

/-! Characters of a text. Decoding reads the longest start of a character that the bytes allow, so
a damaged sequence stands for one unreadable piece and the bytes after it are read afresh. -/

namespace Inlay
namespace Text

/-- What stands at the front of some bytes: a character or an unreadable piece, and how many bytes
after the first one belong to it. -/
structure Piece where
  char? : Option Char
  extra : Nat
deriving DecidableEq

def continuationBits (b : UInt8) : Nat := b.toNat % 64

def within (lo hi b : UInt8) : Bool := lo ≤ b && b ≤ hi

/-- The second bytes that may follow the first byte of a character of three or four bytes. -/
def secondRange (b : UInt8) : UInt8 × UInt8 :=
  if b = 0xE0 then (0xA0, 0xBF)
  else if b = 0xED then (0x80, 0x9F)
  else if b = 0xF0 then (0x90, 0xBF)
  else if b = 0xF4 then (0x80, 0x8F)
  else (0x80, 0xBF)

def twoBytes (b : UInt8) : Text → Piece
  | c :: _ =>
    if isContinuation c then ⟨some (Char.ofNat (b.toNat % 32 * 64 + continuationBits c)), 1⟩
    else ⟨none, 0⟩
  | [] => ⟨none, 0⟩

def threeBytes (b : UInt8) : Text → Piece
  | c :: t =>
    if within (secondRange b).1 (secondRange b).2 c then
      match t with
      | d :: _ =>
        if isContinuation d then
          ⟨some (Char.ofNat
            ((b.toNat % 16 * 64 + continuationBits c) * 64 + continuationBits d)), 2⟩
        else ⟨none, 1⟩
      | [] => ⟨none, 1⟩
    else ⟨none, 0⟩
  | [] => ⟨none, 0⟩

def fourBytes (b : UInt8) : Text → Piece
  | c :: t =>
    if within (secondRange b).1 (secondRange b).2 c then
      match t with
      | d :: t =>
        if isContinuation d then
          match t with
          | e :: _ =>
            if isContinuation e then
              ⟨some (Char.ofNat
                (((b.toNat % 8 * 64 + continuationBits c) * 64 + continuationBits d) * 64
                  + continuationBits e)), 3⟩
            else ⟨none, 2⟩
          | [] => ⟨none, 2⟩
        else ⟨none, 1⟩
      | [] => ⟨none, 1⟩
    else ⟨none, 0⟩
  | [] => ⟨none, 0⟩

def piece (b : UInt8) (t : Text) : Piece :=
  if b < 0x80 then ⟨some (Char.ofNat b.toNat), 0⟩
  else if within 0xC2 0xDF b then twoBytes b t
  else if within 0xE0 0xEF b then threeBytes b t
  else if within 0xF0 0xF4 b then fourBytes b t
  else ⟨none, 0⟩

/-- The characters and unreadable pieces of a text, in reverse, on top of those already read. -/
def piecesOnto (done : List (Option Char)) : Text → List (Option Char)
  | [] => done
  | b :: t => piecesOnto ((piece b t).char? :: done) (t.drop (piece b t).extra)
termination_by t => t.length
decreasing_by simp only [List.length_drop, List.length_cons]; omega

def pieces (t : Text) : List (Option Char) := (piecesOnto [] t).reverse

/-- The characters of a text, or nothing when some byte belongs to none. -/
def chars? (t : Text) : Option (List Char) := t.pieces.mapM id

/-- The characters of a text, with U+FFFD for each unreadable piece. -/
def charsLossy (t : Text) : List Char := t.pieces.map (·.getD (Char.ofNat 0xFFFD))

def toString? (t : Text) : Option String := t.chars?.map String.ofList

def toStringLossy (t : Text) : String := String.ofList t.charsLossy

def isUtf8 (t : Text) : Bool := t.pieces.all Option.isSome

def ofChars (cs : List Char) : Text := cs.flatMap String.utf8EncodeChar

end Text
end Inlay
