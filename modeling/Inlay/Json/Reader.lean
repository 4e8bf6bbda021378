import Inlay.Json.Basic
import Inlay.Json.Raw
import Inlay.Text.Utf8

/-! The value that a JSON text stands for. Beyond the grammar, strings have to be UTF-8 with paired
surrogate escapes, numbers have to be finite, and arrays and objects nest at most 127 deep. -/

namespace Inlay

/-! ## Numbers -/

namespace Number

def maxWord : Nat := 18446744073709551615

def minWordMagnitude : Nat := 9223372036854775808

def maxExponent : Nat := 2147483647

/-- Significant digits read so far. Once they fill a word, digits before the point only count and
digits after it are ignored. -/
structure Significand where
  digits : Nat := 0
  exponent : Int := 0
  full : Bool := false

def Significand.addInteger (s : Significand) (b : UInt8) : Significand :=
  if s.full || maxWord < s.digits * 10 + Text.digitValue b then
    { s with exponent := s.exponent + 1, full := true }
  else { s with digits := s.digits * 10 + Text.digitValue b }

def Significand.addFraction (s : Significand) (b : UInt8) : Significand :=
  if s.full || maxWord < s.digits * 10 + Text.digitValue b then { s with full := true }
  else { s with digits := s.digits * 10 + Text.digitValue b, exponent := s.exponent - 1 }

structure Parts where
  negative : Bool
  integer : Text
  fraction : Option Text
  exponent : Option (Bool × Text)

def exponentOf : Text → Option (Bool × Text)
  | 101 :: t => some (t.head? == some 45, RawJson.skipSign t)
  | 69 :: t => some (t.head? == some 45, RawJson.skipSign t)
  | _ => none

def partsOf (t : Text) : Parts :=
  let u := RawJson.skipMinus t
  let integer := u.takeWhile Text.isDigit
  let rest := u.dropWhile Text.isDigit
  match rest with
  | 46 :: v =>
    ⟨t.head? == some 45, integer, some (v.takeWhile Text.isDigit),
      exponentOf (v.dropWhile Text.isDigit)⟩
  | _ => ⟨t.head? == some 45, integer, none, exponentOf rest⟩

def signed (negative : Bool) (x : Double) : Double := if negative then x.neg else x

def realOf? (p : Parts) : Option Double := do
  let whole := p.integer.foldl Significand.addInteger {}
  let s := (p.fraction.getD []).foldl Significand.addFraction { whole with full := false }
  match p.exponent with
  | none => (Double.ofDecimal? s.digits s.exponent).map (signed p.negative)
  | some (down, digits) =>
    let e := Text.naturalOfDigits digits
    if maxExponent < e then
      if s.digits != 0 && !down then none else some (signed p.negative Double.zero)
    else
      (Double.ofDecimal? s.digits (if down then s.exponent - e else s.exponent + e)).map
        (signed p.negative)

/-- The number that a written number stands for, unless it is too large. -/
def ofText? (t : Text) : Option Number :=
  let p := partsOf t
  let n := Text.naturalOfDigits p.integer
  if p.fraction.isSome || p.exponent.isSome || maxWord < n then (realOf? p).map .real
  else if !p.negative then some (.int n)
  else if n = 0 || minWordMagnitude < n then (realOf? p).map .real
  else some (.int (-n))

end Number

/-! ## Strings -/

namespace RawJson

def hexOf (a b c d : UInt8) : Nat :=
  [a, b, c, d].foldl (fun n h => 16 * n + (Text.hexValue? h).getD 0) 0

def isHighSurrogate (n : Nat) : Bool := 0xD800 ≤ n && n < 0xDC00

def isLowSurrogate (n : Nat) : Bool := 0xDC00 ≤ n && n < 0xE000

def pairSurrogates (high low : Nat) : Nat := 0x10000 + (high - 0xD800) * 1024 + (low - 0xDC00)

def charBytes (n : Nat) : Text := String.utf8EncodeChar (Char.ofNat n)

def escapedByte (b : UInt8) : UInt8 :=
  if b = 98 then 8 else if b = 102 then 12 else if b = 110 then 10
  else if b = 114 then 13 else if b = 116 then 9 else b

/-- Replaces escapes, onto what has been read in reverse. A surrogate has to come in a pair. -/
def unescapeOnto (done : Text) : Text → Option Text
  | 92 :: 117 :: a :: b :: c :: d :: t =>
    let n := hexOf a b c d
    if isLowSurrogate n then none
    else if isHighSurrogate n then
      match t with
      | 92 :: 117 :: e :: f :: g :: h :: t =>
        let m := hexOf e f g h
        if isLowSurrogate m then unescapeOnto ((charBytes (pairSurrogates n m)).reverse ++ done) t
        else none
      | _ => none
    else unescapeOnto ((charBytes n).reverse ++ done) t
  | 92 :: b :: t => unescapeOnto (escapedByte b :: done) t
  | b :: t => unescapeOnto (b :: done) t
  | [] => some done.reverse

def stringOf? (raw : Text) : Option String := (unescapeOnto [] raw).bind Text.toString?

/-! ## Values -/

def maxDepth : Nat := 127

mutual

/-- The value of a part inside `depth` arrays and objects. -/
def toJson? (depth : Nat) : RawJson → Option Json
  | .null => some .null
  | .bool b => some (.bool b)
  | .number t => (Number.ofText? t).map .num
  | .string t => (stringOf? t).map .str
  | .array items => if depth < maxDepth then (itemsToJson? (depth + 1) items).map .arr else none
  | .object fields => if depth < maxDepth then (fieldsToJson? (depth + 1) fields).map .obj else none

def itemsToJson? (depth : Nat) : List RawJson → Option (List Json)
  | [] => some []
  | r :: rest => do
    let j ← toJson? depth r
    let js ← itemsToJson? depth rest
    some (j :: js)

def fieldsToJson? (depth : Nat) : List (Text × RawJson) → Option (List (String × Json))
  | [] => some []
  | (n, r) :: rest => do
    let name ← stringOf? n
    let j ← toJson? depth r
    let js ← fieldsToJson? depth rest
    some ((name, j) :: js)

end

end RawJson

def Json.ofText? (t : Text) : Option Json := (RawJson.ofText? t).bind (RawJson.toJson? 0)

end Inlay
