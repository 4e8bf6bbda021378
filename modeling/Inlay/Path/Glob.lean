import Inlay.Path.Basic

/-! Patterns for paths. `*` and `?` stand for any bytes and for any byte, separators included; `**`
next to separators stands for any number of directories; braces hold alternatives and brackets hold
a class of bytes. A pattern has to match the whole path. -/

namespace Inlay

inductive GlobToken where
  | literal (bytes : Text)
  | anyByte
  | anyBytes
  /-- Directories at the front. -/
  | leading
  /-- Directories at the end, and what they hold. -/
  | trailing
  /-- Directories in between. -/
  | between
  | oneOf (isNegated : Bool) (ranges : List (UInt8 × UInt8))
  | alternatives (branches : List (List GlobToken))
deriving Inhabited

structure Glob where
  tokens : List GlobToken

namespace GlobToken

/-- The text itself and what is left of it when bytes are dropped from its front. -/
def tails : Text → List Text
  | [] => [[]]
  | b :: t => (b :: t) :: tails t

def afterSlashes : Text → List Text
  | [] => []
  | b :: t => if b = Path.slash then t :: afterSlashes t else afterSlashes t

def inRange (b : UInt8) (r : UInt8 × UInt8) : Bool := r.1 ≤ b && b ≤ r.2

mutual

/-- Whether a token matches nothing but the empty text for want of alternatives. -/
def isVoid : GlobToken → Bool
  | .alternatives branches => areVoidBranches branches
  | _ => false

def areVoid : List GlobToken → Bool
  | [] => true
  | token :: rest => isVoid token && areVoid rest

def areVoidBranches : List (List GlobToken) → Bool
  | [] => true
  | branch :: rest => areVoid branch && areVoidBranches rest

end

mutual

/-- Whether a token matches some front of a text such that the rest satisfies `k`. -/
def run (k : Text → Bool) : GlobToken → Text → Bool
  | .literal bytes, t => bytes.isPrefixOf t && k (t.drop bytes.length)
  | .anyByte, t => !t.isEmpty && k (t.drop 1)
  | .anyBytes, t => (tails t).any k
  | .leading, t => k t || (afterSlashes t).any k
  | .trailing, t => t.head? == some Path.slash && (tails (t.drop 1)).any k
  | .between, t => t.head? == some Path.slash && (k (t.drop 1) || (afterSlashes (t.drop 1)).any k)
  | .oneOf isNegated ranges, t =>
    match t with
    | [] => false
    | b :: rest => ranges.any (inRange b) != isNegated && k rest
  | .alternatives branches, t =>
    if areVoidBranches branches then k t else runBranches k branches t

def runAll (k : Text → Bool) : List GlobToken → Text → Bool
  | [], t => k t
  | token :: rest, t => run (runAll k rest) token t

/-- Void branches do not count. -/
def runBranches (k : Text → Bool) : List (List GlobToken) → Text → Bool
  | [], _ => false
  | branch :: rest, t => (!areVoid branch && runAll k branch t) || runBranches k rest t

end

end GlobToken

namespace Glob

/-- Whether a pattern matches a path as it is spelled. Leading directories alone match all. -/
def isMatch (g : Glob) (p : Path) : Bool :=
  match g.tokens with
  | [.leading] => true
  | tokens => GlobToken.runAll List.isEmpty tokens p.text

/-! ## Reading patterns -/

/-- A pattern being read: the branches that are open, innermost first and each in reverse, with how
many belong to each open brace, and the character before. -/
structure Reader where
  current : List GlobToken
  outer : List (List (List GlobToken) × List GlobToken)
  branches : List (List GlobToken)
  before : Option Char

namespace Reader

def start : Reader := ⟨[], [], [], none⟩

def push (r : Reader) (token : GlobToken) : Reader := { r with current := token :: r.current }

def pushChar (r : Reader) (c : Char) : Reader := r.push (.literal (String.utf8EncodeChar c))

def openBrace (r : Reader) : Reader :=
  { r with current := [], branches := [], outer := (r.branches, r.current) :: r.outer }

def closeBrace? (r : Reader) : Option Reader :=
  match r.outer with
  | [] => none
  | (branches, current) :: outer =>
    let all := (r.current :: r.branches).reverse.map List.reverse
    some { r with current := .alternatives all :: current, branches, outer }

def comma (r : Reader) : Reader :=
  if r.outer.isEmpty then r.pushChar ','
  else { r with current := [], branches := r.current :: r.branches }

def isAlternativeEnd (c : Char) : Bool := c == ',' || c == '\x7d'

def doubleStar (r : Reader) (rest : List Char) : Reader × List Char :=
  let plain := ((r.push .anyBytes).push .anyBytes, rest)
  if r.current.isEmpty then
    match rest with
    | [] => (r.push .leading, [])
    | '/' :: rest => (r.push .leading, rest)
    | _ => plain
  else if r.before != some '/' then plain
  else
    let replace (token : GlobToken) : Reader :=
      match r.current with
      | .leading :: _ => r
      | .trailing :: _ => r
      | _ => { r with current := token :: r.current.drop 1 }
    match rest with
    | [] => (replace .trailing, [])
    | c :: rest' =>
      if c = '/' then (replace .between, rest')
      else if isAlternativeEnd c && !r.outer.isEmpty then (replace .trailing, rest)
      else plain

/-! ### Classes -/

/-- A range of characters. Its bytes are those of the first, those of the last, and those between
the last byte of the first and the first byte of the last. -/
def bytesOfRange (r : Char × Char) : List (UInt8 × UInt8) :=
  let lo := String.utf8EncodeChar r.1
  let hi := String.utf8EncodeChar r.2
  let single (b : UInt8) : UInt8 × UInt8 := (b, b)
  if r.1 = r.2 then lo.map single
  else
    lo.dropLast.map single ++ [(lo.getLastD 0, hi.headD 0)] ++ (hi.drop 1).map single

/-- The ranges of a class after its first bracket and mark of negation, latest first. `isFirst` says
that a closing bracket is plain, `isOpen` that the latest range waits for its end. -/
def classRest? (isFirst isOpen : Bool) (ranges : List (Char × Char)) :
    List Char → Option (List (Char × Char) × List Char)
  | [] => none
  | c :: rest =>
    if c = ']' && !isFirst then some (if isOpen then ('-', '-') :: ranges else ranges, rest)
    else if isOpen then
      match ranges with
      | (lo, _) :: earlier =>
        if c < lo then none else classRest? false false ((lo, c) :: earlier) rest
      | [] => none
    else if c = '-' && !isFirst then classRest? false true ranges rest
    else classRest? false false ((c, c) :: ranges) rest

def class? (r : Reader) (cs : List Char) : Option (Reader × List Char) :=
  let (isNegated, cs) :=
    match cs with
    | '!' :: rest => (true, rest)
    | '^' :: rest => (true, rest)
    | _ => (false, cs)
  (classRest? true false [] cs).map fun (ranges, rest) =>
    (r.push (.oneOf isNegated (ranges.reverse.flatMap bytesOfRange)), rest)

def token? (r : Reader) (c : Char) (rest : List Char) : Option (Reader × List Char) :=
  match c with
  | '?' => some (r.push .anyByte, rest)
  | '*' =>
    match rest with
    | '*' :: rest => some (r.doubleStar rest)
    | _ => some (r.push .anyBytes, rest)
  | '[' => r.class? rest
  | '\x7b' => some (r.openBrace, rest)
  | '\x7d' => r.closeBrace?.map (·, rest)
  | ',' => some (r.comma, rest)
  | '\\' =>
    match rest with
    | [] => none
    | e :: rest => some (r.pushChar e, rest)
  | c => some (r.pushChar c, rest)

def readAll? : Nat → Reader → List Char → Option Reader
  | _, r, [] => some r
  | 0, _, _ => none
  | fuel + 1, r, c :: cs => do
    let (next, rest) ← r.token? c cs
    let taken := (c :: cs).take (cs.length + 1 - rest.length)
    readAll? fuel { next with before := taken.getLast? } rest

end Reader

/-- The pattern in a text. There is none if a brace or bracket is left open, a brace is closed that
was not opened, a range runs backwards, or a backslash ends the text. -/
def ofString? (s : String) : Option Glob :=
  let cs := s.toList
  match Reader.readAll? cs.length .start cs with
  | some r => if r.outer.isEmpty then some ⟨r.current.reverse⟩ else none
  | none => none

end Glob
end Inlay
