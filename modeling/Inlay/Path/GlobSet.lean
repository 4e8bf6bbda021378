import Inlay.Path.Glob

/-! Sets of patterns. The patterns of a set are compiled into regular expressions together, and a
compiler has limits of its own: it may refuse patterns each of which can be read. -/

namespace Inlay

/-- Why patterns cannot be compiled into a set, if they cannot. -/
abbrev GlobCompiler := List Glob → Option String

namespace GlobToken

/-- How many pieces of a regular expression stand for a token next to each other. -/
def pieceCount : GlobToken → Nat
  | .literal bytes => bytes.length
  | .trailing => 2
  | .alternatives branches => if areVoidBranches branches then 0 else 1
  | _ => 1

def pieceCountAll : List GlobToken → Nat
  | [] => 0
  | token :: rest => pieceCount token + pieceCountAll rest

mutual

/-- How deep the syntax tree of the expression for a token is, where single characters have no
depth: `*` is `.*`, directories are `(?:/?|.*/)`, `/.*` and `(?:/|/.*/)`, and braces are a group. -/
def depth : GlobToken → Nat
  | .literal _ => 0
  | .anyByte => 0
  | .anyBytes => 1
  | .leading => 4
  | .trailing => 1
  | .between => 4
  | .oneOf _ ranges => if ranges.length = 1 then 1 else 2
  | .alternatives branches =>
    if areVoidBranches branches then 0
    else if (branches.filter (!areVoid ·)).length = 1 then 1 + depthOfBranches branches
    else 2 + depthOfBranches branches

def depthAll : List GlobToken → Nat
  | [] => 0
  | token :: rest => max (depth token) (depthAll rest)

def depthOfBranches : List (List GlobToken) → Nat
  | [] => 0
  | branch :: rest =>
    max (if 1 < pieceCountAll branch then 1 + depthAll branch else depthAll branch)
      (depthOfBranches rest)

end

end GlobToken

/-- The depth of the expression for a pattern, between two anchors. -/
def Glob.depth (g : Glob) : Nat :=
  match g.tokens with
  | [.leading] => 2
  | tokens => 1 + GlobToken.depthAll tokens

/-- A compiler that refuses expressions that are too deep, and tells the first of them. -/
def GlobCompiler.withLimit (limit : Nat) : GlobCompiler := fun globs =>
  (globs.findIdx? fun g => limit < g.depth).map fun i => "error parsing pattern " ++ toString i

/-- The depth that the compiler of the program allows. -/
def GlobCompiler.default : GlobCompiler := withLimit 250

end Inlay
