import Mathlib
import Inlay.Path.Glob

/-! What patterns leave. After the first byte of a text a pattern has something left to match, in as
many ways as it can take that byte. So whether it matches a text with a given front is whether one
of the things it leaves behind that front matches the rest of the text. -/

namespace Inlay
namespace GlobToken

def isNullable (token : GlobToken) : Bool := run List.isEmpty token []

mutual

/-- What may be left to match when a token has taken a byte. -/
def behind (b : UInt8) : GlobToken → List (List GlobToken)
  | .literal [] => []
  | .literal (c :: cs) => if b = c then [[.literal cs]] else []
  | .anyByte => [[]]
  | .anyBytes => [[.anyBytes]]
  | .leading => if b = Path.slash then [[.leading]] else [[.anyBytes, .literal [Path.slash]]]
  | .trailing => if b = Path.slash then [[.anyBytes]] else []
  | .between => if b = Path.slash then [[.leading]] else []
  | .oneOf isNegated ranges => if ranges.any (inRange b) != isNegated then [[]] else []
  | .alternatives branches => behindBranches b branches

/-- The first token takes the byte, or it matches nothing and a later one takes it. -/
def behindAll (b : UInt8) : List GlobToken → List (List GlobToken)
  | [] => []
  | token :: rest =>
    (behind b token).map (· ++ rest) ++ if isNullable token then behindAll b rest else []

def behindBranches (b : UInt8) : List (List GlobToken) → List (List GlobToken)
  | [] => []
  | branch :: rest => (if areVoid branch then [] else behindAll b branch) ++ behindBranches b rest

end

/-! ## One byte -/

theorem runAll_append (k : Text → Bool) (xs ys : List GlobToken) :
    runAll k (xs ++ ys) = runAll (runAll k ys) xs := by
  induction xs with
  | nil => rfl
  | cons token xs ih =>
    funext t
    rw [List.cons_append, runAll, runAll, ih]

mutual

theorem run_nil (k : Text → Bool) : (token : GlobToken) →
    run k token [] = (run List.isEmpty token [] && k [])
  | .literal bytes => by cases bytes <;> simp [run]
  | .anyByte => by simp [run]
  | .anyBytes => by simp [run, tails]
  | .leading => by simp [run, afterSlashes]
  | .trailing => by simp [run]
  | .between => by simp [run]
  | .oneOf isNegated ranges => by simp [run]
  | .alternatives branches => by
    rw [run, run, runBranches_nil k branches]
    split <;> simp

theorem runAll_nil (k : Text → Bool) : (tokens : List GlobToken) →
    runAll k tokens [] = (runAll List.isEmpty tokens [] && k [])
  | [] => by simp [runAll]
  | token :: rest => by
    rw [runAll, runAll, run_nil (runAll k rest) token, run_nil (runAll List.isEmpty rest) token,
      runAll_nil k rest, Bool.and_assoc]

theorem runBranches_nil (k : Text → Bool) : (branches : List (List GlobToken)) →
    runBranches k branches [] = (runBranches List.isEmpty branches [] && k [])
  | [] => by simp [runBranches]
  | branch :: rest => by
    rw [runBranches, runBranches, runAll_nil k branch, runBranches_nil k rest]
    cases areVoid branch <;> cases k [] <;> simp

end

theorem any_afterSlashes (k : Text → Bool) (t : Text) :
    (afterSlashes t).any k = runAll k [.anyBytes, .literal [Path.slash]] t := by
  simp only [runAll, run]
  induction t with
  | nil => simp [afterSlashes, tails]
  | cons b t ih =>
    rw [afterSlashes, tails, List.any_cons, ← ih]
    by_cases hb : b = Path.slash
    · simp [hb]
    · simp [hb, Ne.symm hb]

mutual

theorem behindAll_of_areVoid (b : UInt8) : (tokens : List GlobToken) → areVoid tokens = true →
    behindAll b tokens = []
  | [], _ => rfl
  | token :: rest, h => by
    rw [areVoid, Bool.and_eq_true] at h
    rw [behindAll, behind_of_isVoid b token h.1, behindAll_of_areVoid b rest h.2]
    simp

theorem behind_of_isVoid (b : UInt8) : (token : GlobToken) → isVoid token = true →
    behind b token = []
  | .alternatives branches, h => by
    rw [isVoid] at h
    rw [behind]
    exact behindBranches_of_areVoid b branches h

theorem behindBranches_of_areVoid (b : UInt8) : (branches : List (List GlobToken)) →
    areVoidBranches branches = true → behindBranches b branches = []
  | [], _ => rfl
  | branch :: rest, h => by
    rw [areVoidBranches, Bool.and_eq_true] at h
    rw [behindBranches, if_pos h.1, behindBranches_of_areVoid b rest h.2, List.append_nil]

end

mutual

/-- On a byte and more, a token matches nothing, or it takes the byte and matches with what it leaves
behind. -/
theorem run_cons (k : Text → Bool) (b : UInt8) (t : Text) : (token : GlobToken) →
    run k token (b :: t) =
      (isNullable token && k (b :: t) || (behind b token).any fun rest => runAll k rest t)
  | .literal [] => by simp [run, isNullable, behind]
  | .literal (c :: cs) => by
    by_cases hb : b = c
    · simp [run, isNullable, behind, runAll, hb]
    · simp [run, isNullable, behind, hb, Ne.symm hb]
  | .anyByte => by simp [run, isNullable, behind, runAll]
  | .anyBytes => by simp [run, isNullable, behind, runAll, tails]
  | .leading => by
    by_cases hb : b = Path.slash
    · simp [run, isNullable, behind, runAll, afterSlashes, hb]
    · rw [run, afterSlashes, if_neg hb, any_afterSlashes]
      simp [run, isNullable, behind, hb]
  | .trailing => by
    by_cases hb : b = Path.slash <;> simp [run, isNullable, behind, runAll, hb]
  | .between => by
    by_cases hb : b = Path.slash <;> simp [run, isNullable, behind, runAll, hb]
  | .oneOf isNegated ranges => by
    by_cases hb : (ranges.any (inRange b) != isNegated) = true
    · simp [run, isNullable, behind, runAll, hb]
    · simp [run, isNullable, behind, hb]
  | .alternatives branches => by
    rw [run, behind, isNullable, run, runBranches_cons k b t branches]
    split
    · next hvoid => simp [behindBranches_of_areVoid b branches hvoid]
    · rfl

theorem runAll_cons (k : Text → Bool) (b : UInt8) (t : Text) : (tokens : List GlobToken) →
    runAll k tokens (b :: t) =
      (runAll List.isEmpty tokens [] && k (b :: t) ||
        (behindAll b tokens).any fun rest => runAll k rest t)
  | [] => by simp [runAll, behindAll]
  | token :: rest => by
    rw [runAll, run_cons (runAll k rest) b t token, runAll_cons k b t rest, runAll,
      run_nil (runAll List.isEmpty rest) token, behindAll, List.any_append, List.any_map]
    have hnullable : run List.isEmpty token [] = isNullable token := rfl
    simp only [Function.comp_def, runAll_append, hnullable]
    cases isNullable token with
    | false => simp
    | true =>
      simp only [Bool.true_and, if_true]
      ac_rfl

theorem runBranches_cons (k : Text → Bool) (b : UInt8) (t : Text) :
    (branches : List (List GlobToken)) →
    runBranches k branches (b :: t) =
      (runBranches List.isEmpty branches [] && k (b :: t) ||
        (behindBranches b branches).any fun rest => runAll k rest t)
  | [] => by simp [runBranches, behindBranches]
  | branch :: rest => by
    rw [runBranches, runAll_cons k b t branch, runBranches_cons k b t rest, runBranches,
      behindBranches, List.any_append]
    cases areVoid branch with
    | true => simp
    | false =>
      simp only [Bool.not_false, Bool.true_and, Bool.false_eq_true, if_false]
      cases k (b :: t) with
      | false => simp
      | true =>
        simp only [Bool.and_true]
        ac_rfl

end

/-! ## A front -/

/-- What may be left to match when tokens have taken a front of a text. -/
def behindFront : Text → List GlobToken → List (List GlobToken)
  | [], tokens => [tokens]
  | b :: front, tokens => (behindAll b tokens).flatMap (behindFront front)

/-- Tokens match a text exactly when something they leave behind a front of it matches the rest. -/
theorem runAll_append_text (front t : Text) (tokens : List GlobToken) :
    runAll List.isEmpty tokens (front ++ t) =
      (behindFront front tokens).any fun rest => runAll List.isEmpty rest t := by
  induction front generalizing tokens with
  | nil => simp [behindFront]
  | cons b front ih => simp [runAll_cons, behindFront, List.any_flatMap, ih]

end GlobToken

namespace Glob

open GlobToken (behindFront runAll)

/-- Whether something that a pattern leaves behind `front` matches a path. Leading directories alone
match all. -/
def matchesBehind (front : Text) (g : Glob) (p : Path) : Bool :=
  match g.tokens with
  | [.leading] => true
  | tokens => (behindFront front tokens).any fun rest => runAll List.isEmpty rest p.text

variable {g : Glob}

theorem isMatch_of_ne (h : g.tokens ≠ [.leading]) (p : Path) :
    g.isMatch p = runAll List.isEmpty g.tokens p.text := by
  unfold isMatch
  split
  · next h' => exact absurd h' h
  · rfl

theorem matchesBehind_of_ne (h : g.tokens ≠ [.leading]) (front : Text) (p : Path) :
    g.matchesBehind front p =
      (behindFront front g.tokens).any fun rest => runAll List.isEmpty rest p.text := by
  unfold matchesBehind
  split
  · next h' => exact absurd h' h
  · rfl

theorem isMatch_append (front : Text) (g : Glob) (p : Path) :
    g.isMatch ⟨front ++ p.text⟩ = g.matchesBehind front p := by
  by_cases h : g.tokens = [.leading]
  · simp only [isMatch, matchesBehind, h]
  · rw [isMatch_of_ne h, matchesBehind_of_ne h]
    exact GlobToken.runAll_append_text front p.text g.tokens

end Glob
end Inlay
