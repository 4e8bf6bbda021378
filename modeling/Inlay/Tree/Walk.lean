import Inlay.Number.Total
import Inlay.Tree.Node

/-! The embedded scripts of a tree, before anything else in document order: a nested value comes
before the children. `Node.visits` says so by recursion; `Node.walk` finds them with a stack. -/

namespace Inlay

/-- A script, how deep it lies, and the siblings before it. -/
structure Visit where
  kind : ScriptKind
  code : Text
  loc : Option Location
  depth : Nat
  preceding : List Node

namespace Node

mutual

/-- Scripts at or below a node at `depth` whose earlier siblings are `preceding`. -/
def visits (depth : Nat) (preceding : List Node) : Node → List Visit
  | .script kind code loc => [⟨kind, code, loc, depth, preceding⟩]
  | .comment _ _ => []
  | .container _ value children _ =>
    visitsOfValue (depth + 1) value ++ visitsOfChildren (depth + 1) [] children

def visitsOfValue (depth : Nat) : Option Node → List Visit
  | none => []
  | some n => visits depth [] n

def visitsOfChildren (depth : Nat) (preceding : List Node) : List Node → List Visit
  | [] => []
  | n :: rest => visits depth preceding n ++ visitsOfChildren depth (preceding ++ [n]) rest

end

mutual

/-- The number of nodes, which bounds the work of a walk. -/
def size : Node → Nat
  | .script _ _ _ => 1
  | .comment _ _ => 1
  | .container _ value children _ => 1 + sizeOfValue value + sizeOfChildren children

def sizeOfValue : Option Node → Nat
  | none => 0
  | some n => size n

def sizeOfChildren : List Node → Nat
  | [] => 0
  | n :: rest => size n + sizeOfChildren rest

end

structure Frame where
  node : Node
  depth : Nat
  preceding : List Node

def childFrames (depth : Nat) (preceding : List Node) : List Node → List Frame
  | [] => []
  | n :: rest => ⟨n, depth, preceding⟩ :: childFrames depth (preceding ++ [n]) rest

def valueFrames (depth : Nat) : Option Node → List Frame
  | none => []
  | some n => [⟨n, depth, []⟩]

/-- What to visit next once a node that is no script is taken off the stack. -/
def framesBelow (f : Frame) : List Frame :=
  valueFrames (f.depth + 1) f.node.value ++ childFrames (f.depth + 1) [] f.node.children

def workOf (stack : List Frame) : Nat := total (stack.map (·.node.size))

theorem workOf_append (s t : List Frame) : workOf (s ++ t) = workOf s + workOf t := by
  simp [workOf]

theorem workOf_childFrames (depth : Nat) (preceding children : List Node) :
    workOf (childFrames depth preceding children) = sizeOfChildren children := by
  induction children generalizing preceding with
  | nil => rfl
  | cons n rest ih => simp [childFrames, workOf, sizeOfChildren] at ih ⊢; exact ih _

theorem workOf_framesBelow (f : Frame) : workOf (framesBelow f) + 1 = f.node.size := by
  obtain ⟨n, depth, preceding⟩ := f
  rw [framesBelow, workOf_append, workOf_childFrames]
  cases n with
  | script kind code loc => rfl
  | comment text loc => rfl
  | container kind value children loc =>
    cases value <;> simp [Node.value, Node.children, valueFrames, workOf, size, sizeOfValue]
    all_goals omega

/-- Takes frames off the stack until it is empty. -/
def walkStack (stack : List Frame) : List Visit :=
  match stack with
  | [] => []
  | f :: rest =>
    match _h : f.node with
    | .script kind code loc => ⟨kind, code, loc, f.depth, f.preceding⟩ :: walkStack rest
    | _ => walkStack (framesBelow f ++ rest)
termination_by workOf stack
decreasing_by
  · simp [workOf, _h, size]
  · rw [workOf_append]
    have := workOf_framesBelow f
    simp only [workOf, List.map_cons, total_cons] at *
    omega

def walk (root : Node) : List Visit := walkStack [⟨root, 0, []⟩]

end Node
end Inlay
