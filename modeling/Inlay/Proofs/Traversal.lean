import Mathlib.Logic.Function.Iterate
import Inlay.Proofs.Addresses

/-! The walk with a stack against the recursive traversal. A walk under way takes one frame off its
stack at a time. What it has found and what the frames on its stack still hold make up the whole
traversal at every step, and each step does the work of one node. So the walk of a tree ends after
as many steps as the tree has nodes, with the scripts in the order of the recursion. -/

namespace Inlay
namespace Node

/-! ## The recursion -/

theorem visitsOfChildren_eq (depth : Nat) (done rest : List Node) :
    visitsOfChildren depth done rest =
      (rest.zipIdx done.length).flatMap fun (n, i) => n.visits depth ((done ++ rest).take i) := by
  induction rest generalizing done with
  | nil => rfl
  | cons n rest ih =>
    rw [visitsOfChildren, ih (done ++ [n]), List.zipIdx_cons, List.flatMap_cons]
    simp

/-- The traversal of a node that is no script: its nested value, which nothing precedes, and then
its children, each preceded by those before it. -/
theorem visits_of_ne_script {n : Node} (h : ∀ kind code loc, n ≠ .script kind code loc)
    (depth : Nat) (preceding : List Node) :
    n.visits depth preceding =
      n.value.toList.flatMap (visits (depth + 1) []) ++
        n.children.zipIdx.flatMap fun (m, i) => m.visits (depth + 1) (n.children.take i) := by
  cases n with
  | script kind code loc => exact absurd rfl (h kind code loc)
  | comment text loc => rfl
  | container kind value children loc =>
    rw [visits, visitsOfChildren_eq]
    cases value <;> simp [visitsOfValue, Node.value, Node.children]

/-! ## The stack -/

theorem size_pos (n : Node) : 0 < n.size := by
  cases n <;> rw [size] <;> omega

theorem eq_nil_of_workOf_eq_zero {stack : List Frame} (h : workOf stack = 0) : stack = [] := by
  cases stack with
  | nil => rfl
  | cons f rest =>
    have := f.node.size_pos
    simp only [workOf, List.map_cons, total_cons] at h
    omega

end Node

open Node

/-- A walk under way: the nodes still to be visited and the scripts found. -/
structure Walker where
  stack : List Frame
  found : List Visit

namespace Walker

def start (root : Node) : Walker := ⟨[⟨root, 0, []⟩], []⟩

/-- Takes one frame off the stack. A script is found; in place of another node comes what is below
it. -/
def step (w : Walker) : Walker :=
  match w.stack with
  | [] => w
  | f :: rest =>
    match f.node with
    | .script kind code loc => ⟨rest, w.found ++ [⟨kind, code, loc, f.depth, f.preceding⟩]⟩
    | _ => ⟨framesBelow f ++ rest, w.found⟩

def outcome (w : Walker) : List Visit := w.found ++ walkStack w.stack

theorem outcome_step (w : Walker) : w.step.outcome = w.outcome := by
  obtain ⟨stack, found⟩ := w
  cases stack with
  | nil => rfl
  | cons f rest =>
    obtain ⟨n, depth, preceding⟩ := f
    cases n <;> simp [step, outcome, walkStack]

theorem workOf_step {w : Walker} (h : w.stack ≠ []) :
    workOf w.step.stack + 1 = workOf w.stack := by
  obtain ⟨stack, found⟩ := w
  cases stack with
  | nil => exact absurd rfl h
  | cons f rest =>
    have hbelow := workOf_framesBelow f
    have hcons : workOf (f :: rest) = f.node.size + workOf rest := by
      simp [workOf]
    cases hnode : f.node with
    | script kind code loc =>
      simp only [step, hnode, hcons, size]
      omega
    | comment text loc =>
      simp only [step, hnode, hcons, workOf_append] at hbelow ⊢
      omega
    | container kind value children loc =>
      simp only [step, hnode, hcons, workOf_append] at hbelow ⊢
      omega

theorem outcome_iterate (w : Walker) (n : Nat) : (step^[n] w).outcome = w.outcome := by
  induction n with
  | zero => rfl
  | succ n ih => rw [Function.iterate_succ_apply', outcome_step, ih]

theorem workOf_iterate {w : Walker} {n : Nat} (h : n ≤ workOf w.stack) :
    workOf (step^[n] w).stack + n = workOf w.stack := by
  induction n with
  | zero => rfl
  | succ n ih =>
    have ih := ih (by omega)
    have hne : (step^[n] w).stack ≠ [] := by
      intro hnil
      rw [hnil] at ih
      simp only [workOf, List.map_nil, total_nil] at ih h
      omega
    have hstep := workOf_step hne
    rw [Function.iterate_succ_apply']
    omega

theorem workOf_start (root : Node) : workOf (start root).stack = root.size := by
  simp [start, workOf]

/-- The walk of a tree ends after as many steps as the tree has nodes. -/
theorem iterate_size (root : Node) : step^[root.size] (start root) = ⟨[], root.walk⟩ := by
  have hwork := @workOf_iterate (start root) root.size (by rw [workOf_start])
  rw [workOf_start] at hwork
  have hstack : (step^[root.size] (start root)).stack = [] :=
    eq_nil_of_workOf_eq_zero (by omega)
  have houtcome := outcome_iterate (start root) root.size
  rw [outcome, hstack, walkStack, List.append_nil] at houtcome
  calc
    step^[root.size] (start root)
      = ⟨(step^[root.size] (start root)).stack, (step^[root.size] (start root)).found⟩ := rfl
    _ = ⟨[], root.walk⟩ := by rw [hstack, houtcome]; rfl

end Walker

/-- The walk with a stack refines the recursive traversal. It ends, after one step for each node and
not before, and has then found what the recursion gives: at a script the one visit of it, and
elsewhere the visits of the nested value, one level down and with nothing before it, and then those
of the children in order, one level down and each with the children before it. -/
theorem Node.walk_refines_visits (root : Node) :
    root.walk = root.visits 0 [] ∧
    Walker.step^[root.size] (Walker.start root) = ⟨[], root.visits 0 []⟩ ∧
    (∀ n < root.size, (Walker.step^[n] (Walker.start root)).stack ≠ []) ∧
    (∀ depth preceding kind code loc,
      visits depth preceding (.script kind code loc) = [⟨kind, code, loc, depth, preceding⟩]) ∧
    (∀ depth preceding (n : Node), (∀ kind code loc, n ≠ .script kind code loc) →
      n.visits depth preceding =
        n.value.toList.flatMap (visits (depth + 1) []) ++
          n.children.zipIdx.flatMap fun (m, i) => m.visits (depth + 1) (n.children.take i)) := by
  have hwalk := root.walk_eq_visits
  refine ⟨hwalk, ?_, ?_, fun _ _ _ _ _ => rfl, fun depth preceding n h =>
    visits_of_ne_script h depth preceding⟩
  · rw [Walker.iterate_size, hwalk]
  · intro n hn hnil
    have hwork := @Walker.workOf_iterate (Walker.start root) n (by rw [Walker.workOf_start]; omega)
    rw [hnil, Walker.workOf_start] at hwork
    simp only [workOf, List.map_nil, total_nil] at hwork
    omega

end Inlay
