import Mathlib.Data.List.Forall2
import Mathlib.Data.List.Lex
import Inlay.Tree.Walk

/-! Nodes by their address. An address says which edges lead from the root to a node, so two nodes
of a tree with the same content are still told apart. In document order a node comes before what is
below it, a nested value before the children, and a child before its later siblings. The scripts of
a tree are listed in this order, and a walk comes by them in the order of the list. -/

namespace Inlay

inductive Edge where
  | value
  | child (index : Nat)
deriving DecidableEq, Repr

def Edge.rank : Edge → Nat
  | .value => 0
  | .child index => index + 1

abbrev Address := List Edge

abbrev Address.Before : Address → Address → Prop := List.Lex fun e f => e.rank < f.rank

theorem Address.not_before_self (a : Address) : ¬ a.Before a := by
  induction a with
  | nil => exact List.not_lex_nil
  | cons e a ih =>
    intro h
    cases h with
    | cons h => exact ih h
    | rel h => exact Nat.lt_irrefl _ h

namespace Node

/-- Induction on trees: a property of all nodes below a container is one of the container. -/
theorem tree_induction {P : Node → Prop} (script : ∀ kind code loc, P (.script kind code loc))
    (comment : ∀ text loc, P (.comment text loc))
    (container : ∀ kind value children loc, (∀ n ∈ value, P n) → (∀ n ∈ children, P n) →
      P (.container kind value children loc)) (n : Node) : P n := by
  refine @Node.rec P (fun value => ∀ n ∈ value, P n) (fun children => ∀ n ∈ children, P n)
    script comment container ?_ ?_ ?_ ?_ n
  · simp
  · intro n hn m hm
    rwa [← Option.mem_some_iff.1 hm]
  · simp
  · intro n rest hn hrest m hm
    rcases List.mem_cons.1 hm with rfl | hm
    · exact hn
    · exact hrest m hm

/-! ## Addresses -/

def below? (n : Node) : Edge → Option Node
  | .value => n.value
  | .child index => n.children[index]?

def at? : Node → Address → Option Node
  | n, [] => some n
  | n, e :: rest => (n.below? e).bind fun m => m.at? rest

theorem at?_cons (n : Node) (e : Edge) (a : Address) :
    n.at? (e :: a) = (n.below? e).bind fun m => m.at? a := rfl

theorem at?_append (n : Node) (a b : Address) :
    n.at? (a ++ b) = (n.at? a).bind fun m => m.at? b := by
  induction a generalizing n with
  | nil => rfl
  | cons e a ih =>
    rw [List.cons_append, at?_cons, at?_cons]
    cases n.below? e with
    | none => rfl
    | some m => exact ih m

def IsScript (n : Node) (a : Address) : Prop :=
  ∃ kind code loc, n.at? a = some (.script kind code loc)

/-- The siblings before the node at an address. A nested value has none. -/
def siblingsBefore (n : Node) (a : Address) : List Node :=
  match a.getLast? with
  | some (.child index) => ((n.at? a.dropLast).map fun m => m.children.take index).getD []
  | _ => []

theorem siblingsBefore_child (n : Node) (a : Address) (index : Nat) :
    n.siblingsBefore (a ++ [.child index]) =
      ((n.at? a).map fun m => m.children.take index).getD [] := by
  simp [siblingsBefore]

theorem siblingsBefore_value (n : Node) (a : Address) : n.siblingsBefore (a ++ [.value]) = [] := by
  simp [siblingsBefore]

theorem siblingsBefore_cons {n m : Node} {e : Edge} {a : Address} (h : n.below? e = some m)
    (ha : a ≠ []) : n.siblingsBefore (e :: a) = m.siblingsBefore a := by
  rcases List.eq_nil_or_concat' a with hnil | ⟨front, last, rfl⟩
  · exact absurd hnil ha
  · rw [← List.cons_append]
    cases last with
    | value => rw [siblingsBefore_value, siblingsBefore_value]
    | child index => rw [siblingsBefore_child, siblingsBefore_child, at?_cons, h, Option.bind_some]

/-! ## Scripts in document order -/

mutual

def scripts : Node → List Address
  | .script _ _ _ => [[]]
  | .comment _ _ => []
  | .container _ value children _ =>
    (scriptsOfValue value).map (.value :: ·) ++ scriptsOfChildren 0 children

def scriptsOfValue : Option Node → List Address
  | none => []
  | some n => scripts n

/-- The scripts of children, of which the first has the given index. -/
def scriptsOfChildren (index : Nat) : List Node → List Address
  | [] => []
  | n :: rest => (scripts n).map (.child index :: ·) ++ scriptsOfChildren (index + 1) rest

end

theorem mem_scriptsOfChildren {index : Nat} {children : List Node} {a : Address} :
    a ∈ scriptsOfChildren index children ↔
      ∃ i n b, children[i]? = some n ∧ b ∈ n.scripts ∧ a = .child (index + i) :: b := by
  induction children generalizing index with
  | nil => simp [scriptsOfChildren]
  | cons n rest ih =>
    rw [scriptsOfChildren, List.mem_append, List.mem_map, ih]
    constructor
    · rintro (⟨b, hb, rfl⟩ | ⟨i, m, b, hm, hb, rfl⟩)
      · exact ⟨0, n, b, rfl, hb, rfl⟩
      · exact ⟨i + 1, m, b, hm, hb, by rw [Nat.add_assoc, Nat.add_comm 1 i]⟩
    · rintro ⟨i, m, b, hm, hb, rfl⟩
      cases i with
      | zero =>
        obtain rfl : n = m := by simpa using hm
        exact Or.inl ⟨b, hb, rfl⟩
      | succ i => exact Or.inr ⟨i, m, b, hm, hb, by rw [Nat.add_assoc, Nat.add_comm 1 i]⟩

theorem mem_scripts {n : Node} {a : Address} : a ∈ n.scripts ↔ n.IsScript a := by
  induction n using tree_induction generalizing a with
  | script kind code loc =>
    cases a with
    | nil => simp [scripts, IsScript, at?]
    | cons e a => cases e <;> simp [scripts, IsScript, at?_cons, below?, value, children]
  | comment text loc =>
    cases a with
    | nil => simp [scripts, IsScript, at?]
    | cons e a => cases e <;> simp [scripts, IsScript, at?_cons, below?, value, children]
  | container kind value children loc hvalue hchildren =>
    rw [scripts, List.mem_append, mem_scriptsOfChildren]
    cases a with
    | nil => simp [IsScript, at?]
    | cons e a =>
      cases e with
      | value =>
        cases value with
        | none => simp [scriptsOfValue, IsScript, at?_cons, below?, Node.value]
        | some m =>
          have hm := hvalue m rfl (a := a)
          simp [scriptsOfValue, IsScript, at?_cons, below?, Node.value, hm]
      | child i =>
        have hvalueless : Edge.child i :: a ∉ (scriptsOfValue value).map (.value :: ·) := by simp
        simp only [hvalueless, false_or, IsScript, at?_cons, below?, Node.children]
        constructor
        · rintro ⟨j, m, b, hm, hb, heq⟩
          obtain ⟨rfl, rfl⟩ : i = j ∧ a = b := by simpa using heq
          obtain ⟨kind', code, loc', hat⟩ := (hchildren m (List.mem_of_getElem? hm)).1 hb
          exact ⟨kind', code, loc', by rw [hm, Option.bind_some, hat]⟩
        · rintro ⟨kind', code, loc', hat⟩
          obtain ⟨m, hm, hat⟩ := Option.bind_eq_some_iff.1 hat
          have hb := (hchildren m (List.mem_of_getElem? hm)).2 ⟨kind', code, loc', hat⟩
          exact ⟨i, m, a, hm, hb, by rw [Nat.zero_add]⟩

theorem scriptsOfChildren_pairwise {children : List Node}
    (h : ∀ n ∈ children, n.scripts.Pairwise Address.Before) (index : Nat) :
    (scriptsOfChildren index children).Pairwise Address.Before := by
  induction children generalizing index with
  | nil => simp [scriptsOfChildren]
  | cons n rest ih =>
    rw [scriptsOfChildren, List.pairwise_append]
    refine ⟨?_, ih (fun m hm => h m (List.mem_cons_of_mem n hm)) _, ?_⟩
    · exact (h n List.mem_cons_self).map _ fun _ _ hab => .cons hab
    · -- whatever is below a later child comes after what is below the first
      intro a ha b hb
      obtain ⟨a', -, rfl⟩ := List.mem_map.1 ha
      obtain ⟨i, m, b', -, -, rfl⟩ := mem_scriptsOfChildren.1 hb
      refine .rel ?_
      simp only [Edge.rank]
      omega

theorem scripts_pairwise (n : Node) : n.scripts.Pairwise Address.Before := by
  induction n using tree_induction with
  | script kind code loc => simp [scripts]
  | comment text loc => simp [scripts]
  | container kind value children loc hvalue hchildren =>
    rw [scripts, List.pairwise_append]
    refine ⟨?_, scriptsOfChildren_pairwise hchildren 0, ?_⟩
    · cases value with
      | none => simp [scriptsOfValue]
      | some m => exact (hvalue m rfl).map _ fun _ _ hab => .cons hab
    · intro a ha b hb
      obtain ⟨a', -, rfl⟩ := List.mem_map.1 ha
      obtain ⟨i, m, b', -, -, rfl⟩ := mem_scriptsOfChildren.1 hb
      refine .rel ?_
      simp only [Edge.rank]
      omega

/-! ## Walks -/

/-- A visit of the script at an address below a node. The node lies at `depth` and has `preceding`
before it. -/
structure VisitAt (n : Node) (depth : Nat) (preceding : List Node) (a : Address) (v : Visit) :
    Prop where
  script : n.at? a = some (.script v.kind v.code v.loc)
  depth_eq : v.depth = depth + a.length
  preceding_eq : v.preceding = if a = [] then preceding else n.siblingsBefore a

theorem VisitAt.cons {n m : Node} {depth : Nat} {preceding : List Node} {e : Edge} {a : Address}
    {v : Visit} (hm : n.below? e = some m) (h : m.VisitAt (depth + 1) (n.siblingsBefore [e]) a v) :
    n.VisitAt depth preceding (e :: a) v where
  script := by rw [at?_cons, hm, Option.bind_some, h.script]
  depth_eq := by
    rw [h.depth_eq, List.length_cons]
    omega
  preceding_eq := by
    rw [h.preceding_eq, if_neg (List.cons_ne_nil e a)]
    split
    · next ha => rw [ha]
    · next ha => rw [siblingsBefore_cons hm ha]

theorem visitsOfChildren_visitAt {n : Node} {depth : Nat} {preceding done rest : List Node}
    (hn : n.children = done ++ rest)
    (h : ∀ m ∈ rest, ∀ depth preceding,
      List.Forall₂ (m.VisitAt depth preceding) m.scripts (m.visits depth preceding)) :
    List.Forall₂ (n.VisitAt depth preceding) (scriptsOfChildren done.length rest)
      (visitsOfChildren (depth + 1) done rest) := by
  induction rest generalizing done with
  | nil => exact .nil
  | cons m rest ih =>
    rw [scriptsOfChildren, visitsOfChildren]
    have hm : n.below? (.child done.length) = some m := by simp [below?, hn]
    have hbefore : n.siblingsBefore [.child done.length] = done := by
      have hchild := n.siblingsBefore_child [] done.length
      simpa [at?, hn] using hchild
    refine List.rel_append ?_ ?_
    · refine List.forall₂_map_left_iff.2 ((h m List.mem_cons_self _ _).imp fun a v hv => ?_)
      rw [← hbefore] at hv
      exact hv.cons hm
    · have hrest := @ih (done ++ [m]) (by simp [hn]) fun m' hm' => h m' (List.mem_cons_of_mem m hm')
      simpa using hrest

theorem visits_visitAt (n : Node) (depth : Nat) (preceding : List Node) :
    List.Forall₂ (n.VisitAt depth preceding) n.scripts (n.visits depth preceding) := by
  induction n using tree_induction generalizing depth preceding with
  | script kind code loc => exact .cons ⟨rfl, rfl, rfl⟩ .nil
  | comment text loc => exact .nil
  | container kind value children loc hvalue hchildren =>
    rw [scripts, visits]
    refine List.rel_append ?_ ?_
    · cases value with
      | none => exact .nil
      | some m =>
        refine List.forall₂_map_left_iff.2 ((hvalue m rfl (depth + 1) []).imp fun a v hv => ?_)
        exact VisitAt.cons (m := m) rfl hv
    · exact @visitsOfChildren_visitAt _ _ _ [] _ rfl hchildren

theorem flatMap_childFrames (depth : Nat) (preceding children : List Node) :
    ((childFrames depth preceding children).flatMap fun f => f.node.visits f.depth f.preceding) =
      visitsOfChildren depth preceding children := by
  induction children generalizing preceding with
  | nil => rfl
  | cons n rest ih => rw [childFrames, List.flatMap_cons, ih, visitsOfChildren]

theorem flatMap_framesBelow {f : Frame} (h : ∀ kind code loc, f.node ≠ .script kind code loc) :
    ((framesBelow f).flatMap fun g => g.node.visits g.depth g.preceding) =
      f.node.visits f.depth f.preceding := by
  obtain ⟨n, depth, preceding⟩ := f
  rw [framesBelow, List.flatMap_append, flatMap_childFrames]
  cases n with
  | script kind code loc => exact absurd rfl (h kind code loc)
  | comment text loc => rfl
  | container kind value children loc =>
    cases value with
    | none => rfl
    | some m => simp [valueFrames, Node.value, Node.children, visits, visitsOfValue]

theorem walkStack_eq_flatMap (stack : List Frame) :
    walkStack stack = stack.flatMap fun f => f.node.visits f.depth f.preceding := by
  fun_induction walkStack stack with
  | case1 => rfl
  | case2 f rest kind code loc hnode ih =>
    rw [ih, List.flatMap_cons, hnode]
    rfl
  | case3 f rest hnode ih =>
    rw [ih, List.flatMap_append, flatMap_framesBelow hnode, List.flatMap_cons]

theorem walk_eq_visits (root : Node) : root.walk = root.visits 0 [] := by
  rw [walk, walkStack_eq_flatMap]
  exact List.flatMap_singleton _ _

/-- A walk comes by the scripts of a tree in document order. -/
theorem walk_visitAt (root : Node) : List.Forall₂ (root.VisitAt 0 []) root.scripts root.walk := by
  rw [walk_eq_visits]
  exact visits_visitAt root 0 []

end Node
end Inlay
