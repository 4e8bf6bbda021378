import Inlay.Proofs.Decoding

/-! What the nodes of a tree that is read from a text say of it. The node at an address has the kind
of the value at this address in the text, its location if all its numbers are there and in order,
and its script or comment text. A node of any other kind has one child for each child in the text,
in their order, and a nested value where the text has one that can be read. -/

namespace Inlay

namespace Json

/-! ## What a text says of a node -/

end Json

namespace TreeWire

/-! ## Records -/

section Parts

variable {α : Type} {readers : List (String × (Json → Option (Option α)))} {j : Json}
  {ps : List (Option α)}

end Parts

/-! ## Locations -/

/-- A reader takes from a value what the value says, and null says nothing. -/
structure Reads {α : Type} (read : Json → Option (Option α)) (Says : Json → α → Prop) : Prop where
  null : ∀ a, ¬ Says .null a
  other : ∀ v x, v ≠ .null → read v = some x → ∀ a, x = some a ↔ Says v a

theorem part?_of_ne_null {α : Type} {read : Json → Option (Option α)} {v : Json} (h : v ≠ .null) :
    part? read (some v) = read v := by
  cases v with
  | null => exact absurd rfl h
  | _ => rfl

theorem Reads.part? {α : Type} {read : Json → Option (Option α)} {Says : Json → α → Prop}
    (h : Reads read Says) {o : Option Json} {x : Option α} (hx : part? read o = some x) (a : α) :
    x = some a ↔ ∃ v ∈ o, Says v a := by
  cases o with
  | none =>
    obtain rfl := Option.some.inj hx
    simp
  | some v =>
    by_cases hv : v = .null
    · subst hv
      obtain rfl := Option.some.inj hx
      simp [h.null]
    · rw [part?_of_ne_null hv] at hx
      simp [h.other v x hv hx a]

namespace Draft

variable (d : Draft) (kind : String)

end Draft

variable {j : Json} {n : Node}

end TreeWire
end Inlay
