import Inlay.Config.Schema
import Inlay.Proofs.FieldOrder
import Inlay.Proofs.Outcomes

/-! What a schema accepts. The check looks at a value part by part and stops at the first fault; it
finds none exactly when every part of the value is as the schema says. -/

namespace Inlay

namespace Schema

/-- The value is as the schema says. -/
inductive Accepts : Schema → Json → Prop
  | string {minLength : Nat} {s : String} (hlength : minLength ≤ s.length) :
      Accepts (.string minLength) (.str s)
  | boolean (b : Bool) : Accepts .boolean (.bool b)
  | integer {minimum : Int} {n : Number} (hwhole : n.isWhole = true)
      (hminimum : n.isBelow minimum = false) : Accepts (.integer minimum) (.num n)
  | oneOf {names : List String} {s : String} (hs : s ∈ names) : Accepts (.oneOf names) (.str s)
  | array {items : Schema} {js : List Json} (hjs : ∀ j ∈ js, Accepts items j) :
      Accepts (.array items) (.arr js)
  | object {fields : List (String × Schema)} {required : List String} {given : Json.Fields}
      (hknown : ∀ f ∈ given, (fields.lookup f.1).isSome)
      (hvalues : ∀ f ∈ given, ∀ s, fields.lookup f.1 = some s → Accepts s f.2)
      (hrequired : ∀ name ∈ required, (given.lookup name).isSome) :
      Accepts (.object fields required) (.obj given)

theorem inStep_eq_ok_iff {step : String} {r : Except Violation Unit} :
    inStep step r = .ok () ↔ r = .ok () := by
  cases r <;> simp [inStep]

theorem checkItems_eq_ok_iff {items : Schema} {js : List Json} (index : Nat) :
    checkItems items index js = .ok () ↔ ∀ j ∈ js, check items j = .ok () := by
  induction js generalizing index with
  | nil => simp [checkItems]
  | cons j js ih =>
    simp only [checkItems, bind_eq_ok_iff, Unique.exists_iff, inStep_eq_ok_iff, ih,
      List.forall_mem_cons, PUnit.default_eq_unit]

theorem checkFields_eq_ok_iff {fields : List (String × Schema)} {given : Json.Fields} :
    checkFields fields given = .ok () ↔
      ∀ f ∈ given, ∃ s, fields.lookup f.1 = some s ∧ check s f.2 = .ok () := by
  induction given with
  | nil => simp [checkFields]
  | cons f given ih =>
    rw [checkFields, List.forall_mem_cons, ← ih]
    cases fields.lookup f.1 with
    | none => simp [fail, bind, Except.bind]
    | some s =>
      simp only [bind_eq_ok_iff, Unique.exists_iff, PUnit.default_eq_unit, inStep_eq_ok_iff,
        Option.some.injEq, exists_eq_left']

/-! ## One schema at a time -/

@[simp] theorem accepts_string_iff {n : Nat} {j : Json} :
    Accepts (.string n) j ↔ ∃ s, j = .str s ∧ n ≤ s.length := by
  constructor
  · intro h
    cases h with
    | string hlength => exact ⟨_, rfl, hlength⟩
  · rintro ⟨s, rfl, hlength⟩
    exact .string hlength

@[simp] theorem accepts_boolean_iff {j : Json} : Accepts .boolean j ↔ ∃ b, j = .bool b := by
  constructor
  · intro h
    cases h with
    | boolean b => exact ⟨b, rfl⟩
  · rintro ⟨b, rfl⟩
    exact .boolean b

@[simp] theorem accepts_integer_iff {m : Int} {j : Json} :
    Accepts (.integer m) j ↔ ∃ n, j = .num n ∧ n.isWhole = true ∧ n.isBelow m = false := by
  constructor
  · intro h
    cases h with
    | integer hwhole hminimum => exact ⟨_, rfl, hwhole, hminimum⟩
  · rintro ⟨n, rfl, hwhole, hminimum⟩
    exact .integer hwhole hminimum

@[simp] theorem accepts_oneOf_iff {names : List String} {j : Json} :
    Accepts (.oneOf names) j ↔ ∃ s, j = .str s ∧ s ∈ names := by
  constructor
  · intro h
    cases h with
    | oneOf hs => exact ⟨_, rfl, hs⟩
  · rintro ⟨s, rfl, hs⟩
    exact .oneOf hs

@[simp] theorem accepts_array_iff {items : Schema} {j : Json} :
    Accepts (.array items) j ↔ ∃ js, j = .arr js ∧ ∀ k ∈ js, Accepts items k := by
  constructor
  · intro h
    cases h with
    | array hjs => exact ⟨_, rfl, hjs⟩
  · rintro ⟨js, rfl, hjs⟩
    exact .array hjs

@[simp] theorem accepts_object_iff {fields : List (String × Schema)} {required : List String}
    {j : Json} :
    Accepts (.object fields required) j ↔ ∃ given : Json.Fields, j = .obj given ∧
      (∀ f ∈ given, ∃ s, fields.lookup f.1 = some s ∧ Accepts s f.2) ∧
      ∀ name ∈ required, (given.lookup name).isSome := by
  constructor
  · intro h
    cases h with
    | object hknown hvalues hrequired =>
      refine ⟨_, rfl, fun f hf => ?_, hrequired⟩
      obtain ⟨s, hs⟩ := Option.isSome_iff_exists.1 (hknown f hf)
      exact ⟨s, hs, hvalues f hf s hs⟩
  · rintro ⟨given, rfl, hfields, hrequired⟩
    refine .object (fun f hf => ?_) (fun f hf s hs => ?_) hrequired
    · obtain ⟨s, hs, -⟩ := hfields f hf
      rw [hs, Option.isSome_some]
    · obtain ⟨t, ht, haccepts⟩ := hfields f hf
      rw [hs, Option.some.injEq] at ht
      exact ht ▸ haccepts

theorem check_object_eq_ok_iff {fields : List (String × Schema)} {required : List String}
    {given : Json.Fields} :
    check (.object fields required) (.obj given) = .ok () ↔
      checkFields fields given = .ok () ∧ ∀ name ∈ required, (given.lookup name).isSome := by
  simp only [check, bind_eq_ok_iff, Unique.exists_iff, PUnit.default_eq_unit]
  refine and_congr_right fun _ => ?_
  cases hmissing : required.find? fun name => (given.lookup name).isNone with
  | none =>
    have hnone := List.find?_eq_none.1 hmissing
    simpa [Option.isSome_iff_ne_none] using hnone
  | some name =>
    have hname := List.find?_some hmissing
    have hmem := List.mem_of_find?_eq_some hmissing
    have hnot : ¬ ∀ name ∈ required, (given.lookup name).isSome = true := by
      intro hall
      have hsome := hall name hmem
      rw [Option.isNone_iff_eq_none.1 hname] at hsome
      cases hsome
    simp only [fail, reduceCtorEq, hnot]

/-- The check finds no fault exactly in what the schema accepts. -/
theorem check_eq_ok_iff {s : Schema} {j : Json} : check s j = .ok () ↔ Accepts s j := by
  -- the schema of a part changes on the way down, so the induction is on the value
  induction j using Json.value_induction generalizing s with
  | num n =>
    cases s with
    | integer m =>
      cases hwhole : n.isWhole <;> cases hbelow : n.isBelow m <;>
        simp [check, fail, hwhole, hbelow]
    | _ => simp [check, fail]
  | arr js ih =>
    cases s with
    | array items =>
      rw [check, checkItems_eq_ok_iff, accepts_array_iff]
      simp only [Json.arr.injEq, exists_eq_left']
      exact forall₂_congr fun j hj => ih j hj
    | _ => simp [check, fail]
  | obj given ih =>
    cases s with
    | object fields required =>
      rw [check_object_eq_ok_iff, checkFields_eq_ok_iff, accepts_object_iff]
      simp only [Json.obj.injEq, exists_eq_left']
      refine and_congr_left fun _ => forall₂_congr fun f hf => ?_
      simp only [ih f hf]
    | _ => simp [check, fail]
  | _ => cases s <;> simp [check, fail]

end Schema
end Inlay
