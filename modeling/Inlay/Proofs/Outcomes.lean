import Mathlib.Data.List.Forall2

/-! Results that may be errors or missing, and lists of them. A run over a list gives a result for
each element, or stops at the first that has none. -/

namespace Inlay

variable {ε α β : Type}

/-! ## One result -/

theorem map_eq_ok_iff {f : α → β} {x : Except ε α} {b : β} :
    x.map f = .ok b ↔ ∃ a, x = .ok a ∧ f a = b := by
  cases x <;> simp [Except.map]

theorem bind_eq_ok_iff {x : Except ε α} {f : α → Except ε β} {b : β} :
    (x >>= f) = .ok b ↔ ∃ a, x = .ok a ∧ f a = .ok b := by
  cases x <;> simp [bind, Except.bind]

theorem map_eq_error_iff {f : α → β} {x : Except ε α} {e : ε} :
    x.map f = .error e ↔ x = .error e := by
  cases x <;> simp [Except.map]

theorem bind_eq_error_iff {x : Except ε α} {f : α → Except ε β} {e : ε} :
    (x >>= f) = .error e ↔ x = .error e ∨ ∃ a, x = .ok a ∧ f a = .error e := by
  cases x <;> simp [bind, Except.bind]

/-! ## Related lists -/

theorem exists_right_of_forall₂ {R : α → β → Prop} {xs : List α} {ys : List β}
    (h : List.Forall₂ R xs ys) {x : α} (hx : x ∈ xs) : ∃ y ∈ ys, R x y := by
  induction h with
  | nil => simp at hx
  | @cons a b as bs hab _ ih =>
    rcases List.mem_cons.1 hx with rfl | hx
    · exact ⟨b, List.mem_cons_self, hab⟩
    · obtain ⟨y, hy, hxy⟩ := ih hx
      exact ⟨y, List.mem_cons_of_mem b hy, hxy⟩

theorem exists_left_of_forall₂ {R : α → β → Prop} {xs : List α} {ys : List β}
    (h : List.Forall₂ R xs ys) {y : β} (hy : y ∈ ys) : ∃ x ∈ xs, R x y :=
  exists_right_of_forall₂ (List.Forall₂.flip h) hy

/-! ## Lists of results -/

theorem mapM_eq_ok_iff {f : α → Except ε β} {xs : List α} {ys : List β} :
    xs.mapM f = .ok ys ↔ List.Forall₂ (fun x y => f x = .ok y) xs ys := by
  induction xs generalizing ys with
  | nil => simp [pure, Except.pure, eq_comm]
  | cons x xs ih =>
    rw [List.mapM_cons]
    cases hx : f x with
    | error e => simp [bind, Except.bind, List.forall₂_cons_left_iff, hx]
    | ok y =>
      cases hxs : xs.mapM f with
      | error e =>
        have hnot : ∀ zs, ¬ List.Forall₂ (fun x y => f x = .ok y) xs zs := fun zs hzs => by
          rw [ih.2 hzs] at hxs
          cases hxs
        simp [bind, Except.bind, List.forall₂_cons_left_iff, hx, hnot]
      | ok zs =>
        have hzs : ∀ ws, List.Forall₂ (fun x y => f x = .ok y) xs ws ↔ zs = ws := fun ws => by
          rw [← ih, hxs, Except.ok.injEq]
        simp [bind, Except.bind, pure, Except.pure, List.forall₂_cons_left_iff, hx, hzs, eq_comm]

theorem mem_mapM {f : α → Except ε β} {xs : List α} {ys : List β}
    (h : xs.mapM f = .ok ys) {y : β} : y ∈ ys ↔ ∃ x ∈ xs, f x = .ok y := by
  have hall := mapM_eq_ok_iff.1 h
  clear h
  induction hall with
  | nil => simp
  | cons hx _ ih => simp [ih, hx, eq_comm]

theorem exists_of_mapM {f : α → Except ε β} {xs : List α} {ys : List β}
    (h : xs.mapM f = .ok ys) {x : α} (hx : x ∈ xs) : ∃ y ∈ ys, f x = .ok y :=
  exists_right_of_forall₂ (mapM_eq_ok_iff.1 h) hx

/-- Where a stage has one fault only, a run over a list fails with it exactly when some element of
the list does. -/
theorem mapM_eq_error_iff {f : α → Except ε β} {fault : ε} {P : α → Prop}
    (h : ∀ x e, f x = .error e ↔ e = fault ∧ P x) {xs : List α} {e : ε} :
    xs.mapM f = .error e ↔ e = fault ∧ ∃ x ∈ xs, P x := by
  induction xs with
  | nil => simp [pure, Except.pure]
  | cons x xs ih =>
    rw [List.mapM_cons, bind_eq_error_iff, h]
    by_cases hx : P x
    · have hnot : ∀ y, f x ≠ .ok y := by
        intro y hy
        rw [(h x fault).2 ⟨rfl, hx⟩] at hy
        cases hy
      simp [hx, hnot]
    · have hok : ∃ y, f x = .ok y := by
        cases hfx : f x with
        | ok y => exact ⟨y, rfl⟩
        | error e' => exact absurd ((h x e').1 hfx).2 hx
      simp [hx, hok, bind_eq_error_iff, ih, pure, Except.pure]

/-- A stage that may leave things out, on one thing more. -/
theorem mapM_filterMap_cons {f : α → Except ε (Option β)} {x : α} {xs : List α}
    {r : Option β} {ys : List β} (hx : f x = .ok r)
    (hxs : (xs.mapM f).map (·.filterMap id) = .ok ys) :
    ((x :: xs).mapM f).map (·.filterMap id) = .ok (r.toList ++ ys) := by
  obtain ⟨results, hresults, rfl⟩ := map_eq_ok_iff.1 hxs
  refine map_eq_ok_iff.2 ⟨r :: results, mapM_eq_ok_iff.2 (.cons hx (mapM_eq_ok_iff.1 hresults)), ?_⟩
  cases r <;> simp

theorem mapM_toOption {f : α → Except ε β} {g : α → Option β} {xs : List α}
    (h : ∀ x ∈ xs, g x = (f x).toOption) : xs.mapM g = (xs.mapM f).toOption := by
  induction xs with
  | nil => rfl
  | cons x xs ih =>
    rw [List.mapM_cons, List.mapM_cons, h x List.mem_cons_self,
      ih fun y hy => h y (List.mem_cons_of_mem x hy)]
    cases f x with
    | error e => rfl
    | ok y => cases xs.mapM f <;> rfl

/-! ## Lists of values that may be missing -/

theorem option_mapM_eq_some_iff {f : α → Option β} {xs : List α} {ys : List β} :
    xs.mapM f = some ys ↔ xs.map f = ys.map some := by
  induction xs generalizing ys with
  | nil => cases ys <;> simp
  | cons x xs ih =>
    cases ys with
    | nil => simp [List.mapM_cons, Option.bind_eq_some_iff]
    | cons y ys => simp [List.mapM_cons, Option.bind_eq_some_iff, ih]

theorem isSome_mapM_iff {f : α → Option β} {xs : List α} :
    (xs.mapM f).isSome ↔ ∀ x ∈ xs, (f x).isSome := by
  induction xs with
  | nil => simp
  | cons x xs ih =>
    rw [List.mapM_cons, List.forall_mem_cons, ← ih]
    cases f x <;> cases xs.mapM f <;> simp

theorem option_mapM_congr {f g : α → Option β} {xs : List α}
    (h : ∀ x ∈ xs, f x = g x) : xs.mapM f = xs.mapM g := by
  induction xs with
  | nil => rfl
  | cons x xs ih =>
    obtain ⟨hx, hxs⟩ := List.forall_mem_cons.1 h
    rw [List.mapM_cons, List.mapM_cons, hx, ih hxs]

/-! ## Optional values -/

theorem option_mapM_eq_ok_iff {f : α → Except ε β} {o : Option α} {r : Option β} :
    o.mapM f = .ok r ↔ Option.Rel (fun a b => f a = .ok b) o r := by
  cases o with
  | none =>
    constructor
    · intro h
      obtain rfl : none = r := Except.ok.inj h
      exact .none
    · rintro ⟨⟩
      rfl
  | some a =>
    constructor
    · intro h
      obtain ⟨b, hb, rfl⟩ := map_eq_ok_iff.1 h
      exact .some hb
    · rintro (hb | _)
      exact map_eq_ok_iff.2 ⟨_, hb, rfl⟩

theorem exists_option_mapM {f : α → Except ε β} {o : Option α}
    (h : ∀ a ∈ o, ∃ b, f a = .ok b) : ∃ r, o.mapM f = .ok r := by
  cases o with
  | none => exact ⟨none, rfl⟩
  | some a =>
    obtain ⟨b, hb⟩ := h a rfl
    exact ⟨some b, option_mapM_eq_ok_iff.2 (.some hb)⟩

theorem isSome_of_option_mapM {f : α → Except ε β} {o : Option α} {r : Option β}
    (h : o.mapM f = .ok r) : r.isSome = o.isSome := by
  cases option_mapM_eq_ok_iff.1 h with
  | some _ => rfl
  | none => rfl

theorem exists_error_of_option_mapM {f : α → Except ε β} {a? : Option α} {e : ε}
    (h : a?.mapM f = .error e) : ∃ a ∈ a?, f a = .error e := by
  cases a? with
  | none => cases h
  | some a => exact ⟨a, rfl, map_eq_error_iff.1 h⟩

end Inlay
