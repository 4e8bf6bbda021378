import Mathlib.Data.List.Induction
import Mathlib.Data.List.Nodup
import Inlay.Json.Basic

/-! Canonical values. Sorting the fields of an object by name keeps, of several fields with one
name, the last. A list that is sorted already stays as it is, and a sorted list is told by what can
be looked up in it. So a value has one canonical form, in which no object has a name twice, and
without repeated names nothing is lost on the way there. -/

namespace Inlay
namespace Json

/-! ## Values inside a value -/

@[elab_as_elim]
theorem value_induction {P : Json → Prop} (null : P .null) (bool : ∀ b, P (.bool b))
    (num : ∀ n, P (.num n)) (str : ∀ s, P (.str s))
    (arr : ∀ items, (∀ j ∈ items, P j) → P (.arr items))
    (obj : ∀ fields : Fields, (∀ f ∈ fields, P f.2) → P (.obj fields)) (j : Json) : P j := by
  induction h : sizeOf j using Nat.strongRecOn generalizing j with
  | ind n ih =>
    subst h
    cases j with
    | null => exact null
    | bool b => exact bool b
    | num n => exact num n
    | str s => exact str s
    | arr items =>
      refine arr items fun j hj => ih (sizeOf j) ?_ j rfl
      have hlt := List.sizeOf_lt_of_mem hj
      simp only [Json.arr.sizeOf_spec]
      omega
    | obj fields =>
      refine obj fields fun f hf => ih (sizeOf f.2) ?_ f.2 rfl
      have hlt := List.sizeOf_lt_of_mem hf
      obtain ⟨name, j⟩ := f
      simp only [Json.obj.sizeOf_spec, Prod.mk.sizeOf_spec] at hlt ⊢
      omega

/-- The first value is the second or stands somewhere in it. -/
inductive Inside : Json → Json → Prop
  | self (j : Json) : Inside j j
  | item {k j : Json} {items : List Json} (hj : j ∈ items) (hk : Inside k j) :
      Inside k (.arr items)
  | field {k : Json} {f : String × Json} {fields : Fields} (hf : f ∈ fields)
      (hk : Inside k f.2) : Inside k (.obj fields)

theorem forall_inside_arr {P : Json → Prop} {items : List Json} :
    (∀ k, Inside k (.arr items) → P k) ↔ P (.arr items) ∧ ∀ j ∈ items, ∀ k, Inside k j → P k := by
  constructor
  · intro h
    exact ⟨h _ (.self _), fun j hj k hk => h k (.item hj hk)⟩
  · rintro ⟨hself, hitems⟩ k hk
    cases hk with
    | self => exact hself
    | item hj hk => exact hitems _ hj k hk

theorem forall_inside_obj {P : Json → Prop} {fields : Fields} :
    (∀ k, Inside k (.obj fields) → P k) ↔
      P (.obj fields) ∧ ∀ f ∈ fields, ∀ k, Inside k f.2 → P k := by
  constructor
  · intro h
    exact ⟨h _ (.self _), fun f hf k hk => h k (.field hf hk)⟩
  · rintro ⟨hself, hfields⟩ k hk
    cases hk with
    | self => exact hself
    | field hf hk => exact hfields _ hf k hk

/-- No name stands twice. -/
def NamesDistinct : Json → Prop
  | .obj fields => (fields.map (·.1)).Nodup
  | _ => True

/-- No object has a name twice. -/
def HasDistinctNames (j : Json) : Prop := ∀ k, Inside k j → k.NamesDistinct

@[simp] theorem hasDistinctNames_null : null.HasDistinctNames := by
  intro k hk
  cases hk
  trivial

@[simp] theorem hasDistinctNames_bool (b : Bool) : (bool b).HasDistinctNames := by
  intro k hk
  cases hk
  trivial

@[simp] theorem hasDistinctNames_num (n : Number) : (num n).HasDistinctNames := by
  intro k hk
  cases hk
  trivial

@[simp] theorem hasDistinctNames_str (s : String) : (str s).HasDistinctNames := by
  intro k hk
  cases hk
  trivial

theorem hasDistinctNames_arr_iff {items : List Json} :
    (arr items).HasDistinctNames ↔ ∀ j ∈ items, j.HasDistinctNames := by
  simp [HasDistinctNames, forall_inside_arr, NamesDistinct]

theorem hasDistinctNames_obj_iff {fields : Fields} :
    (obj fields).HasDistinctNames ↔
      (fields.map (·.1)).Nodup ∧ ∀ f ∈ fields, f.2.HasDistinctNames := by
  simp [HasDistinctNames, forall_inside_obj, NamesDistinct]

/-! ## Sorted fields -/

def Sorted (fields : Fields) : Prop := fields.Pairwise (·.1 < ·.1)

section Fields

variable {fields : Fields} {name : String} {value : Json}

theorem lookup_cons_ite (f : String × Json) (name : String) :
    List.lookup name (f :: fields) = if name = f.1 then some f.2 else fields.lookup name := by
  rw [List.lookup_cons]
  by_cases h : name = f.1
  · simp [h]
  · rw [if_neg h, beq_eq_false_iff_ne.2 h]

theorem Sorted.nodup (h : Sorted fields) : (fields.map (·.1)).Nodup := by
  refine List.pairwise_map.2 (h.imp ?_)
  intro f g hlt heq
  rw [heq] at hlt
  exact String.lt_irrefl _ hlt

theorem mem_setField {f : String × Json} (h : f ∈ setField name value fields) :
    f = (name, value) ∨ f ∈ fields := by
  induction fields with
  | nil => exact Or.inl (List.mem_singleton.1 h)
  | cons g fields ih =>
    rw [setField] at h
    split at h
    · exact List.mem_cons.1 h
    · split at h
      · exact (List.mem_cons.1 h).imp id (List.mem_cons_of_mem _)
      · rcases List.mem_cons.1 h with rfl | h
        · exact Or.inr List.mem_cons_self
        · exact (ih h).imp id (List.mem_cons_of_mem _)

theorem sorted_setField (h : Sorted fields) : Sorted (setField name value fields) := by
  induction fields with
  | nil => exact List.pairwise_singleton _ _
  | cons g fields ih =>
    obtain ⟨hg, hrest⟩ := List.pairwise_cons.1 h
    rw [setField]
    split
    · next hlt =>
      refine List.pairwise_cons.2 ⟨?_, h⟩
      intro f hf
      rcases List.mem_cons.1 hf with rfl | hf
      · exact hlt
      · exact String.lt_trans hlt (hg f hf)
    · next hnlt =>
      split
      · next heq => exact List.pairwise_cons.2 ⟨fun f hf => by simpa [heq] using hg f hf, hrest⟩
      · next hne =>
        refine List.pairwise_cons.2 ⟨?_, ih hrest⟩
        intro f hf
        rcases mem_setField hf with rfl | hf
        · exact Std.lt_of_le_of_ne (String.not_lt.1 hnlt) (Ne.symm hne)
        · exact hg f hf

theorem setField_of_lt (h : ∀ f ∈ fields, f.1 < name) :
    setField name value fields = fields ++ [(name, value)] := by
  induction fields with
  | nil => rfl
  | cons g fields ih =>
    obtain ⟨hg, hrest⟩ := List.forall_mem_cons.1 h
    have hne : name ≠ g.1 := by
      rintro rfl
      exact String.lt_irrefl _ hg
    rw [setField, if_neg (String.lt_asymm hg), if_neg hne, ih hrest, List.cons_append]

theorem lookup_setField (other : String) :
    (setField name value fields).lookup other =
      if other = name then some value else fields.lookup other := by
  induction fields with
  | nil => by_cases h : other = name <;> simp [setField, h]
  | cons g fields ih =>
    rw [setField]
    split
    · rw [lookup_cons_ite]
    · split
      · next heq =>
        rw [lookup_cons_ite, lookup_cons_ite, heq]
        split <;> rfl
      · next hne =>
        rw [lookup_cons_ite, lookup_cons_ite, ih]
        by_cases h : other = g.1
        · rw [if_pos h, if_pos h, if_neg (h ▸ Ne.symm hne)]
        · rw [if_neg h, if_neg h]

theorem sortFields_concat (f : String × Json) :
    sortFields (fields ++ [f]) = setField f.1 f.2 (sortFields fields) := by
  simp [sortFields]

theorem sorted_sortFields (fields : Fields) : Sorted (sortFields fields) := by
  induction fields using List.reverseRecOn with
  | nil => exact .nil
  | append_singleton fields f ih =>
    rw [sortFields_concat]
    exact sorted_setField ih

theorem mem_of_mem_sortFields {f : String × Json} (h : f ∈ sortFields fields) : f ∈ fields := by
  induction fields using List.reverseRecOn with
  | nil => cases h
  | append_singleton fields g ih =>
    rw [sortFields_concat] at h
    rcases mem_setField h with rfl | h
    · simp
    · exact List.mem_append_left _ (ih h)

theorem sortFields_of_sorted (h : Sorted fields) : sortFields fields = fields := by
  induction fields using List.reverseRecOn with
  | nil => rfl
  | append_singleton fields f ih =>
    obtain ⟨hfields, -, hlast⟩ := List.pairwise_append.1 h
    rw [sortFields_concat, ih hfields]
    exact setField_of_lt fun g hg => hlast g hg f (List.mem_singleton.2 rfl)

/-- Of several fields with one name the last wins. -/
theorem lookup_sortFields (name : String) :
    (sortFields fields).lookup name = fields.reverse.lookup name := by
  induction fields using List.reverseRecOn with
  | nil => rfl
  | append_singleton fields f ih =>
    rw [sortFields_concat, lookup_setField, ih, List.reverse_append, List.reverse_singleton,
      List.singleton_append, lookup_cons_ite]

theorem lookup_eq_some_iff_of_nodup (h : (fields.map (·.1)).Nodup) :
    fields.lookup name = some value ↔ (name, value) ∈ fields := by
  induction fields with
  | nil => simp
  | cons f fields ih =>
    rw [List.map_cons, List.nodup_cons] at h
    rw [lookup_cons_ite, List.mem_cons, Prod.ext_iff]
    by_cases hn : name = f.1
    · have hnot : (f.1, value) ∉ fields := fun hmem => h.1 (List.mem_map.2 ⟨_, hmem, rfl⟩)
      simp [hn, hnot, eq_comm]
    · simp [hn, ih h.2]

theorem lookup_reverse_of_nodup (h : (fields.map (·.1)).Nodup) (name : String) :
    fields.reverse.lookup name = fields.lookup name := by
  have hreverse : (fields.reverse.map (·.1)).Nodup := by
    rw [List.map_reverse]
    exact List.nodup_reverse.2 h
  refine Option.ext fun value => ?_
  rw [lookup_eq_some_iff_of_nodup hreverse, lookup_eq_some_iff_of_nodup h, List.mem_reverse]

/-- A sorted list is told by what can be looked up in it. -/
theorem Sorted.ext {others : Fields} (h : Sorted fields) (h' : Sorted others)
    (heq : ∀ name, fields.lookup name = others.lookup name) : fields = others := by
  refine List.Perm.eq_of_pairwise (fun f g _ _ hfg hgf => absurd hgf (String.lt_asymm hfg)) h h' ?_
  refine (List.perm_ext_iff_of_nodup (.of_map _ h.nodup) (.of_map _ h'.nodup)).2 ?_
  rintro ⟨name, value⟩
  rw [← lookup_eq_some_iff_of_nodup h.nodup, ← lookup_eq_some_iff_of_nodup h'.nodup, heq]

theorem lookup_filter_names (p : String → Bool) (name : String) :
    (fields.filter fun f => p f.1).lookup name = if p name then fields.lookup name else none := by
  induction fields with
  | nil => simp
  | cons f fields ih =>
    rw [List.filter_cons, lookup_cons_ite]
    by_cases hn : name = f.1
    · subst hn
      by_cases hp : p f.1
      · rw [if_pos hp, if_pos hp, lookup_cons_ite, if_pos rfl, if_pos rfl]
      · rw [if_neg hp, if_neg hp, ih, if_neg hp]
    · rw [if_neg hn, ← ih]
      split
      · rw [lookup_cons_ite, if_neg hn]
      · rfl

theorem lookup_map_snd (g : Json → Json) (name : String) :
    (fields.map fun f => (f.1, g f.2)).lookup name = (fields.lookup name).map g := by
  induction fields with
  | nil => rfl
  | cons f fields ih =>
    rw [List.map_cons, List.lookup_cons, List.lookup_cons, ih]
    split <;> rfl

end Fields

/-! ## Canonical form -/

theorem canonicalItems_eq_map (items : List Json) : canonicalItems items = items.map canonical := by
  induction items with
  | nil => rfl
  | cons j items ih => rw [canonicalItems, ih, List.map_cons]

theorem canonicalFields_eq_map (fields : Fields) :
    canonicalFields fields = fields.map fun f => (f.1, f.2.canonical) := by
  induction fields with
  | nil => rfl
  | cons f fields ih => rw [canonicalFields, ih, List.map_cons]

theorem canonical_arr (items : List Json) :
    (arr items).canonical = .arr (items.map canonical) := by
  rw [canonical, canonicalItems_eq_map]

theorem canonical_obj (fields : Fields) :
    (obj fields).canonical = .obj (sortFields (canonicalFields fields)) := by
  rw [canonical]

theorem map_fst_canonicalFields (fields : Fields) :
    (canonicalFields fields).map (·.1) = fields.map (·.1) := by
  simp [canonicalFields_eq_map]

/-- In an object without repeated names the canonical form has the canonical form of each field. -/
theorem lookup_canonical {fields : Fields} (h : (fields.map (·.1)).Nodup) (name : String) :
    (sortFields (canonicalFields fields)).lookup name = (fields.lookup name).map canonical := by
  rw [lookup_sortFields, lookup_reverse_of_nodup (by rwa [map_fst_canonicalFields]),
    canonicalFields_eq_map, lookup_map_snd]

theorem canonicalFields_of_canonical {fields : Fields}
    (h : ∀ f ∈ fields, f.2.canonical = f.2) : canonicalFields fields = fields := by
  rw [canonicalFields_eq_map]
  conv_rhs => rw [← List.map_id fields]
  exact List.map_congr_left fun f hf => Prod.ext rfl (h f hf)

theorem canonical_obj_of_sorted {fields : Fields} (hsorted : Sorted fields)
    (h : ∀ f ∈ fields, f.2.canonical = f.2) : (obj fields).canonical = obj fields := by
  rw [canonical_obj, canonicalFields_of_canonical h, sortFields_of_sorted hsorted]

theorem exists_of_mem_canonical {fields : Fields} {f : String × Json}
    (h : f ∈ sortFields (canonicalFields fields)) :
    ∃ g ∈ fields, f = (g.1, g.2.canonical) := by
  have hmem := mem_of_mem_sortFields h
  rw [canonicalFields_eq_map] at hmem
  obtain ⟨g, hg, rfl⟩ := List.mem_map.1 hmem
  exact ⟨g, hg, rfl⟩

theorem canonical_canonical (j : Json) : j.canonical.canonical = j.canonical := by
  induction j using value_induction with
  | arr items ih =>
    rw [canonical_arr, canonical_arr, List.map_map]
    exact congrArg arr (List.map_congr_left ih)
  | obj fields ih =>
    rw [canonical_obj]
    refine canonical_obj_of_sorted (sorted_sortFields _) fun f hf => ?_
    obtain ⟨g, hg, rfl⟩ := exists_of_mem_canonical hf
    exact ih g hg
  | _ => rfl

theorem hasDistinctNames_canonical (j : Json) : j.canonical.HasDistinctNames := by
  induction j using value_induction with
  | arr items ih =>
    rw [canonical_arr, hasDistinctNames_arr_iff]
    intro j hj
    obtain ⟨k, hk, rfl⟩ := List.mem_map.1 hj
    exact ih k hk
  | obj fields ih =>
    rw [canonical_obj, hasDistinctNames_obj_iff]
    refine ⟨(sorted_sortFields _).nodup, ?_⟩
    intro f hf
    obtain ⟨g, hg, rfl⟩ := exists_of_mem_canonical hf
    exact ih g hg
  | _ => simp [canonical]

/-- The first value is the second with the fields of its objects in some order, no name twice. -/
def IsReordering (k j : Json) : Prop := k.HasDistinctNames ∧ k.canonical = j.canonical

theorem isReordering_canonical (j : Json) : IsReordering j.canonical j :=
  ⟨hasDistinctNames_canonical j, canonical_canonical j⟩

end Json
end Inlay
