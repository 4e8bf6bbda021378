import Mathlib.Data.List.Forall2
import Inlay.Tree.Wire

/-! What a tree is read from. Fields that are no part of a node, a location or a position are taken
out of a document before it is read, since nothing but the grammar holds for them. Reading the
document as it stands would give the same tree. -/

namespace Inlay
namespace RawJson

mutual

/-- What can be read of a raw value, at whatever depth. A string or a number that stands for nothing
reads as null, and a field without a readable name is passed over. -/
def view : RawJson → Json
  | .null => .null
  | .bool b => .bool b
  | .number t => ((Number.ofText? t).map .num).getD .null
  | .string t => ((stringOf? t).map .str).getD .null
  | .array items => .arr (viewItems items)
  | .object fields => .obj (viewFields fields)

def viewItems : List RawJson → List Json
  | [] => []
  | r :: rest => view r :: viewItems rest

def viewFields : List (Text × RawJson) → List (String × Json)
  | [] => []
  | (n, r) :: rest =>
    match stringOf? n with
    | some name => (name, view r) :: viewFields rest
    | none => viewFields rest

end

theorem toJson?_array_eq_some_iff {depth : Nat} {items : List RawJson} {j : Json} :
    toJson? depth (.array items) = some j ↔
      depth < maxDepth ∧ ∃ js, itemsToJson? (depth + 1) items = some js ∧ .arr js = j := by
  rw [toJson?]
  split
  · simp [*]
  · simp [*]

theorem toJson?_object_eq_some_iff {depth : Nat} {fields : List (Text × RawJson)} {j : Json} :
    toJson? depth (.object fields) = some j ↔
      depth < maxDepth ∧ ∃ js, fieldsToJson? (depth + 1) fields = some js ∧ .obj js = j := by
  rw [toJson?]
  split
  · simp [*]
  · simp [*]

theorem itemsToJson?_cons_eq_some_iff {depth : Nat} {r : RawJson} {rest : List RawJson}
    {js : List Json} :
    itemsToJson? depth (r :: rest) = some js ↔
      ∃ j js', toJson? depth r = some j ∧ itemsToJson? depth rest = some js' ∧ j :: js' = js := by
  simp [itemsToJson?, Option.bind_eq_some_iff]

theorem fieldsToJson?_cons_eq_some_iff {depth : Nat} {n : Text} {r : RawJson}
    {rest : List (Text × RawJson)} {js : List (String × Json)} :
    fieldsToJson? depth ((n, r) :: rest) = some js ↔
      ∃ name j js', stringOf? n = some name ∧ toJson? depth r = some j ∧
        fieldsToJson? depth rest = some js' ∧ (name, j) :: js' = js := by
  simp [fieldsToJson?, Option.bind_eq_some_iff]

theorem viewItems_eq_map (items : List RawJson) : viewItems items = items.map view := by
  induction items with
  | nil => rfl
  | cons r rest ih => rw [viewItems, ih, List.map_cons]

theorem forall₂_of_itemsToJson? {depth : Nat} {items : List RawJson} {js : List Json}
    (h : itemsToJson? depth items = some js) :
    List.Forall₂ (fun r j => toJson? depth r = some j) items js := by
  induction items generalizing js with
  | nil =>
    obtain rfl : [] = js := by simpa [itemsToJson?] using h
    exact .nil
  | cons r rest ih =>
    obtain ⟨j, js', hj, hjs', rfl⟩ := itemsToJson?_cons_eq_some_iff.1 h
    exact .cons hj (ih hjs')

mutual

/-- What can be read as a whole is read. -/
theorem view_of_toJson? {depth : Nat} {j : Json} :
    ∀ {r : RawJson}, toJson? depth r = some j → r.view = j
  | .null, h => by simpa [toJson?, view] using h
  | .bool b, h => by simpa [toJson?, view] using h
  | .number t, h => by
    rw [toJson?] at h
    rw [view, h, Option.getD_some]
  | .string t, h => by
    rw [toJson?] at h
    rw [view, h, Option.getD_some]
  | .array items, h => by
    obtain ⟨-, js, hjs, rfl⟩ := toJson?_array_eq_some_iff.1 h
    rw [view, viewItems_of_itemsToJson? hjs]
  | .object fields, h => by
    obtain ⟨-, js, hjs, rfl⟩ := toJson?_object_eq_some_iff.1 h
    rw [view, viewFields_of_fieldsToJson? hjs]

theorem viewItems_of_itemsToJson? {depth : Nat} {js : List Json} :
    ∀ {items : List RawJson}, itemsToJson? depth items = some js → viewItems items = js
  | [], h => by simpa [itemsToJson?, viewItems] using h
  | r :: rest, h => by
    obtain ⟨j, js', hj, hjs', rfl⟩ := itemsToJson?_cons_eq_some_iff.1 h
    rw [viewItems, view_of_toJson? hj, viewItems_of_itemsToJson? hjs']

theorem viewFields_of_fieldsToJson? {depth : Nat} {js : List (String × Json)} :
    ∀ {fields : List (Text × RawJson)}, fieldsToJson? depth fields = some js →
      viewFields fields = js
  | [], h => by simpa [fieldsToJson?, viewFields] using h
  | (n, r) :: rest, h => by
    obtain ⟨name, j, js', hname, hj, hjs', rfl⟩ := fieldsToJson?_cons_eq_some_iff.1 h
    rw [viewFields, hname, view_of_toJson? hj, viewFields_of_fieldsToJson? hjs']

end

end RawJson

namespace TreeWire

open RawJson

/-! ## Locations -/

/-- A reader does not look at what is pruned: reading a pruned value is reading what can be read of
the whole. -/
def Ignores {α : Type} (prune : RawJson → RawJson) (read : Json → Option (Option α)) : Prop :=
  ∀ {depth : Nat} {r : RawJson} {j : Json}, toJson? depth (prune r) = some j →
    part? read (some j) = part? read (some r.view)

theorem ignores_id {α : Type} (read : Json → Option (Option α)) : Ignores id read := by
  intro depth r j h
  rw [← view_of_toJson? h, id]

theorem pruneNamed_cons (keep : List (String × (RawJson → RawJson))) (n : Text) (r : RawJson)
    (rest : List (Text × RawJson)) :
    pruneNamed keep ((n, r) :: rest) =
      (n, (((stringOf? n).bind fun name => keep.lookup name).map (· r)).getD .null) ::
        pruneNamed keep rest := by
  rw [pruneNamed, List.map_cons]
  congr 1
  cases h : (stringOf? n).bind fun name => keep.lookup name <;> simp [h]

/-- The fields with a name that is kept, before and after. -/
theorem filter_pruneNamed {keep : List (String × (RawJson → RawJson))} {name : String}
    {prune : RawJson → RawJson} (hkeep : keep.lookup name = some prune) {depth : Nat}
    {fields : List (Text × RawJson)} {js : List (String × Json)}
    (h : fieldsToJson? depth (pruneNamed keep fields) = some js) :
    List.Forall₂ (fun f g => ∃ r, toJson? depth (prune r) = some f.2 ∧ r.view = g.2)
      (js.filter (·.1 == name)) ((viewFields fields).filter (·.1 == name)) := by
  induction fields generalizing js with
  | nil =>
    obtain rfl : [] = js := by simpa [pruneNamed, fieldsToJson?] using h
    exact .nil
  | cons f rest ih =>
    obtain ⟨n, r⟩ := f
    rw [pruneNamed_cons] at h
    obtain ⟨name', j, js', hname, hj, hjs', rfl⟩ := fieldsToJson?_cons_eq_some_iff.1 h
    rw [viewFields, hname]
    by_cases heq : name' = name
    · subst heq
      rw [hname, Option.bind_some, hkeep] at hj
      rw [List.filter_cons_of_pos (by simp), List.filter_cons_of_pos (by simp)]
      exact .cons ⟨r, hj, rfl⟩ (ih hjs')
    · rw [List.filter_cons_of_neg (by simpa using heq),
        List.filter_cons_of_neg (by simpa using heq)]
      exact ih hjs'

theorem single?_pruneNamed {α : Type} {keep : List (String × (RawJson → RawJson))} {name : String}
    {prune : RawJson → RawJson} (hkeep : keep.lookup name = some prune)
    {read : Json → Option (Option α)} (hread : Ignores prune read) {depth : Nat}
    {fields : List (Text × RawJson)} {js : List (String × Json)}
    (h : fieldsToJson? depth (pruneNamed keep fields) = some js) :
    (single? js name).bind (part? read) = (single? (viewFields fields) name).bind (part? read) := by
  have hfilter := filter_pruneNamed hkeep h
  unfold single?
  generalize js.filter (·.1 == name) = l, (viewFields fields).filter (·.1 == name) = l' at hfilter
  cases hfilter with
  | nil => rfl
  | cons hfg htail =>
    cases htail with
    | nil =>
      obtain ⟨r, hr, hview⟩ := hfg
      rw [Option.bind_some, Option.bind_some, hread hr, hview]
    | cons => rfl

/-- A reader of parts does not look at what is pruned. -/
theorem parts?_pruneNamed {α : Type} {keep : List (String × (RawJson → RawJson))}
    {readers : List (String × (Json → Option (Option α)))}
    (hkeep : ∀ reader ∈ readers, ∃ prune, keep.lookup reader.1 = some prune ∧
      Ignores prune reader.2) {depth : Nat} {fields : List (Text × RawJson)} {j : Json}
    (h : toJson? depth (.object (pruneNamed keep fields)) = some j) :
    parts? readers j = parts? readers (.obj (viewFields fields)) := by
  obtain ⟨-, js, hjs, rfl⟩ := toJson?_object_eq_some_iff.1 h
  rw [parts?, parts?]
  induction readers with
  | nil => rfl
  | cons reader readers ih =>
    obtain ⟨⟨prune, hprune, hread⟩, hrest⟩ := List.forall_mem_cons.1 hkeep
    rw [List.mapM_cons, List.mapM_cons, single?_pruneNamed hprune hread hjs, ih hrest]

theorem mapM_zip_prune {α : Type} {prune : RawJson → RawJson} {depth : Nat} {items : List RawJson}
    {js : List Json} (h : List.Forall₂ (fun r j => toJson? depth (prune r) = some j) items js)
    {readers : List (String × (Json → Option (Option α)))}
    (hread : ∀ reader ∈ readers, Ignores prune reader.2) :
    ((readers.zip js).mapM fun pair => part? pair.1.2 (some pair.2)) =
      (readers.zip (items.map view)).mapM fun pair => part? pair.1.2 (some pair.2) := by
  induction h generalizing readers with
  | nil => rfl
  | cons hj _ ih =>
    cases readers with
    | nil => rfl
    | cons reader readers =>
      obtain ⟨hhead, hrest⟩ := List.forall_mem_cons.1 hread
      rw [List.map_cons, List.zip_cons_cons, List.zip_cons_cons, List.mapM_cons, List.mapM_cons,
        hhead hj, ih hrest]

theorem parts?_map_prune {α : Type} {prune : RawJson → RawJson}
    {readers : List (String × (Json → Option (Option α)))}
    (hread : ∀ reader ∈ readers, Ignores prune reader.2) {depth : Nat} {items : List RawJson}
    {j : Json} (h : toJson? depth (.array (items.map prune)) = some j) :
    parts? readers j = parts? readers (.arr (viewItems items)) := by
  obtain ⟨-, js, hjs, rfl⟩ := toJson?_array_eq_some_iff.1 h
  have hall := List.forall₂_map_left_iff.1 (forall₂_of_itemsToJson? hjs)
  rw [parts?, parts?, viewItems_eq_map, List.length_map, hall.length_eq, mapM_zip_prune hall hread]

theorem prunePosition_ignores : Ignores prunePosition position? := by
  intro depth r j h
  cases r with
  | object fields =>
    have hparts : parts? positionReaders j = parts? positionReaders (.obj (viewFields fields)) := by
      refine parts?_pruneNamed (fun reader hreader => ⟨id, ?_, ignores_id _⟩) h
      simp only [positionReaders, List.mem_cons, List.not_mem_nil, or_false] at hreader
      rcases hreader with rfl | rfl | rfl <;> rfl
    obtain ⟨-, js, -, rfl⟩ := toJson?_object_eq_some_iff.1 h
    change position? (.obj js) = position? (.obj (viewFields fields))
    rw [position?, position?, hparts]
  | _ => rw [← view_of_toJson? h]; rfl

theorem pruneLocation_ignores : Ignores pruneLocation location? := by
  intro depth r j h
  have hreaders : ∀ reader ∈ locationReaders, Ignores prunePosition reader.2 := by
    simp only [locationReaders, List.forall_mem_cons, List.not_mem_nil, false_implies, implies_true,
      and_true]
    exact ⟨prunePosition_ignores, prunePosition_ignores⟩
  cases r with
  | object fields =>
    have hparts : parts? locationReaders j = parts? locationReaders (.obj (viewFields fields)) := by
      refine parts?_pruneNamed (fun reader hreader => ⟨_, ?_, hreaders reader hreader⟩) h
      simp only [locationReaders, List.mem_cons, List.not_mem_nil, or_false] at hreader
      rcases hreader with rfl | rfl <;> rfl
    obtain ⟨-, js, -, rfl⟩ := toJson?_object_eq_some_iff.1 h
    change location? (.obj js) = location? (.obj (viewFields fields))
    rw [location?, location?, hparts]
  | array items =>
    have hparts := parts?_map_prune hreaders h
    obtain ⟨-, js, -, rfl⟩ := toJson?_array_eq_some_iff.1 h
    change location? (.arr js) = location? (.arr (viewItems items))
    rw [location?, location?, hparts]
  | _ => rw [← view_of_toJson? h]; rfl

/-! ## Nodes -/

namespace Draft

variable {d : Draft} {j j' : Json} {slot slot' : Unit → Option Slot}
  {children children' : Unit → Option (List Node)}

theorem set?_children (h : children () = children' ()) :
    d.set? "children" j slot children = d.set? "children" j' slot' children' := by
  simp [set?, h]

theorem set?_loc (h : part? location? (some j) = part? location? (some j')) :
    d.set? "loc" j slot children = d.set? "loc" j' slot' children' := by
  simp [set?, h]

/-- Whatever has another name is passed over. -/
theorem set?_of_notMem {name : String} (h : name ∉ partNames) :
    d.set? name j slot children = some d := by
  simp only [partNames, List.mem_cons, List.not_mem_nil, or_false, not_or] at h
  simp [set?, h]

end Draft

mutual

theorem node?_pruneNode {depth : Nat} {j : Json} :
    ∀ {r : RawJson}, toJson? depth (pruneNode r) = some j → node? j = node? r.view
  | .object fields, h => by
    obtain ⟨-, js, hjs, rfl⟩ := toJson?_object_eq_some_iff.1 h
    rw [view, node?, node?, ofFields?_pruneFields hjs]
  | .array items, h => by
    obtain ⟨-, js, hjs, rfl⟩ := toJson?_array_eq_some_iff.1 h
    rw [view, node?, node?, ofItems?_pruneItems hjs]
  | .null, h => congrArg node? (view_of_toJson? h).symm
  | .bool _, h => congrArg node? (view_of_toJson? h).symm
  | .number _, h => congrArg node? (view_of_toJson? h).symm
  | .string _, h => congrArg node? (view_of_toJson? h).symm

theorem children?_pruneChildren {depth : Nat} {j : Json} :
    ∀ {r : RawJson}, toJson? depth (pruneChildren r) = some j → children? j = children? r.view
  | .array items, h => by
    obtain ⟨-, js, hjs, rfl⟩ := toJson?_array_eq_some_iff.1 h
    rw [view, children?, children?, nodes?_pruneNodes hjs]
  | .object _, h => congrArg children? (view_of_toJson? h).symm
  | .null, h => congrArg children? (view_of_toJson? h).symm
  | .bool _, h => congrArg children? (view_of_toJson? h).symm
  | .number _, h => congrArg children? (view_of_toJson? h).symm
  | .string _, h => congrArg children? (view_of_toJson? h).symm

theorem nodes?_pruneNodes {depth : Nat} {js : List Json} :
    ∀ {rs : List RawJson}, itemsToJson? depth (pruneNodes rs) = some js →
      nodes? js = nodes? (viewItems rs)
  | [], h => by
    obtain rfl : [] = js := by simpa [pruneNodes, itemsToJson?] using h
    rfl
  | r :: rest, h => by
    obtain ⟨j, js', hj, hjs', rfl⟩ := itemsToJson?_cons_eq_some_iff.1 h
    rw [viewItems, nodes?, nodes?, node?_pruneNode hj, nodes?_pruneNodes hjs']

theorem ofItems?_pruneItems {depth : Nat} {names : List String} {d : Draft} {js : List Json} :
    ∀ {rs : List RawJson}, itemsToJson? depth (pruneItems names rs) = some js →
      ofItems? d names js = ofItems? d names (viewItems rs)
  | [], h => by
    obtain rfl : [] = js := by simpa [pruneItems, itemsToJson?] using h
    rfl
  | r :: rest, h => by
    obtain ⟨j, js', hj, hjs', rfl⟩ := itemsToJson?_cons_eq_some_iff.1 h
    cases names with
    | nil => rw [viewItems, ofItems?, ofItems?]
    | cons name names =>
      have hrest : (fun d => ofItems? d names js') = fun d => ofItems? d names (viewItems rest) :=
        funext fun d => ofItems?_pruneItems hjs'
      rw [List.head?_cons] at hj
      rw [viewItems, ofItems?, ofItems?, hrest]
      congr 1
      split at hj
      · next hname =>
        obtain rfl := Option.some.inj hname
        exact Draft.set?_children (children?_pruneChildren hj)
      · split at hj
        · next hname =>
          obtain rfl := Option.some.inj hname
          exact Draft.set?_loc (pruneLocation_ignores hj)
        · rw [view_of_toJson? hj]

theorem ofFields?_pruneFields {depth : Nat} {d : Draft} {js : List (String × Json)} :
    ∀ {fields : List (Text × RawJson)}, fieldsToJson? depth (pruneFields fields) = some js →
      ofFields? d js = ofFields? d (viewFields fields)
  | [], h => by
    obtain rfl : [] = js := by simpa [pruneFields, fieldsToJson?] using h
    rfl
  | (n, r) :: rest, h => by
    obtain ⟨name, j, js', hname, hj, hjs', rfl⟩ := fieldsToJson?_cons_eq_some_iff.1 h
    have hrest : (fun d => ofFields? d js') = fun d => ofFields? d (viewFields rest) :=
      funext fun d => ofFields?_pruneFields hjs'
    have hview : viewFields ((n, r) :: rest) = (name, r.view) :: viewFields rest := by
      rw [viewFields, hname]
    rw [hname] at hj
    rw [hview, ofFields?, ofFields?, hrest]
    congr 1
    split at hj
    · next hchildren =>
      obtain rfl := Option.some.inj hchildren
      exact Draft.set?_children (children?_pruneChildren hj)
    · split at hj
      · next hloc =>
        obtain rfl := Option.some.inj hloc
        exact Draft.set?_loc (pruneLocation_ignores hj)
      · split at hj
        · rw [view_of_toJson? hj]
        · next hchildren hloc hother =>
          have hname : name ∉ partNames := by
            simp_all [partNames]
          rw [Draft.set?_of_notMem hname, Draft.set?_of_notMem hname]

end

/-- The tree that a JSON text holds is read from all that can be read of the text. -/
theorem node?_view_of_ofText? {t : Text} {raw : RawJson} {root : Node}
    (hraw : RawJson.ofText? t = some raw) (h : ofText? t = some (some root)) :
    node? raw.view = some root := by
  simp only [ofText?, hraw, Option.bind_eq_bind, Option.bind_some, Option.bind_eq_some_iff] at h
  obtain ⟨j, hj, htree⟩ := h
  rw [← node?_pruneNode hj]
  split at htree
  · simp at htree
  · simpa using htree

end TreeWire
end Inlay
