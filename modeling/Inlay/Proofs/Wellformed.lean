import Mathlib.Tactic.MkIffOfInductiveProp
import Inlay.Proofs.Outcomes
import Inlay.Tree.Wire

/-! Which JSON values are nodes. `Json.IsNode` says so part by part: a node gives no part twice, its
kind is a string, its children are nodes and its location is one. The reader of trees accepts these
values and no others, and what it makes of a node is told by the parts. -/

namespace Inlay

namespace Json

/-- An object or array whose parts are null or meet their checks. No part of an object is given
twice, and an array has all parts. -/
def IsRecord (checks : List (String × (Json → Prop))) : Json → Prop
  | .arr items => List.Forall₂ (fun check j => j = .null ∨ check.2 j) checks items
  | .obj fields => ∀ check ∈ checks, (fields.filter (·.1 == check.1)).length ≤ 1 ∧
      ∀ f ∈ fields, f.1 = check.1 → f.2 = .null ∨ check.2 f.2
  | _ => False

def IsWord (bound : Nat) (j : Json) : Prop := ∃ n < bound, j = nat n

def IsPosition : Json → Prop :=
  IsRecord [("offset", IsWord Word.bound64), ("line", IsWord Word.bound32),
    ("column", IsWord Word.bound32)]

def IsLocation : Json → Prop := IsRecord [("start", IsPosition), ("end", IsPosition)]

def named? : Json → Option (List (String × Json))
  | .obj fields => some fields
  | .arr items =>
    if items.length ≤ TreeWire.partNames.length then some (TreeWire.partNames.zip items) else none
  | _ => none

/-- The items of an array, of which null has none. -/
def items? : Json → Option (List Json)
  | .null => some []
  | .arr items => some items
  | _ => none

/-- No part is given twice, the kind is a string, the children are nodes, and the location is one if
there is any. A value or body may be anything. -/
inductive IsNode : Json → Prop
  | mk {j : Json} {parts : List (String × Json)} {s : String} {children : List Json}
      (named : j.named? = some parts)
      (once : ∀ name ∈ TreeWire.partNames, (parts.filter (·.1 == name)).length ≤ 1)
      (kind : parts.lookup "kind" = some (.str s))
      (items : ((parts.lookup "children").getD .null).items? = some children)
      (nodes : ∀ c ∈ children, IsNode c)
      (loc : ∀ l ∈ parts.lookup "loc", l = .null ∨ l.IsLocation) : IsNode j

end Json

namespace TreeWire

/-! ## Locations -/

theorem isSome_word?_iff {bound : Nat} {j : Json} (h : j ≠ .null) :
    (word? bound j).isSome ↔ j.IsWord bound := by
  have hread : (word? bound j).isSome ↔ (j.natBelow? bound).isSome := by
    cases j with
    | null => exact absurd rfl h
    | _ => simp [word?]
  rw [hread]
  constructor
  · intro hsome
    cases j with
    | num n =>
      cases n with
      | int i =>
        simp only [Json.natBelow?, Option.isSome_ite, Bool.and_eq_true, decide_eq_true_eq] at hsome
        exact ⟨i.toNat, by omega, by rw [Json.nat, Int.toNat_of_nonneg hsome.1]⟩
      | real x => simp [Json.natBelow?] at hsome
    | _ => simp [Json.natBelow?] at hsome
  · rintro ⟨n, hn, rfl⟩
    simp [Json.natBelow?, Json.nat, hn]

section Parts

variable {α : Type}

section Reader

variable {read : Json → Option (Option α)} {check : Json → Prop}
  (h : ∀ j, j ≠ .null → ((read j).isSome ↔ check j))

include h

theorem isSome_part?_iff {j : Json} : (part? read (some j)).isSome ↔ j = .null ∨ check j := by
  cases j with
  | null => simp [part?]
  | _ => simpa [part?] using h _ (by simp)

theorem isSome_single?_iff {fields : List (String × Json)} {name : String} :
    ((single? fields name).bind (part? read)).isSome ↔
      (fields.filter (·.1 == name)).length ≤ 1 ∧
        ∀ f ∈ fields, f.1 = name → f.2 = .null ∨ check f.2 := by
  have hmem : (∀ f ∈ fields, f.1 = name → f.2 = .null ∨ check f.2) ↔
      ∀ f ∈ fields.filter (·.1 == name), f.2 = .null ∨ check f.2 := by simp
  rw [hmem, single?]
  generalize fields.filter (·.1 == name) = named
  match named with
  | [] => simp [part?]
  | [f] => simpa using isSome_part?_iff h
  | f :: g :: rest => simp

end Reader

variable {readers : List (String × (Json → Option (Option α)))}

theorem isSome_parts?_iff {checks : List (String × (Json → Prop))}
    (h : List.Forall₂ (fun reader check => reader.1 = check.1 ∧
      ∀ j, j ≠ .null → ((reader.2 j).isSome ↔ check.2 j)) readers checks) (j : Json) :
    (parts? readers j).isSome ↔ j.IsRecord checks := by
  cases j with
  | arr items =>
    rw [parts?, Json.IsRecord]
    induction h generalizing items with
    | nil => cases items <;> simp
    | cons hhead _ ih =>
      cases items with
      | nil => simp
      | cons j rest =>
        rw [List.forall₂_cons, ← isSome_part?_iff hhead.2, ← ih]
        simp only [List.length_cons, Nat.add_right_cancel_iff, List.zip_cons_cons]
        split
        · rw [isSome_mapM_iff, isSome_mapM_iff, List.forall_mem_cons]
        · simp
  | obj fields =>
    rw [parts?, isSome_mapM_iff, Json.IsRecord]
    induction h with
    | nil => simp
    | cons hhead _ ih =>
      rw [List.forall_mem_cons, List.forall_mem_cons, ih, isSome_single?_iff hhead.2, hhead.1]
  | _ => simp [parts?, Json.IsRecord]

theorem length_of_parts? {j : Json} {ps : List (Option α)} (h : parts? readers j = some ps) :
    ps.length = readers.length := by
  cases j with
  | arr items =>
    rw [parts?, Option.ite_none_right_eq_some] at h
    have hlen := congrArg List.length (option_mapM_eq_some_iff.1 h.2)
    simpa [h.1] using hlen.symm
  | obj fields =>
    have hlen := congrArg List.length (option_mapM_eq_some_iff.1 h)
    simpa using hlen.symm
  | _ => simp [parts?] at h

end Parts

theorem isSome_position?_iff (j : Json) : (position? j).isSome ↔ j.IsPosition := by
  have hparts : (parts? positionReaders j).isSome ↔ j.IsPosition :=
    isSome_parts?_iff (.cons ⟨rfl, fun _ => isSome_word?_iff⟩
      (.cons ⟨rfl, fun _ => isSome_word?_iff⟩ (.cons ⟨rfl, fun _ => isSome_word?_iff⟩ .nil))) j
  rw [← hparts, position?]
  cases hps : parts? positionReaders j with
  | none => simp
  | some ps =>
    match ps, length_of_parts? hps with
    | [offset, line, column], _ => simp

theorem isSome_location?_iff (j : Json) : (location? j).isSome ↔ j.IsLocation := by
  have hparts : (parts? locationReaders j).isSome ↔ j.IsLocation :=
    isSome_parts?_iff (.cons ⟨rfl, fun j _ => isSome_position?_iff j⟩
      (.cons ⟨rfl, fun j _ => isSome_position?_iff j⟩ .nil)) j
  rw [← hparts, location?]
  cases hps : parts? locationReaders j with
  | none => simp
  | some ps =>
    match ps, length_of_parts? hps with
    | [start, stop], _ => simp

/-! ## Drafts -/

/-- Fields fill a part: at most one of them has the name, and it is read where nothing stood
before. -/
def Filled {β : Type} (name : String) (read : Json → Option β) :
    List (String × Json) → Option β → Option β → Prop
  | [], before, after => before = after
  | (n, j) :: rest, before, after =>
    if n = name then before = none ∧ ∃ x, read j = some x ∧ Filled name read rest (some x) after
    else Filled name read rest before after

section Filled

variable {β : Type} {name : String} {read : Json → Option β} {fields : List (String × Json)}

theorem filled_cons_iff {f : String × Json} {before after : Option β} :
    Filled name read (f :: fields) before after ↔
      ∃ between, Filled name read [f] before between ∧ Filled name read fields between after := by
  obtain ⟨n, j⟩ := f
  simp only [Filled]
  split
  · constructor
    · rintro ⟨hbefore, x, hx, hrest⟩
      exact ⟨some x, ⟨hbefore, x, hx, rfl⟩, hrest⟩
    · rintro ⟨_, ⟨hbefore, x, hx, rfl⟩, hrest⟩
      exact ⟨hbefore, x, hx, hrest⟩
  · simp

theorem filled_some_iff {x : β} {after : Option β} :
    Filled name read fields (some x) after ↔ fields.filter (·.1 == name) = [] ∧ some x = after := by
  induction fields with
  | nil => simp [Filled]
  | cons f fields ih =>
    obtain ⟨n, j⟩ := f
    by_cases hn : n = name
    · simp [Filled, hn]
    · simp [Filled, hn, ih]

/-- A part that was empty holds what was read of the one field with its name. -/
theorem filled_none_iff {after : Option β} :
    Filled name read fields none after ↔
      (fields.filter (·.1 == name)).length ≤ 1 ∧
        (∀ j ∈ fields.lookup name, (read j).isSome) ∧ (fields.lookup name).bind read = after := by
  induction fields with
  | nil => simp [Filled]
  | cons f fields ih =>
    obtain ⟨n, j⟩ := f
    by_cases hn : n = name
    · subst hn
      simp only [Filled, filled_some_iff]
      cases hread : read j <;> simp [hread]
    · have hlookup : List.lookup name ((n, j) :: fields) = fields.lookup name := by
        rw [List.lookup_cons, beq_eq_false_iff_ne.2 (Ne.symm hn)]
      rw [hlookup, List.filter_cons_of_neg (by simpa using hn), ← ih]
      simp [Filled, hn]

end Filled

/-- Fields fill all parts of a draft. -/
@[mk_iff]
structure Draft.FilledBy (fields : List (String × Json)) (d d' : Draft) : Prop where
  kind : Filled "kind" Json.str? fields d.kind d'.kind
  value : Filled "value" (some ∘ slot?) fields d.value d'.value
  body : Filled "body" (some ∘ slot?) fields d.body d'.body
  children : Filled "children" children? fields d.children d'.children
  loc : Filled "loc" (part? location? ∘ some) fields d.loc d'.loc

namespace Draft

theorem put?_eq_some_iff {α : Type} {before new after : Option α} :
    put? before new = some after ↔ before = none ∧ ∃ x, new = some x ∧ some x = after := by
  cases before <;> cases new <;> simp [put?]

theorem set?_eq_some_iff {d d' : Draft} {name : String} {j : Json} :
    (d.set? name j (fun _ => slot? j) fun _ => children? j) = some d' ↔
      FilledBy [(name, j)] d d' := by
  rw [filledBy_iff]
  obtain ⟨kind, value, body, children, loc⟩ := d
  obtain ⟨kind', value', body', children', loc'⟩ := d'
  by_cases hname : name ∈ partNames
  · simp only [partNames, List.mem_cons, List.not_mem_nil, or_false] at hname
    rcases hname with rfl | rfl | rfl | rfl | rfl <;>
      simp [set?, Filled, put?_eq_some_iff, Option.map_eq_some_iff] <;> grind
  · simp only [partNames, List.mem_cons, List.not_mem_nil, or_false, not_or] at hname
    simp [set?, Filled, hname]

theorem filledBy_cons_iff {f : String × Json} {fields : List (String × Json)} {d d' : Draft} :
    FilledBy (f :: fields) d d' ↔ ∃ d₁, FilledBy [f] d d₁ ∧ FilledBy fields d₁ d' := by
  constructor
  · rintro ⟨hkind, hvalue, hbody, hchildren, hloc⟩
    obtain ⟨kind, hkind, hkind'⟩ := filled_cons_iff.1 hkind
    obtain ⟨value, hvalue, hvalue'⟩ := filled_cons_iff.1 hvalue
    obtain ⟨body, hbody, hbody'⟩ := filled_cons_iff.1 hbody
    obtain ⟨children, hchildren, hchildren'⟩ := filled_cons_iff.1 hchildren
    obtain ⟨loc, hloc, hloc'⟩ := filled_cons_iff.1 hloc
    exact ⟨⟨kind, value, body, children, loc⟩, ⟨hkind, hvalue, hbody, hchildren, hloc⟩,
      ⟨hkind', hvalue', hbody', hchildren', hloc'⟩⟩
  · rintro ⟨d₁, h₁, h₂⟩
    exact ⟨filled_cons_iff.2 ⟨_, h₁.kind, h₂.kind⟩, filled_cons_iff.2 ⟨_, h₁.value, h₂.value⟩,
      filled_cons_iff.2 ⟨_, h₁.body, h₂.body⟩, filled_cons_iff.2 ⟨_, h₁.children, h₂.children⟩,
      filled_cons_iff.2 ⟨_, h₁.loc, h₂.loc⟩⟩

end Draft

theorem ofFields?_eq_some_iff {fields : List (String × Json)} {d d' : Draft} :
    ofFields? d fields = some d' ↔ Draft.FilledBy fields d d' := by
  induction fields generalizing d with
  | nil =>
    obtain ⟨kind, value, body, children, loc⟩ := d
    obtain ⟨kind', value', body', children', loc'⟩ := d'
    simp [ofFields?, Draft.filledBy_iff, Filled]
  | cons f fields ih =>
    obtain ⟨name, j⟩ := f
    rw [Draft.filledBy_cons_iff, ofFields?, Option.bind_eq_bind, Option.bind_eq_some_iff]
    simp only [Draft.set?_eq_some_iff, ih]

theorem ofItems?_eq {d : Draft} {names : List String} {items : List Json} :
    ofItems? d names items =
      if items.length ≤ names.length then ofFields? d (names.zip items) else none := by
  induction items generalizing d names with
  | nil => simp [ofItems?, ofFields?]
  | cons j rest ih =>
    cases names with
    | nil => simp [ofItems?]
    | cons name names =>
      simp only [ofItems?, ih, List.zip_cons_cons, ofFields?, List.length_cons,
        Nat.add_le_add_iff_right]
      split <;> simp

theorem node?_eq_some_iff {j : Json} {n : Node} :
    node? j = some n ↔ ∃ parts d kind, j.named? = some parts ∧ Draft.FilledBy parts {} d ∧
      d.kind = some kind ∧ d.ofKind kind = n := by
  have hfinish : ∀ o : Option Draft, o.bind Draft.finish? = some n ↔
      ∃ d kind, o = some d ∧ d.kind = some kind ∧ d.ofKind kind = n := by
    intro o
    simp [Draft.finish?, Option.bind_eq_some_iff, Option.map_eq_some_iff]
  cases j with
  | obj fields => simp [node?, hfinish, Json.named?, ofFields?_eq_some_iff]
  | arr items =>
    rw [node?, hfinish, ofItems?_eq, Json.named?]
    split
    · simp [ofFields?_eq_some_iff]
    · simp
  | _ => simp [node?, Json.named?]

/-! ## Well-formed nodes -/

theorem nodes?_eq_mapM (items : List Json) : nodes? items = items.mapM node? := by
  induction items with
  | nil => rfl
  | cons c rest ih =>
    rw [nodes?, List.mapM_cons, ih]
    rfl

theorem isSome_children?_iff {j : Json} :
    (children? j).isSome ↔ ∃ items, j.items? = some items ∧ ∀ c ∈ items, (node? c).isSome := by
  cases j with
  | arr items => simp [children?, Json.items?, nodes?_eq_mapM, isSome_mapM_iff]
  | _ => simp [children?, Json.items?]

/-- A part of a node is smaller than the node. -/
theorem sizeOf_lt_of_lookup {j v : Json} {parts : List (String × Json)} {name : String}
    (hparts : j.named? = some parts) (hv : parts.lookup name = some v) : sizeOf v < sizeOf j := by
  have hmem : ∃ n, (n, v) ∈ parts := by
    obtain ⟨l₁, l₂, rfl, -⟩ := List.lookup_eq_some_iff.1 hv
    exact ⟨name, by simp⟩
  obtain ⟨n, hmem⟩ := hmem
  cases j with
  | obj fields =>
    obtain rfl := Option.some.inj hparts
    have := List.sizeOf_lt_of_mem hmem
    simp only [Prod.mk.sizeOf_spec, Json.obj.sizeOf_spec] at this ⊢
    omega
  | arr items =>
    rw [Json.named?, Option.ite_none_right_eq_some] at hparts
    obtain rfl := Option.some.inj hparts.2
    have := List.sizeOf_lt_of_mem (List.of_mem_zip hmem).2
    rw [Json.arr.sizeOf_spec]
    omega
  | _ => simp [Json.named?] at hparts

theorem sizeOf_lt_of_mem_items? {c v : Json} {items : List Json} (hitems : v.items? = some items)
    (hc : c ∈ items) : sizeOf c < sizeOf v := by
  cases v with
  | arr items' =>
    obtain rfl := Option.some.inj hitems
    have := List.sizeOf_lt_of_mem hc
    rw [Json.arr.sizeOf_spec]
    omega
  | null =>
    obtain rfl := Option.some.inj hitems
    simp at hc
  | _ => simp [Json.items?] at hitems

theorem Draft.filledBy_empty_iff {parts : List (String × Json)} {d : Draft} :
    FilledBy parts {} d ↔
      (∀ name ∈ partNames, (parts.filter (·.1 == name)).length ≤ 1) ∧
      ((∀ j ∈ parts.lookup "kind", j.str?.isSome) ∧
        (∀ j ∈ parts.lookup "children", (children? j).isSome) ∧
        (∀ j ∈ parts.lookup "loc", (part? location? (some j)).isSome)) ∧
      d = ⟨(parts.lookup "kind").bind Json.str?, (parts.lookup "value").map slot?,
        (parts.lookup "body").map slot?, (parts.lookup "children").bind children?,
        (parts.lookup "loc").bind (part? location? ∘ some)⟩ := by
  obtain ⟨kind, value, body, children, loc⟩ := d
  simp only [filledBy_iff, filled_none_iff, partNames, Draft.mk.injEq, List.forall_mem_cons,
    Option.map_eq_bind, Function.comp_apply, Option.isSome_some, implies_true, true_and,
    List.not_mem_nil, false_implies, and_true, @eq_comm _ kind, @eq_comm _ value, @eq_comm _ body,
    @eq_comm _ children, @eq_comm _ loc]
  tauto

theorem isNode_of_node? {j : Json} (h : (node? j).isSome) : j.IsNode := by
  obtain ⟨n, hn⟩ := Option.isSome_iff_exists.1 h
  obtain ⟨parts, d, kind, hparts, hfilled, hkind, -⟩ := node?_eq_some_iff.1 hn
  obtain ⟨honce, ⟨-, hchildren, hloc⟩, rfl⟩ := Draft.filledBy_empty_iff.1 hfilled
  obtain ⟨k, hk, hkind⟩ := Option.bind_eq_some_iff.1 hkind
  have hstr : k = .str kind := by
    cases k with
    | str s => rw [Option.some.inj hkind]
    | _ => simp [Json.str?] at hkind
  obtain ⟨items, hitems, hnodes⟩ : ∃ items,
      ((parts.lookup "children").getD .null).items? = some items ∧
        ∀ c ∈ items, (node? c).isSome ∧ sizeOf c < sizeOf j := by
    cases hc : parts.lookup "children" with
    | none => exact ⟨[], rfl, by simp⟩
    | some v =>
      obtain ⟨items, hitems, hnodes⟩ := isSome_children?_iff.1 (hchildren v hc)
      refine ⟨items, hitems, fun c hmem => ⟨hnodes c hmem, ?_⟩⟩
      exact Nat.lt_trans (sizeOf_lt_of_mem_items? hitems hmem) (sizeOf_lt_of_lookup hparts hc)
  refine .mk hparts honce (hstr ▸ hk) hitems (fun c hmem => ?_) fun l hl => ?_
  · obtain ⟨hsome, hlt⟩ := hnodes c hmem
    exact isNode_of_node? hsome
  · exact (isSome_part?_iff fun j _ => isSome_location?_iff j).1 (hloc l hl)
termination_by sizeOf j

/-- The reader accepts the well-formed nodes. -/
theorem isSome_node?_iff {j : Json} : (node? j).isSome ↔ j.IsNode := by
  refine ⟨isNode_of_node?, fun h => ?_⟩
  induction h with
  | mk named once kind items nodes loc ih =>
    have hfilled := Draft.filledBy_empty_iff.2 ⟨once, ⟨?_, ?_, ?_⟩, rfl⟩
    · have hnode := node?_eq_some_iff.2 ⟨_, _, _, named, hfilled, by rw [kind]; rfl, rfl⟩
      rw [hnode, Option.isSome_some]
    · intro j hj
      obtain rfl := Option.some.inj (kind.symm.trans hj)
      rfl
    · intro j hj
      rw [hj, Option.getD_some] at items
      exact isSome_children?_iff.2 ⟨_, items, ih⟩
    · intro j hj
      exact (isSome_part?_iff fun j _ => isSome_location?_iff j).2 (loc j hj)

end TreeWire
end Inlay
