import Mathlib.Data.List.Perm.Subperm
import Inlay.Proofs.Addresses
import Inlay.Proofs.Boundary
import Inlay.Proofs.Pruning
import Inlay.Proofs.Wellformed

/-! Which scripts of a document are found in the tree that is read from it. A malformed child fails
the node that it belongs to, and so the whole document. A malformed value does not: it is left
alone, and every script at or below it is lost. -/

namespace Inlay

namespace Json

/-! ## Scripts of a document -/

def part? (j : Json) (name : String) : Option Json := j.named?.bind fun parts => parts.lookup name

def kind? (j : Json) : Option String := (j.part? "kind").bind str?

def scriptKind? (j : Json) : Option ScriptKind := j.kind?.bind ScriptKind.ofName?

def code? (j : Json) : Option Text :=
  (((j.part? "value").bind str?).or ((j.part? "body").bind str?)).map Text.ofString

/-- No scripts are looked for inside scripts and comments. -/
def isClosed (j : Json) : Bool := j.scriptKind?.isSome || j.kind? == some "Comment"

/-- What lies below a node, well formed or not: its value, if that has the shape of a node, and
every entry of its children. -/
def below? (j : Json) (e : Edge) : Option Json :=
  if j.isClosed then none
  else
    match e with
    | .value => (j.part? "value").filter (·.named?.isSome)
    | .child index => ((j.part? "children").bind arr?).bind (·[index]?)

def at? : Json → Address → Option Json
  | j, [] => some j
  | j, e :: rest => (j.below? e).bind fun k => k.at? rest

def ScriptAt (j : Json) (a : Address) (kind : ScriptKind) (code : Text) : Prop :=
  ∃ k, j.at? a = some k ∧ k.scriptKind? = some kind ∧ k.code? = some code

/-- Every node on the way to an address is well formed. -/
def Clear (j : Json) (a : Address) : Prop := ∀ b k, b <+: a → j.at? b = some k → k.IsNode

/-- The visits are those of the scripts of a document whose address is in `S`, in document order. -/
def Yields (j : Json) (S : Address → Prop) (visits : List Visit) : Prop :=
  ∃ places : List Address, places.Pairwise Address.Before ∧
    (∀ a, a ∈ places ↔ S a ∧ ∃ kind code, j.ScriptAt a kind code) ∧
    List.Forall₂ (fun a (v : Visit) => j.ScriptAt a v.kind v.code) places visits

theorem below?_of_isClosed {j : Json} (h : j.isClosed = true) (e : Edge) : j.below? e = none := by
  simp [below?, h]

theorem below?_value {j : Json} (h : j.isClosed = false) :
    j.below? .value = (j.part? "value").filter (·.named?.isSome) := by
  simp [below?, h]

theorem below?_child {j : Json} (h : j.isClosed = false) (index : Nat) :
    j.below? (.child index) = ((j.part? "children").bind arr?).bind (·[index]?) := by
  simp [below?, h]

theorem at?_cons (j : Json) (e : Edge) (a : Address) :
    j.at? (e :: a) = (j.below? e).bind fun k => k.at? a := rfl

theorem clear_nil {j : Json} : j.Clear [] ↔ j.IsNode := by
  constructor
  · intro h
    exact h [] j List.nil_prefix rfl
  · intro h b k hb hk
    obtain rfl := List.prefix_nil.1 hb
    rwa [← Option.some.inj hk]

theorem clear_cons {j : Json} {e : Edge} {a : Address} :
    j.Clear (e :: a) ↔ j.IsNode ∧ ∀ k, j.below? e = some k → k.Clear a := by
  constructor
  · intro h
    refine ⟨h [] j List.nil_prefix rfl, fun k hk b m hb hm => ?_⟩
    refine h (e :: b) m (List.cons_prefix_cons.2 ⟨rfl, hb⟩) ?_
    rw [at?_cons, hk, Option.bind_some, hm]
  · rintro ⟨hj, hbelow⟩ b m hb hm
    rcases List.prefix_cons_iff.1 hb with rfl | ⟨b, rfl, hba⟩
    · rwa [← Option.some.inj hm]
    · obtain ⟨k, hk, hm⟩ := Option.bind_eq_some_iff.1 hm
      exact hbelow k hk b m hba hm

theorem clear_of_below {j : Json} (hj : j.IsNode)
    (h : ∀ e k, j.below? e = some k → ∀ a, k.Clear a) (a : Address) : j.Clear a := by
  cases a with
  | nil => exact clear_nil.2 hj
  | cons e a => exact clear_cons.2 ⟨hj, fun k hk => h e k hk a⟩

end Json

namespace TreeWire

/-! ## From parts to a node -/

theorem bind_node?_slot? (v : Json) : (slot? v).bind Slot.node? = node? v := by
  cases v with
  | obj fields =>
    rw [slot?, node?]
    cases (ofFields? {} fields).bind Draft.finish? <;> rfl
  | arr items =>
    rw [slot?, node?]
    cases (ofItems? {} partNames items).bind Draft.finish? <;> rfl
  | _ => rfl

theorem bind_text?_slot? (v : Json) : (slot? v).bind Slot.text? = v.str?.map Text.ofString := by
  cases v with
  | obj fields =>
    rw [slot?]
    cases (ofFields? {} fields).bind Draft.finish? <;> rfl
  | arr items =>
    rw [slot?]
    cases (ofItems? {} partNames items).bind Draft.finish? <;> rfl
  | _ => rfl

variable {j : Json} {n : Node}

theorem exists_draft (h : node? j = some n) :
    ∃ (d : Draft) (kind : String), d.ofKind kind = n ∧ j.kind? = some kind ∧ d.code? = j.code? ∧
      d.value.join.bind Slot.node? = (j.part? "value").bind node? ∧
      d.children = (j.part? "children").bind children? ∧
      (∀ v ∈ j.part? "children", (children? v).isSome) ∧
      d.value.join.bind Slot.text? = ((j.part? "value").bind Json.str?).map Text.ofString ∧
      part? location? (j.part? "loc") = some d.loc.join := by
  obtain ⟨parts, d, kind, hparts, hfilled, hkind, hn⟩ := node?_eq_some_iff.1 h
  obtain ⟨-, ⟨-, hchildren, hloc⟩, rfl⟩ := Draft.filledBy_empty_iff.1 hfilled
  have hpart : ∀ name, j.part? name = parts.lookup name := fun name => by
    rw [Json.part?, hparts, Option.bind_some]
  have hjoin {α : Type} (o : Option Json) (f : Slot → Option α) :
      (o.map slot?).join.bind f = o.bind fun v => (slot? v).bind f := by cases o <;> rfl
  have hstr (o : Option Json) :
      (o.map slot?).join.bind Slot.text? = (o.bind Json.str?).map Text.ofString := by
    rw [hjoin]
    simp only [bind_text?_slot?]
    cases o <;> rfl
  refine ⟨_, kind, hn, ?_, ?_, ?_, ?_, ?_, ?_, ?_⟩
  · rw [Json.kind?, hpart, ← hkind]
  · rw [Draft.code?, Json.code?, hpart, hpart, hstr, hstr, Option.map_or]
  · rw [hjoin, hpart]
    simp only [bind_node?_slot?]
  · rw [hpart]
  · rwa [hpart]
  · rw [hstr, hpart]
  · rw [hpart]
    cases hv : parts.lookup "loc" with
    | none => rfl
    | some v =>
      obtain ⟨l, hl⟩ := Option.isSome_iff_exists.1 (hloc v hv)
      rw [hl, Option.bind_some, Function.comp_apply, hl]
      rfl

theorem bind_filter_named? (o : Option Json) :
    (o.filter (·.named?.isSome)).bind node? = o.bind node? := by
  cases o with
  | none => rfl
  | some v =>
    cases hnamed : v.named? with
    | some parts => simp [Option.filter, hnamed]
    | none =>
      have hnone : node? v = none := by
        rw [Option.eq_none_iff_forall_ne_some]
        intro m hm
        obtain ⟨parts, -, -, hparts, -⟩ := node?_eq_some_iff.1 hm
        rw [hnamed] at hparts
        cases hparts
      simp [Option.filter, hnamed, hnone]

theorem getElem?_children? {v : Json} {ns : List Node} (h : children? v = some ns) (index : Nat) :
    ns[index]? = (v.arr?.bind (·[index]?)).bind node? := by
  cases v with
  | arr items =>
    rw [children?, nodes?_eq_mapM, option_mapM_eq_some_iff] at h
    have hget := congrArg (·[index]?) h
    simp only [List.getElem?_map] at hget
    change ns[index]? = items[index]?.bind node?
    cases hc : items[index]? <;> cases hn : ns[index]? <;> simp_all
  | null =>
    obtain rfl := Option.some.inj h
    rfl
  | _ => simp [children?] at h

theorem below?_of_node? (h : node? j = some n) (e : Edge) :
    n.below? e = (j.below? e).bind node? := by
  obtain ⟨d, kind, rfl, hkind, -, hvalue, hchildren, hnodes, -⟩ := exists_draft h
  cases hscript : ScriptKind.ofName? kind with
  | some script =>
    have hclosed : j.isClosed = true := by simp [Json.isClosed, Json.scriptKind?, hkind, hscript]
    rw [Json.below?_of_isClosed hclosed, Draft.ofKind, hscript]
    cases d.code? <;> cases e <;> rfl
  | none =>
    rw [Draft.ofKind, hscript]
    by_cases hcomment : kind = "Comment"
    · have hclosed : j.isClosed = true := by simp [Json.isClosed, hkind, hcomment]
      rw [Json.below?_of_isClosed hclosed]
      simp only [if_pos hcomment]
      cases e <;> rfl
    · have hopen : j.isClosed = false := by
        simp [Json.isClosed, Json.scriptKind?, hkind, hscript, hcomment]
      simp only [if_neg hcomment]
      cases e with
      | value => rw [Json.below?_value hopen, bind_filter_named?, ← hvalue, Node.below?, Node.value]
      | child index =>
        rw [Json.below?_child hopen, Node.below?, Node.children, hchildren]
        cases hv : j.part? "children" with
        | none => rfl
        | some v =>
          obtain ⟨ns, hns⟩ := Option.isSome_iff_exists.1 (hnodes v hv)
          rw [Option.bind_some, Option.bind_some, hns, Option.getD_some, getElem?_children? hns]

theorem isNode_of_child (h : node? j = some n) {index : Nat} {k : Json}
    (hk : j.below? (.child index) = some k) : k.IsNode := by
  obtain ⟨-, -, -, -, -, -, -, hnodes, -⟩ := exists_draft h
  have hopen : j.isClosed = false := by
    rw [← Bool.not_eq_true]
    intro hclosed
    rw [Json.below?_of_isClosed hclosed] at hk
    cases hk
  rw [Json.below?_child hopen] at hk
  obtain ⟨items, hitems, hmem⟩ := Option.bind_eq_some_iff.1 hk
  obtain ⟨v, hv, hitems⟩ := Option.bind_eq_some_iff.1 hitems
  obtain ⟨items', hitems', hall⟩ := isSome_children?_iff.1 (hnodes v hv)
  cases v with
  | arr items'' =>
    obtain rfl := Option.some.inj hitems
    obtain rfl := Option.some.inj hitems'
    exact isSome_node?_iff.1 (hall k (List.mem_of_getElem? hmem))
  | _ => simp [Json.arr?] at hitems

theorem script_iff (h : node? j = some n) {kind : ScriptKind} {code : Text} :
    (∃ loc, n = .script kind code loc) ↔ j.scriptKind? = some kind ∧ j.code? = some code := by
  obtain ⟨d, name, rfl, hname, hcode, -⟩ := exists_draft h
  rw [Json.scriptKind?, hname, Option.bind_some, ← hcode, Draft.ofKind]
  cases ScriptKind.ofName? name with
  | some script => cases d.code? <;> simp
  | none =>
    simp only
    split <;> simp

/-! ## Along addresses -/

theorem at?_of_node? (h : node? j = some n) {a : Address} {m : Node} :
    n.at? a = some m ↔ ∃ k, j.at? a = some k ∧ node? k = some m ∧ j.Clear a := by
  have hj : j.IsNode := isSome_node?_iff.1 (by rw [h]; rfl)
  induction a generalizing j n with
  | nil => simp [Node.at?, Json.at?, Json.clear_nil, hj, h]
  | cons e a ih =>
    rw [Node.at?_cons, below?_of_node? h, Json.at?_cons, Json.clear_cons]
    cases hk : j.below? e with
    | none => simp
    | some k =>
      cases hn : node? k with
      | none =>
        have hnot : ¬ k.Clear a := fun hclear => by
          have hnode := isSome_node?_iff.2 (hclear [] k List.nil_prefix rfl)
          rw [hn] at hnode
          cases hnode
        simp [hn, hnot]
      | some n' =>
        have hnode := isSome_node?_iff.1 (Option.isSome_of_mem hn)
        simp [hn, hj, ih hn hnode]

theorem isScript_iff (h : node? j = some n) {a : Address} :
    n.IsScript a ↔ j.Clear a ∧ ∃ kind code, j.ScriptAt a kind code := by
  constructor
  · rintro ⟨kind, code, loc, hat⟩
    obtain ⟨k, hk, hnode, hclear⟩ := (at?_of_node? h).1 hat
    obtain ⟨hkind, hcode⟩ := (script_iff hnode).1 ⟨loc, rfl⟩
    exact ⟨hclear, kind, code, k, hk, hkind, hcode⟩
  · rintro ⟨hclear, kind, code, k, hk, hkind, hcode⟩
    obtain ⟨m, hm⟩ := Option.isSome_iff_exists.1
      (isSome_node?_iff.2 (hclear a k (List.prefix_refl a) hk))
    obtain ⟨loc, rfl⟩ := (script_iff hm).2 ⟨hkind, hcode⟩
    exact ⟨kind, code, loc, (at?_of_node? h).2 ⟨k, hk, hm, hclear⟩⟩

theorem yields_clear (h : node? j = some n) : j.Yields j.Clear n.walk := by
  refine ⟨n.scripts, n.scripts_pairwise, fun a => Node.mem_scripts.trans (isScript_iff h), ?_⟩
  refine n.walk_visitAt.imp fun a v hv => ?_
  obtain ⟨k, hk, hnode, -⟩ := (at?_of_node? h).1 hv.script
  exact ⟨k, hk, (script_iff hnode).1 ⟨v.loc, rfl⟩⟩

/-- All scripts are visited exactly when no malformed node leads to one. -/
theorem yields_all_iff (h : node? j = some n) :
    j.Yields (fun _ => True) n.walk ↔ ∀ a kind code, j.ScriptAt a kind code → j.Clear a := by
  obtain ⟨places, hord, hmem, hvisits⟩ := yields_clear h
  constructor
  · rintro ⟨all, -, hall, hvisits'⟩ a kind code ha
    -- both lists are as long as the walk, and one has all that the other has
    have hnodup : places.Nodup := by
      refine hord.imp ?_
      rintro b _ hb rfl
      exact b.not_before_self hb
    have hsub : places ⊆ all := fun b hb => (hall b).2 ⟨trivial, ((hmem b).1 hb).2⟩
    have hlen : all.length ≤ places.length := by rw [hvisits.length_eq, hvisits'.length_eq]
    have hperm := (List.subperm_of_subset hnodup hsub).perm_of_length_le hlen
    have ha := hperm.symm.subset ((hall a).2 ⟨trivial, kind, code, ha⟩)
    exact ((hmem a).1 ha).1
  · intro hclear
    refine ⟨places, hord, fun a => ?_, hvisits⟩
    rw [hmem, true_and]
    refine ⟨And.right, fun hscript => ⟨?_, hscript⟩⟩
    obtain ⟨kind, code, ha⟩ := hscript
    exact hclear a kind code ha

/-- A malformed node is let through only inside a malformed value. -/
theorem exists_value_of_not_isNode (h : node? j = some n) {a : Address} {k : Json}
    (hk : j.at? a = some k) (hnot : ¬ k.IsNode) :
    ∃ b c v, a = b ++ .value :: c ∧ j.at? (b ++ [.value]) = some v ∧ ¬ v.IsNode := by
  induction a generalizing j n with
  | nil =>
    obtain rfl := Option.some.inj hk
    exact absurd (isSome_node?_iff.1 (Option.isSome_of_mem h)) hnot
  | cons e a ih =>
    rw [Json.at?_cons] at hk
    obtain ⟨m, hm, hk⟩ := Option.bind_eq_some_iff.1 hk
    by_cases hnode : m.IsNode
    · obtain ⟨n', hn'⟩ := Option.isSome_iff_exists.1 (isSome_node?_iff.2 hnode)
      obtain ⟨b, c, v, rfl, hv, hnot'⟩ := ih hn' hk
      refine ⟨e :: b, c, v, rfl, ?_, hnot'⟩
      rw [List.cons_append, Json.at?_cons, hm, Option.bind_some, hv]
    · cases e with
      | value => exact ⟨[], a, m, rfl, by rw [List.nil_append, Json.at?_cons, hm]; rfl, hnode⟩
      | child index => exact absurd (isNode_of_child h hm) hnode

/-- A walk of the tree read from a text comes by the scripts to which only well-formed nodes lead.
So it comes by all scripts of the text exactly when no malformed node leads to one. A malformed node
is let through only at or inside a malformed value. -/
theorem walk_yields_scripts_iff (t : Text) (raw : RawJson) (root : Node)
    (hraw : RawJson.ofText? t = some raw) (h : ofText? t = some (some root)) :
    raw.view.Yields raw.view.Clear root.walk ∧
    (raw.view.Yields (fun _ => True) root.walk ↔
      ∀ a kind code, raw.view.ScriptAt a kind code → raw.view.Clear a) ∧
    ∀ a k, raw.view.at? a = some k → ¬ k.IsNode →
      ∃ b c v, a = b ++ .value :: c ∧ raw.view.at? (b ++ [.value]) = some v ∧ ¬ v.IsNode := by
  have hnode := node?_view_of_ofText? hraw h
  exact ⟨yields_clear hnode, yields_all_iff hnode,
    fun a k hk hnot => exists_value_of_not_isNode hnode hk hnot⟩

/-! ## A program with an object in its value

The children of the object are a function and others, well formed or not. -/

def programText (others : String) : Text :=
  Text.ofString ("\x7b\"kind\":\"Program\",\"value\":\x7b\"kind\":\"Object\",\"children\":[" ++
    "\x7b\"kind\":\"Function\",\"body\":\"run()\"\x7d" ++ others ++ "]\x7d\x7d")

def programRaw (others : List RawJson) : RawJson :=
  let field (name : String) (r : RawJson) : Text × RawJson := (Text.ofString name, r)
  let quoted (s : String) : RawJson := .string (Text.ofString s)
  let function : RawJson :=
    .object [field "kind" (quoted "Function"), field "body" (quoted "run()")]
  .object [field "kind" (quoted "Program"),
    field "value" (.object [field "kind" (quoted "Object"),
      field "children" (.array (function :: others))])]

def functionJson : Json := .obj [("kind", .str "Function"), ("body", .str "run()")]

def objectJson (others : List Json) : Json :=
  .obj [("kind", .str "Object"), ("children", .arr (functionJson :: others))]

def programJson (others : List Json) : Json :=
  .obj [("kind", .str "Program"), ("value", objectJson others)]

theorem stringOf?_of_ascii {t : Text} (hescapes : RawJson.unescapeOnto [] t = some t)
    (hascii : ∀ b ∈ t, b < 0x80) :
    RawJson.stringOf? t = some (String.ofList (t.map fun b => Char.ofNat b.toNat)) := by
  have hpieces : t.pieces = t.map fun b => some (Char.ofNat b.toNat) := by
    clear hescapes
    induction t with
    | nil => simp [Text.pieces, Text.piecesOnto]
    | cons b t ih =>
      obtain ⟨hb, ht⟩ := List.forall_mem_cons.1 hascii
      rw [Text.pieces_cons_of_lt hb, ih ht, List.map_cons]
  have hchars : (t.map fun b => some (Char.ofNat b.toNat)).mapM id =
      some (t.map fun b => Char.ofNat b.toNat) := option_mapM_eq_some_iff.2 (by simp)
  rw [RawJson.stringOf?, hescapes, Option.bind_some, Text.toString?, Text.chars?, hpieces, hchars,
    Option.map_some]

theorem stringOf?_of_plain {names : List String}
    (h : ∀ s ∈ names, RawJson.unescapeOnto [] (Text.ofString s) = some (Text.ofString s) ∧
      (∀ b ∈ Text.ofString s, b < 0x80) ∧
      String.ofList ((Text.ofString s).map fun b => Char.ofNat b.toNat) = s) :
    ∀ s ∈ names, RawJson.stringOf? (Text.ofString s) = some s := by
  intro s hs
  obtain ⟨hescapes, hascii, hs⟩ := h s hs
  rw [stringOf?_of_ascii hescapes hascii, hs]

set_option maxRecDepth 4000 in
theorem stringOf?_program :
    ∀ s ∈ ["kind", "value", "body", "children", "Program", "Object", "Function", "run()"],
      RawJson.stringOf? (Text.ofString s) = some s :=
  stringOf?_of_plain (by decide)

theorem view_programRaw (others : List RawJson) :
    (programRaw others).view = programJson (RawJson.viewItems others) := by
  have hnames := stringOf?_program
  simp only [List.forall_mem_cons] at hnames
  simp [programRaw, programJson, objectJson, functionJson, RawJson.view, RawJson.viewFields,
    RawJson.viewItems, hnames]

theorem ofText?_programText {others : String} {raws : List RawJson} {js : List Json}
    (hraw : RawJson.ofText? (programText others) = some (programRaw raws))
    (hjs : RawJson.itemsToJson? 3 raws = some js) :
    ofText? (programText others) = (node? (programJson js)).map some := by
  have hnames := stringOf?_program
  simp only [List.forall_mem_cons] at hnames
  have hj : RawJson.toJson? 0 (pruneNode (programRaw raws)) = some (programJson js) := by
    simp [programRaw, programJson, objectJson, functionJson, pruneNode, pruneFields,
      RawJson.toJson?, RawJson.fieldsToJson?, RawJson.itemsToJson?, RawJson.maxDepth, hnames, hjs]
  simp only [ofText?, hraw, Option.bind_eq_bind, Option.bind_some, hj]
  rfl

theorem clear_program (a : Address) : (programJson []).Clear a := by
  have hfunction : ∀ a, functionJson.Clear a := by
    refine Json.clear_of_below (isSome_node?_iff.1 rfl) fun e k hk => ?_
    rw [Json.below?_of_isClosed (by decide)] at hk
    cases hk
  have hobject : ∀ a, (objectJson []).Clear a := by
    refine Json.clear_of_below (isSome_node?_iff.1 rfl) ?_
    rintro (_ | _ | index) k hk
    · cases hk
    · obtain rfl : functionJson = k := Option.some.inj hk
      exact hfunction
    · cases hk
  refine Json.clear_of_below (isSome_node?_iff.1 rfl) ?_ a
  rintro (_ | index) k hk
  · obtain rfl : objectJson [] = k := Option.some.inj hk
    exact hobject
  · cases hk

set_option maxRecDepth 4000 in
/-- With no others the function is found. -/
theorem walk_yields_nested :
    let raw := programRaw []
    let function : Node := .script .function (Text.ofString "run()") none
    let root : Node := .container .program (some (.container .object none [function] none)) [] none
    RawJson.ofText? (programText "") = some raw ∧ ofText? (programText "") = some (some root) ∧
      raw.view.Yields (fun _ => True) root.walk := by
  intro raw function root
  have hraw : RawJson.ofText? (programText "") = some raw := by rfl
  have htree : ofText? (programText "") = some (some root) := by
    rw [@ofText?_programText "" [] [] hraw rfl]
    rfl
  refine ⟨hraw, htree, (walk_yields_scripts_iff _ raw root hraw htree).2.1.2 fun a _ _ _ => ?_⟩
  rw [view_programRaw]
  exact clear_program a

set_option maxRecDepth 4000 in
/-- With another child, whose kind is a number, nothing is found and nothing fails. -/
theorem walk_loses_script :
    ¬ ∀ (t : Text) (raw : RawJson) (root : Node), RawJson.ofText? t = some raw →
      ofText? t = some (some root) → raw.view.Yields (fun _ => True) root.walk := by
  intro h
  let malformed : RawJson := .object [(Text.ofString "kind", .number (Text.ofString "1"))]
  have hraw : RawJson.ofText? (programText ",\x7b\"kind\":1\x7d") =
      some (programRaw [malformed]) := by
    rfl
  have hkind := stringOf?_program "kind" (by simp)
  have hmalformed : RawJson.itemsToJson? 3 [malformed] = some [.obj [("kind", .nat 1)]] := by
    simp [malformed, RawJson.itemsToJson?, RawJson.toJson?, RawJson.fieldsToJson?,
      RawJson.maxDepth, hkind]
    rfl
  have htree : ofText? (programText ",\x7b\"kind\":1\x7d") =
      some (some (.container .program none [] none)) := by
    rw [ofText?_programText hraw hmalformed]
    rfl
  obtain ⟨places, -, hmem, hvisits⟩ := h _ _ _ hraw htree
  rw [view_programRaw] at hmem
  have hscript : (programJson (RawJson.viewItems [malformed])).ScriptAt [.value, .child 0] .function
      (Text.ofString "run()") := ⟨functionJson, rfl, by decide, by decide⟩
  have hplace := (hmem _).2 ⟨trivial, _, _, hscript⟩
  -- the walk is empty, so no place can be listed
  have hwalk : (Node.container .program none [] none).walk = [] := by
    rw [Node.walk_eq_visits]
    rfl
  rw [hwalk, List.forall₂_nil_right_iff] at hvisits
  rw [hvisits] at hplace
  cases hplace

end TreeWire
end Inlay
