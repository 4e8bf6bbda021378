import Mathlib.Data.List.Sort
import Inlay.Proofs.Addresses
import Inlay.Proofs.Pipeline
import Inlay.Proofs.Recognition

/-! Which blocks a document has. The directives right before a script are a run of its earlier
siblings: the comment at some address belongs to the run when from there up to the script every
sibling is a directive. A script has a block unless its run holds a directive to skip it, and the
comments of the block stand for the run. So the blocks of a document follow from its tree alone, in
document order. -/

namespace Inlay

/-! ## Runs of directives -/

theorem leadingDirectives_spec (ns : List Node) :
    ∃ run rest, ns = run ++ rest ∧ run.map Node.directive? = (leadingDirectives ns).map some ∧
      ∀ n ∈ rest.head?, n.directive? = none := by
  induction ns with
  | nil => exact ⟨[], [], rfl, rfl, by simp⟩
  | cons n ns ih =>
    rw [leadingDirectives]
    cases hn : n.directive? with
    | none => exact ⟨[], n :: ns, rfl, rfl, by simp [hn]⟩
    | some d =>
      obtain ⟨run, rest, rfl, hrun, hrest⟩ := ih
      exact ⟨n :: run, rest, rfl, by simp [hn, hrun], hrest⟩

theorem Visit.directives_spec (v : Visit) :
    ∃ front run, v.preceding = front ++ run ∧ run.map Node.directive? = v.directives.map some ∧
      ∀ n ∈ front.getLast?, n.directive? = none := by
  obtain ⟨run, rest, hsplit, hrun, hrest⟩ := leadingDirectives_spec v.preceding.reverse
  refine ⟨rest.reverse, run.reverse, ?_, ?_, ?_⟩
  · rw [← List.reverse_append, ← hsplit, List.reverse_reverse]
  · rw [List.map_reverse, hrun, directives, List.map_reverse]
  · rwa [List.getLast?_reverse]

theorem Visit.comments?_eq_none_iff {v : Visit} : v.comments? = none ↔ .skip ∈ v.directives := by
  unfold comments?
  induction v.directives with
  | nil => simp
  | cons d ds ih =>
    cases d with
    | skip => simp [List.mapM_cons, Directive.comment?]
    | config body =>
      cases hds : ds.mapM Directive.comment? <;>
        simpa [List.mapM_cons, Directive.comment?, hds] using ih

namespace Node

/-- The node at an address is a comment and a directive, with a body and its words. -/
def DirectiveAt (root : Node) (a : Address) (body : Text) (words : List Char) : Prop :=
  ∃ text loc, root.at? a = some (.comment text loc) ∧ Directive.Reads text body words

/-- The comment at `k` is one of the directives right before the node at `a`: both are children of
one node, and from the one up to the other all children are directives. -/
def Annotates (root : Node) (k a : Address) : Prop :=
  ∃ parent i j, k = parent ++ [.child i] ∧ a = parent ++ [.child j] ∧ i < j ∧
    ∀ l, i ≤ l → l < j → ∃ body words, root.DirectiveAt (parent ++ [.child l]) body words

/-- One of the directives right before the node at `a` says to skip it. -/
def Skips (root : Node) (a : Address) : Prop :=
  ∃ k body, root.Annotates k a ∧ root.DirectiveAt k body "eslint-skip".toList

/-- What extraction reads from the node at an address. -/
def directiveAt? (root : Node) (a : Address) : Option Directive := (root.at? a).bind directive?

theorem directiveAt?_eq_some_iff {root : Node} {a : Address} {d : Directive} :
    root.directiveAt? a = some d ↔ ∃ body words, root.DirectiveAt a body words ∧
      d = if words = Directive.skipBody.toList then .skip else .config body := by
  unfold directiveAt? DirectiveAt
  cases hn : root.at? a with
  | none => simp
  | some n =>
    cases n with
    | comment text loc => simp [directive?, Directive.ofComment?_eq_some_iff]
    | script kind code loc => simp [directive?]
    | container kind value children loc => simp [directive?]

theorem exists_directiveAt_iff {root : Node} {a : Address} :
    (∃ body words, root.DirectiveAt a body words) ↔ ∃ d, root.directiveAt? a = some d := by
  simp only [directiveAt?_eq_some_iff]
  exact ⟨fun ⟨body, words, h⟩ => ⟨_, body, words, h, rfl⟩,
    fun ⟨_, body, words, h, _⟩ => ⟨body, words, h⟩⟩

theorem directiveAt?_eq_skip_iff {root : Node} {a : Address} :
    root.directiveAt? a = some .skip ↔ ∃ body, root.DirectiveAt a body "eslint-skip".toList := by
  rw [directiveAt?_eq_some_iff]
  refine ⟨fun h => ?_, fun h => ?_⟩
  · obtain ⟨body, words, hat, hskip⟩ := h
    split_ifs at hskip with hwords
    rw [hwords] at hat
    exact ⟨body, hat⟩
  · obtain ⟨body, h⟩ := h
    exact ⟨body, Directive.skipBody.toList, h, (if_pos rfl).symm⟩

theorem annotates_iff {root : Node} {k a : Address} :
    root.Annotates k a ↔ ∃ parent i j, k = parent ++ [.child i] ∧ a = parent ++ [.child j] ∧
      i < j ∧ ∀ l, i ≤ l → l < j → ∃ d, root.directiveAt? (parent ++ [.child l]) = some d := by
  simp only [Annotates, exists_directiveAt_iff]

theorem skips_iff {root : Node} {a : Address} :
    root.Skips a ↔ ∃ k, root.Annotates k a ∧ root.directiveAt? k = some .skip := by
  simp only [Skips, directiveAt?_eq_skip_iff, exists_and_left]

theorem DirectiveAt.body_eq {root : Node} {a : Address} {body body' : Text} {words : List Char}
    (h : root.DirectiveAt a body words) (h' : root.directiveAt? a = some (.config body')) :
    body = body' := by
  obtain ⟨text, loc, hat, hreads⟩ := h
  obtain ⟨body'', words', ⟨text', loc', hat', hreads'⟩, hd⟩ := directiveAt?_eq_some_iff.1 h'
  rw [hat] at hat'
  cases hat'
  have hbody := (Directive.reads_iff.1 hreads).1.symm.trans (Directive.reads_iff.1 hreads').1
  split_ifs at hd
  rw [Option.some.inj hbody, Directive.config.inj hd]

/-- What stands for a directive that is not to skip a script is a block comment of its body. -/
theorem exists_body_of_comment {root : Node} {a : Address} {comment : Text}
    (h : (root.directiveAt? a).bind Directive.comment? = some comment) :
    ∃ body words, root.DirectiveAt a body words ∧
      comment = Text.ofString "/*" ++ body ++ Text.ofString "*/" := by
  obtain ⟨d, hd, hcomment⟩ := Option.bind_eq_some_iff.1 h
  obtain ⟨body, words, hat, rfl⟩ := directiveAt?_eq_some_iff.1 hd
  split_ifs at hcomment
  · cases hcomment
  · exact ⟨body, words, hat, (Option.some.inj hcomment).symm⟩

theorem directiveAt?_child {root m : Node} {parent : Address} (h : root.at? parent = some m)
    (i : Nat) :
    root.directiveAt? (parent ++ [.child i]) = m.children[i]?.bind directive? := by
  rw [directiveAt?, at?_append, h, Option.bind_some, at?_cons]
  cases hi : m.children[i]? with
  | none => simp [below?, hi]
  | some n => simp [below?, hi, at?]

theorem directiveAt?_sibling {root m : Node} {parent : Address} (h : root.at? parent = some m)
    {j l : Nat} (hl : l < j) :
    root.directiveAt? (parent ++ [.child l]) = (m.children.take j)[l]?.bind directive? := by
  rw [directiveAt?_child h, List.getElem?_take_of_lt hl]

theorem append_child_inj {p q : Address} {e f : Edge} (h : p ++ [e] = q ++ [f]) :
    p = q ∧ e = f := by
  obtain ⟨hp, he⟩ := List.append_inj' h rfl
  exact ⟨hp, by simpa using he⟩

/-- The run before a child starts behind the last child in front that is no directive. -/
theorem annotates_child_iff {root m : Node} {parent : Address} {j : Nat} {front run : List Node}
    {ds : List Directive} (hm : root.at? parent = some m) (hj : j ≤ m.children.length)
    (hsplit : m.children.take j = front ++ run) (hrun : run.map directive? = ds.map some)
    (hfront : ∀ n ∈ front.getLast?, n.directive? = none) {k : Address} :
    root.Annotates k (parent ++ [.child j]) ↔
      ∃ i, front.length ≤ i ∧ i < j ∧ k = parent ++ [.child i] := by
  rw [annotates_iff]
  have hlength := congrArg List.length hsplit
  rw [List.length_take, Nat.min_eq_left hj, List.length_append] at hlength
  constructor
  · rintro ⟨parent', i, j', rfl, ha, hij, hall⟩
    obtain ⟨rfl, hchild⟩ := append_child_inj ha
    obtain rfl : j = j' := by simpa using hchild
    refine ⟨i, ?_, hij, rfl⟩
    by_contra hlt
    -- the last node in front would have to be a directive
    obtain ⟨d, hd⟩ := hall (front.length - 1) (by omega) (by omega)
    rw [directiveAt?_sibling hm (j := j) (by omega), hsplit,
      List.getElem?_append_left (by omega), ← List.getLast?_eq_getElem?] at hd
    obtain ⟨n, hn, hnd⟩ := Option.bind_eq_some_iff.1 hd
    rw [hfront n hn] at hnd
    cases hnd
  · rintro ⟨i, hi, hij, rfl⟩
    refine ⟨parent, i, j, rfl, rfl, hij, fun l hil hlj => ?_⟩
    have hget := congrArg (fun xs => xs[l - front.length]?) hrun
    simp only [List.getElem?_map] at hget
    have hd : l - front.length < ds.length := by
      have := congrArg List.length hrun
      simp only [List.length_map] at this
      omega
    rw [List.getElem?_eq_getElem hd, Option.map_some] at hget
    obtain ⟨n, hn, hnd⟩ := Option.map_eq_some_iff.1 hget
    refine ⟨ds[l - front.length], ?_⟩
    rw [directiveAt?_sibling hm hlj, hsplit, List.getElem?_append_right (by omega), hn,
      Option.bind_some, hnd]

theorem VisitAt.exists_run {root : Node} {a : Address} {v : Visit} (h : root.VisitAt 0 [] a v) :
    ∃ ks : List Address, ks.Pairwise Address.Before ∧ (∀ k, k ∈ ks ↔ root.Annotates k a) ∧
      ks.map root.directiveAt? = v.directives.map some := by
  have hpreceding := h.preceding_eq
  rcases List.eq_nil_or_concat' a with rfl | ⟨parent, e, rfl⟩
  · refine ⟨[], .nil, fun k => ?_, by simp [Visit.directives, hpreceding, leadingDirectives]⟩
    simp [Annotates]
  rw [if_neg (by simp)] at hpreceding
  cases e with
  | value =>
    rw [siblingsBefore_value] at hpreceding
    refine ⟨[], .nil, fun k => ?_, by simp [Visit.directives, hpreceding, leadingDirectives]⟩
    refine ⟨fun hk => by simp at hk, ?_⟩
    rintro ⟨parent', i, j, -, ha, -⟩
    cases (append_child_inj ha).2
  | child j =>
    have hscript := h.script
    rw [at?_append] at hscript
    obtain ⟨m, hm, hchild⟩ := Option.bind_eq_some_iff.1 hscript
    obtain ⟨n, hn, -⟩ := Option.bind_eq_some_iff.1 hchild
    have hj : j < m.children.length := (List.getElem?_eq_some_iff.1 hn).1
    rw [siblingsBefore_child, hm] at hpreceding
    obtain ⟨front, run, hsplit, hrun, hfront⟩ := v.directives_spec
    rw [hpreceding, Option.map_some, Option.getD_some] at hsplit
    have hannotates := fun k => annotates_child_iff (k := k) hm hj.le hsplit hrun hfront
    have hlength := congrArg List.length hsplit
    simp only [List.length_take, List.length_append] at hlength
    refine ⟨(List.range' front.length run.length).map fun i => parent ++ [.child i], ?_, ?_, ?_⟩
    · have hrange : (List.range' front.length run.length).Pairwise (· < ·) :=
        List.pairwise_lt_range'
      refine hrange.map _ fun i i' hlt => List.Lex.append_left _ (.rel ?_) parent
      exact Nat.succ_lt_succ hlt
    · intro k
      rw [hannotates, List.mem_map]
      constructor
      · rintro ⟨i, hi, rfl⟩
        rw [List.mem_range'_1] at hi
        exact ⟨i, hi.1, by omega, rfl⟩
      · rintro ⟨i, hi, hij, rfl⟩
        exact ⟨i, List.mem_range'_1.2 ⟨hi, by omega⟩, rfl⟩
    · rw [← hrun, List.map_map]
      refine List.ext_getElem (by simp) fun l hl hrunl => ?_
      simp only [List.length_map] at hrunl
      simp only [List.getElem_map, List.getElem_range', Function.comp_apply, Nat.one_mul]
      rw [directiveAt?_sibling hm (j := j) (by omega), hsplit,
        List.getElem?_append_right (by omega), Nat.add_sub_cancel_left,
        List.getElem?_eq_getElem hrunl, Option.bind_some]

end Node

/-! ## Indents -/

/-- The indent of a script at some depth stays in its words. -/
def IndentStyle.Fits (style : IndentStyle) (document : Text) (width depth : Nat)
    (kind : ScriptKind) (loc : Option Location) : Prop :=
  match style with
  | .nesting => depth * width < Word.bound64
  | .column => kind.layout = .fenced → ∀ l ∈ loc, l.fits document = true →
      l.start.column + Word.low32 (Visit.fenceIndent document l) < Word.bound32

theorem Visit.mem_locIn {v : Visit} {document : Text} {l : Location} :
    l ∈ v.locIn document ↔ l ∈ v.loc ∧ l.fits document = true := by
  simp [locIn, Option.mem_def, Option.filter_eq_some_iff]

theorem Visit.exists_indent_iff {v : Visit} {document : Text} {style : IndentStyle} {width : Nat} :
    (∃ n, v.indent document style width = .ok n) ↔
      style.Fits document width v.depth v.kind v.loc := by
  cases style with
  | nesting =>
    by_cases hfits : v.depth * width < Word.bound64 <;>
      simp [indent, IndentStyle.Fits, map_eq_ok_iff, Word.mul64, hfits]
  | column =>
    simp only [IndentStyle.Fits]
    cases hloc : v.locIn document with
    | none =>
      simp only [indent, hloc]
      refine iff_of_true ⟨1, rfl⟩ fun _ l hl hfits => ?_
      have := mem_locIn.2 ⟨hl, hfits⟩
      simp [hloc] at this
    | some loc =>
      obtain ⟨hl, hfits⟩ := mem_locIn.1 hloc
      have hall : ∀ l ∈ v.loc, l = loc := fun l hl' => Option.mem_unique hl' hl
      simp only [indent, hloc]
      cases v.kind.layout with
      | inline => exact iff_of_true ⟨_, rfl⟩ fun h => by cases h
      | fenced =>
        constructor
        · rintro ⟨n, hn⟩ - l hl' -
          rw [hall l hl']
          exact (Word.add32_eq_ok.1 hn).1
        · intro h
          exact ⟨_, Word.add32_eq_ok.2 ⟨h rfl loc hl hfits, rfl⟩⟩

theorem Cycle.extractAll_cons {document : Text} {style : IndentStyle} {width : Nat} {v : Visit}
    {visits : List Visit} {r : Option Block} {blocks : List Block}
    (hv : v.extract document style width = .ok r)
    (hvisits : extractAll document style width visits = .ok blocks) :
    extractAll document style width (v :: visits) = .ok (r.toList ++ blocks) :=
  mapM_filterMap_cons (f := fun v => Visit.extract v document style width) hv hvisits

/-! ## Blocks -/

namespace Node

/-- The block of the script at an address. Its comments are the bodies of the directives right
before the script, each between the delimiters of a block comment. -/
structure BlockAt (root : Node) (document : Text) (a : Address) (b : Block) : Prop where
  script : ∃ loc, root.at? a = some (.script b.kind b.code loc) ∧
    b.loc = loc.filter (·.fits document)
  comments : ∃ ks : List Address, ks.Pairwise Address.Before ∧
    (∀ k, k ∈ ks ↔ root.Annotates k a) ∧
    List.Forall₂ (fun k comment => ∃ body words, root.DirectiveAt k body words ∧
      comment = Text.ofString "/*" ++ body ++ Text.ofString "*/") ks b.comments

variable {root : Node} {a : Address} {v : Visit} {document : Text} {style : IndentStyle}
  {width : Nat}

theorem VisitAt.comments?_eq_none_iff (h : root.VisitAt 0 [] a v) :
    v.comments? = none ↔ root.Skips a := by
  obtain ⟨ks, -, hks, hdirectives⟩ := h.exists_run
  rw [Visit.comments?_eq_none_iff, skips_iff]
  constructor
  · intro hskip
    have hmem : some .skip ∈ ks.map root.directiveAt? := by
      rw [hdirectives]
      exact List.mem_map_of_mem hskip
    obtain ⟨k, hk, hskip⟩ := List.mem_map.1 hmem
    exact ⟨k, (hks k).1 hk, hskip⟩
  · rintro ⟨k, hk, hskip⟩
    have hmem : some .skip ∈ v.directives.map some := by
      rw [← hdirectives]
      exact List.mem_map.2 ⟨k, (hks k).2 hk, hskip⟩
    simpa using hmem

theorem VisitAt.exists_extract (h : root.VisitAt 0 [] a v)
    (hfits : ¬ root.Skips a → style.Fits document width v.depth v.kind v.loc) :
    ∃ r, v.extract document style width = .ok r ∧ (r = none ↔ root.Skips a) ∧
      ∀ b ∈ r, root.BlockAt document a b := by
  obtain ⟨ks, hsorted, hks, hdirectives⟩ := h.exists_run
  have hskips := h.comments?_eq_none_iff
  cases hcomments : v.comments? with
  | none => exact ⟨none, by simp [Visit.extract, hcomments], by simp [← hskips, hcomments], by simp⟩
  | some comments =>
    have hkept : ¬ root.Skips a := by
      rw [← hskips, hcomments]
      simp
    obtain ⟨indent, hindent⟩ := Visit.exists_indent_iff.2 (hfits hkept)
    refine ⟨_, Visit.extract_eq_some_iff.2 ⟨comments, indent, hcomments, hindent, rfl⟩,
      by simp [hkept], ?_⟩
    rintro b ⟨⟩
    refine ⟨⟨v.loc, h.script, rfl⟩, ks, hsorted, hks, ?_⟩
    have hmap : ks.map (fun k => (root.directiveAt? k).bind Directive.comment?) =
        comments.map some := by
      rw [← option_mapM_eq_some_iff.1 hcomments]
      have hbind := congrArg (List.map fun d => d.bind Directive.comment?) hdirectives
      simpa [List.map_map, Function.comp_def] using hbind
    rw [← List.forall₂_eq_eq_eq, List.forall₂_map_left_iff, List.forall₂_map_right_iff] at hmap
    exact hmap.imp fun k comment => exists_body_of_comment

/-- Extraction from visited scripts keeps those that are not to be skipped, in their order. -/
theorem exists_extractAll {places : List Address} {visits : List Visit}
    (h : List.Forall₂ (root.VisitAt 0 []) places visits)
    (hfits : ∀ a v, root.VisitAt 0 [] a v → ¬ root.Skips a →
      style.Fits document width v.depth v.kind v.loc) :
    ∃ kept blocks, Cycle.extractAll document style width visits = .ok blocks ∧
      kept.Sublist places ∧ (∀ a, a ∈ kept ↔ a ∈ places ∧ ¬ root.Skips a) ∧
      List.Forall₂ (root.BlockAt document) kept blocks := by
  induction h with
  | nil => exact ⟨[], [], rfl, .slnil, by simp, .nil⟩
  | @cons a v places visits hav _ ih =>
    obtain ⟨kept, blocks, hblocks, hsub, hkept, hall⟩ := ih
    obtain ⟨r, hr, hskips, hblock⟩ := hav.exists_extract (hfits a v hav)
    have hcons := Cycle.extractAll_cons hr hblocks
    cases r with
    | none =>
      have hskipped := hskips.1 rfl
      refine ⟨kept, blocks, hcons, hsub.cons a, fun a' => ?_, hall⟩
      rw [hkept, List.mem_cons]
      constructor
      · exact fun ⟨hmem, hno⟩ => ⟨Or.inr hmem, hno⟩
      · rintro ⟨rfl | hmem, hno⟩
        · exact absurd hskipped hno
        · exact ⟨hmem, hno⟩
    | some b =>
      have hno : ¬ root.Skips a := fun hs => by cases hskips.2 hs
      refine ⟨a :: kept, b :: blocks, hcons, hsub.cons_cons a, fun a' => ?_,
        .cons (hblock b rfl) hall⟩
      rw [List.mem_cons, List.mem_cons, hkept]
      constructor
      · rintro (rfl | ⟨hmem, hno'⟩)
        · exact ⟨Or.inl rfl, hno⟩
        · exact ⟨Or.inr hmem, hno'⟩
      · rintro ⟨rfl | hmem, hno'⟩
        · exact Or.inl rfl
        · exact Or.inr ⟨hmem, hno'⟩

/-- A directive belongs to the run of one script only: the first script behind it ends its run. -/
theorem Annotates.unique {k a a' : Address} (h : root.Annotates k a) (h' : root.Annotates k a')
    (ha : root.IsScript a) (ha' : root.IsScript a') : a = a' := by
  -- a script is no directive, so no run goes on behind it
  have hnot : ∀ {b}, root.IsScript b → root.directiveAt? b = none := by
    rintro b ⟨kind, code, loc, hb⟩
    rw [directiveAt?, hb]
    rfl
  obtain ⟨parent, i, j, rfl, rfl, hij, hall⟩ := annotates_iff.1 h
  obtain ⟨parent', i', j', hk, rfl, hij', hall'⟩ := annotates_iff.1 h'
  obtain ⟨rfl, hchild⟩ := append_child_inj hk
  obtain rfl : i = i' := by simpa using hchild
  rcases Nat.lt_trichotomy j j' with hlt | rfl | hlt
  · obtain ⟨d, hd⟩ := hall' j hij.le hlt
    rw [hnot ha] at hd
    cases hd
  · rfl
  · obtain ⟨d, hd⟩ := hall j' hij'.le hlt
    rw [hnot ha'] at hd
    cases hd

end Node

namespace Processor

/-- The blocks of a document are those of the scripts of its tree that are not to be skipped, in
document order, and the comments of a block stand for the run of directives right before its script.
A directive belongs to the run of one script at most, none reaches a script past a sibling that is
no directive, and a nested value has no run. -/
theorem preprocess_blocks (p : Processor) {document : Text} {tree : Node}
    (htree : p.parser.parse document = .ok (some tree))
    (hfits : ∀ a kind code loc, tree.at? a = some (.script kind code loc) → ¬ tree.Skips a →
      p.parser.indentStyle.Fits document p.indentWidth a.length kind loc) :
    ∃ c places, p.preprocess document = .ok c ∧ c.filter = p.filter ∧
      places.Pairwise Address.Before ∧ (∀ a, a ∈ places ↔ tree.IsScript a ∧ ¬ tree.Skips a) ∧
      List.Forall₂ (tree.BlockAt document) places c.blocks ∧
      (∀ k a a', a ∈ places → a' ∈ places → tree.Annotates k a → tree.Annotates k a' → a = a') ∧
      (∀ parent i j l, i ≤ l → l < j →
        (∀ body words, ¬ tree.DirectiveAt (parent ++ [.child l]) body words) →
        ¬ tree.Annotates (parent ++ [.child i]) (parent ++ [.child j])) ∧
      (∀ parent k, ¬ tree.Annotates k (parent ++ [.value])) := by
  have hvisits : ∀ a v, tree.VisitAt 0 [] a v → ¬ tree.Skips a →
      p.parser.indentStyle.Fits document p.indentWidth v.depth v.kind v.loc := by
    intro a v hav hno
    rw [hav.depth_eq, Nat.zero_add]
    exact hfits a v.kind v.code v.loc hav.script hno
  obtain ⟨places, blocks, hblocks, hsub, hplaces, hall⟩ :=
    Node.exists_extractAll tree.walk_visitAt hvisits
  have hscripts : ∀ a, a ∈ places ↔ tree.IsScript a ∧ ¬ tree.Skips a := fun a => by
    rw [hplaces, Node.mem_scripts]
  refine ⟨⟨blocks, p.filter⟩, places, preprocess_eq_ok_iff.2 ⟨some tree, htree, hblocks, rfl⟩, rfl,
    tree.scripts_pairwise.sublist hsub, hscripts, hall, ?_, ?_, ?_⟩
  · intro k a a' ha ha' h h'
    exact h.unique h' ((hscripts a).1 ha).1 ((hscripts a').1 ha').1
  · rintro parent i j l hil hlj hnone ⟨parent', i', j', hk, ha, -, hdirectives⟩
    obtain ⟨rfl, hi⟩ := Node.append_child_inj hk
    obtain ⟨-, hj⟩ := Node.append_child_inj ha
    obtain ⟨rfl, rfl⟩ : i = i' ∧ j = j' := by simpa using And.intro hi hj
    obtain ⟨body, words, hbody⟩ := hdirectives l hil hlj
    exact hnone body words hbody
  · rintro parent k ⟨parent', i, j, -, ha, -⟩
    cases (Node.append_child_inj ha).2

/-- A value behind a directive, a script to be skipped, and one with a run of two directives. -/
def annotatedTree : Node :=
  .container .program none
    [.comment (Text.ofString "<!-- eslint -->") none,
      .container .property (some (.script .value (Text.ofString "a") none)) [] none,
      .comment (Text.ofString "/* eslint-skip */") none,
      .script .block (Text.ofString "b") none,
      .comment (Text.ofString "<!-- global x -->") none,
      .comment (Text.ofString "//eslint-env node") none,
      .script .function (Text.ofString "c") none] none

theorem annotates_six {k : Address} :
    annotatedTree.Annotates k [.child 6] ↔ k = [.child 4] ∨ k = [.child 5] := by
  have htree : annotatedTree.at? [] = some annotatedTree := rfl
  have hsplit : annotatedTree.children.take 6 =
      annotatedTree.children.take 4 ++ (annotatedTree.children.drop 4).take 2 := rfl
  have hrun : ((annotatedTree.children.drop 4).take 2).map Node.directive? =
      [Directive.config (Text.ofString " global x "), .config (Text.ofString "eslint-env node")].map
        some := by
    decide +kernel
  have hfront : ∀ n ∈ (annotatedTree.children.take 4).getLast?, n.directive? = none := by
    rintro n ⟨⟩
    rfl
  have hlength : (annotatedTree.children.take 4).length = 4 := rfl
  have hannotates := Node.annotates_child_iff (k := k) (j := 6) htree (by decide) hsplit hrun hfront
  rw [List.nil_append, hlength] at hannotates
  rw [hannotates]
  refine ⟨fun h => ?_, fun h => ?_⟩
  · obtain ⟨i, hi, hi', rfl⟩ := h
    obtain rfl | rfl : i = 4 ∨ i = 5 := by omega
    · exact Or.inl rfl
    · exact Or.inr rfl
  · obtain rfl | rfl := h
    · exact ⟨4, by decide, by decide, rfl⟩
    · exact ⟨5, by decide, by decide, rfl⟩

theorem comments_annotated {b : Block} (h : annotatedTree.BlockAt [] [.child 6] b) :
    b.comments = [Text.ofString "/* global x */", Text.ofString "/*eslint-env node*/"] := by
  have hglobal : annotatedTree.directiveAt? [.child 4] =
      some (.config (Text.ofString " global x ")) := by decide +kernel
  have henv : annotatedTree.directiveAt? [.child 5] =
      some (.config (Text.ofString "eslint-env node")) := by decide +kernel
  obtain ⟨ks, hsorted, hks, hcomments⟩ := h.comments
  have hmem : ∀ k, k ∈ ks ↔ k ∈ [[Edge.child 4], [.child 5]] := fun k => by
    rw [hks, annotates_six]
    simp
  have hpair : [[Edge.child 4], [.child 5]].Pairwise Address.Before :=
    List.pairwise_pair.2 (.rel (by decide))
  have : Std.Irrefl Address.Before := ⟨Address.not_before_self⟩
  obtain rfl := hsorted.eq_of_mem_iff hpair hmem
  obtain ⟨_, _, ⟨body, words, hbody, rfl⟩, hrest, hb⟩ := List.forall₂_cons_left_iff.1 hcomments
  obtain ⟨_, _, ⟨body', words', hbody', rfl⟩, hnil, rfl⟩ := List.forall₂_cons_left_iff.1 hrest
  rw [hb, List.forall₂_nil_left_iff.1 hnil, hbody.body_eq hglobal, hbody'.body_eq henv]
  decide +kernel

/-- The value and the script behind two directives have blocks, the one to be skipped has none, and
the directives of the other style are turned into block comments. -/
theorem preprocess_blocks_annotated :
    let p : Processor :=
      ⟨⟨"tree", .nesting, fun _ => .ok (some annotatedTree)⟩, 4, .ofRules [] true⟩
    annotatedTree.scripts = [[.child 1, .value], [.child 3], [.child 6]] ∧
    ∃ c places, p.preprocess [] = .ok c ∧
      List.Forall₂ (annotatedTree.BlockAt []) places c.blocks ∧
      [.child 1, .value] ∈ places ∧ [.child 3] ∉ places ∧ [.child 6] ∈ places ∧
      ∃ b ∈ c.blocks, annotatedTree.BlockAt [] [.child 6] b ∧
        b.comments = [Text.ofString "/* global x */", Text.ofString "/*eslint-env node*/"] := by
  intro p
  have hscripts : annotatedTree.scripts = [[.child 1, .value], [.child 3], [.child 6]] := by
    decide +kernel
  have hfits : ∀ a kind code loc, annotatedTree.at? a = some (.script kind code loc) →
      ¬ annotatedTree.Skips a → IndentStyle.nesting.Fits [] 4 a.length kind loc := by
    intro a kind code loc hat _
    have ha := Node.mem_scripts.2 ⟨kind, code, loc, hat⟩
    rw [hscripts] at ha
    have hall : ∀ b ∈ [[Edge.child 1, .value], [.child 3], [.child 6]],
        b.length * 4 < Word.bound64 := by decide
    exact hall a ha
  obtain ⟨c, places, hc, -, -, hplaces, hall, -, -, hvalue⟩ := preprocess_blocks p rfl hfits
  have hsix : [.child 6] ∈ places := by
    refine (hplaces _).2 ⟨Node.mem_scripts.1 (by simp [hscripts]), ?_⟩
    rw [Node.skips_iff]
    rintro ⟨k, hk, hskip⟩
    rcases annotates_six.1 hk with rfl | rfl
    · revert hskip
      decide +kernel
    · revert hskip
      decide +kernel
  refine ⟨hscripts, c, places, hc, hall, ?_, ?_, hsix, ?_⟩
  · refine (hplaces _).2 ⟨Node.mem_scripts.1 (by simp [hscripts]), ?_⟩
    rintro ⟨k, -, hk, -⟩
    exact hvalue [.child 1] k hk
  · intro hmem
    refine ((hplaces _).1 hmem).2 (Node.skips_iff.2 ⟨[.child 2], ?_, by decide +kernel⟩)
    refine Node.annotates_iff.2 ⟨[], 2, 3, rfl, rfl, by decide, fun l hl hl' => ?_⟩
    obtain rfl : l = 2 := by omega
    exact ⟨.skip, by decide +kernel⟩
  · obtain ⟨b, hb, hblock⟩ := exists_right_of_forall₂ hall hsix
    exact ⟨b, hb, hblock, comments_annotated hblock⟩

end Processor
end Inlay
