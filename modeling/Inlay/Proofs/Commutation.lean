import Inlay.Proofs.Alignment
import Inlay.Proofs.Overlap
import Inlay.Proofs.Pipeline

/-! Fixing the document is fixing the code. An offset on the text of a code line and its image in
the document cut both texts at the same place: before the cut the code line ends the document line,
after it the two lines differ at most in their line endings. Any text without `\r` may be put
between what is before one such cut and what is after another, and the lines are aligned again. -/

namespace Inlay
namespace RangeMap

open Text (linesLength carriageReturn newline)

/-! ## Places -/

/-- A place on the text of a code line, with the document line it comes from. -/
structure Place (raws codes : List Text) where
  preRaw : List Text
  raw : Text
  postRaw : List Text
  pre : List Text
  code : Text
  post : List Text
  column : Nat
  raws_eq : raws = preRaw ++ raw :: postRaw
  codes_eq : codes = pre ++ code :: post
  fits_pre : List.Forall₂ LineFits preRaw pre
  fits : LineFits raw code
  aligned_post : Aligned postRaw post
  column_le : column ≤ code.stripReturn.length

namespace Place

variable {raws codes : List Text}

def trim (q : Place raws codes) : Nat := q.raw.stripReturn.length - q.code.stripReturn.length

def codeOffset (q : Place raws codes) : Nat := linesLength q.pre + q.column

def documentOffset (q : Place raws codes) : Nat := linesLength q.preRaw + (q.trim + q.column)

theorem trim_add_le (q : Place raws codes) : q.trim + q.column ≤ q.raw.stripReturn.length := by
  have hlen := q.fits.length_le
  have hcolumn := q.column_le
  unfold trim
  omega

theorem column_le_length (q : Place raws codes) : q.column ≤ q.code.length :=
  Nat.le_trans q.column_le (Text.stripReturn_isPrefix q.code).length_le

theorem trim_add_le_length (q : Place raws codes) : q.trim + q.column ≤ q.raw.length :=
  Nat.le_trans q.trim_add_le (Text.stripReturn_isPrefix q.raw).length_le

theorem length_preRaw (q : Place raws codes) : q.preRaw.length = q.pre.length :=
  q.fits_pre.length_eq

/-- Of two places either one is on an earlier line than the other, in the code and in the document,
or both are on one line, with the same bytes before the code line. -/
theorem line_cases (p q : Place raws codes) :
    (p.pre.length < q.pre.length ∧ linesLength p.pre + p.code.length < linesLength q.pre ∧
      linesLength p.preRaw + p.raw.length < linesLength q.preRaw) ∨
    (p.pre = q.pre ∧ p.preRaw = q.preRaw ∧ p.trim = q.trim) ∨
    (q.pre.length < p.pre.length ∧ linesLength q.pre + q.code.length < linesLength p.pre) := by
  rcases Nat.lt_trichotomy p.pre.length q.pre.length with hlt | heq | hlt
  · refine Or.inl ⟨hlt, Text.linesLength_lt p.codes_eq q.codes_eq hlt, ?_⟩
    apply Text.linesLength_lt p.raws_eq q.raws_eq
    rwa [p.length_preRaw, q.length_preRaw]
  · obtain ⟨hpre, hcode⟩ := List.append_inj (p.codes_eq.symm.trans q.codes_eq) heq
    obtain ⟨hpreRaw, hraw⟩ := List.append_inj (p.raws_eq.symm.trans q.raws_eq)
      (by rw [p.length_preRaw, q.length_preRaw]; exact heq)
    refine Or.inr (Or.inl ⟨hpre, hpreRaw, ?_⟩)
    rw [trim, trim, (List.cons.inj hcode).1, (List.cons.inj hraw).1]
  · exact Or.inr (Or.inr ⟨hlt, Text.linesLength_lt q.codes_eq p.codes_eq hlt⟩)

theorem documentOffset_lt_iff {p q : Place raws codes} :
    p.documentOffset < q.documentOffset ↔ p.codeOffset < q.codeOffset := by
  -- on different lines the earlier one ends first, in both texts
  have hbefore : ∀ {a b : Place raws codes}, a.pre.length < b.pre.length →
      a.documentOffset < b.documentOffset ∧ a.codeOffset < b.codeOffset := by
    intro a b hlt
    have ha := a.column_le_length
    have haraw := a.trim_add_le_length
    unfold documentOffset codeOffset
    rcases a.line_cases b with ⟨-, hcode, hraw⟩ | ⟨hpre, -⟩ | ⟨hgt, -⟩
    · omega
    · rw [hpre] at hlt
      omega
    · omega
  rcases p.line_cases q with ⟨hlt, -⟩ | ⟨hpre, hpreRaw, htrim⟩ | ⟨hgt, -⟩
  · have := hbefore hlt
    omega
  · unfold documentOffset codeOffset
    rw [hpre, hpreRaw, htrim]
    omega
  · have := hbefore hgt
    omega

theorem documentOffset_mono {p q : Place raws codes} (h : p.codeOffset ≤ q.codeOffset) :
    p.documentOffset ≤ q.documentOffset := by
  have := @documentOffset_lt_iff _ _ q p
  omega

end Place

theorem exists_place {x d n : Nat} {raws : List Text} {code : Text} {es : List RangeEntry}
    (hes : alignLines x d raws code.lines = some es) (hn : code.OnLine n)
    (hbound : d + linesLength raws ≤ Word.bound64) :
    ∃ q : Place raws code.lines, q.codeOffset = n ∧
      (withSentinel es).toDocument (x + n) = d + q.documentOffset := by
  obtain ⟨pre, c, post, k, hcode, hk, rfl⟩ := hn
  rw [hcode] at hes
  obtain ⟨preRaw, r, postRaw, before, after, hraws, rfl, hpre, hfits, hpost, hbefore, hafter⟩ :=
    alignLines_at hes
  let q : Place raws code.lines :=
    ⟨preRaw, r, postRaw, pre, c, post, k, hraws, hcode, hpre, hfits, hpost, hk⟩
  have hle : q.trim + k ≤ r.length := q.trim_add_le_length
  refine ⟨q, rfl, ?_⟩
  rw [← Nat.add_assoc]
  refine toDocument_lineEntry q.column_le_length ?_ ?_ hbefore hafter
  · simp only [Place.documentOffset, Place.trim, q]
    omega
  · simp only [hraws, Text.linesLength_append, Text.linesLength_cons] at hbound
    simp only [Place.documentOffset, q] at hle ⊢
    omega

/-! ## Cuts -/

/-- Lines before a cut: the last code line ends the last document line as it is, and the lines
above are aligned one to one. -/
def BeforeCut (raws codes : List Text) : Prop :=
  ∃ rs r cs c, raws = rs ++ [r] ∧ codes = cs ++ [c] ∧ List.Forall₂ LineFits rs cs ∧
    c <:+ r ∧ carriageReturn ∉ r

/-- Lines after a cut: the first two differ at most in their line ending, and the lines below are
aligned. -/
def AfterCut (raws codes : List Text) : Prop :=
  ∃ r rs c cs, raws = r :: rs ∧ codes = c :: cs ∧ r.stripReturn = c.stripReturn ∧ Aligned rs cs

theorem AfterCut.append {y y' t : Text} (h : AfterCut y.lines y'.lines) (ht : carriageReturn ∉ t) :
    AfterCut (Text.lines (t ++ y)) (Text.lines (t ++ y')) := by
  induction t with
  | nil => exact h
  | cons b t ih =>
    have hb : carriageReturn ∉ [b] := by
      intro hmem
      exact ht (List.mem_singleton.1 hmem ▸ List.mem_cons_self)
    obtain ⟨r, rs, c, cs, hr, hc, hrc, hrest⟩ := ih fun hmem => ht (List.mem_cons_of_mem b hmem)
    rw [List.cons_append, List.cons_append, Text.lines_cons, Text.lines_cons, hr, hc]
    by_cases hbreak : b = newline
    · subst hbreak
      rw [Text.breakLine_newline, Text.breakLine_newline]
      exact ⟨[], r :: rs, [], c :: cs, rfl, rfl, rfl, .cons ⟨[], hrc.symm⟩ hrest⟩
    · rw [Text.breakLine_of_ne hbreak, Text.breakLine_of_ne hbreak]
      refine ⟨b :: r, rs, b :: c, cs, rfl, rfl, ?_, hrest⟩
      have hstrip := Text.stripReturn_append hb
      simp only [List.singleton_append] at hstrip
      rw [hstrip, hstrip, hrc]

theorem startsChar_append_iff_of_lines {t l z : Text} {ls : List Text} (ht : t.lines = l :: ls)
    (hz : z.StartsChar) : Text.StartsChar (t ++ z) ↔ l.stripReturn.StartsChar := by
  -- behind the text of the line comes a line ending or `z`
  obtain ⟨w, hw, hstart⟩ : ∃ w, t ++ z = l.stripReturn ++ w ∧ w.StartsChar := by
    have hbreak : ∃ u, t ++ z = l ++ u ∧ u.StartsChar := by
      rcases Text.append_break_of_lines ht with ⟨-, rfl⟩ | ⟨u, rfl⟩
      · exact ⟨z, rfl, hz⟩
      · exact ⟨newline :: (u ++ z), by simp, Text.startsChar_cons.2 (by decide)⟩
    obtain ⟨u, hu, hstart⟩ := hbreak
    rcases Text.eq_stripReturn_or l with hl | hl
    · exact ⟨u, by rw [hu, ← hl], hstart⟩
    · refine ⟨carriageReturn :: u, ?_, Text.startsChar_cons.2 (by decide)⟩
      conv_lhs => rw [hu, hl]
      simp
  rw [hw]
  constructor
  · intro h
    exact h.of_isPrefix (List.prefix_append _ _)
  · intro h
    exact Text.startsChar_append h fun _ => hstart

/-- A character starts after a cut of the document exactly where one starts after the cut of the
code. -/
theorem AfterCut.startsChar_iff {y y' z : Text} (h : AfterCut y.lines y'.lines)
    (hz : z.StartsChar) :
    Text.StartsChar (y ++ z) ↔ Text.StartsChar (y' ++ [newline]) := by
  obtain ⟨r, rs, c, cs, hr, hc, hrc, -⟩ := h
  have hbreak : Text.StartsChar [newline] := Text.startsChar_cons.2 (by decide)
  rw [startsChar_append_iff_of_lines hr hz, startsChar_append_iff_of_lines hc hbreak, hrc]

theorem BeforeCut.aligned {delimiter : Text} {raws : List Text} {x x' y y' : Text}
    (hx : x.lines = delimiter :: raws) (hbefore : BeforeCut raws x'.lines)
    (hafter : AfterCut y.lines y'.lines) :
    ∃ raws', Text.lines (x ++ y) = delimiter :: raws' ∧
      Aligned raws' (Text.lines (x' ++ y')) := by
  obtain ⟨rs, r, cs, c, rfl, hx', hpre, ⟨p, rfl⟩, hreturn⟩ := hbefore
  obtain ⟨r₂, rs₂, c₂, cs₂, hy, hy', hrc, hpost⟩ := hafter
  have hxy := @Text.lines_append x y (delimiter :: rs) rs₂ (p ++ c) r₂ hx hy
  refine ⟨rs ++ (p ++ c ++ r₂) :: rs₂, hxy, ?_⟩
  rw [Text.lines_append hx' hy']
  refine Aligned.append hpre (.cons ?_ hpost)
  have hc : carriageReturn ∉ c := fun h => hreturn (List.mem_append_right p h)
  rw [LineFits, Text.stripReturn_append hc, Text.stripReturn_append hreturn, hrc, List.append_assoc]
  exact List.suffix_append _ _

theorem Place.exists_cut {raw code delimiter : Text} {raws : List Text}
    (hraw : raw.lines = delimiter :: raws) (q : Place raws code.lines) :
    ∃ x y x' y', raw = x ++ y ∧ code = x' ++ y' ∧
      x.length = delimiter.length + 1 + q.documentOffset ∧ x'.length = q.codeOffset ∧
      x.lines = delimiter :: (q.preRaw ++ [q.raw.take (q.trim + q.column)]) ∧
      x'.lines = q.pre ++ [q.code.take q.column] ∧
      q.code.take q.column <:+ q.raw.take (q.trim + q.column) ∧ AfterCut y.lines y'.lines := by
  have hlines : raw.lines = (delimiter :: q.preRaw) ++ q.raw :: q.postRaw := by
    rw [hraw, List.cons_append, ← q.raws_eq]
  obtain ⟨x, y, hxy, hlen, hx, hy⟩ := Text.exists_lines_cut hlines q.trim_add_le_length
  obtain ⟨x', y', hxy', hlen', hx', hy'⟩ := Text.exists_lines_cut q.codes_eq q.column_le_length
  obtain ⟨p, hp⟩ := q.fits
  -- the text of the document line is its first `trim` bytes and the text of the code line
  have htrim : q.trim = p.length := by
    have := congrArg List.length hp
    simp only [List.length_append] at this
    unfold trim
    omega
  refine ⟨x, y, x', y', hxy, hxy', ?_, hlen', hx, hx', ?_, ⟨_, _, _, _, hy, hy', ?_,
    q.aligned_post⟩⟩
  · rw [hlen, Text.linesLength_cons, documentOffset]
    omega
  · rw [← Text.take_stripReturn q.trim_add_le, ← Text.take_stripReturn q.column_le, ← hp, htrim,
      List.take_length_add_append]
    exact List.suffix_append _ _
  · rw [Text.stripReturn_drop, Text.stripReturn_drop, ← hp, htrim, List.drop_length_add_append]

theorem Place.beforeCut {raws codes : List Text} (q : Place raws codes)
    (hreturns : ∀ l ∈ raws, carriageReturn ∉ l.stripReturn)
    (hsuffix : q.code.take q.column <:+ q.raw.take (q.trim + q.column)) :
    BeforeCut (q.preRaw ++ [q.raw.take (q.trim + q.column)]) (q.pre ++ [q.code.take q.column]) := by
  refine ⟨q.preRaw, _, q.pre, _, rfl, rfl, q.fits_pre, hsuffix, ?_⟩
  rw [← Text.take_stripReturn q.trim_add_le]
  intro hmem
  exact hreturns q.raw (by simp [q.raws_eq]) (List.mem_of_mem_take hmem)

end RangeMap

/-! ## One fix -/

theorem applyFixes_single {document : Text} {n : Message} {g : Fix} (hg : n.fix = some g)
    (h : g.isApplicable document = true) :
    (applyFixes document [n]).applied = [0] ∧
      (applyFixes document [n]).content = g.applyTo document := by
  have hcandidates : Fixing.candidates [n] = [⟨0, g⟩] := by
    simp [Fixing.candidates, Fixing.indexedFixes, Fixing.backwards, Fixing.withoutOverlaps,
      Fixing.keep, hg]
  simp [applyFixes, hcandidates, Fixing.applyOne, h]

theorem Text.splice_append {t x y x₂ y₂ : Text} {a b : Nat} (h : t = x ++ y) (h₂ : t = x₂ ++ y₂)
    (ha : x.length = a) (hb : x₂.length = b) (new : Text) :
    t.splice a b new = x ++ (new ++ y₂) := by
  rw [Text.splice, List.append_assoc]
  congr 1
  · rw [h, ← ha, List.take_left]
  · rw [h₂, ← hb, List.drop_left]

theorem Fix.applyTo_cuts {document x y x₂ y₂ : Text} {g : Fix} (h : document = x ++ y)
    (h₂ : document = x₂ ++ y₂) (hstart : x.length = g.start) (hstop : x₂.length = g.stop)
    (hle : g.start ≤ g.stop) (hy : y.StartsChar) (hy₂ : y₂.StartsChar) :
    g.isApplicable document = true ∧ g.applyTo document = x ++ (Text.ofString g.text ++ y₂) := by
  refine ⟨Fix.isApplicable_iff.2 ⟨hle, ?_, ?_, ?_⟩, Text.splice_append h h₂ hstart hstop _⟩
  · rw [h₂, ← hstop]
    simp
  · rw [h, ← hstart]
    exact Text.isBoundary_append_length.2 (Or.inr hy)
  · rw [h₂, ← hstop]
    exact Text.isBoundary_append_length.2 (Or.inr hy₂)

theorem Block.sourceText_eq (b : Block) :
    ∃ front, b.sourceText = front ++ (b.code ++ [Text.newline]) ∧
      front.length = b.commentLength := by
  unfold Block.sourceText Block.commentLength Inlay.commentLength
  induction b.comments with
  | nil => exact ⟨[], by simp [Text.unlines], rfl⟩
  | cons comment comments ih =>
    obtain ⟨front, hfront, hlen⟩ := ih
    refine ⟨comment ++ Text.newline :: front, ?_, by simp [← hlen]; omega⟩
    rw [List.append_assoc, List.cons_append, List.cons_append, ← hfront]
    cases comments <;> simp [Text.unlines]

theorem Block.startsChar_drop_code {b : Block} (hcode : b.code.IsString) {n : Nat}
    (hn : n ≤ b.code.length) (h : b.sourceText.isBoundary (b.commentLength + n) = true) :
    Text.StartsChar (b.code.drop n ++ [Text.newline]) := by
  obtain ⟨front, hsource, hlen⟩ := b.sourceText_eq
  rw [hsource, ← hlen, Text.isBoundary_iff (by simp; omega), List.drop_length_add_append,
    List.drop_append_of_le_length hn] at h
  rcases h with h | h
  · obtain rfl : n = 0 := by omega
    exact Text.startsChar_append hcode.startsChar fun _ => Text.startsChar_cons.2 (by decide)
  · exact h

def Location.resized (l : Location) (removed added : Nat) : Location :=
  { l with stop := { l.stop with offset := l.stop.offset + added - removed } }

namespace RangeMap

open Text (carriageReturn newline)

theorem linesLength_raws_le {document raw delimiter : Text} {loc : Location} {raws : List Text}
    (hraw : loc.textIn? document = some raw) (hlines : raw.lines = delimiter :: raws)
    (hlength : document.length < Word.bound64) :
    loc.start.offset + delimiter.length + 1 + Text.linesLength raws ≤ Word.bound64 := by
  obtain ⟨front, rest, rfl, hfront, -⟩ := Text.slice?_eq_some_iff.1 hraw
  have hlen := Text.linesLength_lines raw
  rw [hlines, Text.linesLength_cons] at hlen
  simp only [List.length_append] at hlength
  omega

theorem returns_of_paired {document raw delimiter : Text} {loc : Location} {raws : List Text}
    (hpaired : document.ReturnsPaired) (hraw : loc.textIn? document = some raw)
    (hlines : raw.lines = delimiter :: raws) : ∀ l ∈ raws, carriageReturn ∉ l.stripReturn := by
  intro l hl
  have hmem : l ∈ raw.lines := by
    rw [hlines]
    exact List.mem_cons_of_mem delimiter hl
  obtain ⟨front, rest, rfl, -⟩ := Text.slice?_eq_some_iff.1 hraw
  refine hpaired.notMem_stripReturn ?_ (Text.newline_notMem_of_mem_lines hmem)
  exact (Text.isInfix_of_mem_lines hmem).trans ⟨front, rest, List.append_assoc _ _ _⟩

/-- Between two places of a fenced block any text without `\r` can be put, in the document and in
the code, and the block has a map again. -/
theorem fenced?_splice {document code raw delimiter : Text} {loc : Location} {raws : List Text}
    (hraw : loc.textIn? document = some raw) (hlines : raw.lines = delimiter :: raws)
    (hreturns : ∀ l ∈ raws, carriageReturn ∉ l.stripReturn) {p q : Place raws code.lines}
    (hpq : p.codeOffset ≤ q.codeOffset)
    (hp : Text.StartsChar (code.drop p.codeOffset ++ [newline]))
    (hq : Text.StartsChar (code.drop q.codeOffset ++ [newline])) {g : Fix}
    (hstart : g.start = loc.start.offset + delimiter.length + 1 + p.documentOffset)
    (hstop : g.stop = loc.start.offset + delimiter.length + 1 + q.documentOffset)
    (htext : carriageReturn ∉ Text.ofString g.text) (comments : List Text) :
    g.isApplicable document = true ∧
      (fenced? (g.applyTo document)
        (loc.resized (g.stop - g.start) (Text.ofString g.text).length)
        (code.splice p.codeOffset q.codeOffset (Text.ofString g.text)) comments).isSome = true := by
  have hmono := Place.documentOffset_mono hpq
  obtain ⟨x, y, x', y', hxy, hxy', hx, hx', hxlines, hxlines', hsuffix, hpafter⟩ :=
    p.exists_cut hlines
  obtain ⟨x₂, y₂, x₂', y₂', hxy₂, hxy₂', hx₂, hx₂', -, -, -, hqafter⟩ := q.exists_cut hlines
  have hbefore := p.beforeCut hreturns hsuffix
  rw [← hxlines'] at hbefore
  obtain ⟨front, rest, hdocument, hfront, hend, hchar, hrest⟩ := Text.slice?_eq_some_iff.1 hraw
  have hne : x ≠ [] := by
    rintro rfl
    simp at hx
    omega
  have hrestChar : rest.StartsChar := by
    refine hrest.resolve_left fun hnil => hne ?_
    rw [hxy] at hnil
    simp_all
  rw [← hx', hxy', List.drop_left] at hp
  rw [← hx₂', hxy₂', List.drop_left] at hq
  obtain ⟨happly, hcontent⟩ := @Fix.applyTo_cuts document (front ++ x) (y ++ rest) (front ++ x₂)
    (y₂ ++ rest) g (by simp [hdocument, hxy]) (by simp [hdocument, hxy₂]) (by simp; omega)
    (by simp; omega) (by omega) ((hpafter.startsChar_iff hrestChar).2 hp)
    ((hqafter.startsChar_iff hrestChar).2 hq)
  refine ⟨happly, ?_⟩
  obtain ⟨raws', hnew, haligned⟩ := hbefore.aligned hxlines (hqafter.append htext)
  rw [Text.splice_append hxy' hxy₂' hx' hx₂']
  refine fenced?_isSome ?_ hnew haligned
  refine Text.slice?_eq_some_iff.2 ⟨front, rest, ?_, hfront, ?_, ?_, Or.inr hrestChar⟩
  · simp [hcontent]
  · have hraw₁ := congrArg List.length hxy
    have hraw₂ := congrArg List.length hxy₂
    simp only [List.length_append] at hraw₁ hraw₂ ⊢
    simp only [Location.resized]
    omega
  · refine hchar.imp_right fun hfirst => ?_
    rw [hxy, List.append_assoc] at hfirst
    rw [List.append_assoc]
    exact Text.startsChar_append (hfirst.of_isPrefix (List.prefix_append _ _)) fun h => absurd h hne

theorem inline?_splice {document code x y : Text} {loc loc' : Location}
    (hdocument : document = x ++ (code ++ y)) (hx : x.length = loc.start.offset)
    (hchar : x = [] ∨ Text.StartsChar (code ++ y)) (hstring : document.IsString)
    (hcode : code.IsString) {a e : Nat} (hae : a ≤ e) (hle : e ≤ code.length)
    (ha : Text.StartsChar (code.drop a ++ [newline]))
    (he : Text.StartsChar (code.drop e ++ [newline])) {g : Fix}
    (hstart : g.start = loc.start.offset + a) (hstop : g.stop = loc.start.offset + e)
    (hloc : loc'.start = loc.start) (comments : List Text) :
    g.isApplicable document = true ∧
      (inline? (g.applyTo document) loc' (code.splice a e (Text.ofString g.text))
        comments).isSome = true := by
  have hrest : y.StartsChar := hcode.startsChar_rest (hdocument ▸ hstring) hchar
  have hcut : ∀ n, document = (x ++ code.take n) ++ (code.drop n ++ y) := fun n => by
    rw [hdocument, List.append_assoc, ← List.append_assoc (code.take n), List.take_append_drop]
  obtain ⟨happly, hcontent⟩ := Fix.applyTo_cuts (g := g) (hcut a) (hcut e) (by simp; omega)
    (by simp; omega) (by omega) (Text.startsChar_append_of ha hrest)
    (Text.startsChar_append_of he hrest)
  refine ⟨happly, Option.isSome_iff_exists.2 ⟨_, inline?_eq_some_iff.2 ⟨⟨x, y, ?_, ?_, ?_⟩, rfl⟩⟩⟩
  · simp [hcontent, Text.splice]
  · rw [hx, hloc]
  · refine Or.inr ?_
    simp only [Text.splice, List.append_assoc]
    refine Text.startsChar_append (Text.startsChar_take hcode.startsChar a) fun _ => ?_
    refine Text.startsChar_append (Text.isString_ofString g.text).startsChar fun _ => ?_
    exact Text.startsChar_append_of he hrest

theorem toDocument_inline {start n : Nat} {comments : List Text}
    (hbound : start + n < Word.bound64) :
    (withSentinel [⟨commentLength comments, (start : Int) - commentLength comments⟩]).toDocument
      (commentLength comments + n) = start + n := by
  refine @toDocument_withSentinel [] [] _ _ _ (by simp) (by simp) (by simp) ?_ hbound
  simp only
  omega

end RangeMap

/-- Code and document stay aligned when the bytes between two offsets on code lines and the bytes
between their images in the document are replaced by one text. -/
theorem Layout.rangeMap?_splice {layout : Layout} {document code : Text} {loc : Location}
    {comments : List Text} {map : RangeMap}
    (hmap : layout.rangeMap? document loc code comments = some map) (hdocument : document.IsString)
    (hlength : document.length < Word.bound64) (hcode : code.IsString) {a e : Nat} (hae : a ≤ e)
    (hstart : code.OnLine a) (hstop : code.OnLine e)
    (hstartChar : Text.StartsChar (code.drop a ++ [Text.newline]))
    (hstopChar : Text.StartsChar (code.drop e ++ [Text.newline])) {g : Fix}
    (hgstart : g.start = map.toDocument (commentLength comments + a))
    (hgstop : g.stop = map.toDocument (commentLength comments + e))
    (hreturns : layout = .fenced →
      document.ReturnsPaired ∧ Text.carriageReturn ∉ Text.ofString g.text) :
    g.isApplicable document = true ∧
      (layout.rangeMap? (g.applyTo document)
        (loc.resized (g.stop - g.start) (Text.ofString g.text).length)
        (code.splice a e (Text.ofString g.text)) comments).isSome = true := by
  cases layout with
  | fenced =>
    obtain ⟨hpaired, htext⟩ := hreturns rfl
    obtain ⟨raw, delimiter, raws, es, hraw, hlines, hes, rfl⟩ :=
      RangeMap.fenced?_eq_some_iff.1 hmap
    have hbound := RangeMap.linesLength_raws_le hraw hlines hlength
    obtain ⟨p, rfl, hp⟩ := RangeMap.exists_place hes hstart hbound
    obtain ⟨q, rfl, hq⟩ := RangeMap.exists_place hes hstop hbound
    exact RangeMap.fenced?_splice hraw hlines (RangeMap.returns_of_paired hpaired hraw hlines) hae
      hstartChar hstopChar (hgstart.trans hp) (hgstop.trans hq) htext comments
  | inline =>
    obtain ⟨⟨x, y, hxy, hx, hchar⟩, rfl⟩ := RangeMap.inline?_eq_some_iff.1 hmap
    have hend := hstop.le_length
    have hdoc := congrArg List.length hxy
    simp only [List.length_append] at hdoc
    rw [RangeMap.toDocument_inline (by omega)] at hgstart hgstop
    exact RangeMap.inline?_splice hxy hx hchar hdocument hcode hae hend hstartChar hstopChar
      hgstart hgstop rfl comments

/-- Fixing the document by a relocated fix is fixing the code by the fix itself. The fix goes from
the text of one code line to the text of the same or another one and splits no character. Then it
is applied, and what the document and the code have become has a range map again: each code line
still ends its document line. For a fenced block each `\r` of the document has to belong to a line
ending, and the new text has none. -/
theorem Block.fix_commutes {v : Visit} {document : Text} {style : IndentStyle} {width : Nat}
    {b : Block} {loc : Location} {filter : MessageFilter} {m n : Message} {f g : Fix}
    (hdocument : document.IsString) (hlength : document.length < Word.bound64)
    (hcode : b.code.IsString) (hb : v.extract document style width = .ok (some b))
    (hloc : b.loc = some loc) (hn : b.documentMessage filter m = .ok (some n))
    (hf : m.fix = some f) (hg : n.fix = some g) (hle : f.start ≤ f.stop)
    (hstart : b.code.OnLine (f.start - b.commentLength))
    (hstop : b.code.OnLine (f.stop - b.commentLength))
    (hstartChar : b.sourceText.isBoundary f.start = true)
    (hstopChar : b.sourceText.isBoundary f.stop = true)
    (hreturns : b.layout = .fenced →
      document.ReturnsPaired ∧ Text.carriageReturn ∉ Text.ofString f.text) :
    let t := Text.ofString f.text
    let r := applyFixes document [n]
    let code := b.code.splice (f.start - b.commentLength) (f.stop - b.commentLength) t
    let loc' := loc.resized (g.stop - g.start) t.length
    r.applied = [0] ∧ r.content = document.splice g.start g.stop t ∧
      (b.layout.rangeMap? r.content loc' code b.comments).isSome = true := by
  intro t r code loc'
  obtain ⟨f', hf', hrelocate⟩ := relocateFix_of_documentMessage hn hloc hg
  obtain rfl : f = f' := Option.some.inj (hf.symm.trans hf')
  obtain ⟨map, hmap, hcomments, rfl⟩ := relocateFix_eq_some_iff.1 hrelocate
  rw [Visit.rangeMap_of_loc_eq_some hb hloc] at hmap
  have hstartEq : f.start = b.commentLength + (f.start - b.commentLength) := by omega
  have hstopEq : f.stop = b.commentLength + (f.stop - b.commentLength) := by omega
  rw [hstartEq] at hstartChar
  rw [hstopEq] at hstopChar
  have hspliced := Layout.rangeMap?_splice (g := ⟨map.toDocument f.start, map.toDocument f.stop,
    f.text⟩) hmap hdocument hlength hcode (Nat.sub_le_sub_right hle _) hstart hstop
    (startsChar_drop_code hcode hstart.le_length hstartChar)
    (startsChar_drop_code hcode hstop.le_length hstopChar) (congrArg map.toDocument hstartEq)
    (congrArg map.toDocument hstopEq) hreturns
  obtain ⟨happlied, hcontent⟩ := applyFixes_single hg hspliced.1
  refine ⟨happlied, hcontent, ?_⟩
  simp only [r]
  rw [hcontent]
  exact hspliced.2

/-- Two lines of a quoted block are joined and broken again, in a document with two-byte line
endings and behind a comment. -/
theorem Block.fix_commutes_quoted :
    let document := Text.ofString "> ```\r\n> é;\r\n>  cd\r\n> ```\r\n"
    let v : Visit := ⟨.block, Text.ofString "é;\ncd", some ⟨⟨2, 1, 3⟩, ⟨26, 4, 6⟩⟩, 1,
      [.comment (Text.ofString "<!--eslint-->") none]⟩
    let m := (Message.ofRule "semi" "" 2 1).withFix ⟨13, 16, "x\ny"⟩
    ∃ b n, v.extract document .nesting 4 = .ok (some b) ∧
      b.documentMessage (.ofRules [] true) m = .ok (some n) ∧ n.fix = some ⟨11, 18, "x\ny"⟩ ∧
      (applyFixes document [n]).applied = [0] ∧
      (applyFixes document [n]).content = Text.ofString "> ```\r\n> éx\nyd\r\n> ```\r\n" ∧
      (RangeMap.fenced? (applyFixes document [n]).content ⟨⟨2, 1, 3⟩, ⟨22, 4, 6⟩⟩
        (Text.ofString "éx\nyd") b.comments).isSome = true := by
  intro document v m
  let b : Block := ⟨v.code, .block, v.loc, 4, [Text.ofString "/*eslint*/"],
    some ⟨[⟨0, 0⟩, ⟨11, -2⟩, ⟨15, 2⟩]⟩⟩
  let n : Message := { m with line := 2, column := 4, fix := some ⟨11, 18, "x\ny"⟩ }
  have hloc : v.locIn document = b.loc := by decide +kernel
  have hmap : v.rangeMapIn document b.comments = b.rangeMap := by decide +kernel
  have hb : v.extract document .nesting 4 = .ok (some b) :=
    Visit.extract_eq_some_iff.2 ⟨b.comments, 4, by decide +kernel, rfl, by rw [hloc, hmap]⟩
  have hn : b.documentMessage (.ofRules [] true) m = .ok (some n) := by cbv
  have hstart : b.code.OnLine 2 :=
    ⟨[], Text.ofString "é;", [Text.ofString "cd"], 2, by cbv, by cbv, by cbv⟩
  have hstop : b.code.OnLine 5 :=
    ⟨[Text.ofString "é;"], Text.ofString "cd", [], 1, by cbv, by cbv, by cbv⟩
  have h := fix_commutes (Text.isString_ofString _) (by cbv) (Text.isString_ofString _) hb rfl hn
    rfl rfl (by cbv) hstart hstop (by cbv) (by cbv) fun _ => ⟨of_decide_eq_true (by cbv), by decide⟩
  refine ⟨b, n, hb, hn, rfl, h.1, h.2.1.trans (by cbv), ?_⟩
  exact h.2.2

end Inlay
