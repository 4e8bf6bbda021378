import Inlay.Proofs.Commutation
import Inlay.Proofs.Replacement

/-! Which fixes are chosen, in the extracted text and in the document. Between offsets on code lines
the range map keeps what the choice depends on: which of two comes first, and whether a character
starts there. So the same fixes come first, overlap and split characters in both texts, and those
of the same messages are applied. -/

namespace Inlay

open Text (newline)

/-! ## Offsets on code lines -/

theorem Block.isBoundary_sourceText_iff {b : Block} (hcode : b.code.IsString) {n : Nat}
    (hn : n ≤ b.code.length) :
    b.sourceText.isBoundary (b.commentLength + n) = true ↔
      Text.StartsChar (b.code.drop n ++ [newline]) := by
  refine ⟨startsChar_drop_code hcode hn, fun h => ?_⟩
  obtain ⟨front, hsource, hlen⟩ := b.sourceText_eq
  rw [hsource, ← hlen, Text.isBoundary_iff (by simp; omega), List.drop_length_add_append,
    List.drop_append_of_le_length hn]
  exact Or.inr h

namespace RangeMap

variable {document code : Text} {loc : Location} {comments : List Text} {map : RangeMap}

/-- An offset on the text of a code line of a fenced block: its place, and where that is in the
document. -/
theorem exists_place_of_fenced? (hmap : fenced? document loc code comments = some map)
    (hlength : document.length < Word.bound64) :
    ∃ raw delimiter raws, loc.textIn? document = some raw ∧ raw.lines = delimiter :: raws ∧
      ∀ n, code.OnLine n → ∃ q : Place raws code.lines, q.codeOffset = n ∧
        map.toDocument (commentLength comments + n) =
          loc.start.offset + delimiter.length + 1 + q.documentOffset := by
  obtain ⟨raw, delimiter, raws, es, hraw, hlines, hes, rfl⟩ := fenced?_eq_some_iff.1 hmap
  exact ⟨raw, delimiter, raws, hraw, hlines, fun n hn =>
    exists_place hes hn (linesLength_raws_le hraw hlines hlength)⟩

/-- A place cuts the document, and a character starts there exactly when one starts at the place in
the code. -/
theorem Place.isBoundary_iff {raw delimiter : Text} {raws : List Text}
    (hraw : loc.textIn? document = some raw) (hlines : raw.lines = delimiter :: raws)
    (q : Place raws code.lines) :
    let i := loc.start.offset + delimiter.length + 1 + q.documentOffset
    i ≤ document.length ∧ (document.isBoundary i = true ↔
      Text.StartsChar (code.drop q.codeOffset ++ [newline])) := by
  intro i
  obtain ⟨x, y, x', y', rfl, hcode, hx, hx', -, -, -, hafter⟩ := q.exists_cut hlines
  obtain ⟨front, rest, rfl, hfront, -, -, hrest⟩ := Text.slice?_eq_some_iff.1 hraw
  have hne : front ++ (x ++ y) ≠ [] := by
    intro hnil
    have := congrArg List.length hnil
    simp only [List.length_append, List.length_nil] at this
    omega
  have hi : i = (front ++ x).length := by
    rw [List.length_append]
    omega
  have hcut : front ++ (x ++ y ++ rest) = front ++ x ++ (y ++ rest) := by simp
  have hdrop : code.drop q.codeOffset = y' := by
    have hdrop := congrArg (List.drop x'.length) hcode
    rwa [List.drop_left, hx'] at hdrop
  refine ⟨by rw [hcut, hi]; exact (List.prefix_append _ _).length_le, ?_⟩
  rw [hcut, hi, Text.isBoundary_append_length, hafter.startsChar_iff (hrest.resolve_left hne),
    hdrop]
  refine or_iff_right fun hnil => ?_
  have := congrArg List.length hnil
  simp only [List.length_append, List.length_nil] at this
  omega

end RangeMap

namespace Layout

variable {layout : Layout} {document code : Text} {loc : Location} {comments : List Text}
  {map : RangeMap}

theorem toDocument_lt_iff (hmap : layout.rangeMap? document loc code comments = some map)
    (hlength : document.length < Word.bound64) {m n : Nat} (hm : code.OnLine m)
    (hn : code.OnLine n) :
    map.toDocument (commentLength comments + m) < map.toDocument (commentLength comments + n) ↔
      m < n := by
  cases layout with
  | fenced =>
    obtain ⟨raw, delimiter, raws, -, -, hplace⟩ := RangeMap.exists_place_of_fenced? hmap hlength
    obtain ⟨p, rfl, hp⟩ := hplace m hm
    obtain ⟨q, rfl, hq⟩ := hplace n hn
    rw [hp, hq, ← RangeMap.Place.documentOffset_lt_iff]
    omega
  | inline =>
    obtain ⟨⟨x, y, rfl, hx, -⟩, rfl⟩ := RangeMap.inline?_eq_some_iff.1 hmap
    have hmlen := hm.le_length
    have hnlen := hn.le_length
    simp only [List.length_append] at hlength
    rw [RangeMap.toDocument_inline (by omega), RangeMap.toDocument_inline (by omega)]
    omega

theorem toDocument_strictMonoOn_lines
    (hmap : layout.rangeMap? document loc code comments = some map)
    (hlength : document.length < Word.bound64) :
    StrictMonoOn map.toDocument
      { q | commentLength comments ≤ q ∧ code.OnLine (q - commentLength comments) } := by
  rintro a ⟨ha, haline⟩ e ⟨he, heline⟩ hae
  have hlt := (toDocument_lt_iff hmap hlength haline heline).2 (by omega)
  rwa [Nat.add_sub_cancel' ha, Nat.add_sub_cancel' he] at hlt

/-- The image of an offset on a code line lies in the document, and a character starts there exactly
when one starts at the offset. -/
theorem isBoundary_toDocument_iff (hmap : layout.rangeMap? document loc code comments = some map)
    (hdocument : document.IsString) (hlength : document.length < Word.bound64)
    (hcode : code.IsString) {n : Nat} (hn : code.OnLine n) :
    map.toDocument (commentLength comments + n) ≤ document.length ∧
      (document.isBoundary (map.toDocument (commentLength comments + n)) = true ↔
        Text.StartsChar (code.drop n ++ [newline])) := by
  cases layout with
  | fenced =>
    obtain ⟨raw, delimiter, raws, hraw, hlines, hplace⟩ :=
      RangeMap.exists_place_of_fenced? hmap hlength
    obtain ⟨q, rfl, hq⟩ := hplace n hn
    rw [hq]
    exact RangeMap.Place.isBoundary_iff hraw hlines q
  | inline =>
    obtain ⟨⟨x, y, rfl, hx, hchar⟩, rfl⟩ := RangeMap.inline?_eq_some_iff.1 hmap
    have hnlen := hn.le_length
    have hrest := hcode.startsChar_rest hdocument hchar
    simp only [List.length_append] at hlength
    rw [RangeMap.toDocument_inline (by omega), ← hx]
    have hle : x.length + n ≤ (x ++ (code ++ y)).length := by
      simp only [List.length_append]
      omega
    refine ⟨hle, ?_⟩
    rw [Text.isBoundary_iff hle, List.drop_length_add_append,
      List.drop_append_of_le_length hnlen]
    have hbreak : Text.StartsChar [newline] := Text.startsChar_cons.2 (by decide)
    constructor
    · rintro (hzero | h)
      · obtain rfl : n = 0 := by omega
        exact Text.startsChar_append hcode.startsChar fun _ => hbreak
      · exact Text.startsChar_append_of h hbreak
    · intro h
      exact Or.inr (Text.startsChar_append_of h hrest)

end Layout

/-! ## Moved fixes -/

def Fix.moved (φ : Nat → Nat) (f : Fix) : Fix := ⟨φ f.start, φ f.stop, f.text⟩

def IndexedFix.moved (φ : Nat → Nat) (x : IndexedFix) : IndexedFix := ⟨x.index, x.fix.moved φ⟩

theorem Fix.overlaps_moved {φ : Nat → Nat} {S : Set Nat} (hφ : StrictMonoOn φ S) {x y : Fix}
    (hx : x.start ∈ S ∧ x.stop ∈ S) (hy : y.start ∈ S ∧ y.stop ∈ S) :
    (x.moved φ).overlaps (y.moved φ) = x.overlaps y := by
  simp only [overlaps, moved, hφ.lt_iff_lt hy.1 hx.2, hφ.lt_iff_lt hx.1 hy.2]

namespace Fixing

theorem indexedFixes_moved {φ : Nat → Nat} {ms ns : List Message}
    (h : List.Forall₂ (fun m n => n.fix = m.fix.map (Fix.moved φ)) ms ns) :
    indexedFixes ns = (indexedFixes ms).map (IndexedFix.moved φ) := by
  have hfrom : ∀ k, (ns.zipIdx k).filterMap (fun p => p.1.fix.map (IndexedFix.mk p.2)) =
      ((ms.zipIdx k).filterMap fun p => p.1.fix.map (IndexedFix.mk p.2)).map
        (IndexedFix.moved φ) := by
    induction h with
    | nil => simp
    | @cons m n ms ns hmn _ ih =>
      intro k
      rw [List.zipIdx_cons, List.zipIdx_cons]
      cases hm : m.fix with
      | none => simpa [hmn, hm] using ih (k + 1)
      | some f => simpa [hmn, hm, IndexedFix.moved] using ih (k + 1)
  exact hfrom 0

section Moved

variable {φ : Nat → Nat} {S : Set Nat} (hφ : StrictMonoOn φ S)

include hφ

theorem backwards_moved {fixes : List IndexedFix} (h : ∀ x ∈ fixes, x.fix.start ∈ S) :
    backwards (fixes.map (IndexedFix.moved φ)) = (backwards fixes).map (IndexedFix.moved φ) := by
  refine (List.map_mergeSort fun x hx y hy => ?_).symm
  simp only [IndexedFix.moved, Fix.moved, hφ.le_iff_le (h y hy) (h x hx)]

theorem foldl_keep_moved {fixes kept : List IndexedFix}
    (h : ∀ x ∈ fixes ++ kept, x.fix.start ∈ S ∧ x.fix.stop ∈ S) :
    (fixes.map (IndexedFix.moved φ)).foldl keep (kept.map (IndexedFix.moved φ)) =
      (fixes.foldl keep kept).map (IndexedFix.moved φ) := by
  induction fixes generalizing kept with
  | nil => rfl
  | cons x fixes ih =>
    have hkeep : keep (kept.map (IndexedFix.moved φ)) (x.moved φ) =
        (keep kept x).map (IndexedFix.moved φ) := by
      cases kept with
      | nil => rfl
      | cons last kept =>
        have hover := Fix.overlaps_moved hφ (h x (by simp)) (h last (by simp))
        simp only [keep, List.map_cons, IndexedFix.moved, hover]
        split <;> rfl
    rw [List.map_cons, List.foldl_cons, List.foldl_cons, hkeep]
    apply ih
    intro y hy
    rcases List.mem_append.1 hy with hy | hy
    · exact h y (by simp [hy])
    · rcases keep_eq kept x with ⟨hk, -⟩ | ⟨hk, -⟩
      · rw [hk] at hy
        rcases List.mem_cons.1 hy with rfl | hy
        · exact h y (by simp)
        · exact h y (by simp [hy])
      · rw [hk] at hy
        exact h y (by simp [hy])

theorem candidates_moved {ms ns : List Message}
    (h : List.Forall₂ (fun m n => n.fix = m.fix.map (Fix.moved φ)) ms ns)
    (hS : ∀ x ∈ indexedFixes ms, x.fix.start ∈ S ∧ x.fix.stop ∈ S) :
    candidates ns = (candidates ms).map (IndexedFix.moved φ) := by
  have hkeep := @foldl_keep_moved φ S hφ (backwards (indexedFixes ms)) []
    (fun x hx => hS x (mem_backwards.1 (by simpa using hx)))
  rw [candidates, candidates, indexedFixes_moved h, backwards_moved hφ fun x hx => (hS x hx).1,
    withoutOverlaps, withoutOverlaps, List.map_reverse]
  exact congrArg List.reverse hkeep

/-- Moved fixes are applied for the same messages, when moving them changes neither their order nor
which of them can be applied. -/
theorem applied_moved {content content' : Text} {ms ns : List Message}
    (h : List.Forall₂ (fun m n => n.fix = m.fix.map (Fix.moved φ)) ms ns)
    (hS : ∀ x ∈ indexedFixes ms, x.fix.start ∈ S ∧ x.fix.stop ∈ S)
    (hle : ∀ m ∈ ms, ∀ f ∈ m.fix, f.start ≤ f.stop)
    (hdist : ((indexedFixes ms).map (·.fix.start)).Nodup)
    (happ : ∀ x ∈ indexedFixes ms,
      (x.fix.moved φ).isApplicable content' = x.fix.isApplicable content) :
    (applyFixes content' ns).applied = (applyFixes content ms).applied := by
  have hmem : ∀ x ∈ indexedFixes ns, ∃ y ∈ indexedFixes ms, y.moved φ = x := by
    rw [indexedFixes_moved h]
    exact fun x => List.mem_map.1
  have hle' : ∀ n ∈ ns, ∀ f ∈ n.fix, f.start ≤ f.stop := by
    intro n hn f hf
    obtain ⟨i, hi⟩ := List.mem_iff_getElem?.1 hn
    obtain ⟨y, hy, hyf⟩ := hmem ⟨i, f⟩ (mem_indexedFixes.2 ⟨n, hi, hf⟩)
    obtain rfl : y.fix.moved φ = f := congrArg IndexedFix.fix hyf
    exact (hφ.le_iff_le (hS y hy).1 (hS y hy).2).2 (start_le_stop hle hy)
  have hdist' : ((indexedFixes ns).map (·.fix.start)).Nodup := by
    rw [indexedFixes_moved h, List.map_map]
    refine (List.nodup_map_iff_inj_on (List.Nodup.of_map _ hdist)).2 fun x hx y hy hxy => ?_
    refine List.inj_on_of_nodup_map hdist hx hy ?_
    exact hφ.injOn (hS x hx).1 (hS y hy).1 hxy
  have hfilter : ((candidates ms).map (IndexedFix.moved φ)).filter
      (·.fix.isApplicable content') =
        ((candidates ms).filter (·.fix.isApplicable content)).map (IndexedFix.moved φ) := by
    rw [List.filter_map]
    congr 1
    exact List.filter_congr fun x hx => happ x (mem_indexedFixes_of_mem_candidates hx)
  have hrun := @run_candidates content ms hle hdist
  have hrun' := @run_candidates content' ns hle' hdist'
  rw [applyFixes, applyFixes, hrun, hrun', candidates_moved hφ h hS, hfilter, ← List.map_reverse]
  simp only [List.map_map]
  rfl

end Moved
end Fixing

/-! ## Relocated fixes -/

namespace Block

open Fixing

/-- The offsets of the extracted text that lie on the text of code lines. -/
def codeOffsets (b : Block) : Set Nat :=
  { q | b.commentLength ≤ q ∧ b.code.OnLine (q - b.commentLength) }

theorem fix_eq_moved {b : Block} {loc : Location} {map : RangeMap} {filter : MessageFilter}
    {m n : Message} (hloc : b.loc = some loc) (hmap : b.rangeMap = some map)
    (hn : b.documentMessage filter m = .ok (some n)) (hkept : n.fix.isSome = m.fix.isSome) :
    (∀ f ∈ m.fix, b.commentLength ≤ f.start) ∧ n.fix = m.fix.map (Fix.moved map.toDocument) := by
  cases hg : n.fix with
  | none =>
    rw [hg, Option.isSome_none, eq_comm, Option.isSome_eq_false_iff, Option.isNone_iff_eq_none]
      at hkept
    simp [hkept]
  | some g =>
    obtain ⟨f, hf, hrelocate⟩ := relocateFix_of_documentMessage hn hloc hg
    obtain ⟨map', hmap', hstart, rfl⟩ := relocateFix_eq_some_iff.1 hrelocate
    obtain rfl : map = map' := Option.some.inj (hmap.symm.trans hmap')
    simp [hf, hstart, Fix.moved]

section Images

variable {b : Block} {document : Text} {loc : Location} {map : RangeMap}
  (hlayout : b.layout.rangeMap? document loc b.code b.comments = some map)
  (hlength : document.length < Word.bound64)

include hlayout hlength

theorem toDocument_strictMonoOn : StrictMonoOn map.toDocument b.codeOffsets :=
  Layout.toDocument_strictMonoOn_lines hlayout hlength

theorem isApplicable_moved (hdocument : document.IsString) (hcode : b.code.IsString) {f : Fix}
    (hle : f.start ≤ f.stop) (hf : f.start ∈ b.codeOffsets ∧ f.stop ∈ b.codeOffsets) :
    (f.moved map.toDocument).isApplicable document = f.isApplicable b.sourceText := by
  have himage : ∀ {q}, q ∈ b.codeOffsets →
      (map.toDocument q ≤ document.length ∧ q ≤ b.sourceText.length) ∧
        (document.isBoundary (map.toDocument q) = true ↔ b.sourceText.isBoundary q = true) := by
    rintro q ⟨hq, hline⟩
    obtain ⟨n, rfl⟩ := Nat.exists_eq_add_of_le hq
    rw [Nat.add_sub_cancel_left] at hline
    obtain ⟨hin, hboundary⟩ :=
      Layout.isBoundary_toDocument_iff hlayout hdocument hlength hcode hline
    have hn := hline.le_length
    refine ⟨⟨hin, ?_⟩, hboundary.trans (isBoundary_sourceText_iff hcode hn).symm⟩
    obtain ⟨front, hsource, hfront⟩ := b.sourceText_eq
    rw [hsource, List.length_append, List.length_append, hfront]
    omega
  have hmono := (toDocument_strictMonoOn hlayout hlength).le_iff_le hf.1 hf.2
  obtain ⟨-, hstart⟩ := himage hf.1
  obtain ⟨⟨hin, hin'⟩, hstop⟩ := himage hf.2
  rw [Bool.eq_iff_iff, Fix.isApplicable_iff, Fix.isApplicable_iff]
  simp only [Fix.moved, hstart, hstop, hmono, hle, hin, hin', true_and]

end Images

/-- Choosing fixes commutes with relocating them. The fixes of messages that are all relocated with
their fixes have distinct starts and both ends on code lines. Then fixing the extracted text and
fixing the document applies the fixes of the same messages, whether or not they overlap or split
characters. -/
theorem applied_commutes {v : Visit} {document : Text} {style : IndentStyle} {width : Nat}
    {b : Block} {filter : MessageFilter} {ms ns : List Message} (hdocument : document.IsString)
    (hlength : document.length < Word.bound64) (hcode : b.code.IsString)
    (hb : v.extract document style width = .ok (some b)) (hmap : b.rangeMap ≠ none)
    (hns : List.Forall₂ (fun m n => b.documentMessage filter m = .ok (some n) ∧
      n.fix.isSome = m.fix.isSome) ms ns)
    (hle : ∀ m ∈ ms, ∀ f ∈ m.fix, f.start ≤ f.stop)
    (hdist : ((indexedFixes ms).map (·.fix.start)).Nodup)
    (hlines : ∀ m ∈ ms, ∀ f ∈ m.fix, b.code.OnLine (f.start - b.commentLength) ∧
      b.code.OnLine (f.stop - b.commentLength)) :
    (applyFixes document ns).applied = (applyFixes b.sourceText ms).applied := by
  obtain ⟨map, hmap⟩ := Option.ne_none_iff_exists'.1 hmap
  obtain ⟨loc, hloc⟩ : ∃ loc, b.loc = some loc := by
    refine Option.ne_none_iff_exists'.1 fun hnone => ?_
    rw [Visit.rangeMap_of_loc_eq_none hb hnone] at hmap
    cases hmap
  have hlayout := hmap
  rw [Visit.rangeMap_of_loc_eq_some hb hloc] at hlayout
  have hboth : List.Forall₂ (fun m n => (∀ f ∈ m.fix, b.commentLength ≤ f.start) ∧
      n.fix = m.fix.map (Fix.moved map.toDocument)) ms ns :=
    hns.imp fun m n h => fix_eq_moved hloc hmap h.1 h.2
  obtain ⟨hstarts, hmoved⟩ := (List.forall₂_and_left ms ns).1 hboth
  have hoffsets : ∀ x ∈ indexedFixes ms,
      x.fix.start ∈ b.codeOffsets ∧ x.fix.stop ∈ b.codeOffsets := by
    intro x hx
    have hstop := start_le_stop hle hx
    obtain ⟨m, hm, hf⟩ := mem_indexedFixes.1 hx
    have hmem := List.mem_of_getElem? hm
    have hstart := hstarts m hmem x.fix hf
    obtain ⟨hline, hline'⟩ := hlines m hmem x.fix hf
    exact ⟨⟨hstart, hline⟩, ⟨hstart.trans hstop, hline'⟩⟩
  refine applied_moved (toDocument_strictMonoOn hlayout hlength) hmoved hoffsets hle hdist ?_
  intro x hx
  exact isApplicable_moved hlayout hlength hdocument hcode (start_le_stop hle hx) (hoffsets x hx)

/-- Fixes of a quoted block with two-byte line endings, behind a comment. The second overlaps the
third, which splits a character; the first goes over a line break. The first and the last are
applied, in both texts. -/
theorem applied_commutes_quoted :
    let document := Text.ofString "> ```\r\n> é;\r\n>  cd\r\n> ```\r\n"
    let v : Visit := ⟨.block, Text.ofString "é;\ncd", some ⟨⟨2, 1, 3⟩, ⟨26, 4, 6⟩⟩, 1,
      [.comment (Text.ofString "<!--eslint-->") none]⟩
    let m := Message.ofRule "semi" "" 2 1
    let ms := [m.withFix ⟨13, 16, "x"⟩, m.withFix ⟨11, 14, "y"⟩, m.withFix ⟨12, 13, "z"⟩,
      m.withFix ⟨17, 17, "!"⟩]
    ∃ b ns, v.extract document .nesting 4 = .ok (some b) ∧
      List.Forall₂ (fun m n => b.documentMessage (.ofRules [] true) m = .ok (some n)) ms ns ∧
      (applyFixes document ns).applied = (applyFixes b.sourceText ms).applied ∧
      (applyFixes b.sourceText ms).applied = [0, 3] := by
  intro document v m ms
  let b : Block := ⟨v.code, .block, v.loc, 4, [Text.ofString "/*eslint*/"],
    some ⟨[⟨0, 0⟩, ⟨11, -2⟩, ⟨15, 2⟩]⟩⟩
  let n : Message := { m with line := 2, column := 4 }
  let ns := [n.withFix ⟨11, 18, "x"⟩, n.withFix ⟨9, 12, "y"⟩, n.withFix ⟨10, 11, "z"⟩,
    n.withFix ⟨19, 19, "!"⟩]
  have hloc : v.locIn document = b.loc := by decide +kernel
  have hmap : v.rangeMapIn document b.comments = b.rangeMap := by decide +kernel
  have hb : v.extract document .nesting 4 = .ok (some b) :=
    Visit.extract_eq_some_iff.2 ⟨b.comments, 4, by decide +kernel, rfl, by rw [hloc, hmap]⟩
  have hns : List.Forall₂ (fun m n => b.documentMessage (.ofRules [] true) m = .ok (some n) ∧
      n.fix.isSome = m.fix.isSome) ms ns :=
    .cons ⟨by cbv, rfl⟩ (.cons ⟨by cbv, rfl⟩ (.cons ⟨by cbv, rfl⟩ (.cons ⟨by cbv, rfl⟩ .nil)))
  have hfirst : ∀ k ≤ 3, b.code.OnLine k := fun k hk =>
    ⟨[], Text.ofString "é;", [Text.ofString "cd"], k, by cbv, hk, by simp⟩
  have hsecond : ∀ k ≤ 2, b.code.OnLine (4 + k) := fun k hk =>
    ⟨[Text.ofString "é;"], Text.ofString "cd", [], k, by cbv, hk, rfl⟩
  have hlines : ∀ m ∈ ms, ∀ f ∈ m.fix, b.code.OnLine (f.start - b.commentLength) ∧
      b.code.OnLine (f.stop - b.commentLength) := by
    simp only [ms, List.forall_mem_cons, List.not_mem_nil]
    refine ⟨?_, ?_, ?_, ?_, by simp⟩
    · rintro f ⟨⟩
      exact ⟨hfirst 2 (by decide), hsecond 1 (by decide)⟩
    · rintro f ⟨⟩
      exact ⟨hfirst 0 (by decide), hfirst 3 (by decide)⟩
    · rintro f ⟨⟩
      exact ⟨hfirst 1 (by decide), hfirst 2 (by decide)⟩
    · rintro f ⟨⟩
      exact ⟨hsecond 2 (by decide), hsecond 2 (by decide)⟩
  have hlength : document.length < Word.bound64 := by decide +kernel
  have hrange : ∀ m ∈ ms, ∀ f ∈ m.fix, f.start ≤ f.stop := by decide
  have hdist : ((indexedFixes ms).map (·.fix.start)).Nodup := by decide
  have happlied := applied_commutes (Text.isString_ofString _) hlength (Text.isString_ofString _)
    hb (by simp [b]) hns hrange hdist hlines
  exact ⟨b, ns, hb, hns.imp fun _ _ h => h.1, happlied, by cbv⟩

end Block
end Inlay
