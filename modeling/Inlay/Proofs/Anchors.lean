import Inlay.Proofs.Commutation
import Inlay.Proofs.Positions

/-! Where code stands in the document. A piece of the extracted text is anchored when its bytes
stand somewhere in the document and the range map moves each offset of the piece to the same byte
there. The code of an inline block is anchored as a whole, and each line of a fenced block is
anchored without its line ending, below the delimiter line and inside the location. -/

namespace Inlay

open Text (linesLength newline)

namespace Text

/-- Both offsets lie on the text of one line, in this order. -/
def OnOneLine (t : Text) (i j : Nat) : Prop :=
  ∃ pre l post m n, t.lines = pre ++ l :: post ∧ m ≤ n ∧ n ≤ l.stripReturn.length ∧
    i = linesLength pre + m ∧ j = linesLength pre + n

theorem extract_append {x y z : Text} {i j : Nat} (hij : i ≤ j) (hj : j ≤ y.length) :
    List.extract (x ++ y ++ z) (x.length + i) (x.length + j) = y.extract i j := by
  have hlen : x.length + j - (x.length + i) = j - i := by omega
  rw [List.extract_eq_take_drop, List.extract_eq_take_drop, hlen, List.append_assoc,
    List.drop_length_add_append, List.drop_append_of_le_length (by omega),
    List.take_append_of_le_length (by simp; omega)]

/-- What a line has from some offset on stands in the text, its line ending aside. -/
theorem exists_append_of_lines {t l : Text} {pre post : List Text} {k : Nat}
    (h : t.lines = pre ++ l :: post) (hk : k ≤ l.length) :
    ∃ x z, t = x ++ l.stripReturn.drop k ++ z ∧ x.length = linesLength pre + k ∧
      x.lines = pre ++ [l.take k] := by
  obtain ⟨x, y, rfl, hlen, hx, hy⟩ := exists_lines_cut h hk
  have hprefix : l.stripReturn.drop k <+: y := by
    rw [← stripReturn_drop]
    refine (stripReturn_isPrefix _).trans ?_
    rcases append_break_of_lines hy with ⟨-, rfl⟩ | ⟨u, rfl⟩
    · exact List.prefix_refl _
    · exact List.prefix_append _ _
  obtain ⟨z, rfl⟩ := hprefix
  exact ⟨x, z, by simp, hlen, hx⟩

theorem newline_notMem_stripReturn {t l : Text} (h : l ∈ t.lines) : newline ∉ l.stripReturn :=
  fun hmem => newline_notMem_of_mem_lines h ((stripReturn_isPrefix l).subset hmem)

end Text

namespace RangeMap

/-- The text at `start` of the extracted text stands in the document behind `before`, and the map
moves its offsets there. -/
structure Anchored (document : Text) (map : RangeMap) (start : Nat) (text before : Text) :
    Prop where
  isPrefix : before ++ text <+: document
  toDocument_add : ∀ k ≤ text.length, map.toDocument (start + k) = before.length + k

namespace Anchored

variable {document text before : Text} {map : RangeMap} {start k : Nat}

theorem toDocument_start (h : Anchored document map start text before) :
    map.toDocument start = before.length := h.toDocument_add 0 (Nat.zero_le _)

theorem length_le (h : Anchored document map start text before) :
    before.length + text.length ≤ document.length := by
  rw [← List.length_append]
  exact h.isPrefix.length_le

theorem piece {x y z : Text} (h : Anchored document map start (x ++ y ++ z) before) :
    Anchored document map (start + x.length) y (before ++ x) where
  isPrefix := by
    refine List.IsPrefix.trans ⟨z, ?_⟩ h.isPrefix
    simp
  toDocument_add k hk := by
    rw [Nat.add_assoc, h.toDocument_add _ (by simp; omega), List.length_append, Nat.add_assoc]

theorem extract_eq (h : Anchored document map start text before) {i j : Nat} (hij : i ≤ j)
    (hj : j ≤ text.length) :
    document.extract (map.toDocument (start + i)) (map.toDocument (start + j)) =
      text.extract i j := by
  rw [h.toDocument_add i (by omega), h.toDocument_add j hj]
  obtain ⟨after, rfl⟩ := h.isPrefix
  exact Text.extract_append hij hj

theorem lineAt_eq (h : Anchored document map start text before) (htext : newline ∉ text)
    (hk : k ≤ text.length) :
    document.lineAt (map.toDocument (start + k)) = 1 + before.count newline := by
  rw [h.toDocument_add k hk]
  obtain ⟨after, rfl⟩ := h.isPrefix
  exact Text.lineAt_append_add htext hk

theorem columnAt_eq (h : Anchored document map start text before) (htext : newline ∉ text)
    (hk : k ≤ text.length) :
    document.columnAt (map.toDocument (start + k)) =
      document.columnAt (map.toDocument start) + k := by
  rw [h.toDocument_add k hk, h.toDocument_start]
  obtain ⟨after, rfl⟩ := h.isPrefix
  exact Text.columnAt_append_add htext hk

end Anchored

variable {document code : Text} {loc : Location} {comments : List Text} {map : RangeMap}

theorem exists_anchored_of_inline? (hmap : inline? document loc code comments = some map)
    (hlength : document.length < Word.bound64) :
    ∃ before, Anchored document map (commentLength comments) code before ∧
      before.length = loc.start.offset ∧ before = document.take loc.start.offset := by
  obtain ⟨⟨x, y, rfl, hx, -⟩, rfl⟩ := inline?_eq_some_iff.1 hmap
  simp only [List.length_append] at hlength
  refine ⟨x, ⟨⟨y, by simp⟩, fun k hk => ?_⟩, hx, by rw [← hx, List.take_left]⟩
  rw [toDocument_inline (by omega), hx]

/-- Each line of the code of a fenced block is anchored behind its delimiter line and as many
document lines as there are code lines before it. -/
theorem exists_anchored_of_fenced? (hmap : fenced? document loc code comments = some map)
    (hlength : document.length < Word.bound64) {raw delimiter : Text} {raws : List Text}
    (hraw : loc.textIn? document = some raw) (hlines : raw.lines = delimiter :: raws)
    {pre post : List Text} {line : Text} (hcode : code.lines = pre ++ line :: post) :
    ∃ before,
      Anchored document map (commentLength comments + linesLength pre) line.stripReturn before ∧
      before.count newline =
        (document.take loc.start.offset).count newline + (pre.length + 1) ∧
      loc.start.offset + delimiter.length < before.length ∧
      before.length + line.stripReturn.length ≤ loc.stop.offset := by
  obtain ⟨raw', delimiter', raws', es, hraw', hlines', hes, rfl⟩ := fenced?_eq_some_iff.1 hmap
  obtain rfl := Option.some.inj (hraw.symm.trans hraw')
  obtain ⟨rfl, rfl⟩ := List.cons.inj (hlines.symm.trans hlines')
  rw [hcode] at hes
  obtain ⟨preRaw, r, postRaw, entries, entries', rfl, rfl, hpre, ⟨p, hp⟩, -, hbefore, hafter⟩ :=
    alignLines_at hes
  -- the document line has `p` in front of the code line
  have htrim : r.stripReturn.length - line.stripReturn.length = p.length := by
    rw [← hp, List.length_append]
    omega
  have hpr : p.length ≤ r.length := by
    have := (Text.stripReturn_isPrefix r).length_le
    rw [← hp, List.length_append] at this
    omega
  obtain ⟨x, z, rfl, hx, hxlines⟩ :=
    @Text.exists_append_of_lines raw r (delimiter :: preRaw) postRaw p.length hlines hpr
  rw [← hp, List.drop_left] at hraw
  obtain ⟨front, rest, rfl, hfront, hstop, -⟩ := Text.slice?_eq_some_iff.1 hraw
  simp only [List.length_append, Text.linesLength_cons] at hstop hlength hx
  refine ⟨front ++ x, ⟨⟨z ++ rest, by simp⟩, fun k hk => ?_⟩, ?_, ?_, ?_⟩
  · have hstrip := (Text.stripReturn_isPrefix line).length_le
    refine toDocument_lineEntry (by omega) ?_ ?_ hbefore hafter
    · rw [htrim, List.length_append]
      omega
    · rw [List.length_append]
      omega
  · have hcount := Text.length_lines x
    rw [hxlines] at hcount
    simp only [List.length_append, List.length_cons, List.length_nil, hpre.length_eq] at hcount
    rw [← hfront, List.take_left, List.count_append]
    omega
  · rw [List.length_append]
    omega
  · rw [List.length_append]
    omega

/-- Range maps are sound on text. Two offsets on the text of one line of a fenced block have the
same bytes between them in the code as their images have in the document, and the images lie behind
the delimiter line and inside the location. In an inline block the bytes agree between any two
offsets of the code. -/
theorem toDocument_sound (hlength : document.length < Word.bound64) :
    (fenced? document loc code comments = some map →
      ∃ raw delimiter raws, loc.textIn? document = some raw ∧ raw.lines = delimiter :: raws ∧
        ∀ i j, code.OnOneLine i j →
          let a := map.toDocument (commentLength comments + i)
          let b := map.toDocument (commentLength comments + j)
          document.extract a b = code.extract i j ∧
            loc.start.offset + delimiter.length < a ∧ a ≤ b ∧ b ≤ loc.stop.offset) ∧
    (inline? document loc code comments = some map →
      ∀ i j, i ≤ j → j ≤ code.length →
        let a := map.toDocument (commentLength comments + i)
        let b := map.toDocument (commentLength comments + j)
        document.extract a b = code.extract i j ∧
          loc.start.offset ≤ a ∧ a ≤ b ∧ b ≤ document.length) := by
  constructor
  · intro hmap
    obtain ⟨raw, delimiter, raws, -, hraw, hlines, -⟩ := fenced?_eq_some_iff.1 hmap
    refine ⟨raw, delimiter, raws, hraw, hlines, ?_⟩
    rintro - - ⟨pre, l, post, m, n, hcode, hmn, hn, rfl, rfl⟩
    obtain ⟨before, hanchored, -, hdelimiter, hstop⟩ :=
      exists_anchored_of_fenced? hmap hlength hraw hlines hcode
    intro a b
    have ha : a = before.length + m := by
      rw [← hanchored.toDocument_add m (by omega), Nat.add_assoc]
    have hb : b = before.length + n := by
      rw [← hanchored.toDocument_add n hn, Nat.add_assoc]
    refine ⟨?_, by omega, by omega, by omega⟩
    calc
      document.extract a b = l.stripReturn.extract m n := by
        rw [← hanchored.extract_eq hmn hn, Nat.add_assoc, Nat.add_assoc]
      _ = code.extract (linesLength pre + m) (linesLength pre + n) := by
        obtain ⟨x, z, hxz, hx, -⟩ := Text.exists_append_of_lines hcode (Nat.zero_le _)
        rw [Nat.add_zero] at hx
        rw [hxz, ← hx, List.drop_zero, Text.extract_append hmn hn]
  · intro hmap i j hij hj a b
    obtain ⟨before, hanchored, hbefore, -⟩ := exists_anchored_of_inline? hmap hlength
    have ha : a = before.length + i := hanchored.toDocument_add i (by omega)
    have hb : b = before.length + j := hanchored.toDocument_add j hj
    have hle := hanchored.length_le
    exact ⟨hanchored.extract_eq hij hj, by omega, by omega, by omega⟩

/-- A quoted block with two-byte line endings, behind a comment: the bytes of its second line. And
inline code over a line break of the same document, line ending included. -/
theorem toDocument_sound_quoted :
    let document := Text.ofString "> ```\r\n> é;\r\n>  cd\r\n> ```\r\n"
    let comments := [Text.ofString "/*eslint*/"]
    let fenced : RangeMap := ⟨[⟨0, 0⟩, ⟨11, -2⟩, ⟨15, 2⟩]⟩
    let inline : RangeMap := ⟨[⟨0, 0⟩, ⟨11, -2⟩]⟩
    let code := Text.ofString "é;\ncd"
    let value := Text.ofString "é;\r\n>  c"
    (fenced? document ⟨⟨2, 1, 3⟩, ⟨26, 4, 6⟩⟩ code comments = some fenced ∧
      document.extract (fenced.toDocument 15) (fenced.toDocument 17) = code.extract 4 6 ∧
      fenced.toDocument 17 ≤ 26) ∧
    (inline? document ⟨⟨9, 2, 3⟩, ⟨18, 3, 5⟩⟩ value comments = some inline ∧
      document.extract (inline.toDocument 12) (inline.toDocument 20) = value.extract 1 9) := by
  intro document comments fenced inline code value
  have hlength : document.length < Word.bound64 := by decide +kernel
  have hfenced : fenced? document ⟨⟨2, 1, 3⟩, ⟨26, 4, 6⟩⟩ code comments = some fenced := by
    decide +kernel
  have hinline : inline? document ⟨⟨9, 2, 3⟩, ⟨18, 3, 5⟩⟩ value comments = some inline := by
    decide +kernel
  have hline : code.OnOneLine 4 6 :=
    ⟨[Text.ofString "é;"], Text.ofString "cd", [], 0, 2, by cbv, by cbv, by cbv, by cbv, by cbv⟩
  refine ⟨⟨hfenced, ?_⟩, hinline, ?_⟩
  · obtain ⟨raw, delimiter, raws, hraw, hlines, hsound⟩ := (toDocument_sound hlength).1 hfenced
    obtain ⟨hbytes, -, -, hstop⟩ := hsound 4 6 hline
    exact ⟨hbytes, hstop⟩
  · exact ((toDocument_sound hlength).2 hinline 1 9 (by decide) (by cbv)).1

end RangeMap
end Inlay
