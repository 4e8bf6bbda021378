import Inlay.Proofs.Coordinates

/-! How far a relocated fix reaches. Offsets of the extracted text keep their order in the document,
from the start of the code up to the line break that is put behind it, and none goes before the
location. That line break stands for nothing in the document: an offset behind the text of the last
code line goes as far behind the image of the end of that text. Whether it still lies in the
location depends on what the location has there, such as the line of a closing fence. -/

namespace Inlay

open Text (linesLength newline carriageReturn)

namespace Text

theorem exists_line_at {ls : List Text} (h : ls ≠ []) (n : Nat) :
    ∃ pre l post k, ls = pre ++ l :: post ∧ n = linesLength pre + k ∧
      (post ≠ [] → k ≤ l.length) := by
  induction ls generalizing n with
  | nil => exact absurd rfl h
  | cons l ls ih =>
    by_cases hn : n ≤ l.length
    · exact ⟨[], l, ls, n, rfl, by simp, fun _ => hn⟩
    · by_cases hls : ls = []
      · exact ⟨[], l, ls, n, rfl, by simp, fun hne => absurd hls hne⟩
      · obtain ⟨pre, m, post, k, rfl, hk, hle⟩ := ih hls (n - (l.length + 1))
        refine ⟨l :: pre, m, post, k, rfl, ?_, hle⟩
        rw [linesLength_cons]
        omega

theorem stripReturn_append_cons (s : Text) (b : UInt8) (t : Text) :
    stripReturn (s ++ b :: t) = s ++ stripReturn (b :: t) := by
  unfold stripReturn
  rw [List.getLast?_append_cons]
  split
  · rw [List.dropLast_append_cons]
  · rfl

theorem length_stripReturn_of_lines {t l : Text} {pre : List Text} (h : t.lines = pre ++ [l]) :
    t.stripReturn.length = linesLength pre + l.stripReturn.length := by
  have hlen := linesLength_lines t
  rw [h] at hlen
  simp only [linesLength_append, linesLength_cons, linesLength_nil] at hlen
  rcases break_append_of_lines h with ⟨rfl, rfl⟩ | ⟨u, rfl⟩
  · simp
  · have hbreak : stripReturn (newline :: l) = newline :: l.stripReturn :=
      stripReturn_append (s := [newline]) (by decide) l
    rw [stripReturn_append_cons, hbreak]
    simp only [List.length_append, List.length_cons] at hlen ⊢
    omega

theorem length_le_stripReturn_succ (t : Text) : t.length ≤ t.stripReturn.length + 1 := by
  rcases eq_stripReturn_or t with h | h
  · exact (congrArg List.length h).le.trans (Nat.le_succ _)
  · have hlen := congrArg List.length h
    rw [List.length_append, List.length_singleton] at hlen
    exact hlen.le

end Text

namespace RangeMap

/-! ## Starts of lines -/

namespace Place

variable {raws codes : List Text}

/-- An offset that counts from the start of a code line stays before the next document line. -/
theorem trim_add_le_succ (q : Place raws codes) {k : Nat} (hk : k ≤ q.code.length) :
    q.trim + k ≤ q.raw.length + 1 := by
  have hfits := q.fits.length_le
  have hcode := Text.length_le_stripReturn_succ q.code
  have hraw := (Text.stripReturn_isPrefix q.raw).length_le
  unfold trim
  omega

theorem documentOffset_add_mono {p q : Place raws codes} (hp : p.column = 0) (hq : q.column = 0)
    {j k : Nat} (hj : p.post ≠ [] → j ≤ p.code.length) (hk : q.post ≠ [] → k ≤ q.code.length)
    (h : p.codeOffset + j ≤ q.codeOffset + k) : p.documentOffset + j ≤ q.documentOffset + k := by
  -- a line with a later one behind it is not the last
  have hpost : ∀ {a b : Place raws codes}, a.pre.length < b.pre.length → a.post ≠ [] := by
    intro a b hlt hnil
    have hcodes := congrArg List.length (a.codes_eq.symm.trans b.codes_eq)
    simp only [hnil, List.length_append, List.length_cons, List.length_nil] at hcodes
    omega
  unfold codeOffset at h
  unfold documentOffset
  rcases p.line_cases q with ⟨hlt, -, hraw⟩ | ⟨hpre, hpreRaw, htrim⟩ | ⟨hlt, hcode⟩
  · have hnext := p.trim_add_le_succ (hj (hpost hlt))
    omega
  · rw [hpre] at h
    rw [hpreRaw, htrim]
    omega
  · have hend := hk (hpost hlt)
    omega

end Place

theorem extracted_le_of_alignLines {x d : Nat} {raws pre : List Text} {c : Text}
    {es : List RangeEntry} (h : alignLines x d raws (pre ++ [c]) = some es) :
    ∀ e ∈ es, e.extracted ≤ x + linesLength pre := by
  induction pre generalizing x d raws es with
  | nil =>
    cases raws with
    | nil => simp [alignLines] at h
    | cons raw raws =>
      obtain ⟨-, rest, hrest, rfl⟩ := alignLines_cons_eq_some_iff.1 h
      obtain rfl : [] = rest := by simpa [alignLines] using hrest
      simp [lineEntry]
  | cons p pre ih =>
    cases raws with
    | nil => simp [alignLines] at h
    | cons raw raws =>
      obtain ⟨-, rest, hrest, rfl⟩ := alignLines_cons_eq_some_iff.1 h
      intro e he
      rw [Text.linesLength_cons]
      rcases List.mem_cons.1 he with rfl | he
      · simp only [lineEntry]
        omega
      · have := ih hrest e he
        omega

/-- The map moves what counts from the start of a code line with that start. On the last line this
goes on behind the end of the line. -/
theorem exists_lineStart {x d : Nat} {raws pre post : List Text} {code c : Text}
    {es : List RangeEntry} (hes : alignLines x d raws code.lines = some es)
    (hcode : code.lines = pre ++ c :: post) (hbound : d + linesLength raws + 1 < Word.bound64) :
    ∃ q : Place raws code.lines, q.pre = pre ∧ q.code = c ∧ q.post = post ∧ q.column = 0 ∧
      ∀ k ≤ c.length + 1, (post ≠ [] → k ≤ c.length) →
        (withSentinel es).toDocument (x + (linesLength pre + k)) = d + q.documentOffset + k := by
  rw [hcode] at hes
  obtain ⟨preRaw, r, postRaw, before, after, hraws, rfl, hpre, hfits, hpost, hbefore, hafter⟩ :=
    alignLines_at hes
  let q : Place raws code.lines :=
    ⟨preRaw, r, postRaw, pre, c, post, 0, hraws, hcode, hpre, hfits, hpost, Nat.zero_le _⟩
  have htrim : q.trim + c.length ≤ r.length + 1 := q.trim_add_le_succ (Nat.le_refl _)
  simp only [hraws, Text.linesLength_append, Text.linesLength_cons] at hbound
  refine ⟨q, rfl, rfl, rfl, rfl, fun k hk hline => ?_⟩
  have hlater : ∀ e ∈ after, x + (linesLength pre + k) < e.extracted := by
    intro e he
    have hlt := hafter e he
    by_cases hlast : post = []
    · -- no entry starts behind the last line
      rw [hlast] at hes
      have hle := extracted_le_of_alignLines hes e (by simp [he])
      omega
    · have hle := hline hlast
      omega
  refine toDocument_withSentinel (fun e he => ?_) ?_ hlater ?_ ?_
  · have := hbefore e he
    omega
  · simp only [lineEntry]
    omega
  · simp only [lineEntry, Place.documentOffset, Place.trim, q]
    omega
  · simp only [Place.documentOffset, q] at htrim ⊢
    omega

theorem exists_lineStart_at {x d n : Nat} {raws : List Text} {code : Text} {es : List RangeEntry}
    (hes : alignLines x d raws code.lines = some es) (hn : n ≤ code.length + 1)
    (hbound : d + linesLength raws + 1 < Word.bound64) :
    ∃ (q : Place raws code.lines) (k : Nat), q.column = 0 ∧ n = q.codeOffset + k ∧
      (q.post ≠ [] → k ≤ q.code.length) ∧
      (withSentinel es).toDocument (x + n) = d + q.documentOffset + k := by
  obtain ⟨pre, c, post, k, hcode, rfl, hk⟩ := Text.exists_line_at (Text.lines_ne_nil code) n
  have hline : k ≤ c.length + 1 := by
    by_cases hlast : post = []
    · have htotal := Text.linesLength_lines code
      rw [hcode, hlast, Text.linesLength_append, Text.linesLength_cons, Text.linesLength_nil]
        at htotal
      omega
    · exact Nat.le_succ_of_le (hk hlast)
  obtain ⟨q, rfl, rfl, rfl, hq, himage⟩ := exists_lineStart hes hcode hbound
  exact ⟨q, k, hq, by rw [Place.codeOffset, hq, Nat.add_zero], hk, himage k hline hk⟩

/-! ## Fenced blocks -/

section Fenced

variable {document code : Text} {loc : Location} {comments : List Text} {map : RangeMap}

theorem linesLength_raws {raw delimiter : Text} {raws : List Text}
    (hraw : loc.textIn? document = some raw) (hlines : raw.lines = delimiter :: raws) :
    loc.start.offset + delimiter.length + linesLength raws = loc.stop.offset ∧
      loc.stop.offset ≤ document.length := by
  obtain ⟨front, rest, rfl, hfront, hstop, -⟩ := Text.slice?_eq_some_iff.1 hraw
  have hlen := Text.linesLength_lines raw
  rw [hlines, Text.linesLength_cons] at hlen
  simp only [List.length_append]
  omega

theorem toDocument_mono_of_fenced? (hmap : fenced? document loc code comments = some map)
    (hlength : document.length + 2 < Word.bound64) {a e : Nat} (hae : a ≤ e)
    (he : e ≤ code.length + 1) :
    loc.start.offset ≤ map.toDocument (commentLength comments + a) ∧
      map.toDocument (commentLength comments + a) ≤
        map.toDocument (commentLength comments + e) := by
  obtain ⟨raw, delimiter, raws, es, hraw, hlines, hes, rfl⟩ := fenced?_eq_some_iff.1 hmap
  obtain ⟨hfill, hstop⟩ := linesLength_raws hraw hlines
  obtain ⟨p, j, hp, hpj, hj, hstart⟩ := exists_lineStart_at hes (hae.trans he) (by omega)
  obtain ⟨q, k, hq, hqk, hk, hend⟩ := exists_lineStart_at hes he (by omega)
  have hmono := Place.documentOffset_add_mono hp hq hj hk (by omega)
  rw [hstart, hend]
  omega

/-- Behind the text of the last code line the map moves offsets by one and the same amount. The end
of that text lies in the location. -/
theorem toDocument_past_of_fenced? (hmap : fenced? document loc code comments = some map)
    (hlength : document.length + 2 < Word.bound64) :
    map.toDocument (commentLength comments + code.stripReturn.length) ≤ loc.stop.offset ∧
      ∀ k, code.stripReturn.length + k ≤ code.length + 1 →
        map.toDocument (commentLength comments + (code.stripReturn.length + k)) =
          map.toDocument (commentLength comments + code.stripReturn.length) + k := by
  obtain ⟨raw, delimiter, raws, es, hraw, hlines, hes, rfl⟩ := fenced?_eq_some_iff.1 hmap
  obtain ⟨hfill, hstop⟩ := linesLength_raws hraw hlines
  obtain ⟨pre, l, hcode⟩ := Text.exists_lines_eq_append code
  have htext := Text.length_stripReturn_of_lines hcode
  have htotal := Text.linesLength_lines code
  simp only [hcode, Text.linesLength_append, Text.linesLength_cons, Text.linesLength_nil] at htotal
  have hstrip := (Text.stripReturn_isPrefix l).length_le
  obtain ⟨q, hpre, hl, -, hq, himage⟩ := exists_lineStart hes hcode (by omega)
  have hend : (withSentinel es).toDocument (commentLength comments + code.stripReturn.length) =
      loc.start.offset + delimiter.length + 1 + q.documentOffset + l.stripReturn.length := by
    rw [htext, himage _ (by omega) (fun h => absurd rfl h)]
  refine ⟨?_, fun k hk => ?_⟩
  · have hraws := congrArg linesLength q.raws_eq
    have hfits := q.fits.length_le
    have hrawStrip := (Text.stripReturn_isPrefix q.raw).length_le
    simp only [Text.linesLength_append, Text.linesLength_cons] at hraws
    rw [hend, Place.documentOffset, Place.trim, hq]
    rw [hl] at hfits ⊢
    omega
  · rw [hend, htext, Nat.add_assoc, himage _ (by omega) (fun h => absurd rfl h)]
    omega

end Fenced

end RangeMap

/-! ## Either layout -/

namespace Layout

variable {layout : Layout} {document code : Text} {loc : Location} {comments : List Text}
  {map : RangeMap}

theorem toDocument_mono (hmap : layout.rangeMap? document loc code comments = some map)
    (hlength : document.length + 2 < Word.bound64) {a e : Nat} (hae : a ≤ e)
    (he : e ≤ code.length + 1) :
    loc.start.offset ≤ map.toDocument (commentLength comments + a) ∧
      map.toDocument (commentLength comments + a) ≤
        map.toDocument (commentLength comments + e) := by
  cases layout with
  | fenced => exact RangeMap.toDocument_mono_of_fenced? hmap hlength hae he
  | inline =>
    obtain ⟨⟨x, y, rfl, hx, -⟩, rfl⟩ := RangeMap.inline?_eq_some_iff.1 hmap
    simp only [List.length_append] at hlength
    rw [RangeMap.toDocument_inline (by omega), RangeMap.toDocument_inline (by omega)]
    omega

/-- Whether the image of an offset lies in front of the end of the location. The offset may be as
far behind the end of the code's text as the location ends behind the image of that end. -/
theorem toDocument_le_stop_iff (hmap : layout.rangeMap? document loc code comments = some map)
    (hlength : document.length + 2 < Word.bound64) {e : Nat} (he : e ≤ code.length + 1) :
    map.toDocument (commentLength comments + e) ≤ loc.stop.offset ↔
      e + map.toDocument (commentLength comments + code.stripReturn.length) ≤
        loc.stop.offset + code.stripReturn.length := by
  cases layout with
  | fenced =>
    obtain ⟨hend, hpast⟩ := RangeMap.toDocument_past_of_fenced? hmap hlength
    rcases Nat.le_total e code.stripReturn.length with hle | hle
    · -- the text of the code lies in the location
      have hcode := (Text.stripReturn_isPrefix code).length_le
      have hmono := (RangeMap.toDocument_mono_of_fenced? hmap hlength hle (by omega)).2
      omega
    · obtain ⟨k, rfl⟩ := Nat.exists_eq_add_of_le hle
      have himage := hpast k he
      omega
  | inline =>
    obtain ⟨⟨x, y, rfl, hx, -⟩, rfl⟩ := RangeMap.inline?_eq_some_iff.1 hmap
    have hcode := (Text.stripReturn_isPrefix code).length_le
    simp only [List.length_append] at hlength
    rw [RangeMap.toDocument_inline (by omega), RangeMap.toDocument_inline (by omega)]
    omega

end Layout

namespace Block

def textEnd (b : Block) : Nat := b.commentLength + b.code.stripReturn.length

theorem length_sourceText (b : Block) :
    b.sourceText.length = b.commentLength + (b.code.length + 1) := by
  obtain ⟨front, hsource, hfront⟩ := b.sourceText_eq
  rw [hsource, List.length_append, hfront, List.length_append, List.length_singleton]

/-- A relocated fix of the extracted text starts in the location of its block and does not end
before it starts. It ends in the location exactly when it reaches no further behind the text of the
code than the location does in the document. In a fenced block the text of the code itself lies in
the location; the code of an inline block stands at its start. -/
theorem documentMessage_fix_confined_iff {v : Visit} {document : Text} {style : IndentStyle}
    {width : Nat} {b : Block} {loc : Location} {map : RangeMap} {filter : MessageFilter}
    {m n : Message} {f g : Fix} (hlength : document.length + 2 < Word.bound64)
    (hb : v.extract document style width = .ok (some b)) (hloc : b.loc = some loc)
    (hmap : b.rangeMap = some map) (hn : b.documentMessage filter m = .ok (some n))
    (hf : m.fix = some f) (hg : n.fix = some g) (hle : f.start ≤ f.stop)
    (hstop : f.stop ≤ b.sourceText.length) :
    loc.start.offset ≤ g.start ∧ g.start ≤ g.stop ∧
    (g.stop ≤ loc.stop.offset ↔
      f.stop + map.toDocument b.textEnd ≤ loc.stop.offset + b.textEnd) ∧
    (b.layout = .fenced → f.stop ≤ b.textEnd → g.stop ≤ loc.stop.offset) ∧
    (b.layout = .inline →
      map.toDocument b.textEnd = loc.start.offset + b.code.stripReturn.length) := by
  obtain ⟨f', hf', hrelocate⟩ := relocateFix_of_documentMessage hn hloc hg
  obtain rfl : f = f' := Option.some.inj (hf.symm.trans hf')
  obtain ⟨map', hmap', hstart, rfl⟩ := relocateFix_eq_some_iff.1 hrelocate
  obtain rfl : map = map' := Option.some.inj (hmap.symm.trans hmap')
  rw [Visit.rangeMap_of_loc_eq_some hb hloc] at hmap
  rw [length_sourceText] at hstop
  have htext := (Text.stripReturn_isPrefix b.code).length_le
  obtain ⟨a, ha⟩ := Nat.exists_eq_add_of_le hstart
  obtain ⟨e, he⟩ := Nat.exists_eq_add_of_le (hstart.trans hle)
  have hmono := Layout.toDocument_mono hmap hlength (a := a) (e := e) (by omega) (by omega)
  have hiff := Layout.toDocument_le_stop_iff hmap hlength (e := e) (by omega)
  have hend : b.textEnd = Inlay.commentLength b.comments + b.code.stripReturn.length := rfl
  have hwithin : map.toDocument f.stop ≤ loc.stop.offset ↔
      f.stop + map.toDocument b.textEnd ≤ loc.stop.offset + b.textEnd := by
    rw [hend, he, commentLength, hiff]
    omega
  refine ⟨?_, ?_, hwithin, fun hlayout hbefore => ?_, fun hlayout => ?_⟩
  · rw [ha]
    exact hmono.1
  · rw [ha, he]
    exact hmono.2
  · rw [hlayout] at hmap
    have hfenced := (RangeMap.toDocument_past_of_fenced? hmap hlength).1
    rw [← hend] at hfenced
    exact hwithin.2 (by omega)
  · rw [hlayout] at hmap
    obtain ⟨⟨x, y, rfl, hx, -⟩, rfl⟩ := RangeMap.inline?_eq_some_iff.1 hmap
    simp only [List.length_append] at hlength
    rw [hend, RangeMap.toDocument_inline (by omega)]

/-- A fix of all code of the quoted script and of the line break behind it. The closing fence leaves
room for the line break. -/
theorem documentMessage_fix_confined_quoted :
    let m := (Message.ofRule "semi" "" 3 1).withFix ⟨19, 27, ""⟩
    quotedBlock.sourceText.length = 27 ∧
    ∃ n, quotedBlock.documentMessage (.ofRules [] true) m = .ok (some n) ∧
      n.fix = some ⟨9, 20, ""⟩ ∧ 2 ≤ 9 ∧ 20 ≤ 26 := by
  intro m
  obtain ⟨n, hn, hfix⟩ : ∃ n, quotedBlock.documentMessage (.ofRules [] true) m = .ok (some n) ∧
      n.fix = some ⟨9, 20, ""⟩ := ⟨_, by cbv, by cbv⟩
  obtain ⟨hstart, -, hstop, -⟩ := documentMessage_fix_confined_iff (by decide +kernel)
    extract_quotedScript rfl rfl hn rfl hfix (by decide) (by decide +kernel)
  exact ⟨by decide +kernel, n, hn, hfix, hstart, hstop.2 (by decide +kernel)⟩

/-- A fix of an inline value and of the line break behind it in the extracted text: in the document
it takes the semicolon behind the value. -/
theorem fix_beyond_location :
    ¬ ∀ (v : Visit) (document : Text) (style : IndentStyle) (width : Nat) (b : Block)
      (loc : Location) (map : RangeMap) (filter : MessageFilter) (m n : Message) (f g : Fix),
      document.length + 2 < Word.bound64 → v.extract document style width = .ok (some b) →
      b.loc = some loc → b.rangeMap = some map → b.documentMessage filter m = .ok (some n) →
      m.fix = some f → n.fix = some g → b.commentLength ≤ f.start → f.start ≤ f.stop →
      f.stop ≤ b.sourceText.length →
      loc.start.offset ≤ g.start ∧ g.start ≤ g.stop ∧ g.stop ≤ loc.stop.offset := by
  intro h
  let document := Text.ofString "x: 2; y: 3\n"
  let loc : Location := ⟨⟨3, 1, 4⟩, ⟨4, 1, 5⟩⟩
  let v : Visit := ⟨.value, Text.ofString "2", some loc, 0, []⟩
  let b : Block := ⟨v.code, .value, some loc, 0, [], some ⟨[⟨0, 3⟩]⟩⟩
  let m := (Message.ofRule "semi" "" 1 1).withFix ⟨0, 2, "4"⟩
  have hloc : v.locIn document = b.loc := by decide +kernel
  have hmap : v.rangeMapIn document b.comments = b.rangeMap := by decide +kernel
  have hb : v.extract document .nesting 4 = .ok (some b) :=
    Visit.extract_eq_some_iff.2 ⟨[], 0, rfl, rfl, by rw [hloc, hmap]⟩
  obtain ⟨n, hn, hg⟩ : ∃ n, b.documentMessage (.ofRules [] true) m = .ok (some n) ∧
      n.fix = some ⟨3, 5, "4"⟩ := ⟨_, by cbv, by cbv⟩
  have hstop := (h v document .nesting 4 b loc _ _ m n _ _ (by decide +kernel) hb rfl rfl hn rfl hg
    (by decide) (by decide) (by decide +kernel)).2.2
  revert hstop
  decide

end Block
end Inlay
