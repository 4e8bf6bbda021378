import Mathlib.Data.List.Forall2
import Inlay.Block.RangeMap
import Inlay.Proofs.Boundary
import Inlay.Proofs.Lines

/-! What a range map says. Halving finds the last entry that starts at or before an offset, and a
map exists for a fenced block exactly when each line of the code ends its document line. So an
offset on the text of a code line goes to the same place on the document line. -/

namespace Inlay

open Text (linesLength)

namespace RangeMap

/-! ## Lookup -/

theorem partitionPoint_append {α : Type} {p : α → Bool} {ys zs : List α}
    (hys : ∀ y ∈ ys, p y = true) (hzs : ∀ z ∈ zs, p z = false) :
    partitionPoint p (ys ++ zs) = ys.length := by
  generalize hxs : ys ++ zs = xs
  fun_induction partitionPoint p xs generalizing ys zs with
  | case1 xs hmid =>
    have hlen := congrArg List.length hxs
    rw [List.getElem?_eq_none_iff] at hmid
    simp only [List.length_append] at hlen
    omega
  | case2 xs x hmid hx ih =>
    -- the middle element passes, so it belongs to the front part
    have hlt : xs.length / 2 < ys.length := by
      by_contra hge
      rw [← hxs, List.getElem?_append_right (by rw [hxs]; omega)] at hmid
      rw [hzs x (List.mem_of_getElem? hmid)] at hx
      cases hx
    have hrest : ys.drop (xs.length / 2 + 1) ++ zs = xs.drop (xs.length / 2 + 1) := by
      rw [← hxs, List.drop_append_of_le_length (by rw [hxs]; omega)]
    rw [ih (fun y hy => hys y (List.mem_of_mem_drop hy)) hzs hrest, List.length_drop]
    omega
  | case3 xs x hmid hx ih =>
    have hge : ys.length ≤ xs.length / 2 := by
      by_contra hlt
      rw [← hxs, List.getElem?_append_left (by rw [hxs]; omega)] at hmid
      exact hx (hys x (List.mem_of_getElem? hmid))
    have hrest : ys ++ zs.take (xs.length / 2 - ys.length) = xs.take (xs.length / 2) := by
      conv_rhs => rw [← hxs, List.take_append, List.take_of_length_le (by rw [hxs]; omega), hxs]
    exact ih hys (fun z hz => hzs z (List.mem_of_mem_take hz)) hrest

/-- Halving ends behind the last entry that starts at or before the offset. -/
theorem partitionPoint_entries {m : RangeMap} {before after : List RangeEntry} {e : RangeEntry}
    {q : Nat} (hm : m.entries = before ++ e :: after) (hbefore : ∀ x ∈ before, x.extracted ≤ q)
    (he : e.extracted ≤ q) (hafter : ∀ x ∈ after, q < x.extracted) :
    partitionPoint (fun x : RangeEntry => decide (x.extracted ≤ q)) m.entries =
      before.length + 1 := by
  have hpoint : partitionPoint (fun x : RangeEntry => decide (x.extracted ≤ q)) m.entries =
      (before ++ [e]).length := by
    rw [hm, List.append_cons]
    refine partitionPoint_append ?_ fun x hx => by simpa using hafter x hx
    intro x hx
    rcases List.mem_append.1 hx with hx | hx
    · simpa using hbefore x hx
    · simpa [List.mem_singleton.1 hx] using he
  rw [hpoint, List.length_append, List.length_singleton]

theorem entryFor_eq {m : RangeMap} {before after : List RangeEntry} {e : RangeEntry} {q : Nat}
    (hm : m.entries = before ++ e :: after) (hbefore : ∀ x ∈ before, x.extracted ≤ q)
    (he : e.extracted ≤ q) (hafter : ∀ x ∈ after, q < x.extracted) : m.entryFor q = e := by
  rw [entryFor, partitionPoint_entries hm hbefore he hafter, hm]
  simp

theorem withSentinel_entries (es : List RangeEntry) :
    ∃ front, (withSentinel es).entries = front ++ es ∧ ∀ e ∈ front, e.extracted = 0 := by
  unfold withSentinel
  split
  · exact ⟨[sentinel], rfl, by simp [sentinel]⟩
  · split
    · exact ⟨[], rfl, by simp⟩
    · exact ⟨[sentinel], rfl, by simp [sentinel]⟩

theorem entryFor_withSentinel {before after : List RangeEntry} {e : RangeEntry} {q : Nat}
    (hbefore : ∀ x ∈ before, x.extracted ≤ q) (he : e.extracted ≤ q)
    (hafter : ∀ x ∈ after, q < x.extracted) :
    (withSentinel (before ++ e :: after)).entryFor q = e := by
  obtain ⟨front, hentries, hfront⟩ := withSentinel_entries (before ++ e :: after)
  rw [← List.append_assoc] at hentries
  refine entryFor_eq hentries ?_ he hafter
  intro x hx
  rcases List.mem_append.1 hx with hx | hx
  · simp [hfront x hx]
  · exact hbefore x hx

theorem toDocument_withSentinel {before after : List RangeEntry} {e : RangeEntry} {q n : Nat}
    (hbefore : ∀ x ∈ before, x.extracted ≤ q) (he : e.extracted ≤ q)
    (hafter : ∀ x ∈ after, q < x.extracted) (hn : q + e.delta = n) (hbound : n < Word.bound64) :
    (withSentinel (before ++ e :: after)).toDocument q = n := by
  rw [toDocument, entryFor_withSentinel hbefore he hafter, hn, Word.clamp64, Int.toNat_natCast]
  omega

/-! ## Aligned lines -/

/-- The code line ends the document line, line endings aside. -/
def LineFits (raw code : Text) : Prop := code.stripReturn <:+ raw.stripReturn

/-- Each code line ends its document line; document lines may be left over. -/
inductive Aligned : List Text → List Text → Prop where
  | nil (raws : List Text) : Aligned raws []
  | cons {raw code : Text} {raws codes : List Text} (fits : LineFits raw code)
      (rest : Aligned raws codes) : Aligned (raw :: raws) (code :: codes)

theorem Aligned.append {rs cs raws codes : List Text} (hfits : List.Forall₂ LineFits rs cs)
    (h : Aligned raws codes) : Aligned (rs ++ raws) (cs ++ codes) := by
  induction hfits with
  | nil => exact h
  | cons hrc _ ih => exact .cons hrc ih

theorem alignLines_cons_eq_some_iff {x d : Nat} {raw code : Text} {raws codes : List Text}
    {es : List RangeEntry} :
    alignLines x d (raw :: raws) (code :: codes) = some es ↔
      LineFits raw code ∧
        ∃ rest, alignLines (x + code.length + 1) (d + raw.length + 1) raws codes = some rest ∧
          es = lineEntry x d raw code :: rest := by
  simp [alignLines, LineFits, @eq_comm _ es]

/-- Lines have a table of differences exactly when they are aligned. -/
theorem alignLines_isSome_iff {x d : Nat} {raws codes : List Text} :
    (alignLines x d raws codes).isSome = true ↔ Aligned raws codes := by
  induction codes generalizing x d raws with
  | nil => simp [alignLines, Aligned.nil]
  | cons code codes ih =>
    cases raws with
    | nil =>
      refine ⟨fun h => by simp [alignLines] at h, fun h => ?_⟩
      cases h
    | cons raw raws =>
      rw [Option.isSome_iff_exists]
      simp only [alignLines_cons_eq_some_iff]
      constructor
      · rintro ⟨es, hfits, rest, hrest, -⟩
        exact .cons hfits (ih.1 (by rw [hrest]; rfl))
      · rintro (_ | ⟨hfits, hrest⟩)
        obtain ⟨rest, hrest⟩ := Option.isSome_iff_exists.1
          (@ih (x + code.length + 1) (d + raw.length + 1) raws |>.2 hrest)
        exact ⟨_, hfits, rest, hrest, rfl⟩

theorem le_extracted_of_alignLines {x d : Nat} {raws codes : List Text} {es : List RangeEntry}
    (h : alignLines x d raws codes = some es) : ∀ e ∈ es, x ≤ e.extracted := by
  induction codes generalizing x d raws es with
  | nil =>
    obtain rfl : [] = es := by simpa [alignLines] using h
    simp
  | cons code codes ih =>
    cases raws with
    | nil => simp [alignLines] at h
    | cons raw raws =>
      obtain ⟨-, rest, hrest, rfl⟩ := alignLines_cons_eq_some_iff.1 h
      intro e he
      rcases List.mem_cons.1 he with rfl | he
      · exact Nat.le_refl _
      · have := ih hrest e he
        omega

/-- The table at one code line: its document line, its entry, and which entries come before and
after. -/
theorem alignLines_at {x d : Nat} {raws pre post : List Text} {c : Text} {es : List RangeEntry}
    (h : alignLines x d raws (pre ++ c :: post) = some es) :
    ∃ preRaw r postRaw before after,
      raws = preRaw ++ r :: postRaw ∧
      es = before ++ lineEntry (x + linesLength pre) (d + linesLength preRaw) r c :: after ∧
      List.Forall₂ LineFits preRaw pre ∧ LineFits r c ∧ Aligned postRaw post ∧
      (∀ e ∈ before, e.extracted < x + linesLength pre) ∧
      (∀ e ∈ after, x + linesLength pre + c.length < e.extracted) := by
  induction pre generalizing x d raws es with
  | nil =>
    cases raws with
    | nil => simp [alignLines] at h
    | cons r raws =>
      obtain ⟨hfits, rest, hrest, rfl⟩ := alignLines_cons_eq_some_iff.1 h
      exact ⟨[], r, raws, [], rest, rfl, rfl, .nil, hfits,
        alignLines_isSome_iff.1 (by rw [hrest]; rfl), by simp, le_extracted_of_alignLines hrest⟩
  | cons p pre ih =>
    cases raws with
    | nil => simp [alignLines] at h
    | cons raw raws =>
      obtain ⟨hfits, rest, hrest, rfl⟩ := alignLines_cons_eq_some_iff.1 h
      obtain ⟨preRaw, r, postRaw, before, after, rfl, rfl, hpre, hrc, hpost, hbefore, hafter⟩ :=
        ih hrest
      have hx : x + p.length + 1 + linesLength pre = x + linesLength (p :: pre) := by
        simp; omega
      have hd : d + raw.length + 1 + linesLength preRaw = d + linesLength (raw :: preRaw) := by
        simp; omega
      rw [hx] at hbefore hafter
      refine ⟨raw :: preRaw, r, postRaw, lineEntry x d raw p :: before, after, rfl, ?_,
        .cons hfits hpre, hrc, hpost, ?_, hafter⟩
      · rw [hx, hd, List.cons_append]
      · intro e he
        rcases List.mem_cons.1 he with rfl | he
        · simp only [lineEntry, Text.linesLength_cons]
          omega
        · exact hbefore e he

theorem toDocument_lineEntry {x d k n : Nat} {r c : Text} {before after : List RangeEntry}
    (hk : k ≤ c.length) (hn : n = d + (r.stripReturn.length - c.stripReturn.length) + k)
    (hbound : n < Word.bound64) (hbefore : ∀ e ∈ before, e.extracted < x)
    (hafter : ∀ e ∈ after, x + c.length < e.extracted) :
    (withSentinel (before ++ lineEntry x d r c :: after)).toDocument (x + k) = n := by
  refine toDocument_withSentinel (fun e he => ?_) ?_ (fun e he => ?_) ?_ hbound
  · have := hbefore e he
    omega
  · simp [lineEntry]
  · have := hafter e he
    omega
  · simp only [lineEntry]
    omega

/-! ## Whole maps -/

theorem fenced?_eq_some_iff {document code : Text} {loc : Location} {comments : List Text}
    {map : RangeMap} :
    fenced? document loc code comments = some map ↔
      ∃ raw delimiter raws es, loc.textIn? document = some raw ∧ raw.lines = delimiter :: raws ∧
        alignLines (commentLength comments) (loc.start.offset + delimiter.length + 1) raws
          code.lines = some es ∧ map = withSentinel es := by
  unfold fenced?
  cases loc.textIn? document with
  | none => simp
  | some raw =>
    obtain ⟨delimiter, raws, hlines⟩ := Text.exists_lines_eq_cons raw
    simp [hlines, @eq_comm _ map]

theorem fenced?_isSome {document code raw delimiter : Text} {loc : Location}
    {comments raws : List Text} (hraw : loc.textIn? document = some raw)
    (hlines : raw.lines = delimiter :: raws) (h : Aligned raws code.lines) :
    (fenced? document loc code comments).isSome = true := by
  obtain ⟨es, hes⟩ := Option.isSome_iff_exists.1 (alignLines_isSome_iff.2 h)
  exact Option.isSome_iff_exists.2
    ⟨_, fenced?_eq_some_iff.2 ⟨raw, delimiter, raws, es, hraw, hlines, hes, rfl⟩⟩

theorem inline?_eq_some_iff {document code : Text} {loc : Location} {comments : List Text}
    {map : RangeMap} :
    inline? document loc code comments = some map ↔
      (∃ x y, document = x ++ (code ++ y) ∧ x.length = loc.start.offset ∧
        (x = [] ∨ Text.StartsChar (code ++ y))) ∧
      map = withSentinel [⟨commentLength comments,
        (loc.start.offset : Int) - commentLength comments⟩] := by
  unfold inline?
  constructor
  · intro h
    split at h
    · next rest hrest =>
      obtain ⟨x, z, hdoc, hx, hlen, hstart, -⟩ := Text.slice?_eq_some_iff.1 hrest
      split at h
      · next hprefix =>
        obtain ⟨y, rfl⟩ := List.isPrefixOf_iff_prefix.1 hprefix
        have hz : z = [] := by
          have := congrArg List.length hdoc
          simp at this hlen
          exact List.length_eq_zero_iff.1 (by omega)
        subst hz
        rw [List.append_nil] at hdoc hstart
        exact ⟨⟨x, y, hdoc, hx, hstart⟩, (Option.some.inj h).symm⟩
      · cases h
    · cases h
  · rintro ⟨⟨x, y, rfl, hx, hstart⟩, rfl⟩
    have hslice : Text.slice? (x ++ (code ++ y)) loc.start.offset (x ++ (code ++ y)).length =
        some (code ++ y) := by
      refine Text.slice?_eq_some_iff.2 ⟨x, [], by simp, hx, by simp [hx], by simpa using hstart, ?_⟩
      exact Or.inr Text.startsChar_nil
    rw [hslice]
    exact if_pos (List.isPrefixOf_iff_prefix.2 (List.prefix_append code y))

end RangeMap
end Inlay
