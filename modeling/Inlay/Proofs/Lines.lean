import Inlay.Number.Total
import Inlay.Text.Basic

/-! Cutting a text and its lines. A cut inside a line cuts that line in two and leaves the others
as they are, and putting two texts together joins the last line of the one to the first line of the
other. Offsets on the text of a line stop before the `\r` that a two-byte line ending leaves. -/

namespace Inlay
namespace Text

/-- The length of lines that are each followed by a line break. -/
def linesLength (ls : List Text) : Nat := total (ls.map (·.length + 1))

@[simp] theorem linesLength_nil : linesLength [] = 0 := rfl

@[simp] theorem linesLength_cons (l : Text) (ls : List Text) :
    linesLength (l :: ls) = l.length + 1 + linesLength ls := rfl

@[simp] theorem linesLength_append (ks ls : List Text) :
    linesLength (ks ++ ls) = linesLength ks + linesLength ls := by
  simp [linesLength]

/-- Of two places in a list of lines the one on the earlier line ends before the other starts. -/
theorem linesLength_lt {ls pre pre' post post' : List Text} {l l' : Text}
    (h : ls = pre ++ l :: post) (h' : ls = pre' ++ l' :: post') (hlt : pre.length < pre'.length) :
    linesLength pre + l.length < linesLength pre' := by
  have hpre : pre ++ [l] <+: ls := ⟨post, by simp [h]⟩
  have hpre' : pre' <+: ls := ⟨l' :: post', h'.symm⟩
  obtain ⟨between, rfl⟩ := List.prefix_of_prefix_length_le hpre hpre' (by simp; omega)
  simp
  omega

theorem breakLine_newline {l : Text} {ls : List Text} :
    breakLine newline (l :: ls) = [] :: l :: ls := by
  simp [breakLine]

theorem breakLine_of_ne {b : UInt8} (h : b ≠ newline) {l : Text} {ls : List Text} :
    breakLine b (l :: ls) = (b :: l) :: ls := by
  simp [breakLine, h]

theorem exists_lines_eq_cons (t : Text) : ∃ l ls, t.lines = l :: ls :=
  List.exists_cons_of_ne_nil (lines_ne_nil t)

/-- Two texts put together: the last line of the first runs on into the first of the second. -/
theorem lines_append {s t : Text} {pre post : List Text} {l m : Text}
    (hs : s.lines = pre ++ [l]) (ht : t.lines = m :: post) :
    lines (s ++ t) = pre ++ (l ++ m) :: post := by
  induction s generalizing pre l with
  | nil =>
    obtain ⟨rfl, rfl⟩ : pre = [] ∧ l = [] := by
      cases pre with
      | nil => simpa [lines_nil, eq_comm] using hs
      | cons p pre => simp [lines_nil] at hs
    simpa using ht
  | cons b s ih =>
    obtain ⟨k, ks, hks⟩ := exists_lines_eq_cons s
    rw [List.cons_append, lines_cons]
    rw [lines_cons, hks] at hs
    by_cases hb : b = newline
    · subst hb
      rw [breakLine_newline] at hs
      cases pre with
      | nil => simp at hs
      | cons p pre =>
        obtain ⟨rfl, hks'⟩ := List.cons.inj hs
        rw [ih (hks.trans hks')]
        cases pre <;> exact breakLine_newline
    · rw [breakLine_of_ne hb] at hs
      cases pre with
      | nil =>
        obtain ⟨rfl, rfl⟩ := List.cons.inj hs
        rw [@ih [] k hks]
        exact breakLine_of_ne hb
      | cons p pre =>
        obtain ⟨rfl, rfl⟩ := List.cons.inj hs
        rw [@ih (k :: pre) l hks]
        exact breakLine_of_ne hb

/-- A cut of a text inside one of its lines. -/
theorem exists_lines_cut {t : Text} {pre post : List Text} {l : Text} {k : Nat}
    (ht : t.lines = pre ++ l :: post) (hk : k ≤ l.length) :
    ∃ x y, t = x ++ y ∧ x.length = linesLength pre + k ∧
      x.lines = pre ++ [l.take k] ∧ y.lines = l.drop k :: post := by
  induction t generalizing pre l k with
  | nil =>
    obtain ⟨rfl, rfl, rfl⟩ : pre = [] ∧ l = [] ∧ post = [] := by
      cases pre with
      | nil => simpa [lines_nil, eq_comm] using ht
      | cons p pre => simp [lines_nil] at ht
    obtain rfl : k = 0 := by simpa using hk
    exact ⟨[], [], rfl, rfl, rfl, rfl⟩
  | cons b t ih =>
    obtain ⟨m, ms, hms⟩ := exists_lines_eq_cons t
    have hbt := lines_cons b t
    rw [hms] at hbt
    by_cases hb : b = newline
    · subst hb
      rw [breakLine_newline] at hbt
      rw [hbt] at ht
      cases pre with
      | nil =>
        obtain ⟨rfl, rfl⟩ := List.cons.inj ht
        obtain rfl : k = 0 := by simpa using hk
        exact ⟨[], newline :: t, rfl, rfl, rfl, hbt⟩
      | cons p pre =>
        obtain ⟨rfl, hms'⟩ := List.cons.inj ht
        obtain ⟨x, y, rfl, hlen, hx, hy⟩ := ih (hms.trans hms') hk
        refine ⟨newline :: x, y, rfl, by simp [hlen]; omega, ?_, hy⟩
        rw [lines_cons, hx]
        cases pre <;> exact breakLine_newline
    · rw [breakLine_of_ne hb] at hbt
      rw [hbt] at ht
      cases pre with
      | nil =>
        obtain ⟨rfl, rfl⟩ := List.cons.inj ht
        cases k with
        | zero => exact ⟨[], b :: t, rfl, rfl, rfl, hbt⟩
        | succ k =>
          obtain ⟨x, y, rfl, hlen, hx, hy⟩ := @ih [] m k hms (by simpa using hk)
          refine ⟨b :: x, y, rfl, by simp [hlen], ?_, by simpa using hy⟩
          rw [lines_cons, hx]
          exact breakLine_of_ne hb
      | cons p pre =>
        obtain ⟨rfl, rfl⟩ := List.cons.inj ht
        obtain ⟨x, y, rfl, hlen, hx, hy⟩ := @ih (m :: pre) l k hms hk
        refine ⟨b :: x, y, rfl, by simp [hlen]; omega, ?_, hy⟩
        rw [lines_cons, hx]
        exact breakLine_of_ne hb

theorem append_break_of_lines {t : Text} {l : Text} {ls : List Text} (h : t.lines = l :: ls) :
    (ls = [] ∧ t = l) ∨ ∃ u, t = l ++ newline :: u := by
  induction t generalizing l with
  | nil =>
    obtain ⟨rfl, rfl⟩ := List.cons.inj h
    exact Or.inl ⟨rfl, rfl⟩
  | cons b t ih =>
    obtain ⟨m, ms, hms⟩ := exists_lines_eq_cons t
    rw [lines_cons, hms] at h
    by_cases hb : b = newline
    · subst hb
      rw [breakLine_newline] at h
      obtain ⟨rfl, -⟩ := List.cons.inj h
      exact Or.inr ⟨t, rfl⟩
    · rw [breakLine_of_ne hb] at h
      obtain ⟨rfl, rfl⟩ := List.cons.inj h
      rcases ih hms with ⟨rfl, rfl⟩ | ⟨u, rfl⟩
      · exact Or.inl ⟨rfl, rfl⟩
      · exact Or.inr ⟨u, rfl⟩

theorem linesLength_lines (t : Text) : linesLength t.lines = t.length + 1 := by
  induction t with
  | nil => rfl
  | cons b t ih =>
    obtain ⟨l, ls, hls⟩ := exists_lines_eq_cons t
    rw [hls, linesLength_cons] at ih
    rw [lines_cons, hls, List.length_cons]
    by_cases hb : b = newline
    · subst hb
      simp only [breakLine_newline, linesLength_cons, List.length_nil]
      omega
    · simp only [breakLine_of_ne hb, linesLength_cons, List.length_cons]
      omega

theorem newline_notMem_of_mem_lines {t l : Text} (h : l ∈ t.lines) : newline ∉ l := by
  induction t generalizing l with
  | nil =>
    rw [lines_nil, List.mem_singleton] at h
    simp [h]
  | cons b t ih =>
    obtain ⟨m, ms, hms⟩ := exists_lines_eq_cons t
    rw [hms] at ih
    rw [lines_cons, hms] at h
    by_cases hb : b = newline
    · subst hb
      rw [breakLine_newline] at h
      rcases List.mem_cons.1 h with rfl | h
      · simp
      · exact ih h
    · rw [breakLine_of_ne hb] at h
      rcases List.mem_cons.1 h with rfl | h
      · simp [Ne.symm hb, ih (l := m) (by simp)]
      · exact ih (List.mem_cons_of_mem m h)

theorem isInfix_of_mem_lines {t l : Text} (h : l ∈ t.lines) : l <:+: t := by
  obtain ⟨pre, post, hls⟩ := List.append_of_mem h
  obtain ⟨x, y, rfl, -, -, hy⟩ := exists_lines_cut hls (Nat.zero_le _)
  rw [List.drop_zero] at hy
  rcases append_break_of_lines hy with ⟨-, rfl⟩ | ⟨u, rfl⟩
  · exact ⟨x, [], by simp⟩
  · exact ⟨x, newline :: u, by simp⟩

/-! ## Line endings -/

theorem eq_stripReturn_or (t : Text) :
    t = t.stripReturn ∨ t = t.stripReturn ++ [carriageReturn] := by
  unfold stripReturn
  split
  · next h =>
    obtain ⟨ys, rfl⟩ := List.getLast?_eq_some_iff.1 h
    simp
  · exact Or.inl rfl

theorem stripReturn_isPrefix (t : Text) : t.stripReturn <+: t := by
  rcases eq_stripReturn_or t with h | h
  · exact ⟨[], by simpa using h.symm⟩
  · exact ⟨[carriageReturn], h.symm⟩

theorem stripReturn_of_notMem {t : Text} (h : carriageReturn ∉ t) : t.stripReturn = t := by
  rw [stripReturn, if_neg fun hlast => h (List.mem_of_getLast? hlast)]

theorem stripReturn_append_return (t : Text) : stripReturn (t ++ [carriageReturn]) = t := by
  simp [stripReturn]

theorem stripReturn_append {s : Text} (h : carriageReturn ∉ s) (t : Text) :
    stripReturn (s ++ t) = s ++ t.stripReturn := by
  cases t with
  | nil => simpa [stripReturn_of_notMem h] using stripReturn_of_notMem (List.not_mem_nil)
  | cons b t => simp only [stripReturn, List.getLast?_append]; split <;> simp_all

theorem take_stripReturn {t : Text} {k : Nat} (h : k ≤ t.stripReturn.length) :
    t.stripReturn.take k = t.take k := by
  obtain ⟨u, hu⟩ := stripReturn_isPrefix t
  have htake := congrArg (List.take k) hu
  rwa [List.take_append_of_le_length h] at htake

theorem stripReturn_drop (t : Text) (k : Nat) :
    stripReturn (t.drop k) = t.stripReturn.drop k := by
  by_cases hk : t.length ≤ k
  · have hstrip := (stripReturn_isPrefix t).length_le
    rw [List.drop_eq_nil_of_le hk, List.drop_eq_nil_of_le (by omega)]
    rfl
  · unfold stripReturn
    rw [List.getLast?_drop, if_neg hk]
    split
    · rw [List.dropLast_eq_take, List.dropLast_eq_take, List.drop_take, List.length_drop]
      congr 1
      omega
    · rfl

/-- The offset lies on the text of a line, its line ending excluded. -/
def OnLine (t : Text) (n : Nat) : Prop :=
  ∃ pre l post k, t.lines = pre ++ l :: post ∧ k ≤ l.stripReturn.length ∧ n = linesLength pre + k

theorem OnLine.le_length {t : Text} {n : Nat} (h : t.OnLine n) : n ≤ t.length := by
  obtain ⟨pre, l, post, k, ht, hk, rfl⟩ := h
  obtain ⟨x, y, rfl, hlen, -⟩ := exists_lines_cut ht
    (Nat.le_trans hk (stripReturn_isPrefix l).length_le)
  simp [← hlen]

/-- Each `\r` is directly followed by a line break. -/
def ReturnsPaired (t : Text) : Prop :=
  ∀ i < t.length, t[i]? = some carriageReturn → t[i + 1]? = some newline

instance (t : Text) : Decidable t.ReturnsPaired :=
  inferInstanceAs (Decidable (∀ i < t.length, _))

theorem ReturnsPaired.eq_newline {x y : Text} {b : UInt8}
    (h : ReturnsPaired (x ++ carriageReturn :: b :: y)) : b = newline := by
  have hnext := h x.length (by simp) (by simp)
  rw [List.getElem?_append_right (by omega)] at hnext
  simpa using hnext

/-- Where each `\r` belongs to a line ending, the text of a line has none. -/
theorem ReturnsPaired.notMem_stripReturn {t l : Text} (h : t.ReturnsPaired) (hl : l <:+: t)
    (hbreak : newline ∉ l) : carriageReturn ∉ l.stripReturn := by
  intro hmem
  obtain ⟨x, y, rfl⟩ := hl
  obtain ⟨p, q, hpq⟩ := List.append_of_mem hmem
  -- a `\r` on the text of the line is not its last byte, so the line has a byte after it
  obtain ⟨b, q', rfl⟩ : ∃ b q', l = p ++ carriageReturn :: b :: q' := by
    rcases eq_stripReturn_or l with hs | hs
    · cases q with
      | nil =>
        rw [hpq] at hs
        rw [hs, stripReturn_append_return] at hpq
        simp at hpq
      | cons b q => exact ⟨b, q, hs.trans hpq⟩
    · rw [hpq] at hs
      cases q with
      | nil => exact ⟨carriageReturn, [], by simpa using hs⟩
      | cons b q => exact ⟨b, q ++ [carriageReturn], by simpa using hs⟩
  have hb : b = newline := by
    refine ReturnsPaired.eq_newline (x := x ++ p) (y := q' ++ y) ?_
    simpa using h
  exact hbreak (by simp [hb])

end Text
end Inlay
