import Inlay.Text.Utf8

/-! Where characters start. Inside a text a boundary is an offset whose byte is not a continuation
byte, so only the byte at an offset decides, and a string put anywhere starts at a boundary. What
is left of a string behind a shorter one is a string again. -/

namespace Inlay
namespace Text

/-- The text is empty or starts with a byte that is not a continuation byte. -/
def StartsChar (t : Text) : Prop := ∀ b ∈ t.head?, isContinuation b = false

def IsString (t : Text) : Prop := ∃ cs, t = ofChars cs

theorem startsChar_nil : StartsChar [] := by simp [StartsChar]

theorem startsChar_cons {b : UInt8} {t : Text} :
    StartsChar (b :: t) ↔ isContinuation b = false := by simp [StartsChar]

theorem startsChar_append {s t : Text} (hs : s.StartsChar) (ht : s = [] → t.StartsChar) :
    StartsChar (s ++ t) := by
  cases s with
  | nil => exact ht rfl
  | cons b s => exact startsChar_cons.2 (startsChar_cons.1 hs)

/-- Whether a character starts at the front of a text that is followed by another is decided by
the first of the two that is not empty. -/
theorem startsChar_append_of {s t u : Text} (hs : StartsChar (s ++ u)) (ht : t.StartsChar) :
    StartsChar (s ++ t) := by
  cases s with
  | nil => exact ht
  | cons b s => exact startsChar_cons.2 (startsChar_cons.1 hs)

theorem StartsChar.of_isPrefix {s t : Text} (h : t.StartsChar) (hst : s <+: t) : s.StartsChar := by
  obtain ⟨u, rfl⟩ := hst
  cases s with
  | nil => exact startsChar_nil
  | cons b s => exact startsChar_cons.2 (startsChar_cons.1 h)

theorem startsChar_take {t : Text} (h : t.StartsChar) (n : Nat) : StartsChar (t.take n) :=
  h.of_isPrefix ⟨t.drop n, List.take_append_drop n t⟩

theorem isBoundary_zero (t : Text) : t.isBoundary 0 = true := by simp [isBoundary]

theorem isBoundary_iff {t : Text} {i : Nat} (h : i ≤ t.length) :
    t.isBoundary i = true ↔ i = 0 ∨ StartsChar (t.drop i) := by
  unfold isBoundary
  cases hd : t.drop i with
  | nil =>
    have hi : i = t.length := by
      have := List.drop_eq_nil_iff.1 hd
      omega
    simp [hi, startsChar_nil]
  | cons b rest =>
    have hi : i ≠ t.length := by
      rintro rfl
      simp at hd
    simp [hi, startsChar_cons]

theorem isBoundary_append_of_lt {s t : Text} {i : Nat} (h : i < s.length) :
    isBoundary (s ++ t) i = isBoundary s i := by
  rw [Bool.eq_iff_iff, isBoundary_iff (by simp; omega), isBoundary_iff (by omega),
    List.drop_append_of_le_length (by omega), List.drop_eq_getElem_cons h, List.cons_append,
    startsChar_cons, startsChar_cons]

theorem isBoundary_append_length {s t : Text} :
    isBoundary (s ++ t) s.length = true ↔ s = [] ∨ t.StartsChar := by
  rw [isBoundary_iff (by simp), List.drop_left, List.length_eq_zero_iff]

/-- Up to the end of the first part a boundary depends on that part only, when a character starts
behind it. -/
theorem isBoundary_append_of_le {s t : Text} {i : Nat} (ht : t.StartsChar) (h : i ≤ s.length) :
    isBoundary (s ++ t) i = isBoundary s i := by
  rcases Nat.lt_or_eq_of_le h with hlt | rfl
  · exact isBoundary_append_of_lt hlt
  · rw [isBoundary_append_length.2 (Or.inr ht)]
    simp [isBoundary]

theorem isBoundary_take_append {s t : Text} {i : Nat} (ht : t.StartsChar) (h : i ≤ s.length) :
    isBoundary (s.take i ++ t) i = true := by
  have hlen : (s.take i).length = i := by
    rw [List.length_take]
    omega
  have hcut := @isBoundary_append_length (s.take i) t
  rw [hlen] at hcut
  exact hcut.2 (Or.inr ht)

/-- A slice is the middle of a text that is cut in three with no character split. -/
theorem slice?_eq_some_iff {t u : Text} {a b : Nat} :
    t.slice? a b = some u ↔
      ∃ x z, t = x ++ (u ++ z) ∧ x.length = a ∧ b = a + u.length ∧
        (x = [] ∨ StartsChar (u ++ z)) ∧ (x ++ u = [] ∨ z.StartsChar) := by
  constructor
  · intro h
    simp only [slice?, Bool.and_eq_true, decide_eq_true_eq, Option.ite_none_right_eq_some,
      Option.some.injEq] at h
    obtain ⟨⟨⟨⟨hab, hbt⟩, ha⟩, hb⟩, rfl⟩ := h
    have hlen : ((t.drop a).take (b - a)).length = b - a := by simp; omega
    have hz : t.drop b = (t.drop a).drop (b - a) := by rw [List.drop_drop]; congr 1; omega
    have ht : t = t.take a ++ ((t.drop a).take (b - a) ++ t.drop b) := by
      rw [hz, List.take_append_drop, List.take_append_drop]
    refine ⟨t.take a, t.drop b, ht, by simp; omega, by omega, ?_, ?_⟩
    · rw [hz, List.take_append_drop]
      rcases (isBoundary_iff (by omega)).1 ha with rfl | ha
      · exact Or.inl rfl
      · exact Or.inr ha
    · rcases (isBoundary_iff hbt).1 hb with rfl | hb
      · exact Or.inl (by simp [Nat.le_zero.1 hab])
      · exact Or.inr hb
  · rintro ⟨x, z, rfl, rfl, rfl, ha, hb⟩
    have hstart := isBoundary_append_length.2 ha
    have hstop : isBoundary (x ++ (u ++ z)) (x.length + u.length) = true := by
      rw [← List.append_assoc, ← List.length_append]
      exact isBoundary_append_length.2 hb
    simp [slice?, hstart, hstop]

/-! ## Pieces -/

theorem piecesOnto_append (done before : List (Option Char)) (t : Text) :
    piecesOnto (done ++ before) t = piecesOnto done t ++ before := by
  fun_induction piecesOnto done t with
  | case1 done => rw [piecesOnto]
  | case2 done b t ih =>
    rw [piecesOnto, ← ih]
    rfl

theorem pieces_cons (b : UInt8) (t : Text) :
    pieces (b :: t) = (piece b t).char? :: pieces (t.drop (piece b t).extra) := by
  have honto := piecesOnto_append [] [(piece b t).char?] (t.drop (piece b t).extra)
  rw [List.nil_append] at honto
  rw [pieces, pieces, piecesOnto, honto]
  simp

/-- A byte below 128 is a character of its own. -/
theorem pieces_cons_of_lt {b : UInt8} (h : b < 0x80) (t : Text) :
    pieces (b :: t) = some (Char.ofNat b.toNat) :: pieces t := by
  rw [pieces_cons, piece, if_pos h, List.drop_zero]

/-! ## Strings -/

theorem isContinuation_ofNat {n : Nat} (h : n < 256) :
    isContinuation (UInt8.ofNat n) = true ↔ 128 ≤ n ∧ n < 192 := by
  simp only [isContinuation, Bool.and_eq_true, decide_eq_true_eq, UInt8.le_iff_toNat_le,
    UInt8.lt_iff_toNat_lt, UInt8.toNat_ofNat_of_lt' h]
  simp

/-- Of the bytes of a character all but the first are continuation bytes. -/
theorem utf8EncodeChar_eq_cons (c : Char) :
    ∃ b bs, String.utf8EncodeChar c = b :: bs ∧ isContinuation b = false ∧
      ∀ x ∈ bs, isContinuation x = true := by
  have byte {n : Nat} : isContinuation (UInt8.ofNat (n % 64 + 128)) = true :=
    (isContinuation_ofNat (by omega)).2 (by omega)
  have lead {n : Nat} (h : n < 256) (hn : n < 128 ∨ 192 ≤ n) :
      isContinuation (UInt8.ofNat n) = false := by
    rw [← Bool.not_eq_true, isContinuation_ofNat h]
    omega
  fun_cases String.utf8EncodeChar
  · exact ⟨_, _, rfl, lead (by omega) (by omega), by simp⟩
  · exact ⟨_, _, rfl, lead (by omega) (by omega), by simp only [List.forall_mem_cons, byte]; simp⟩
  · exact ⟨_, _, rfl, lead (by omega) (by omega), by simp only [List.forall_mem_cons, byte]; simp⟩
  · exact ⟨_, _, rfl, lead (by omega) (by omega), by simp only [List.forall_mem_cons, byte]; simp⟩

theorem ofChars_nil : ofChars [] = [] := rfl

theorem ofChars_cons (c : Char) (cs : List Char) :
    ofChars (c :: cs) = String.utf8EncodeChar c ++ ofChars cs := rfl

theorem IsString.startsChar {t : Text} (h : t.IsString) : t.StartsChar := by
  obtain ⟨cs, rfl⟩ := h
  cases cs with
  | nil => exact startsChar_nil
  | cons c cs =>
    obtain ⟨b, bs, hc, hb, -⟩ := utf8EncodeChar_eq_cons c
    rw [ofChars_cons, hc, List.cons_append, startsChar_cons]
    exact hb

theorem isString_ofString (s : String) : (ofString s).IsString := by
  obtain ⟨b, ⟨cs, rfl⟩⟩ := s
  exact ⟨cs, by simp [ofString, ofChars, List.utf8Encode]⟩

theorem utf8EncodeChar_append_inj {c d : Char} {s t : Text}
    (h : String.utf8EncodeChar c ++ s = String.utf8EncodeChar d ++ t) : c = d ∧ s = t := by
  have hread : ∀ (e : Char) (u : Text),
      ByteArray.utf8DecodeChar? (String.utf8EncodeChar e ++ u).toByteArray 0 = some e := by
    intro e u
    rw [List.toByteArray_append]
    exact ByteArray.utf8DecodeChar?_utf8EncodeChar_append
  have hcd : some c = some d := by rw [← hread c s, h, hread d t]
  obtain rfl := Option.some.inj hcd
  exact ⟨rfl, List.append_cancel_left h⟩

theorem IsString.append {s t : Text} (hs : s.IsString) (ht : t.IsString) : IsString (s ++ t) := by
  obtain ⟨cs, rfl⟩ := hs
  obtain ⟨ds, rfl⟩ := ht
  exact ⟨cs ++ ds, List.flatMap_append.symm⟩

theorem IsString.of_append {s t : Text} (hs : s.IsString) (h : IsString (s ++ t)) : t.IsString := by
  obtain ⟨cs, rfl⟩ := hs
  obtain ⟨ds, hds⟩ := h
  induction cs generalizing ds with
  | nil => exact ⟨ds, hds⟩
  | cons c cs ih =>
    rw [ofChars_cons, List.append_assoc] at hds
    cases ds with
    | nil =>
      obtain ⟨b, bs, hc, -⟩ := utf8EncodeChar_eq_cons c
      simp [hc, ofChars_nil] at hds
    | cons d ds => exact ih ds (utf8EncodeChar_append_inj hds).2

theorem IsString.of_startsChar {s t : Text} (h : IsString (s ++ t)) (ht : t.StartsChar) :
    t.IsString := by
  obtain ⟨cs, hcs⟩ := h
  induction cs generalizing s with
  | nil => exact ⟨[], (List.append_eq_nil_iff.1 hcs).2⟩
  | cons c cs ih =>
    rw [ofChars_cons] at hcs
    rcases List.append_eq_append_iff.1 hcs with ⟨u, hu, rfl⟩ | ⟨u, rfl, hu⟩
    · obtain ⟨b, bs, hc, -, hbs⟩ := utf8EncodeChar_eq_cons c
      cases s with
      | nil => exact ⟨c :: cs, by rw [ofChars_cons, hu, List.nil_append]⟩
      | cons a s =>
        rw [hc, List.cons_append, List.cons.injEq] at hu
        cases u with
        | nil => exact ⟨cs, rfl⟩
        | cons x u =>
          have hx := hbs x (by simp [hu.2])
          rw [List.cons_append, startsChar_cons, hx] at ht
          cases ht
    · exact ih hu.symm

/-- Behind a string that stands in another one from the start of a character on, a character
starts. -/
theorem IsString.startsChar_rest {x s t : Text} (hs : s.IsString) (h : IsString (x ++ (s ++ t)))
    (hx : x = [] ∨ StartsChar (s ++ t)) : t.StartsChar := by
  have hst : IsString (s ++ t) := by
    rcases hx with rfl | hx
    · exact h
    · exact h.of_startsChar hx
  exact (hs.of_append hst).startsChar

end Text
end Inlay
