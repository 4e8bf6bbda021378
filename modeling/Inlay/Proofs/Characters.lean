import Mathlib.Tactic.SplitIfs
import Inlay.Proofs.Boundary

/-! Strings read back: the bytes of a character, whatever stands behind them, are read as this
character, so a text that encodes characters is UTF-8 and is read as these characters. -/

namespace Inlay
namespace Text

theorem toNat_ofNat_byte {n : Nat} (h : n < 256) : (UInt8.ofNat n).toNat = n :=
  UInt8.toNat_ofNat_of_lt' h

theorem within_ofNat {lo hi : UInt8} {n : Nat} (h : n < 256) :
    within lo hi (UInt8.ofNat n) = true ↔ lo.toNat ≤ n ∧ n ≤ hi.toNat := by
  simp only [within, Bool.and_eq_true, decide_eq_true_eq, UInt8.le_iff_toNat_le,
    toNat_ofNat_byte h]

theorem continuationBits_ofNat (n : Nat) :
    continuationBits (UInt8.ofNat (n % 64 + 128)) = n % 64 := by
  rw [continuationBits, toNat_ofNat_byte (by omega)]
  omega

theorem isContinuation_ofNat_add (n : Nat) :
    isContinuation (UInt8.ofNat (n % 64 + 128)) = true :=
  (isContinuation_ofNat (by omega)).2 (by omega)

theorem secondRange_ofNat {n : Nat} (h : n < 256) :
    secondRange (UInt8.ofNat n) =
      if n = 0xE0 then (0xA0, 0xBF) else if n = 0xED then (0x80, 0x9F)
      else if n = 0xF0 then (0x90, 0xBF) else if n = 0xF4 then (0x80, 0x8F) else (0x80, 0xBF) := by
  simp only [secondRange, ← UInt8.toNat_inj, toNat_ofNat_byte h]
  rfl

/-- Surrogates apart, the second byte of a character is one that its first byte allows. -/
theorem within_secondRange {n first : Nat} (hfirst : first < 256)
    (hE0 : first = 0xE0 → 32 ≤ n % 64) (hED : first = 0xED → n % 64 < 32)
    (hF0 : first = 0xF0 → 16 ≤ n % 64) (hF4 : first = 0xF4 → n % 64 < 16) :
    within (secondRange (UInt8.ofNat first)).1 (secondRange (UInt8.ofNat first)).2
      (UInt8.ofNat (n % 64 + 128)) = true := by
  rw [within_ofNat (by omega), secondRange_ofNat hfirst]
  split_ifs <;> simp <;> omega

theorem not_lt_ofNat {n : Nat} (hlow : 128 ≤ n) (hhigh : n < 256) :
    ¬ UInt8.ofNat n < 0x80 := by
  rw [UInt8.lt_iff_toNat_lt, toNat_ofNat_byte hhigh]
  exact Nat.not_lt.2 hlow

section Piece

variable {n : Nat} (t : Text)

theorem piece_two (hlow : 128 ≤ n) (hhigh : n < 2048) :
    piece (UInt8.ofNat (n / 64 % 32 + 192)) (UInt8.ofNat (n % 64 + 128) :: t) =
      ⟨some (Char.ofNat n), 1⟩ := by
  have hsmall := @not_lt_ofNat (n / 64 % 32 + 192) (by omega) (by omega)
  have htwo := (@within_ofNat 0xC2 0xDF (n / 64 % 32 + 192) (by omega)).2 (by simp; omega)
  have hvalue : (n / 64 % 32 + 192) % 32 * 64 + n % 64 = n := by omega
  rw [piece, if_neg hsmall, if_pos htwo, twoBytes, if_pos (isContinuation_ofNat_add n),
    continuationBits_ofNat, toNat_ofNat_byte (by omega), hvalue]

theorem piece_three (hlow : 2048 ≤ n) (hhigh : n < 65536) (hvalid : n < 0xD800 ∨ 0xDFFF < n) :
    piece (UInt8.ofNat (n / 4096 % 16 + 224))
        (UInt8.ofNat (n / 64 % 64 + 128) :: UInt8.ofNat (n % 64 + 128) :: t) =
      ⟨some (Char.ofNat n), 2⟩ := by
  have hsmall := @not_lt_ofNat (n / 4096 % 16 + 224) (by omega) (by omega)
  have htwo : ¬ within 0xC2 0xDF (UInt8.ofNat (n / 4096 % 16 + 224)) = true := by
    rw [within_ofNat (by omega)]
    rintro ⟨-, hle⟩
    exact absurd hle (by simp)
  have hthree := (@within_ofNat 0xE0 0xEF (n / 4096 % 16 + 224) (by omega)).2 (by simp; omega)
  have hsecond := @within_secondRange (n / 64) (n / 4096 % 16 + 224) (by omega) (by omega)
    (by omega) (by omega) (by omega)
  have hvalue : ((n / 4096 % 16 + 224) % 16 * 64 + n / 64 % 64) * 64 + n % 64 = n := by omega
  rw [piece, if_neg hsmall, if_neg htwo, if_pos hthree, threeBytes, if_pos hsecond]
  simp only [isContinuation_ofNat_add, if_true, continuationBits_ofNat]
  rw [toNat_ofNat_byte (by omega), hvalue]

theorem piece_four (hlow : 65536 ≤ n) (hhigh : n < 0x110000) :
    piece (UInt8.ofNat (n / 262144 % 8 + 240)) (UInt8.ofNat (n / 4096 % 64 + 128) ::
        UInt8.ofNat (n / 64 % 64 + 128) :: UInt8.ofNat (n % 64 + 128) :: t) =
      ⟨some (Char.ofNat n), 3⟩ := by
  have hsmall := @not_lt_ofNat (n / 262144 % 8 + 240) (by omega) (by omega)
  have htwo : ¬ within 0xC2 0xDF (UInt8.ofNat (n / 262144 % 8 + 240)) = true := by
    rw [within_ofNat (by omega)]
    rintro ⟨-, hle⟩
    exact absurd hle (by simp)
  have hthree : ¬ within 0xE0 0xEF (UInt8.ofNat (n / 262144 % 8 + 240)) = true := by
    rw [within_ofNat (by omega)]
    rintro ⟨-, hle⟩
    exact absurd hle (by simp)
  have hfour := (@within_ofNat 0xF0 0xF4 (n / 262144 % 8 + 240) (by omega)).2 (by simp; omega)
  have hsecond := @within_secondRange (n / 4096) (n / 262144 % 8 + 240) (by omega) (by omega)
    (by omega) (by omega) (by omega)
  have hvalue : (((n / 262144 % 8 + 240) % 8 * 64 + n / 4096 % 64) * 64 + n / 64 % 64) * 64 +
      n % 64 = n := by omega
  rw [piece, if_neg hsmall, if_neg htwo, if_neg hthree, if_pos hfour, fourBytes, if_pos hsecond]
  simp only [isContinuation_ofNat_add, if_true, continuationBits_ofNat]
  rw [toNat_ofNat_byte (by omega), hvalue]

end Piece

theorem pieces_utf8EncodeChar (c : Char) (t : Text) :
    pieces (String.utf8EncodeChar c ++ t) = some c :: pieces t := by
  have hchar : Char.ofNat c.val.toNat = c := Char.ofNat_toNat c
  have hvalid : c.val.toNat < 0xD800 ∨ 0xDFFF < c.val.toNat ∧ c.val.toNat < 0x110000 := c.valid
  fun_cases String.utf8EncodeChar c with
  | case1 v hv =>
    have hbyte := @toNat_ofNat_byte v (by omega)
    have hlt : UInt8.ofNat v < 0x80 := UInt8.lt_iff_toNat_lt.2 (by rw [hbyte]; simp; omega)
    rw [List.singleton_append, pieces_cons_of_lt hlt, hbyte, hchar]
  | case2 v hone htwo =>
    simp only [List.cons_append, List.nil_append]
    rw [pieces_cons, piece_two t (by omega) (by omega), hchar]
    rfl
  | case3 v hone htwo hthree =>
    simp only [List.cons_append, List.nil_append]
    rw [pieces_cons, piece_three t (by omega) (by omega) (by omega), hchar]
    rfl
  | case4 v hone htwo hthree =>
    simp only [List.cons_append, List.nil_append]
    rw [pieces_cons, piece_four t (by omega) (by omega), hchar]
    rfl

theorem pieces_ofChars (cs : List Char) : pieces (ofChars cs) = cs.map some := by
  induction cs with
  | nil => simp [ofChars, pieces, piecesOnto]
  | cons c cs ih => rw [ofChars_cons, pieces_utf8EncodeChar, ih, List.map_cons]

theorem chars?_ofChars (cs : List Char) : chars? (ofChars cs) = some cs := by
  rw [chars?, pieces_ofChars]
  induction cs with
  | nil => rfl
  | cons c cs ih => rw [List.map_cons, List.mapM_cons, ih]; rfl

theorem toString?_ofChars (cs : List Char) : toString? (ofChars cs) = some (String.ofList cs) := by
  rw [toString?, chars?_ofChars, Option.map_some]

theorem isUtf8_ofChars (cs : List Char) : isUtf8 (ofChars cs) = true := by
  rw [isUtf8, pieces_ofChars]
  simp

theorem charsLossy_ofChars (cs : List Char) : charsLossy (ofChars cs) = cs := by
  rw [charsLossy, pieces_ofChars, List.map_map]
  exact List.map_id cs

theorem ofString_eq_ofChars (s : String) : ofString s = ofChars s.toList := by
  obtain ⟨cs, rfl⟩ : ∃ cs, s = String.ofList cs := ⟨s.toList, String.ofList_toList.symm⟩
  rw [String.toList_ofList]
  simp [ofString, ofChars, List.utf8Encode]

theorem isUtf8_ofString (s : String) : isUtf8 (ofString s) = true := by
  rw [ofString_eq_ofChars, isUtf8_ofChars]

end Text
end Inlay
