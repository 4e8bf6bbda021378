import Mathlib.Data.List.Basic
import Mathlib.Data.List.TakeWhile
import Inlay.Json.Printer
import Inlay.Json.Reader
import Inlay.Proofs.Characters

/-! Numbers and strings as they are written in JSON. An integer of 64 bits is written with a sign
and digits of which the first is zero only in zero itself, and is read back; so is every string,
whose escapes stand for the characters that they replace. -/

namespace Inlay

/-! ## Numbers -/

namespace Number

/-- An integer that fits a word, with or without sign. -/
def IsWord : Number → Prop
  | .int i => -(minWordMagnitude : Int) ≤ i ∧ i ≤ maxWord
  | .real _ => False

end Number

namespace Text

theorem utf8EncodeChar_of_lt {c : Char} (h : c.toNat < 128) :
    String.utf8EncodeChar c = [UInt8.ofNat c.toNat] := by
  have hle : c.val.toNat ≤ 127 := Nat.le_of_lt_succ h
  rw [String.utf8EncodeChar, if_pos hle]
  rfl

theorem ofChars_of_lt {cs : List Char} (h : ∀ c ∈ cs, c.toNat < 128) :
    ofChars cs = cs.map fun c => UInt8.ofNat c.toNat := by
  induction cs with
  | nil => rfl
  | cons c cs ih =>
    obtain ⟨hc, hcs⟩ := List.forall_mem_cons.1 h
    rw [ofChars_cons, utf8EncodeChar_of_lt hc, ih hcs, List.singleton_append, List.map_cons]

theorem ofChars_append (cs ds : List Char) : ofChars (cs ++ ds) = ofChars cs ++ ofChars ds :=
  List.flatMap_append

theorem bounds_of_isDigit {c : Char} (h : c.isDigit = true) : 48 ≤ c.toNat ∧ c.toNat ≤ 57 := by
  simp only [Char.isDigit, Bool.and_eq_true, decide_eq_true_eq, ge_iff_le,
    UInt32.le_iff_toNat_le] at h
  exact h

def digitsOf (n : Nat) : Text := ofChars (Nat.toDigits 10 n)

theorem digitsOf_eq (n : Nat) :
    digitsOf n = (Nat.toDigits 10 n).map fun c => UInt8.ofNat c.toNat := by
  refine ofChars_of_lt fun c hc => ?_
  have hbounds := bounds_of_isDigit (Nat.isDigit_of_mem_toDigits (by omega) (by omega) hc)
  omega

theorem isDigit_of_mem_digitsOf {n : Nat} {b : UInt8} (h : b ∈ digitsOf n) : isDigit b = true := by
  rw [digitsOf_eq] at h
  obtain ⟨c, hc, rfl⟩ := List.mem_map.1 h
  have hbounds := bounds_of_isDigit (Nat.isDigit_of_mem_toDigits (by omega) (by omega) hc)
  simp only [isDigit, Bool.and_eq_true, decide_eq_true_eq, UInt8.le_iff_toNat_le,
    @toNat_ofNat_byte c.toNat (by omega)]
  exact hbounds

theorem naturalOfDigits_digitsOf (n : Nat) : naturalOfDigits (digitsOf n) = n := by
  rw [digitsOf_eq, naturalOfDigits, List.foldl_map]
  have hstep : ∀ (k : Nat), ∀ c ∈ Nat.toDigits 10 n,
      10 * k + digitValue (UInt8.ofNat c.toNat) = 10 * k + (c.toNat - '0'.toNat) := by
    intro k c hc
    have hbounds := bounds_of_isDigit (Nat.isDigit_of_mem_toDigits (by omega) (by omega) hc)
    rw [digitValue, toNat_ofNat_byte (by omega)]
    rfl
  rw [List.foldl_ext _ _ _ hstep, ← Nat.ofDigitChars_eq_foldl, Nat.ofDigitChars_ten_toDigits]

theorem exists_toDigits_eq_cons {n : Nat} (h : 0 < n) :
    ∃ c cs, Nat.toDigits 10 n = c :: cs ∧ c.toNat ≠ 48 := by
  induction n using Nat.strongRecOn with
  | ind n ih =>
    by_cases hlt : n < 10
    · rw [Nat.toDigits_of_lt_base hlt]
      refine ⟨_, [], rfl, ?_⟩
      rw [Nat.toNat_digitChar_of_lt_ten hlt]
      omega
    · obtain ⟨c, cs, hcs, hc⟩ := ih (n / 10) (by omega) (by omega)
      rw [Nat.toDigits_of_base_le (by omega) (by omega), hcs]
      exact ⟨c, _, rfl, hc⟩

theorem digitsOf_cases (n : Nat) :
    digitsOf n = [48] ∨ ∃ b t, digitsOf n = b :: t ∧ b ≠ 48 ∧ isDigit b = true := by
  rcases Nat.eq_zero_or_pos n with rfl | hpos
  · exact Or.inl rfl
  · obtain ⟨c, cs, hcs, hc⟩ := exists_toDigits_eq_cons hpos
    have hdigit := Nat.isDigit_of_mem_toDigits (by omega) (by omega)
      (hcs ▸ List.mem_cons_self : c ∈ Nat.toDigits 10 n)
    have hbounds := bounds_of_isDigit hdigit
    have hmem : UInt8.ofNat c.toNat ∈ digitsOf n := by
      rw [digitsOf_eq, hcs]
      exact List.mem_cons_self
    refine Or.inr ⟨UInt8.ofNat c.toNat, cs.map fun c => UInt8.ofNat c.toNat, ?_, ?_,
      isDigit_of_mem_digitsOf hmem⟩
    · rw [digitsOf_eq, hcs, List.map_cons]
    · rw [← UInt8.toNat_inj.ne, toNat_ofNat_byte (by omega)]
      exact hc

end Text

namespace Number

open Text RawJson

theorem toList_render_natural (n : Nat) :
    (Number.int n).render.toList = Nat.toDigits 10 n := by
  rw [← Nat.toList_repr]
  rfl

theorem toList_render_negSucc (n : Nat) :
    (Number.int (Int.negSucc n)).render.toList = '-' :: Nat.toDigits 10 (n + 1) := by
  have hrender : (Number.int (Int.negSucc n)).render = "-" ++ (n + 1).repr := rfl
  rw [hrender, String.toList_append, Nat.toList_repr]
  rfl

def intText (i : Int) : Text := ofChars (Number.int i).render.toList

theorem intText_natural (n : Nat) : intText n = digitsOf n := by
  rw [intText, toList_render_natural, digitsOf]

theorem intText_negSucc (n : Nat) : intText (Int.negSucc n) = 45 :: digitsOf (n + 1) := by
  rw [intText, toList_render_negSucc, ofChars_cons, digitsOf]
  rfl

theorem takeWhile_digitsOf (n : Nat) : (digitsOf n).takeWhile isDigit = digitsOf n :=
  List.takeWhile_eq_self_iff.2 fun _ hb => isDigit_of_mem_digitsOf hb

theorem dropWhile_digitsOf (n : Nat) : (digitsOf n).dropWhile isDigit = [] :=
  List.dropWhile_eq_nil_iff.2 fun _ hb => isDigit_of_mem_digitsOf hb

theorem ne_minus_of_isDigit {b : UInt8} (h : isDigit b = true) : b ≠ 45 := by
  rintro rfl
  exact absurd h (by decide)

theorem exists_digitsOf_eq_cons (n : Nat) : ∃ b t, digitsOf n = b :: t ∧ isDigit b = true := by
  rcases digitsOf_cases n with h | ⟨b, t, h, -, hb⟩
  · exact ⟨48, [], h, by decide⟩
  · exact ⟨b, t, h, hb⟩

theorem skipMinus_digitsOf (n : Nat) : skipMinus (digitsOf n) = digitsOf n := by
  obtain ⟨b, t, h, hb⟩ := exists_digitsOf_eq_cons n
  rw [h, skipMinus]
  rintro _ heq
  exact ne_minus_of_isDigit hb (List.cons.inj heq).1

theorem skipInteger_digitsOf (n : Nat) : skipInteger (digitsOf n) = some [] := by
  have hdrop := dropWhile_digitsOf n
  rcases digitsOf_cases n with h | ⟨b, t, h, hne, hb⟩
  · rw [h]
    rfl
  · rw [h] at hdrop
    rw [h, skipInteger, skipDigits, if_pos hb, hdrop]
    rintro _ heq
    exact hne (List.cons.inj heq).1

theorem isNumber_intText (i : Int) : isNumber (intText i) = true := by
  have hskip : skipInteger (skipMinus (intText i)) = some [] := by
    cases i with
    | ofNat n =>
      have htext : intText (Int.ofNat n) = digitsOf n := intText_natural n
      rw [htext, skipMinus_digitsOf, skipInteger_digitsOf]
    | negSucc n => rw [intText_negSucc, skipMinus, skipInteger_digitsOf]
  rw [isNumber, hskip]
  rfl

theorem partsOf_digitsOf (n : Nat) : partsOf (digitsOf n) = ⟨false, digitsOf n, none, none⟩ := by
  obtain ⟨b, t, h, hb⟩ := exists_digitsOf_eq_cons n
  have hsign : ((digitsOf n).head? == some 45) = false := by
    rw [h, List.head?_cons]
    simpa using ne_minus_of_isDigit hb
  rw [partsOf, skipMinus_digitsOf, dropWhile_digitsOf, takeWhile_digitsOf, hsign]
  rfl

theorem partsOf_minus (n : Nat) :
    partsOf (45 :: digitsOf n) = ⟨true, digitsOf n, none, none⟩ := by
  rw [partsOf, skipMinus, dropWhile_digitsOf, takeWhile_digitsOf]
  rfl

theorem ofText?_intText {i : Int} (h : (Number.int i).IsWord) :
    ofText? (intText i) = some (.int i) := by
  obtain ⟨hlow, hhigh⟩ := h
  cases i with
  | ofNat n =>
    have htext : intText (Int.ofNat n) = digitsOf n := intText_natural n
    have hle : ¬ maxWord < n := by
      have : (n : Int) ≤ maxWord := hhigh
      omega
    rw [htext, ofText?, partsOf_digitsOf]
    simp [naturalOfDigits_digitsOf, hle]
  | negSucc n =>
    have hle : ¬ minWordMagnitude < n + 1 := by omega
    have hword : ¬ maxWord < n + 1 := by
      unfold maxWord
      unfold minWordMagnitude at hle
      omega
    rw [intText_negSucc, ofText?, partsOf_minus]
    simp [naturalOfDigits_digitsOf, hle, hword, Int.negSucc_eq]

end Number

/-! ## Strings -/

namespace Json

/-- The characters with a short escape, each behind the character that its escape has. -/
def shortEscapes : List (Char × Char) :=
  [('"', '"'), ('\\', '\\'), ('b', '\x08'), ('t', '\t'), ('n', '\n'), ('f', '\x0c'), ('r', '\r')]

/-- A character has a short escape, is escaped by its number, or stands for itself. -/
theorem escapeChar_cases (c : Char) :
    (∃ e, (e, c) ∈ shortEscapes ∧ escapeChar c = ['\\', e]) ∨
      (c.toNat < 32 ∧ escapeChar c =
        ['\\', 'u', '0', '0', hexDigit (c.toNat / 16), hexDigit (c.toNat % 16)]) ∨
      32 ≤ c.toNat ∧ c ≠ '"' ∧ c ≠ '\\' ∧ escapeChar c = [c] := by
  have hchar : ∀ {n : Nat}, c.toNat = n → c = Char.ofNat n := by
    rintro n rfl
    exact (Char.ofNat_toNat c).symm
  unfold escapeChar
  split_ifs with h1 h2 h3 h4 h5 h6 h7 h8
  · exact Or.inl ⟨'"', by simp [shortEscapes, h1], rfl⟩
  · exact Or.inl ⟨'\\', by simp [shortEscapes, h2], rfl⟩
  · exact Or.inl ⟨'b', by rw [hchar h3]; decide, rfl⟩
  · exact Or.inl ⟨'t', by rw [hchar h4]; decide, rfl⟩
  · exact Or.inl ⟨'n', by rw [hchar h5]; decide, rfl⟩
  · exact Or.inl ⟨'f', by rw [hchar h6]; decide, rfl⟩
  · exact Or.inl ⟨'r', by rw [hchar h7]; decide, rfl⟩
  · exact Or.inr (Or.inl ⟨h8, rfl⟩)
  · exact Or.inr (Or.inr ⟨by omega, h1, h2, rfl⟩)

end Json

namespace RawJson

open Text

def escaped (s : String) : Text := ofChars (s.toList.flatMap Json.escapeChar)

theorem unescapeOnto_of_ne {b : UInt8} (h : b ≠ 92) (done t : Text) :
    unescapeOnto done (b :: t) = unescapeOnto (b :: done) t := by
  rw [unescapeOnto]
  · intro _ _ _ _ _ hb _
    exact h hb
  · intro _ _ hb _
    exact h hb

theorem unescapeOnto_append {bs : Text} (h : ∀ b ∈ bs, b ≠ 92) (done t : Text) :
    unescapeOnto done (bs ++ t) = unescapeOnto (bs.reverse ++ done) t := by
  induction bs generalizing done with
  | nil => rfl
  | cons b bs ih =>
    obtain ⟨hb, hbs⟩ := List.forall_mem_cons.1 h
    rw [List.cons_append, unescapeOnto_of_ne hb, ih hbs, List.reverse_cons, List.append_assoc,
      List.singleton_append]

theorem unescapeOnto_escape {b : UInt8} (h : b ≠ 117) (done t : Text) :
    unescapeOnto done (92 :: b :: t) = unescapeOnto (escapedByte b :: done) t := by
  rw [unescapeOnto]
  intro _ _ _ _ _ hb _
  exact h hb

theorem unescapeOnto_hex {a b c d : UInt8} (hhigh : isHighSurrogate (hexOf a b c d) = false)
    (hlow : isLowSurrogate (hexOf a b c d) = false) (done t : Text) :
    unescapeOnto done (92 :: 117 :: a :: b :: c :: d :: t) =
      unescapeOnto ((charBytes (hexOf a b c d)).reverse ++ done) t := by
  rw [unescapeOnto.eq_def]
  simp [hhigh, hlow]

theorem plain_of_mem_utf8EncodeChar {c : Char} (h : 32 ≤ c.toNat) (hquote : c ≠ '"')
    (hslash : c ≠ '\\') {b : UInt8} (hb : b ∈ String.utf8EncodeChar c) :
    b ≠ 34 ∧ b ≠ 92 ∧ ¬ b < 32 := by
  have hne : ∀ d : Char, c ≠ d → c.val.toNat ≠ d.val.toNat := fun d hd heq =>
    hd (Char.ext (UInt32.toNat_inj.1 heq))
  have h34 : c.val.toNat ≠ 34 := hne '"' hquote
  have h92 : c.val.toNat ≠ 92 := hne '\\' hslash
  have hlow : 32 ≤ c.val.toNat := h
  have hbyte : ∀ n, n < 256 → 32 ≤ n → n ≠ 34 → n ≠ 92 →
      UInt8.ofNat n ≠ 34 ∧ UInt8.ofNat n ≠ 92 ∧ ¬ UInt8.ofNat n < 32 := by
    intro n hn hlow h34 h92
    rw [← UInt8.toNat_inj.ne, ← UInt8.toNat_inj.ne, UInt8.lt_iff_toNat_lt, toNat_ofNat_byte hn]
    exact ⟨h34, h92, Nat.not_lt.2 hlow⟩
  revert hb
  fun_cases String.utf8EncodeChar c <;> simp only [List.mem_cons, List.not_mem_nil, or_false]
  · rintro rfl
    exact hbyte _ (by omega) hlow h34 h92
  · rintro (rfl | rfl) <;> exact hbyte _ (by omega) (by omega) (by omega) (by omega)
  · rintro (rfl | rfl | rfl) <;> exact hbyte _ (by omega) (by omega) (by omega) (by omega)
  · rintro (rfl | rfl | rfl | rfl) <;> exact hbyte _ (by omega) (by omega) (by omega) (by omega)

theorem exists_shortEscape_bytes {e c : Char} (h : (e, c) ∈ Json.shortEscapes) :
    ∃ b, ofChars ['\\', e] = [92, b] ∧ Lexer.isSimpleEscape b = true ∧ b ≠ 117 ∧
      String.utf8EncodeChar c = [escapedByte b] := by
  have hbytes : ∀ p ∈ Json.shortEscapes, ofChars ['\\', p.1] = [92, UInt8.ofNat p.1.toNat] ∧
      Lexer.isSimpleEscape (UInt8.ofNat p.1.toNat) = true ∧ UInt8.ofNat p.1.toNat ≠ 117 ∧
      String.utf8EncodeChar p.2 = [escapedByte (UInt8.ofNat p.1.toNat)] := by decide
  exact ⟨_, hbytes _ h⟩

theorem exists_hexEscape_bytes {n : Nat} (h : n < 32) :
    ∃ a b, ofChars ['\\', 'u', '0', '0', Json.hexDigit (n / 16), Json.hexDigit (n % 16)] =
        [92, 117, 48, 48, a, b] ∧
      (hexValue? a).isSome = true ∧ (hexValue? b).isSome = true ∧ hexOf 48 48 a b = n := by
  have hbytes : ∀ n < 32,
      ofChars ['\\', 'u', '0', '0', Json.hexDigit (n / 16), Json.hexDigit (n % 16)] =
        [92, 117, 48, 48, UInt8.ofNat (Json.hexDigit (n / 16)).toNat,
          UInt8.ofNat (Json.hexDigit (n % 16)).toNat] ∧
      (hexValue? (UInt8.ofNat (Json.hexDigit (n / 16)).toNat)).isSome = true ∧
      (hexValue? (UInt8.ofNat (Json.hexDigit (n % 16)).toNat)).isSome = true ∧
      hexOf 48 48 (UInt8.ofNat (Json.hexDigit (n / 16)).toNat)
        (UInt8.ofNat (Json.hexDigit (n % 16)).toNat) = n := by decide
  exact ⟨_, _, hbytes n h⟩

theorem unescapeOnto_escapeChar (c : Char) (done t : Text) :
    unescapeOnto done (ofChars (Json.escapeChar c) ++ t) =
      unescapeOnto ((String.utf8EncodeChar c).reverse ++ done) t := by
  rcases Json.escapeChar_cases c with ⟨e, he, h⟩ | ⟨hlt, h⟩ | ⟨hlow, hquote, hslash, h⟩
  · obtain ⟨b, htext, -, hne, hbyte⟩ := exists_shortEscape_bytes he
    rw [h, htext, hbyte]
    exact unescapeOnto_escape hne done t
  · obtain ⟨a, b, htext, -, -, hvalue⟩ := exists_hexEscape_bytes hlt
    rw [h, htext]
    simp only [List.cons_append, List.nil_append]
    rw [unescapeOnto_hex, hvalue, charBytes, Char.ofNat_toNat]
    · rw [hvalue]; simp [isHighSurrogate]; omega
    · rw [hvalue]; simp [isLowSurrogate]; omega
  · rw [h, ofChars_cons, ofChars_nil, List.append_nil]
    exact unescapeOnto_append (fun b hb => (plain_of_mem_utf8EncodeChar hlow hquote hslash hb).2.1)
      done t

theorem stringOf?_escaped (s : String) : stringOf? (escaped s) = some s := by
  have honto : ∀ (cs : List Char) (done : Text),
      unescapeOnto done (ofChars (cs.flatMap Json.escapeChar)) =
        some (done.reverse ++ ofChars cs) := by
    intro cs
    induction cs with
    | nil =>
      intro done
      simp [ofChars, unescapeOnto]
    | cons c cs ih =>
      intro done
      rw [List.flatMap_cons, ofChars_append, unescapeOnto_escapeChar, ih, ofChars_cons]
      simp
  rw [stringOf?, escaped, honto, Option.bind_some]
  simpa using toString?_ofChars s.toList

end RawJson
end Inlay
