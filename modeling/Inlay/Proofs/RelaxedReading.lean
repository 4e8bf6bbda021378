import Inlay.Config.Relaxed
import Inlay.Proofs.Reading

/-! Relaxed reading of strict texts. What the relaxed reader allows beyond JSON does not get in the
way of JSON: it reads a text that spells a value as this value in canonical form, and it has no
limit on nesting. -/

namespace Inlay

namespace Json
namespace Lexeme

/-- The token that the relaxed reader takes a lexeme for. -/
def relaxed : Lexeme → Relaxed.Token
  | .openArray => .openArray
  | .closeArray => .closeArray
  | .openObject => .openObject
  | .closeObject => .closeObject
  | .comma => .comma
  | .colon => .colon
  | .null => .value .null
  | .bool b => .value (.bool b)
  | .number n => .number n.render (.num n)
  | .quoted s => .string s

end Lexeme
end Json

namespace Relaxed

open Json

/-! ## Strings -/

/-- Characters that need no escape belong to the string. -/
theorem quotedRest?_plain {ds cs : List Char} (hds : ∀ d ∈ ds, d ≠ '"' ∧ d ≠ '\\')
    (hcs : cs ≠ []) :
    quotedRest? '"' (ds ++ cs) = (quotedRest? '"' cs).map fun p => (ds ++ p.1, p.2) := by
  induction ds with
  | nil => simp
  | cons d ds ih =>
    obtain ⟨⟨hquote, hslash⟩, hds⟩ := List.forall_mem_cons.1 hds
    have hne : ds ++ cs ≠ [] := List.append_ne_nil_of_right_ne_nil ds hcs
    obtain ⟨e, rest, hrest⟩ := List.exists_cons_of_ne_nil hne
    rw [List.cons_append, hrest, quotedRest?, if_neg hquote, if_neg hslash, ← hrest, ih hds,
      Option.map_map]
    rfl

theorem quotedRest?_escape {e : Char} {cs : List Char} (h : isEscape '"' e cs = true)
    (he : e ≠ '\'') :
    quotedRest? '"' ('\\' :: e :: cs) =
      (quotedRest? '"' cs).map fun p => ('\\' :: e :: p.1, p.2) := by
  rw [quotedRest?, if_neg (by decide), if_pos rfl, h]
  simp [he]

/-- What is written for a character belongs to the string. -/
theorem quotedRest?_escapeChar (c : Char) {cs : List Char} (hcs : cs ≠ []) :
    quotedRest? '"' (escapeChar c ++ cs) =
      (quotedRest? '"' cs).map fun p => (escapeChar c ++ p.1, p.2) := by
  rcases escapeChar_cases c with ⟨e, he, h⟩ | ⟨hlt, h⟩ | ⟨-, hquote, hslash, h⟩
  · have hescape : isEscape '"' e cs = true ∧ e ≠ '\'' := by
      simp only [shortEscapes, List.mem_cons, Prod.mk.injEq, List.not_mem_nil, or_false] at he
      rcases he with ⟨rfl, -⟩ | ⟨rfl, -⟩ | ⟨rfl, -⟩ | ⟨rfl, -⟩ | ⟨rfl, -⟩ | ⟨rfl, -⟩ | ⟨rfl, -⟩ <;>
        exact ⟨rfl, by decide⟩
    rw [h]
    exact quotedRest?_escape hescape.1 hescape.2
  · have hhex : ∀ n < 16, isHexDigit (hexDigit n) = true ∧ hexDigit n ≠ '"' ∧
        hexDigit n ≠ '\\' := by decide
    have hhigh := hhex (c.toNat / 16) (by omega)
    have hlow := hhex (c.toNat % 16) (by omega)
    have hzero : isHexDigit '0' = true := by decide
    have hescape : isEscape '"' 'u'
        ('0' :: '0' :: hexDigit (c.toNat / 16) :: hexDigit (c.toNat % 16) :: cs) = true := by
      simp [isEscape, hzero, hhigh.1, hlow.1]
    have hplain := @quotedRest?_plain
      ['0', '0', hexDigit (c.toNat / 16), hexDigit (c.toNat % 16)] cs (by simp [hhigh, hlow]) hcs
    rw [h]
    simp only [List.cons_append, List.nil_append] at hplain ⊢
    rw [quotedRest?_escape hescape (by decide), hplain, Option.map_map]
    rfl
  · rw [h]
    exact quotedRest?_plain (by simp [hquote, hslash]) hcs

theorem quotedRest?_escaped (cs rest : List Char) :
    quotedRest? '"' (cs.flatMap escapeChar ++ '"' :: rest) =
      some (cs.flatMap escapeChar, rest) := by
  induction cs with
  | nil => cases rest <;> simp [quotedRest?]
  | cons c cs ih =>
    rw [List.flatMap_cons, List.append_assoc, quotedRest?_escapeChar c (by simp), ih]
    rfl

theorem string?_escaped (s : String) (rest : List Char) :
    string? '"' (s.toList.flatMap escapeChar ++ '"' :: rest) = some (s, rest) := by
  have hread := RawJson.stringOf?_escaped s
  rw [RawJson.escaped] at hread
  rw [string?, quotedRest?_escaped]
  simp [hread]

/-! ## Numbers -/

theorem mem_digits_of_isDigit {c : Char} (h : c.isDigit = true) : c ∈ "0123456789".toList := by
  have hbounds := Text.bounds_of_isDigit h
  have hall : ∀ n < 58, 48 ≤ n → Char.ofNat n ∈ "0123456789".toList := by decide
  have hmem := hall c.toNat (by omega) hbounds.1
  rwa [Char.ofNat_toNat] at hmem

theorem isDigit_of_separates {cs : List Char} (hcs : Separates cs) :
    ∀ c ∈ cs.head?, isDigit c = false := by
  intro c hc
  rcases hcs c hc with rfl | rfl | rfl | rfl | rfl <;> rfl

theorem fraction?_of_separates {cs : List Char} (hcs : Separates cs) :
    fraction? cs = some ([], cs) := by
  cases cs with
  | nil => rfl
  | cons c cs => rcases hcs c rfl with rfl | rfl | rfl | rfl | rfl <;> rfl

theorem exponent?_of_separates {cs : List Char} (hcs : Separates cs) :
    exponent? cs = some ([], cs) := by
  cases cs with
  | nil => rfl
  | cons c cs => rcases hcs c rfl with rfl | rfl | rfl | rfl | rfl <;> rfl

theorem run?_append {ds cs : List Char} (hne : ds ≠ []) (hds : ∀ d ∈ ds, isDigit d = true)
    (hcs : ∀ c ∈ cs.head?, isDigit c = false) : run? isDigit (ds ++ cs) = some (ds, cs) := by
  have hend : cs.takeWhile isDigit = [] ∧ cs.dropWhile isDigit = cs := by
    cases cs with
    | nil => exact ⟨rfl, rfl⟩
    | cons c cs => simp [hcs c rfl]
  have htake : (ds ++ cs).takeWhile isDigit = ds := by
    rw [List.takeWhile_append_of_pos hds, hend.1, List.append_nil]
  have hdrop : (ds ++ cs).dropWhile isDigit = cs := by
    rw [List.dropWhile_append_of_pos hds, hend.2]
  obtain ⟨d, ds', rfl⟩ := List.exists_cons_of_ne_nil hne
  rw [List.cons_append] at htake hdrop ⊢
  rw [run?, if_pos (hds d List.mem_cons_self), htake, hdrop]

theorem decimal?_toDigits (n : Nat) {cs : List Char} (hcs : Separates cs) :
    decimal? (Nat.toDigits 10 n ++ cs) = some (Nat.toDigits 10 n, cs) := by
  rcases Nat.eq_zero_or_pos n with rfl | hpos
  · have hzero : Nat.toDigits 10 0 = ['0'] := rfl
    rw [hzero]
    simp [decimal?, fraction?_of_separates hcs, exponent?_of_separates hcs]
  · obtain ⟨c, ds, htext, hc⟩ := Text.exists_toDigits_eq_cons hpos
    have hrun := @run?_append (Nat.toDigits 10 n) cs (by simp [htext])
      (fun d hd => Nat.isDigit_of_mem_toDigits (by omega) (by omega) hd) (isDigit_of_separates hcs)
    have hne : c ≠ '0' := by
      rintro rfl
      exact hc rfl
    rw [htext, List.cons_append] at hrun ⊢
    rw [decimal?, hrun]
    · simp [fraction?_of_separates hcs, exponent?_of_separates hcs]
    · intro _ heq
      exact hne (List.cons.inj heq).1

theorem isHexadecimal_toDigits (n : Nat) {cs : List Char} (hcs : Separates cs) :
    isHexadecimal (Nat.toDigits 10 n ++ cs) = false := by
  rcases Nat.eq_zero_or_pos n with rfl | hpos
  · have hzero : Nat.toDigits 10 0 = ['0'] := rfl
    rw [hzero]
    cases cs with
    | nil => rfl
    | cons c cs => rcases hcs c rfl with rfl | rfl | rfl | rfl | rfl <;> rfl
  · obtain ⟨c, ds, htext, hc⟩ := Text.exists_toDigits_eq_cons hpos
    rw [htext, List.cons_append, isHexadecimal]
    rintro _ _ heq
    rw [(List.cons.inj heq).1] at hc
    exact hc rfl

theorem number?_unsigned {c : Char} (h : c.isDigit = true) (cs : List Char) :
    number? (c :: cs) =
      (if isHexadecimal (c :: cs) then hexadecimal? (c :: cs) else decimal? (c :: cs)).map
        fun p => (.number (String.ofList p.1) (numberValue false p.1 p.1), p.2) := by
  have hc := mem_digits_of_isDigit h
  have hdigits : "0123456789".toList = ['0', '1', '2', '3', '4', '5', '6', '7', '8', '9'] := rfl
  simp only [hdigits, List.mem_cons, List.not_mem_nil, or_false] at hc
  rcases hc with rfl | rfl | rfl | rfl | rfl | rfl | rfl | rfl | rfl | rfl <;> rfl

theorem number?_minus (cs : List Char) :
    number? ('-' :: cs) =
      (if isHexadecimal cs then hexadecimal? cs else decimal? cs).map
        fun p => (.number (String.ofList ('-' :: p.1)) (numberValue true ('-' :: p.1) p.1), p.2) :=
  rfl

theorem numberValue_toDigits {isNegative : Bool} {text : List Char} {n : Nat} {i : Int}
    (h : Number.ofText? (Text.ofChars (if isNegative then '-' :: Nat.toDigits 10 n
      else Nat.toDigits 10 n)) = some (.int i)) :
    numberValue isNegative text (Nat.toDigits 10 n) = .num (.int i) := by
  have hplain := @isHexadecimal_toDigits n [] (by simp [Separates])
  rw [List.append_nil] at hplain
  simp [numberValue, hplain, h]

/-- A printed integer is read as a number. -/
theorem number?_render {i : Int} (hi : (Number.int i).IsWord) {cs : List Char}
    (hcs : Separates cs) :
    number? ((Number.int i).render.toList ++ cs) =
      some (.number (Number.int i).render (.num (.int i)), cs) := by
  have hread := Number.ofText?_intText hi
  rw [Number.intText] at hread
  cases i with
  | ofNat n =>
    have hrender : (Number.int (Int.ofNat n)).render.toList = Nat.toDigits 10 n :=
      Number.toList_render_natural n
    obtain ⟨c, ds, hc⟩ := List.exists_cons_of_ne_nil (Nat.toDigits_ne_nil : Nat.toDigits 10 n ≠ [])
    have hdigit : c.isDigit = true := Nat.isDigit_of_mem_toDigits (by omega) (by omega)
      (hc ▸ List.mem_cons_self : c ∈ Nat.toDigits 10 n)
    have hunsigned := number?_unsigned hdigit (ds ++ cs)
    rw [← List.cons_append, ← hc, isHexadecimal_toDigits n hcs, decimal?_toDigits n hcs]
      at hunsigned
    rw [hrender] at hread
    have htext : String.ofList (Nat.toDigits 10 n) = (Number.int (Int.ofNat n)).render := by
      rw [← hrender, String.ofList_toList]
    have hvalue := @numberValue_toDigits false (Nat.toDigits 10 n) n _ hread
    rw [hrender, hunsigned, if_neg Bool.false_ne_true]
    simp only [Option.map_some, htext, hvalue]
  | negSucc n =>
    have hrender := Number.toList_render_negSucc n
    rw [hrender] at hread
    have htext : String.ofList ('-' :: Nat.toDigits 10 (n + 1)) =
        (Number.int (Int.negSucc n)).render := by
      rw [← hrender, String.ofList_toList]
    have hvalue := @numberValue_toDigits true ('-' :: Nat.toDigits 10 (n + 1)) (n + 1) _ hread
    rw [hrender, List.cons_append, number?_minus, isHexadecimal_toDigits _ hcs,
      decimal?_toDigits _ hcs, if_neg Bool.false_ne_true]
    simp only [Option.map_some, htext, hvalue]

/-! ## Tokens -/

theorem token?_number {c : Char} (h : c = '-' ∨ c.isDigit = true) (cs : List Char) :
    token? c cs = (number? (c :: cs)).map fun p => (some p.1, p.2) := by
  rcases h with rfl | h
  · rfl
  · have hc := mem_digits_of_isDigit h
    have hdigits : "0123456789".toList = ['0', '1', '2', '3', '4', '5', '6', '7', '8', '9'] := rfl
    simp only [hdigits, List.mem_cons, List.not_mem_nil, or_false] at hc
    rcases hc with rfl | rfl | rfl | rfl | rfl | rfl | rfl | rfl | rfl | rfl <;> rfl

/-- A constant ends before a separator. -/
theorem afterConstant?_append {cs : List Char} (hcs : Separates cs) (name : String) :
    afterConstant? name (name.toList ++ cs) = some cs := by
  have hends : [',', ']', '\x7d', ' ', '\n'].all
      (fun c => !(Text.isAlphanumericChar c || c == '-')) = true := by decide +kernel
  have hprefix : name.toList.isPrefixOf (name.toList ++ cs) = true :=
    List.isPrefixOf_iff_prefix.2 (List.prefix_append _ _)
  have hdrop : (name.toList ++ cs).drop name.length = cs := by
    rw [← String.length_toList, List.drop_left]
  rw [afterConstant?, hprefix, hdrop]
  cases cs with
  | nil => rfl
  | cons c cs =>
    have hc : (Text.isAlphanumericChar c || c == '-') = false := by
      have hmem : c ∈ [',', ']', '\x7d', ' ', '\n'] := by
        rcases hcs c rfl with rfl | rfl | rfl | rfl | rfl <;> decide
      simpa using List.all_eq_true.1 hends c hmem
    simp [hc]

theorem constantOrWord?_constant {name : String} {j : Json} (h : (name, j) ∈ constants)
    {cs : List Char} (hcs : Separates cs) :
    constantOrWord? (name.toList ++ cs) = some (.value j, cs) := by
  have hend := afterConstant?_append hcs
  simp only [constants, List.mem_cons, Prod.mk.injEq, List.not_mem_nil, or_false] at h
  rcases h with ⟨rfl, rfl⟩ | ⟨rfl, rfl⟩ | ⟨rfl, rfl⟩
  · simp only [constantOrWord?, constants, List.findSome?_cons, hend, Option.map_some]
  · have hother : afterConstant? "true" ("false".toList ++ cs) = none := rfl
    simp only [constantOrWord?, constants, List.findSome?_cons, hother, hend, Option.map_some,
      Option.map_none]
  · have hother : afterConstant? "true" ("null".toList ++ cs) = none ∧
        afterConstant? "false" ("null".toList ++ cs) = none := ⟨rfl, rfl⟩
    simp only [constantOrWord?, constants, List.findSome?_cons, hother, hend, Option.map_some,
      Option.map_none]

theorem token?_constant {c : Char} {rest : List Char} {name : String} {j : Json}
    (h : (name, j) ∈ constants) (hname : name.toList = c :: rest) {cs : List Char}
    (hcs : Separates cs) : token? c (rest ++ cs) = some (some (.value j), cs) := by
  have hread := constantOrWord?_constant h hcs
  have hstart : token? c (rest ++ cs) =
      (constantOrWord? (c :: (rest ++ cs))).map fun p => (some p.1, p.2) := by
    have hc : c = 't' ∨ c = 'f' ∨ c = 'n' := by
      simp only [constants, List.mem_cons, Prod.mk.injEq, List.not_mem_nil, or_false] at h
      rcases h with ⟨rfl, -⟩ | ⟨rfl, -⟩ | ⟨rfl, -⟩ <;> cases hname <;> decide
    rcases hc with rfl | rfl | rfl <;> rfl
  rw [hname, List.cons_append] at hread
  rw [hstart, hread]
  rfl

theorem exists_render_eq_cons (i : Int) : ∃ c ds, (Number.int i).render.toList = c :: ds ∧
    (c = '-' ∨ c.isDigit = true) := by
  cases i with
  | ofNat n =>
    obtain ⟨c, ds, hc⟩ := List.exists_cons_of_ne_nil (Nat.toDigits_ne_nil : Nat.toDigits 10 n ≠ [])
    refine ⟨c, ds, (Number.toList_render_natural n).trans hc, Or.inr ?_⟩
    exact Nat.isDigit_of_mem_toDigits (by omega) (by omega)
      (hc ▸ List.mem_cons_self : c ∈ Nat.toDigits 10 n)
  | negSucc n => exact ⟨'-', _, Number.toList_render_negSucc n, Or.inl rfl⟩

/-- A spelled lexeme is read as one token. -/
theorem exists_token? {l : Lexeme} (hl : l.IsExact) {cs : List Char}
    (hcs : l.IsOpenEnded → Separates cs) :
    ∃ c ds, l.text = c :: ds ∧ token? c (ds ++ cs) = some (some l.relaxed, cs) := by
  cases l with
  | openArray => exact ⟨'[', [], rfl, rfl⟩
  | closeArray => exact ⟨']', [], rfl, rfl⟩
  | openObject => exact ⟨'\x7b', [], rfl, rfl⟩
  | closeObject => exact ⟨'\x7d', [], rfl, rfl⟩
  | comma => exact ⟨',', [], rfl, rfl⟩
  | colon => exact ⟨':', [], rfl, rfl⟩
  | null =>
    exact ⟨_, _, rfl, @token?_constant _ _ "null" _ (by simp [constants]) rfl _ (hcs trivial)⟩
  | bool b =>
    cases b with
    | false =>
      exact ⟨_, _, rfl, @token?_constant _ _ "false" _ (by simp [constants]) rfl _ (hcs trivial)⟩
    | true =>
      exact ⟨_, _, rfl, @token?_constant _ _ "true" _ (by simp [constants]) rfl _ (hcs trivial)⟩
  | number n =>
    cases n with
    | real x => exact hl.elim
    | int i =>
      obtain ⟨c, ds, hc, hstart⟩ := exists_render_eq_cons i
      have hread := number?_render hl (hcs trivial)
      refine ⟨c, ds, hc, ?_⟩
      rw [hc, List.cons_append] at hread
      rw [token?_number hstart, hread]
      rfl
  | quoted s =>
    have hstart : ∀ rest, token? '"' rest =
        (string? '"' rest).map fun p => (some (.string p.1), p.2) := fun _ => rfl
    refine ⟨'"', s.toList.flatMap escapeChar ++ ['"'], String.toList_ofList, ?_⟩
    rw [hstart, List.append_assoc, List.singleton_append, string?_escaped]
    rfl

theorem tokens?_of_spells {ls : List Lexeme} {cs : List Char} (h : Spells ls cs)
    (hls : ∀ l ∈ ls, l.IsExact) {fuel : Nat} (hfuel : cs.length ≤ fuel) :
    tokens? fuel cs = some (ls.map Lexeme.relaxed) := by
  -- each step drops a character at least, so fuel for the whole text is enough for the rest
  induction h generalizing fuel with
  | nil => cases fuel <;> rfl
  | @blank ls c cs hc h ih =>
    have hblank : token? c cs = some (none, cs) := by
      rcases hc with rfl | rfl <;> rfl
    cases fuel with
    | zero => cases hfuel
    | succ fuel =>
      have hrest := ih hls (Nat.le_of_succ_le_succ hfuel)
      simp [tokens?, hblank, hrest]
  | @lexeme l ls cs hl h ih =>
    obtain ⟨hexact, hls⟩ := List.forall_mem_cons.1 hls
    obtain ⟨c, ds, htext, htoken⟩ := exists_token? hexact hl
    rw [htext, List.cons_append] at hfuel ⊢
    cases fuel with
    | zero => cases hfuel
    | succ fuel =>
      have hlength := Nat.le_of_succ_le_succ hfuel
      rw [List.length_append] at hlength
      have hrest := ih hls (Nat.le_of_add_left_le hlength)
      simp [tokens?, htoken, hrest]

/-! ## Building the value -/

namespace Builder

/-- The tokens of a value. -/
def tokensOf (j : Json) : List Token := j.lexemes.map Lexeme.relaxed

/-- Where a value may start, its tokens put it in its place. Only whether a comma may come next
depends on what the value ends with, and only for the outermost value. -/
def Builds (j : Json) : Prop := ∀ b : Builder, b.allowsValue = true →
  ∃ a, (tokensOf j).foldlM step b = { b with allowsComma := a }.place? j

theorem name?_of_allowsValue {b : Builder} (h : b.allowsValue = true) (name : String) :
    b.name? name = none := by
  obtain ⟨stack, comma, result, colon⟩ := b
  match stack with
  | [] => rfl
  | .array items :: rest => rfl
  | .field fields other :: rest => rfl
  | .object fields :: rest => simp [allowsValue] at h

theorem tokensOf_arr (items : List Json) : tokensOf (.arr items) =
    .openArray :: ([.comma].intercalate (items.map tokensOf) ++ [.closeArray]) := by
  rw [tokensOf, lexemes, itemLexemes_eq_map, List.map_append, List.map_cons, map_intercalate]
  rfl

def fieldTokens (f : String × Json) : List Token := .string f.1 :: .colon :: tokensOf f.2

theorem tokensOf_obj (fields : Fields) : tokensOf (.obj fields) =
    .openObject :: ([.comma].intercalate (fields.map fieldTokens) ++ [.closeObject]) := by
  rw [tokensOf, lexemes, fieldLexemes_eq_map, List.map_append, List.map_cons, map_intercalate]
  rfl

theorem Builds.item {j : Json} (h : Builds j) (done : List Json) (rest : List Frame)
    (comma : Bool) (result : Option Json) :
    (tokensOf j).foldlM step ⟨.array done :: rest, comma, result, false⟩ =
      some ⟨.array (j :: done) :: rest, true, result, false⟩ := by
  obtain ⟨a, ha⟩ := h ⟨.array done :: rest, comma, result, false⟩ rfl
  rw [ha]
  rfl

theorem Builds.field {f : String × Json} (h : Builds f.2) (done : Fields) (rest : List Frame)
    (comma : Bool) (result : Option Json) :
    (fieldTokens f).foldlM step ⟨.object done :: rest, comma, result, false⟩ =
      some ⟨.object (f :: done) :: rest, true, result, false⟩ := by
  obtain ⟨a, ha⟩ := h ⟨.field done f.1 :: rest, false, result, false⟩ rfl
  exact ha

theorem foldlM_items {j : Json} {items : List Json} (hj : Builds j)
    (hitems : ∀ j ∈ items, Builds j) (done : List Json) (rest : List Frame) (comma : Bool)
    (result : Option Json) :
    ([Token.comma].intercalate ((j :: items).map tokensOf)).foldlM step
        ⟨.array done :: rest, comma, result, false⟩ =
      some ⟨.array ((j :: items).reverse ++ done) :: rest, true, result, false⟩ := by
  induction items generalizing j done comma with
  | nil =>
    rw [List.map_cons, List.map_nil, List.intercalate_singleton, hj.item]
    rfl
  | cons k items ih =>
    obtain ⟨hk, hitems⟩ := List.forall_mem_cons.1 hitems
    rw [List.map_cons, List.map_cons, List.intercalate_cons_cons, List.append_assoc,
      List.foldlM_append, hj.item, ← List.map_cons]
    refine (ih hk hitems (j :: done) false).trans ?_
    simp

theorem foldlM_fields {f : String × Json} {fields : Fields} (hf : Builds f.2)
    (hfields : ∀ f ∈ fields, Builds f.2) (done : Fields) (rest : List Frame) (comma : Bool)
    (result : Option Json) :
    ([Token.comma].intercalate ((f :: fields).map fieldTokens)).foldlM step
        ⟨.object done :: rest, comma, result, false⟩ =
      some ⟨.object ((f :: fields).reverse ++ done) :: rest, true, result, false⟩ := by
  induction fields generalizing f done comma with
  | nil =>
    rw [List.map_cons, List.map_nil, List.intercalate_singleton, hf.field]
    rfl
  | cons g fields ih =>
    obtain ⟨hg, hfields⟩ := List.forall_mem_cons.1 hfields
    rw [List.map_cons, List.map_cons, List.intercalate_cons_cons, List.append_assoc,
      List.foldlM_append, hf.field, ← List.map_cons]
    refine (ih hg hfields (f :: done) false).trans ?_
    simp

theorem builds_of_step {j : Json} {t : Token} (htoken : tokensOf j = [t])
    (h : ∀ b : Builder, b.allowsValue = true → step b t = b.place? j) : Builds j := by
  intro b hb
  refine ⟨b.allowsComma, ?_⟩
  rw [htoken, List.foldlM_cons, h b hb]
  exact bind_pure _

theorem awaitsColon_of_allowsValue {b : Builder} (h : b.allowsValue = true) :
    b.awaitsColon = false := by
  simp only [allowsValue, Bool.and_eq_true, Bool.not_eq_true'] at h
  exact h.1

theorem foldlM_closeArray (items : List Json) (rest : List Frame) (comma : Bool)
    (result : Option Json) :
    [Token.closeArray].foldlM step ⟨.array items.reverse :: rest, comma, result, false⟩ =
      place? ⟨rest, comma, result, false⟩ (.arr items) := by
  have hstep : step ⟨.array items.reverse :: rest, comma, result, false⟩ .closeArray =
      place? ⟨rest, comma, result, false⟩ (.arr items.reverse.reverse) := rfl
  rw [List.foldlM_cons, hstep, List.reverse_reverse]
  exact bind_pure (m := Option) _

theorem foldlM_closeObject (fields : Fields) (rest : List Frame) (comma : Bool)
    (result : Option Json) :
    [Token.closeObject].foldlM step ⟨.object fields.reverse :: rest, comma, result, false⟩ =
      place? ⟨rest, comma, result, false⟩ (.obj fields) := by
  have hstep : step ⟨.object fields.reverse :: rest, comma, result, false⟩ .closeObject =
      place? ⟨rest, comma, result, false⟩ (.obj fields.reverse.reverse) := rfl
  rw [List.foldlM_cons, hstep, List.reverse_reverse]
  exact bind_pure (m := Option) _

theorem builds (j : Json) : Builds j := by
  induction j using value_induction with
  | null => exact builds_of_step rfl fun b _ => rfl
  | bool v => exact builds_of_step rfl fun b _ => rfl
  | num n =>
    refine builds_of_step rfl fun b hb => ?_
    rw [Lexeme.relaxed, step, name?_of_allowsValue hb, Option.none_or]
  | str s =>
    refine builds_of_step rfl fun b hb => ?_
    rw [Lexeme.relaxed, step, name?_of_allowsValue hb, Option.none_or]
  | arr items ih =>
    intro b hb
    have hopen : step b .openArray = some ⟨.array [] :: b.stack, false, b.result, false⟩ := by
      rw [step, if_pos hb, push, awaitsColon_of_allowsValue hb]
    rw [tokensOf_arr, List.foldlM_cons, hopen, Option.bind_eq_bind, Option.bind_some,
      List.foldlM_append]
    have hcolon := awaitsColon_of_allowsValue hb
    cases items with
    | nil =>
      refine ⟨false, ?_⟩
      rw [hcolon]
      exact foldlM_closeArray [] b.stack false b.result
    | cons j items =>
      obtain ⟨hj, hitems⟩ := List.forall_mem_cons.1 ih
      refine ⟨true, ?_⟩
      rw [foldlM_items hj hitems, hcolon, List.append_nil]
      exact foldlM_closeArray (j :: items) b.stack true b.result
  | obj fields ih =>
    intro b hb
    have hopen : step b .openObject = some ⟨.object [] :: b.stack, false, b.result, false⟩ := by
      rw [step, if_pos hb, push, awaitsColon_of_allowsValue hb]
    rw [tokensOf_obj, List.foldlM_cons, hopen, Option.bind_eq_bind, Option.bind_some,
      List.foldlM_append]
    have hcolon := awaitsColon_of_allowsValue hb
    cases fields with
    | nil =>
      refine ⟨false, ?_⟩
      rw [hcolon]
      exact foldlM_closeObject [] b.stack false b.result
    | cons f fields =>
      obtain ⟨hf, hfields⟩ := List.forall_mem_cons.1 ih
      refine ⟨true, ?_⟩
      rw [foldlM_fields hf hfields, hcolon, List.append_nil]
      exact foldlM_closeObject (f :: fields) b.stack true b.result

end Builder

/-- A text that spells a value is read as its canonical form, whatever its height. -/
theorem ofText?_of_spells {j : Json} (h : j.IsIntegral) {cs : List Char}
    (hcs : Spells j.lexemes cs) : ofText? (Text.ofChars cs) = some (some j.canonical) := by
  have htokens := tokens?_of_spells hcs (isExact_of_mem_lexemes h) (Nat.le_refl cs.length)
  obtain ⟨a, ha⟩ := Builder.builds j Builder.start rfl
  have hbuilt : (j.lexemes.map Lexeme.relaxed).foldlM Builder.step Builder.start =
      some ⟨[], a, some j, false⟩ := ha
  rw [ofText?, Text.chars?_ofChars]
  simp [htokens, hbuilt]

end Relaxed
end Inlay
