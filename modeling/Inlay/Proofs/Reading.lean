import Inlay.Proofs.Scalars
import Inlay.Proofs.Spelling

/-! Reading a text that spells a value. The lexer turns each spelled lexeme into one token, whatever
blanks stand around it, and the tokens of a value build that value. What is left is the limit on
nesting: a value whose numbers are integers of a word is read back from every text that spells it,
provided its arrays and objects are not nested too deep. -/

namespace Inlay
namespace Json

/-! ## What is read back -/

/-- Every number in the value is an integer that fits a word. -/
def IsIntegral (j : Json) : Prop := ∀ n, Inside (.num n) j → n.IsWord

mutual

/-- How deep arrays and objects are nested. -/
def height : Json → Nat
  | .null => 0
  | .bool _ => 0
  | .num _ => 0
  | .str _ => 0
  | .arr items => itemsHeight items + 1
  | .obj fields => fieldsHeight fields + 1

def itemsHeight : List Json → Nat
  | [] => 0
  | j :: rest => max (height j) (itemsHeight rest)

def fieldsHeight : List (String × Json) → Nat
  | [] => 0
  | (_, j) :: rest => max (height j) (fieldsHeight rest)

end

@[simp] theorem isIntegral_null : null.IsIntegral := nofun

@[simp] theorem isIntegral_bool (b : Bool) : (bool b).IsIntegral := nofun

@[simp] theorem isIntegral_str (s : String) : (str s).IsIntegral := nofun

theorem isIntegral_nat_iff {n : Nat} : (nat n).IsIntegral ↔ n ≤ Number.maxWord := by
  constructor
  · intro h
    exact Int.ofNat_le.1 (h _ (.self _)).2
  · intro h i hi
    cases hi
    exact ⟨by omega, Int.ofNat_le.2 h⟩

theorem isIntegral_arr_iff {items : List Json} :
    (arr items).IsIntegral ↔ ∀ j ∈ items, j.IsIntegral := by
  constructor
  · intro h j hj n hn
    exact h n (.item hj hn)
  · intro h n hn
    cases hn with
    | item hj hn => exact h _ hj n hn

theorem isIntegral_obj_iff {fields : Fields} :
    (obj fields).IsIntegral ↔ ∀ f ∈ fields, f.2.IsIntegral := by
  constructor
  · intro h f hf n hn
    exact h n (.field hf hn)
  · intro h n hn
    cases hn with
    | field hf hn => exact h _ hf n hn

theorem isIntegral_canonical {j : Json} (h : j.IsIntegral) : j.canonical.IsIntegral := by
  induction j using value_induction with
  | arr items ih =>
    rw [isIntegral_arr_iff] at h
    rw [canonical_arr, isIntegral_arr_iff, List.forall_mem_map]
    exact fun j hj => ih j hj (h j hj)
  | obj fields ih =>
    rw [isIntegral_obj_iff] at h
    rw [canonical_obj, isIntegral_obj_iff]
    intro f hf
    obtain ⟨g, hg, rfl⟩ := exists_of_mem_canonical hf
    exact ih g hg (h g hg)
  | _ => exact h

/-- Without repeated names the canonical form has all the numbers. -/
theorem isIntegral_of_canonical {j : Json} (hj : j.HasDistinctNames)
    (h : j.canonical.IsIntegral) : j.IsIntegral := by
  induction j using value_induction with
  | arr items ih =>
    rw [canonical_arr, isIntegral_arr_iff, List.forall_mem_map] at h
    rw [hasDistinctNames_arr_iff] at hj
    rw [isIntegral_arr_iff]
    exact fun j hmem => ih j hmem (hj j hmem) (h j hmem)
  | obj fields ih =>
    obtain ⟨hfields, hvalues⟩ := hasDistinctNames_obj_iff.1 hj
    have hsorted := (sorted_sortFields (canonicalFields fields)).nodup
    rw [canonical_obj, isIntegral_obj_iff] at h
    rw [isIntegral_obj_iff]
    intro f hf
    have hlookup := (lookup_eq_some_iff_of_nodup hfields).2 hf
    have hcanonical := lookup_canonical hfields f.1
    rw [hlookup, Option.map_some, lookup_eq_some_iff_of_nodup hsorted] at hcanonical
    exact ih f hf (hvalues f hf) (h _ hcanonical)
  | _ => exact h

/-! ## Tokens -/

namespace Lexeme

open RawJson Text

def token : Lexeme → Token
  | .openArray => .openArray
  | .closeArray => .closeArray
  | .openObject => .openObject
  | .closeObject => .closeObject
  | .comma => .comma
  | .colon => .colon
  | .null => .scalar .null
  | .bool b => .scalar (.bool b)
  | .number n => .scalar (.number (ofChars n.render.toList))
  | .quoted s => .quoted (escaped s)

/-- A number that is read back exactly, or no number. -/
def IsExact : Lexeme → Prop
  | .number n => n.IsWord
  | _ => True

end Lexeme

end Json

namespace RawJson

open Text Json

/-- The tokens of a text put onto those that come before it, all in reverse. -/
def tokensOnto? (ts : List Token) (t : Text) : Option (List Token) :=
  (t.foldlM Lexer.step ⟨.between, ts⟩).bind Lexer.flush

theorem tokensOnto?_cons (ts : List Token) (b : UInt8) (t : Text) :
    tokensOnto? ts (b :: t) =
      (Lexer.start ts b).bind fun l => (t.foldlM Lexer.step l).bind Lexer.flush := by
  rw [tokensOnto?, List.foldlM_cons]
  exact Option.bind_assoc ..

/-- What ends a word or a number is read as if it came after the finished token. -/
theorem flush_eq_tokensOnto? {l : Lexer} {ts : List Token} (hflush : l.flush = some ts) {t : Text}
    (hstep : ∀ b ∈ t.head?, l.step b = l.flush.bind (Lexer.start · b)) :
    (t.foldlM Lexer.step l).bind Lexer.flush = tokensOnto? ts t := by
  cases t with
  | nil =>
    rw [tokensOnto?]
    exact hflush
  | cons b t =>
    rw [tokensOnto?_cons, List.foldlM_cons, hstep b rfl, hflush]
    exact Option.bind_assoc ..

theorem head?_ofChars {cs : List Char} (h : Separates cs) {b : UInt8}
    (hb : b ∈ (ofChars cs).head?) : b = 44 ∨ b = 93 ∨ b = 125 ∨ b = 32 ∨ b = 10 := by
  cases cs with
  | nil => exact absurd hb (by simp [ofChars])
  | cons c cs =>
    rw [ofChars_cons] at hb
    rcases h c rfl with rfl | rfl | rfl | rfl | rfl <;> cases hb <;> decide

theorem foldlM_number {t : Text} (h : ∀ b ∈ t, isNumberByte b = true) (u : Text)
    (ts : List Token) :
    t.foldlM Lexer.step ⟨.number u, ts⟩ = some ⟨.number (t.reverse ++ u), ts⟩ := by
  induction t generalizing u with
  | nil => rfl
  | cons b t ih =>
    obtain ⟨hb, ht⟩ := List.forall_mem_cons.1 h
    have hstep : Lexer.step ⟨.number u, ts⟩ b = some ⟨.number (b :: u), ts⟩ := if_pos hb
    rw [List.foldlM_cons, hstep, List.reverse_cons, List.append_assoc]
    exact ih ht (b :: u)

theorem isNumberByte_of_mem_digitsOf {n : Nat} {b : UInt8} (h : b ∈ digitsOf n) :
    isNumberByte b = true := by
  rw [isNumberByte, isDigit_of_mem_digitsOf h]
  rfl

theorem start_of_isDigit {b : UInt8} (h : isDigit b = true) (ts : List Token) :
    Lexer.start ts b = some ⟨.number [b], ts⟩ := by
  have hother : ∀ c ∈ ([32, 10, 9, 13, 34, 91, 93, 123, 125, 44, 58] : Text), b ≠ c := by
    have hdigits : ([32, 10, 9, 13, 34, 91, 93, 123, 125, 44, 58] : Text).all (!isDigit ·) := rfl
    rintro c hc rfl
    have hb := List.all_eq_true.1 hdigits b hc
    rw [h] at hb
    cases hb
  simp only [List.forall_mem_cons] at hother
  simp [Lexer.start, isSpace, h, hother]

/-- A byte that starts an integer, and the bytes that go on with it. -/
theorem exists_intText_eq_cons (i : Int) : ∃ b t, Number.intText i = b :: t ∧
    (∀ ts, Lexer.start ts b = some ⟨.number [b], ts⟩) ∧ ∀ c ∈ t, isNumberByte c = true := by
  cases i with
  | ofNat n =>
    obtain ⟨b, t, htext, hb⟩ := Number.exists_digitsOf_eq_cons n
    refine ⟨b, t, (Number.intText_natural n).trans htext, start_of_isDigit hb, fun c hc => ?_⟩
    apply isNumberByte_of_mem_digitsOf
    rw [htext]
    exact List.mem_cons_of_mem b hc
  | negSucc n =>
    refine ⟨45, _, Number.intText_negSucc n, fun ts => rfl, fun c hc => ?_⟩
    exact isNumberByte_of_mem_digitsOf hc

theorem tokensOnto?_number {n : Number} (hn : n.IsWord) {cs : List Char} (hcs : Separates cs)
    (ts : List Token) :
    tokensOnto? ts (ofChars (n.render.toList ++ cs)) =
      tokensOnto? (.scalar (.number (ofChars n.render.toList)) :: ts) (ofChars cs) := by
  cases n with
  | real x => exact hn.elim
  | int i =>
    -- the number stays open to its last byte, and only the separator behind it closes it
    have htext : ofChars (Number.int i).render.toList = Number.intText i := rfl
    have hnumber := Number.isNumber_intText i
    obtain ⟨b, t, hbt, hstart, ht⟩ := exists_intText_eq_cons i
    have hflush : (Lexer.mk (.number (t.reverse ++ [b])) ts).flush =
        some (.scalar (.number (Number.intText i)) :: ts) := by
      have hreverse : (t.reverse ++ [b]).reverse = Number.intText i := by
        rw [hbt, List.reverse_append, List.reverse_reverse]
        rfl
      simp only [Lexer.flush, hreverse, hnumber, if_true]
    rw [ofChars_append, htext, hbt, List.cons_append, tokensOnto?_cons, hstart, Option.bind_some,
      List.foldlM_append, foldlM_number ht, ← hbt]
    apply flush_eq_tokensOnto? hflush
    intro c hc
    rcases head?_ofChars hcs hc with rfl | rfl | rfl | rfl | rfl <;> rfl

theorem tokensOnto?_word {word : String} {token : Token} {ts : List Token} {cs : List Char}
    (hcs : Separates cs)
    (hword : (ofString word).foldlM Lexer.step ⟨.between, ts⟩ =
      some ⟨.word (ofString word).reverse, ts⟩)
    (htoken : wordToken? (ofString word) = some token) :
    tokensOnto? ts (ofChars (word.toList ++ cs)) = tokensOnto? (token :: ts) (ofChars cs) := by
  have hflush : (Lexer.mk (.word (ofString word).reverse) ts).flush = some (token :: ts) := by
    simp only [Lexer.flush, List.reverse_reverse, htoken, Option.map_some]
  rw [ofChars_append, ← ofString_eq_ofChars, tokensOnto?, List.foldlM_append, hword]
  apply flush_eq_tokensOnto? hflush
  intro c hc
  rcases head?_ofChars hcs hc with rfl | rfl | rfl | rfl | rfl <;> rfl

theorem foldlM_plain {t : Text} (h : ∀ b ∈ t, b ≠ 34 ∧ b ≠ 92 ∧ ¬ b < 32) (u : Text)
    (ts : List Token) :
    t.foldlM Lexer.step ⟨.string u, ts⟩ = some ⟨.string (t.reverse ++ u), ts⟩ := by
  induction t generalizing u with
  | nil => rfl
  | cons b t ih =>
    obtain ⟨⟨hquote, hslash, hlow⟩, ht⟩ := List.forall_mem_cons.1 h
    have hstep : Lexer.step ⟨.string u, ts⟩ b = some ⟨.string (b :: u), ts⟩ := by
      simp only [Lexer.step, if_neg hquote, if_neg hslash, if_neg hlow]
    rw [List.foldlM_cons, hstep, List.reverse_cons, List.append_assoc]
    exact ih ht (b :: u)

theorem foldlM_escapeChar (c : Char) (u : Text) (ts : List Token) :
    (ofChars (escapeChar c)).foldlM Lexer.step ⟨.string u, ts⟩ =
      some ⟨.string ((ofChars (escapeChar c)).reverse ++ u), ts⟩ := by
  rcases escapeChar_cases c with ⟨e, he, h⟩ | ⟨hlt, h⟩ | ⟨hlow, hquote, hslash, h⟩
  · obtain ⟨b, htext, hsimple, -⟩ := exists_shortEscape_bytes he
    rw [h, htext]
    simp [Lexer.step, hsimple]
  · obtain ⟨a, b, htext, ha, hb, -⟩ := exists_hexEscape_bytes hlt
    have hzero : (hexValue? 48).isSome = true := rfl
    rw [h, htext]
    simp [Lexer.step, Lexer.isSimpleEscape, ha, hb, hzero]
  · rw [h, ofChars_cons, ofChars_nil, List.append_nil]
    exact foldlM_plain (fun b hb => plain_of_mem_utf8EncodeChar hlow hquote hslash hb) u ts

theorem foldlM_escaped (cs : List Char) (u : Text) (ts : List Token) :
    (ofChars (cs.flatMap escapeChar)).foldlM Lexer.step ⟨.string u, ts⟩ =
      some ⟨.string ((ofChars (cs.flatMap escapeChar)).reverse ++ u), ts⟩ := by
  induction cs generalizing u with
  | nil => rfl
  | cons c cs ih =>
    rw [List.flatMap_cons, ofChars_append, List.foldlM_append, foldlM_escapeChar,
      List.reverse_append, List.append_assoc]
    exact ih _

theorem tokensOnto?_quoted (s : String) (cs : List Char) (ts : List Token) :
    tokensOnto? ts (ofChars ((quote s).toList ++ cs)) =
      tokensOnto? (.quoted (escaped s) :: ts) (ofChars cs) := by
  have htext : ofChars ((quote s).toList ++ cs) = 34 :: (escaped s ++ 34 :: ofChars cs) := by
    rw [quote, String.toList_ofList, List.append_assoc, List.cons_append, ofChars_cons,
      ofChars_append, List.singleton_append, ofChars_cons]
    rfl
  have hstart : Lexer.start ts 34 = some ⟨.string [], ts⟩ := rfl
  have hclose : Lexer.step ⟨.string (escaped s).reverse, ts⟩ 34 =
      some ⟨.between, .quoted (escaped s) :: ts⟩ := by
    simp [Lexer.step]
  have hbody : (escaped s).foldlM Lexer.step ⟨.string [], ts⟩ =
      some ⟨.string (escaped s).reverse, ts⟩ := by
    have hall := foldlM_escaped s.toList [] ts
    rwa [List.append_nil] at hall
  rw [htext, tokensOnto?_cons, hstart, Option.bind_some, List.foldlM_append, hbody,
    Option.bind_eq_bind, Option.bind_some, List.foldlM_cons, hclose]
  rfl

theorem tokensOnto?_lexeme {l : Lexeme} (hl : l.IsExact) {cs : List Char}
    (hcs : l.IsOpenEnded → Separates cs) (ts : List Token) :
    tokensOnto? ts (ofChars (l.text ++ cs)) = tokensOnto? (l.token :: ts) (ofChars cs) := by
  cases l with
  | openArray => rfl
  | closeArray => rfl
  | openObject => rfl
  | closeObject => rfl
  | comma => rfl
  | colon => rfl
  | null => exact tokensOnto?_word (hcs trivial) rfl rfl
  | bool b => cases b <;> exact tokensOnto?_word (hcs trivial) rfl rfl
  | number n => exact tokensOnto?_number hl (hcs trivial) ts
  | quoted s => exact tokensOnto?_quoted s cs ts

theorem tokensOnto?_of_spells {ls : List Lexeme} {cs : List Char} (h : Spells ls cs)
    (hls : ∀ l ∈ ls, l.IsExact) (ts : List Token) :
    tokensOnto? ts (ofChars cs) = some ((ls.map Lexeme.token).reverse ++ ts) := by
  induction h generalizing ts with
  | nil => rfl
  | blank hc h ih =>
    rw [← ih hls ts]
    rcases hc with rfl | rfl <;> rfl
  | @lexeme l ls cs hl h ih =>
    obtain ⟨hexact, hls⟩ := List.forall_mem_cons.1 hls
    rw [tokensOnto?_lexeme hexact hl, ih hls, List.map_cons, List.reverse_cons,
      List.append_assoc, List.singleton_append]

theorem tokens?_of_spells {ls : List Lexeme} {cs : List Char} (h : Spells ls cs)
    (hls : ∀ l ∈ ls, l.IsExact) : tokens? (ofChars cs) = some (ls.map Lexeme.token) := by
  have hall := tokensOnto?_of_spells h hls []
  rw [tokensOnto?, List.append_nil] at hall
  rw [tokens?, hall, Option.map_some, List.reverse_reverse]

end RawJson

/-! ## Building the value -/

namespace Json

open Text

mutual

def raw : Json → RawJson
  | .null => .null
  | .bool b => .bool b
  | .num n => .number (ofChars n.render.toList)
  | .str s => .string (RawJson.escaped s)
  | .arr items => .array (rawItems items)
  | .obj fields => .object (rawFields fields)

def rawItems : List Json → List RawJson
  | [] => []
  | j :: rest => raw j :: rawItems rest

def rawFields : List (String × Json) → List (Text × RawJson)
  | [] => []
  | (n, j) :: rest => (RawJson.escaped n, raw j) :: rawFields rest

end

theorem rawFields_eq_map (fields : Fields) :
    rawFields fields = fields.map fun f => (RawJson.escaped f.1, f.2.raw) := by
  induction fields with
  | nil => rfl
  | cons f fields ih => rw [rawFields, ih, List.map_cons]

def tokens (j : Json) : List RawJson.Token := j.lexemes.map Lexeme.token

def fieldTokens (f : String × Json) : List RawJson.Token :=
  .quoted (RawJson.escaped f.1) :: .colon :: tokens f.2

theorem map_intercalate {α β γ : Type} (f : β → γ) (separator : β) (parts : α → List β)
    (xs : List α) :
    ([separator].intercalate (xs.map parts)).map f =
      [f separator].intercalate (xs.map fun x => (parts x).map f) := by
  induction xs with
  | nil => rfl
  | cons x xs ih =>
    cases xs with
    | nil => simp
    | cons y xs =>
      simp only [List.map_cons, List.intercalate_cons_cons, List.map_append] at ih ⊢
      rw [ih]
      rfl

theorem tokens_arr (items : List Json) : (Json.arr items).tokens =
    .openArray :: ([.comma].intercalate (items.map tokens) ++ [.closeArray]) := by
  rw [tokens, lexemes, itemLexemes_eq_map, List.map_append, List.map_cons, map_intercalate]
  rfl

theorem tokens_obj (fields : Fields) : (Json.obj fields).tokens =
    .openObject :: ([.comma].intercalate (fields.map fieldTokens) ++ [.closeObject]) := by
  rw [tokens, lexemes, fieldLexemes_eq_map, List.map_append, List.map_cons, map_intercalate]
  rfl

theorem exists_tokens_eq_cons (j : Json) : ∃ t ts, j.tokens = t :: ts ∧ t ≠ .closeArray := by
  cases j with
  | null => exact ⟨_, _, rfl, nofun⟩
  | bool b => exact ⟨_, _, rfl, nofun⟩
  | num n => exact ⟨_, _, rfl, nofun⟩
  | str s => exact ⟨_, _, rfl, nofun⟩
  | arr items => exact ⟨_, _, rfl, nofun⟩
  | obj fields => exact ⟨_, _, rfl, nofun⟩

end Json

namespace RawJson
namespace Builder

open Text Json

/-- Where an array may end at once, any other token is taken as where a value is due. -/
theorem step_valueOrClose {t : Token} (h : t ≠ .closeArray) (stack : List Frame) :
    step ⟨.valueOrClose, stack⟩ t = step ⟨.value, stack⟩ t := by
  cases t <;> first | rfl | exact absurd rfl h

/-- The tokens of a value put the value in its place, whatever is open around it and whatever
follows. -/
def Builds (j : Json) : Prop := ∀ (stack : List Frame) (ts : List Token),
  (j.tokens ++ ts).foldlM step ⟨.value, stack⟩ = ts.foldlM step (place j.raw stack)

theorem foldlM_items {j : Json} {items : List Json} (hj : Builds j) (hitems : ∀ j ∈ items, Builds j)
    (done : List RawJson) (stack : List Frame) (ts : List Token) :
    ([Token.comma].intercalate ((j :: items).map tokens) ++ .closeArray :: ts).foldlM step
        ⟨.value, .array done :: stack⟩ =
      ts.foldlM step (place (.array (done.reverse ++ rawItems (j :: items))) stack) := by
  induction items generalizing j done with
  | nil =>
    rw [List.map_cons, List.map_nil, List.intercalate_singleton, hj]
    simp [place, step, rawItems]
  | cons k items ih =>
    obtain ⟨hk, hitems⟩ := List.forall_mem_cons.1 hitems
    rw [List.map_cons, List.map_cons, List.intercalate_cons_cons, List.append_assoc,
      List.append_assoc, hj, List.singleton_append, List.foldlM_cons, ← List.map_cons]
    refine (ih hk hitems (j.raw :: done)).trans ?_
    rw [List.reverse_cons, List.append_assoc]
    rfl

theorem foldlM_fields {f : String × Json} {fields : Fields} (hf : Builds f.2)
    (hfields : ∀ f ∈ fields, Builds f.2) (done : List (Text × RawJson)) (stack : List Frame)
    (ts : List Token) :
    ([Token.comma].intercalate ((f :: fields).map fieldTokens) ++ .closeObject :: ts).foldlM step
        ⟨.name done, stack⟩ =
      ts.foldlM step (place (.object (done.reverse ++ rawFields (f :: fields))) stack) := by
  have hfield : ∀ us, (fieldTokens f ++ us).foldlM step ⟨.name done, stack⟩ =
      us.foldlM step
        ⟨.separator, .object ((escaped f.1, f.2.raw) :: done) (escaped f.1) :: stack⟩ :=
    hf (.object done (escaped f.1) :: stack)
  induction fields generalizing f done with
  | nil =>
    rw [List.map_cons, List.map_nil, List.intercalate_singleton, hfield]
    simp [step, rawFields]
  | cons g fields ih =>
    obtain ⟨hg, hfields⟩ := List.forall_mem_cons.1 hfields
    rw [List.map_cons, List.map_cons, List.intercalate_cons_cons, List.append_assoc,
      List.append_assoc, hfield, List.singleton_append, List.foldlM_cons, ← List.map_cons]
    refine (ih hg hfields ((escaped f.1, f.2.raw) :: done)
      (hg (.object _ (escaped g.1) :: stack))).trans ?_
    rw [List.reverse_cons, List.append_assoc]
    rfl

theorem builds (j : Json) : Builds j := by
  induction j using value_induction with
  | null => exact fun _ _ => rfl
  | bool b => exact fun _ _ => rfl
  | num n => exact fun _ _ => rfl
  | str s => exact fun _ _ => rfl
  | arr items ih =>
    intro stack ts
    rw [tokens_arr, List.cons_append, List.append_assoc, List.singleton_append]
    cases items with
    | nil => rfl
    | cons j items =>
      -- the array might have ended here, but no value begins with a closing bracket
      obtain ⟨hj, hitems⟩ := List.forall_mem_cons.1 ih
      have hall := foldlM_items hj hitems [] stack ts
      obtain ⟨t, us, htokens, hne⟩ := exists_tokens_eq_cons j
      rw [List.map_cons, htokens, List.intercalate_cons_cons_left, List.cons_append] at hall ⊢
      rw [List.foldlM_cons, ← step_valueOrClose hne] at hall
      exact hall
  | obj fields ih =>
    intro stack ts
    rw [tokens_obj, List.cons_append, List.append_assoc, List.singleton_append]
    cases fields with
    | nil => rfl
    | cons f fields =>
      obtain ⟨hf, hfields⟩ := List.forall_mem_cons.1 ih
      have hall := foldlM_fields hf hfields [] stack ts
      rw [List.map_cons, fieldTokens, List.intercalate_cons_cons_left, List.cons_append] at hall ⊢
      exact hall

end Builder
end RawJson

namespace Json

open RawJson Text

theorem isExact_of_mem_intercalate {parts : List (List Lexeme)}
    (h : ∀ part ∈ parts, ∀ l ∈ part, l.IsExact) :
    ∀ l ∈ [Lexeme.comma].intercalate parts, l.IsExact := by
  induction parts with
  | nil => exact nofun
  | cons part parts ih =>
    obtain ⟨hpart, hparts⟩ := List.forall_mem_cons.1 h
    cases parts with
    | nil => simpa using hpart
    | cons next rest =>
      rw [List.intercalate_cons_cons]
      refine List.forall_mem_append.2 ⟨List.forall_mem_append.2 ⟨hpart, ?_⟩, ih hparts⟩
      exact List.forall_mem_singleton.2 trivial

theorem isExact_of_mem_lexemes {j : Json} (h : j.IsIntegral) : ∀ l ∈ j.lexemes, l.IsExact := by
  induction j using value_induction with
  | null => exact List.forall_mem_singleton.2 trivial
  | bool b => exact List.forall_mem_singleton.2 trivial
  | num n => exact List.forall_mem_singleton.2 (h n (.self _))
  | str s => exact List.forall_mem_singleton.2 trivial
  | arr items ih =>
    rw [lexemes, itemLexemes_eq_map, List.forall_mem_append, List.forall_mem_cons,
      List.forall_mem_singleton]
    refine ⟨⟨trivial, isExact_of_mem_intercalate ?_⟩, trivial⟩
    rw [List.forall_mem_map]
    intro j hj
    exact ih j hj (isIntegral_arr_iff.1 h j hj)
  | obj fields ih =>
    rw [lexemes, fieldLexemes_eq_map, List.forall_mem_append, List.forall_mem_cons,
      List.forall_mem_singleton]
    refine ⟨⟨trivial, isExact_of_mem_intercalate ?_⟩, trivial⟩
    rw [List.forall_mem_map]
    intro f hf
    rw [List.forall_mem_cons, List.forall_mem_cons]
    exact ⟨trivial, trivial, ih f hf (isIntegral_obj_iff.1 h f hf)⟩

/-- A text that spells a value is read as that value, its strings and numbers as written. -/
theorem rawOfText?_of_spells {j : Json} (h : j.IsIntegral) {cs : List Char}
    (hcs : Spells j.lexemes cs) : RawJson.ofText? (ofChars cs) = some j.raw := by
  have hbuilt : j.tokens.foldlM Builder.step {} = some ⟨.nothing j.raw, []⟩ := by
    have hall := Builder.builds j [] []
    rw [List.append_nil] at hall
    exact hall
  rw [RawJson.ofText?, tokens?_of_spells hcs (isExact_of_mem_lexemes h)]
  simp only [Option.bind_eq_bind, Option.bind_some]
  rw [← tokens, hbuilt]
  rfl

/-! ## The limit on nesting -/

theorem itemsToJson?_rawItems {items : List Json} (depth : Nat)
    (h : ∀ j ∈ items, toJson? depth j.raw = if depth + j.height ≤ maxDepth then some j else none)
    (hdepth : depth ≤ maxDepth) :
    itemsToJson? depth (rawItems items) =
      if depth + itemsHeight items ≤ maxDepth then some items else none := by
  induction items with
  | nil => simp [itemsToJson?, rawItems, itemsHeight, hdepth]
  | cons j items ih =>
    obtain ⟨hj, hitems⟩ := List.forall_mem_cons.1 h
    rw [rawItems, itemsToJson?, hj, ih hitems, itemsHeight]
    have hmax : depth + max j.height (itemsHeight items) ≤ maxDepth ↔
        depth + j.height ≤ maxDepth ∧ depth + itemsHeight items ≤ maxDepth := by omega
    by_cases hfirst : depth + j.height ≤ maxDepth
    · by_cases hrest : depth + itemsHeight items ≤ maxDepth <;> simp [hmax, hfirst, hrest]
    · simp [hmax, hfirst]

theorem fieldsToJson?_rawFields {fields : Fields} (depth : Nat)
    (h : ∀ f ∈ fields, toJson? depth f.2.raw =
      if depth + f.2.height ≤ maxDepth then some f.2 else none)
    (hdepth : depth ≤ maxDepth) :
    fieldsToJson? depth (rawFields fields) =
      if depth + fieldsHeight fields ≤ maxDepth then some fields else none := by
  induction fields with
  | nil => simp [fieldsToJson?, rawFields, fieldsHeight, hdepth]
  | cons f fields ih =>
    obtain ⟨hf, hfields⟩ := List.forall_mem_cons.1 h
    rw [rawFields, fieldsToJson?, stringOf?_escaped, hf, ih hfields, fieldsHeight]
    have hmax : depth + max f.2.height (fieldsHeight fields) ≤ maxDepth ↔
        depth + f.2.height ≤ maxDepth ∧ depth + fieldsHeight fields ≤ maxDepth := by omega
    by_cases hfirst : depth + f.2.height ≤ maxDepth
    · by_cases hrest : depth + fieldsHeight fields ≤ maxDepth <;> simp [hmax, hfirst, hrest]
    · simp [hmax, hfirst]

theorem toJson?_raw {j : Json} (h : j.IsIntegral) (depth : Nat) (hdepth : depth ≤ maxDepth) :
    toJson? depth j.raw = if depth + j.height ≤ maxDepth then some j else none := by
  induction j using value_induction generalizing depth with
  | null => rw [height, raw, toJson?, Nat.add_zero, if_pos hdepth]
  | bool b => rw [height, raw, toJson?, Nat.add_zero, if_pos hdepth]
  | num n =>
    have hword := h n (.self _)
    cases n with
    | real x => exact hword.elim
    | int i =>
      have htext : ofChars (Number.int i).render.toList = Number.intText i := rfl
      rw [height, raw, toJson?, htext, Number.ofText?_intText hword, Nat.add_zero, if_pos hdepth]
      rfl
  | str s =>
    rw [height, raw, toJson?, stringOf?_escaped, Nat.add_zero, if_pos hdepth]
    rfl
  | arr items ih =>
    have hheight : depth + (itemsHeight items + 1) = depth + 1 + itemsHeight items := by omega
    rw [height, raw, toJson?, hheight]
    by_cases hlt : depth < maxDepth
    · have hitems := itemsToJson?_rawItems (depth + 1)
        (fun j hj => ih j hj (isIntegral_arr_iff.1 h j hj) (depth + 1) hlt) hlt
      rw [if_pos hlt, hitems, Option.map_if]
    · rw [if_neg hlt, if_neg (by omega)]
  | obj fields ih =>
    have hheight : depth + (fieldsHeight fields + 1) = depth + 1 + fieldsHeight fields := by omega
    rw [height, raw, toJson?, hheight]
    by_cases hlt : depth < maxDepth
    · have hfields := fieldsToJson?_rawFields (depth + 1)
        (fun f hf => ih f hf (isIntegral_obj_iff.1 h f hf) (depth + 1) hlt) hlt
      rw [if_pos hlt, hfields, Option.map_if]
    · rw [if_neg hlt, if_neg (by omega)]

/-- A text that spells a value is read back, unless the value is nested too deep. -/
theorem ofText?_of_spells {j : Json} (h : j.IsIntegral) {cs : List Char}
    (hcs : Spells j.lexemes cs) :
    Json.ofText? (ofChars cs) = if j.height ≤ maxDepth then some j else none := by
  rw [Json.ofText?, rawOfText?_of_spells h hcs, Option.bind_some,
    toJson?_raw h 0 (Nat.zero_le _), Nat.zero_add]

end Json
end Inlay
