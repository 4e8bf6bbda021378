import Mathlib.Data.List.Forall2
import Inlay.Json.Printer
import Inlay.Proofs.FieldOrder

/-! How the texts of a value are spelled. A value is a sequence of lexemes: brackets, commas,
colons, words, numbers and strings. A text spells such a sequence when it has their texts in order,
with blanks between them or not, except that a comma, a closing bracket or a blank has to follow a
word or a number. The text of a value on one line and its text over several lines both spell the
lexemes of the value. -/

namespace Inlay
namespace Json

inductive Lexeme where
  | openArray
  | closeArray
  | openObject
  | closeObject
  | comma
  | colon
  | null
  | bool (b : Bool)
  | number (n : Number)
  | quoted (s : String)

namespace Lexeme

def text : Lexeme → List Char
  | .openArray => ['[']
  | .closeArray => [']']
  | .openObject => ['\x7b']
  | .closeObject => ['\x7d']
  | .comma => [',']
  | .colon => [':']
  | .null => "null".toList
  | .bool b => (if b then "true" else "false").toList
  | .number n => n.render.toList
  | .quoted s => (quote s).toList

/-- Words and numbers, which end where something else begins. -/
def IsOpenEnded : Lexeme → Prop
  | .null => True
  | .bool _ => True
  | .number _ => True
  | _ => False

end Lexeme

/-! ## Lexemes of a value -/

mutual

def lexemes : Json → List Lexeme
  | .null => [.null]
  | .bool b => [.bool b]
  | .num n => [.number n]
  | .str s => [.quoted s]
  | .arr items => .openArray :: [.comma].intercalate (itemLexemes items) ++ [.closeArray]
  | .obj fields => .openObject :: [.comma].intercalate (fieldLexemes fields) ++ [.closeObject]

def itemLexemes : List Json → List (List Lexeme)
  | [] => []
  | j :: rest => lexemes j :: itemLexemes rest

def fieldLexemes : List (String × Json) → List (List Lexeme)
  | [] => []
  | (n, j) :: rest => (.quoted n :: .colon :: lexemes j) :: fieldLexemes rest

end

theorem itemLexemes_eq_map (items : List Json) : itemLexemes items = items.map lexemes := by
  induction items with
  | nil => rfl
  | cons j items ih => rw [itemLexemes, ih, List.map_cons]

theorem fieldLexemes_eq_map (fields : Fields) :
    fieldLexemes fields = fields.map fun f => .quoted f.1 :: .colon :: lexemes f.2 := by
  induction fields with
  | nil => rfl
  | cons f fields ih => rw [fieldLexemes, ih, List.map_cons]

/-! ## Texts that spell lexemes -/

def IsBlank (c : Char) : Prop := c = ' ' ∨ c = '\n'

/-- Nothing that follows can be taken for a part of a word or a number. -/
def Separates (cs : List Char) : Prop :=
  ∀ c ∈ cs.head?, c = ',' ∨ c = ']' ∨ c = '\x7d' ∨ IsBlank c

inductive Spells : List Lexeme → List Char → Prop
  | nil : Spells [] []
  | blank {ls : List Lexeme} {c : Char} {cs : List Char} (hc : IsBlank c) (h : Spells ls cs) :
      Spells ls (c :: cs)
  | lexeme {l : Lexeme} {ls : List Lexeme} {cs : List Char} (hl : l.IsOpenEnded → Separates cs)
      (h : Spells ls cs) : Spells (l :: ls) (l.text ++ cs)

theorem Spells.mem {ls : List Lexeme} {cs : List Char} (h : Spells ls cs) {l : Lexeme}
    (hl : l ∈ ls) {c : Char} (hc : c ∈ l.text) : c ∈ cs := by
  induction h with
  | nil => cases hl
  | blank _ _ ih => exact List.mem_cons_of_mem _ (ih hl)
  | lexeme _ _ ih =>
    rcases List.mem_cons.1 hl with rfl | hl
    · exact List.mem_append_left _ hc
    · exact List.mem_append_right _ (ih hl)

/-- The text spells the lexemes wherever it stands in front of a separator. -/
def Spelling (part : List Lexeme) (text : List Char) : Prop :=
  ∀ (ls : List Lexeme) (cs : List Char), Separates cs → Spells ls cs →
    Spells (part ++ ls) (text ++ cs)

theorem spelling_lexeme (l : Lexeme) : Spelling [l] l.text := by
  intro ls cs hcs hspells
  exact .lexeme (fun _ => hcs) hspells

theorem spelling_nil : Spelling [] [] := by
  intro ls cs _ hspells
  exact hspells

namespace Spelling

variable {part : List Lexeme} {text : List Char}

theorem spells (h : Spelling part text) : Spells part text := by
  have hall := h [] [] (by simp [Separates]) .nil
  rwa [List.append_nil, List.append_nil] at hall

theorem cons (h : Spelling part text) (l : Lexeme) (hl : ¬ l.IsOpenEnded) :
    Spelling (l :: part) (l.text ++ text) := by
  intro ls cs hcs hspells
  rw [List.cons_append, List.append_assoc]
  exact .lexeme (fun hopen => absurd hopen hl) (h ls cs hcs hspells)

theorem blanks (h : Spelling part text) {bs : List Char} (hbs : ∀ c ∈ bs, IsBlank c) :
    Spelling part (bs ++ text) := by
  intro ls cs hcs hspells
  induction bs with
  | nil => exact h ls cs hcs hspells
  | cons b bs ih =>
    obtain ⟨hb, hbs⟩ := List.forall_mem_cons.1 hbs
    exact .blank hb (ih hbs)

theorem append {other : List Lexeme} {more : List Char} (h : Spelling part text)
    (h' : Spelling other more) (hmore : Separates more) (hne : more ≠ []) :
    Spelling (part ++ other) (text ++ more) := by
  intro ls cs hcs hspells
  rw [List.append_assoc, List.append_assoc]
  refine h _ _ ?_ (h' ls cs hcs hspells)
  obtain ⟨c, rest, rfl⟩ := List.exists_cons_of_ne_nil hne
  exact hmore

end Spelling

/-- Parts with a comma and blanks between them. -/
theorem spelling_intercalate {bs : List Char} (hbs : ∀ c ∈ bs, IsBlank c)
    {parts : List (List Lexeme)} {texts : List (List Char)}
    (h : List.Forall₂ Spelling parts texts) :
    Spelling ([.comma].intercalate parts) ((',' :: bs).intercalate texts) := by
  induction h with
  | nil => exact spelling_nil
  | cons hpart hparts ih =>
    cases hparts with
    | nil => simpa using hpart
    | cons hnext hrest =>
      rw [List.intercalate_cons_cons, List.intercalate_cons_cons, List.append_assoc,
        List.append_assoc]
      refine hpart.append ?_ (by simp [Separates]) (by simp)
      exact (ih.blanks hbs).cons .comma id

theorem spelling_bracket {opening closing : Lexeme} (hopening : ¬ opening.IsOpenEnded)
    (hclosing : closing.text = [']'] ∨ closing.text = ['\x7d']) {part : List Lexeme}
    {text left right : List Char} (h : Spelling part text) (hleft : ∀ c ∈ left, IsBlank c)
    (hright : ∀ c ∈ right, IsBlank c) :
    Spelling (opening :: part ++ [closing])
      (opening.text ++ left ++ text ++ right ++ closing.text) := by
  have hend : Spelling [closing] (right ++ closing.text) := (spelling_lexeme closing).blanks hright
  have hseparates : Separates (right ++ closing.text) := by
    cases right with
    | nil => rcases hclosing with hc | hc <;> simp [Separates, hc]
    | cons c right =>
      intro b hb
      cases hb
      exact Or.inr (Or.inr (Or.inr (hright c (by simp))))
  have hne : right ++ closing.text ≠ [] := by
    rcases hclosing with hc | hc <;> simp [hc]
  have hall := ((h.append hend hseparates hne).blanks hleft).cons opening hopening
  simpa only [List.append_assoc, List.cons_append] using hall

/-! ## One line -/

theorem compactItems_eq_map (items : List Json) : compactItems items = items.map compact := by
  induction items with
  | nil => rfl
  | cons j items ih => rw [compactItems, ih, List.map_cons]

theorem compactFields_eq_map (fields : Fields) :
    compactFields fields = fields.map fun f => quote f.1 ++ ":" ++ compact f.2 := by
  induction fields with
  | nil => rfl
  | cons f fields ih => rw [compactFields, ih, List.map_cons]

theorem forall₂_spelling {α : Type} {xs : List α} {part : α → List Lexeme} {text : α → String}
    (h : ∀ x ∈ xs, Spelling (part x) (text x).toList) :
    List.Forall₂ Spelling (xs.map part) ((xs.map text).map String.toList) := by
  rw [List.map_map, List.forall₂_map_left_iff, List.forall₂_map_right_iff, List.forall₂_same]
  exact h

theorem spelling_field {name : String} {j : Json} {text bs : List Char}
    (hbs : ∀ c ∈ bs, IsBlank c) (h : Spelling (lexemes j) text) :
    Spelling (.quoted name :: .colon :: lexemes j) ((quote name).toList ++ ':' :: bs ++ text) := by
  have hall := ((h.blanks hbs).cons .colon id).cons (.quoted name) id
  rw [List.append_assoc]
  exact hall

/-- The text of a value on one line spells its lexemes. -/
theorem spelling_compact (j : Json) : Spelling j.lexemes j.compact.toList := by
  induction j using value_induction with
  | null => exact spelling_lexeme .null
  | bool b => exact spelling_lexeme (.bool b)
  | num n => exact spelling_lexeme (.number n)
  | str s => exact spelling_lexeme (.quoted s)
  | arr items ih =>
    have hitems := spelling_intercalate (by simp : ∀ c ∈ [], IsBlank c) (forall₂_spelling ih)
    have hall := @spelling_bracket .openArray .closeArray id (Or.inl rfl) _ _ [] [] hitems
      (by simp) (by simp)
    rw [lexemes, itemLexemes_eq_map, compact, compactItems_eq_map, String.toList_append,
      String.toList_append, String.toList_intercalate]
    simpa [Lexeme.text] using hall
  | obj fields ih =>
    have hfields := spelling_intercalate (by simp : ∀ c ∈ [], IsBlank c)
      (@forall₂_spelling _ fields (fun f => .quoted f.1 :: .colon :: lexemes f.2)
        (fun f => quote f.1 ++ ":" ++ compact f.2) fun f hf => by
          simpa using spelling_field (by simp : ∀ c ∈ [], IsBlank c) (ih f hf))
    have hall := @spelling_bracket .openObject .closeObject id (Or.inr rfl) _ _ [] [] hfields
      (by simp) (by simp)
    rw [lexemes, fieldLexemes_eq_map, compact, compactFields_eq_map, String.toList_append,
      String.toList_append, String.toList_intercalate]
    simpa [Lexeme.text] using hall

/-! ## Several lines -/

theorem prettyItems_eq_map (depth : Nat) (items : List Json) :
    prettyItems depth items = items.map (prettyAt depth) := by
  induction items with
  | nil => rfl
  | cons j items ih => rw [prettyItems, ih, List.map_cons]

theorem prettyFields_eq_map (depth : Nat) (fields : Fields) :
    prettyFields depth fields = fields.map fun f => quote f.1 ++ ": " ++ prettyAt depth f.2 := by
  induction fields with
  | nil => rfl
  | cons f fields ih => rw [prettyFields, ih, List.map_cons]

theorem isBlank_of_mem_indentation {depth : Nat} {c : Char} (h : c ∈ (indentation depth).toList) :
    IsBlank c := by
  rw [indentation, String.toList_ofList] at h
  exact Or.inl (List.eq_of_mem_replicate h)

theorem spelling_lines {opening closing : Lexeme} (hopening : ¬ opening.IsOpenEnded)
    (hclosing : closing.text = [']'] ∨ closing.text = ['\x7d']) {left right : String}
    (hleft : left.toList = opening.text) (hright : right.toList = closing.text) (depth : Nat)
    {parts : List (List Lexeme)} {texts : List String}
    (h : List.Forall₂ Spelling parts (texts.map String.toList)) :
    Spelling (opening :: [.comma].intercalate parts ++ [closing])
      (bracket left right depth texts).toList := by
  cases texts with
  | nil =>
    cases h
    have hall := @spelling_bracket opening closing hopening hclosing _ _ [] [] spelling_nil
      (by simp) (by simp)
    simpa [bracket, hleft, hright] using hall
  | cons text texts =>
    have hindented : List.Forall₂ Spelling parts
        (((text :: texts).map (indentation (depth + 1) ++ ·)).map String.toList) := by
      rw [List.forall₂_map_right_iff] at h
      rw [List.map_map, List.forall₂_map_right_iff]
      refine h.imp fun part text hpart => ?_
      rw [Function.comp_apply, String.toList_append]
      exact hpart.blanks fun c hc => isBlank_of_mem_indentation hc
    have hlines := spelling_intercalate (by simp [IsBlank] : ∀ c ∈ ['\n'], IsBlank c) hindented
    have hbreak : ∀ c ∈ "\n".toList ++ (indentation depth).toList, IsBlank c := by
      refine List.forall_mem_append.2 ⟨by simp [IsBlank], fun c hc => ?_⟩
      exact isBlank_of_mem_indentation hc
    have hall := @spelling_bracket opening closing hopening hclosing _ _ "\n".toList _ hlines
      (by simp [IsBlank]) hbreak
    rw [← List.append_assoc] at hall
    simp only [bracket, String.toList_append, String.toList_intercalate, hleft, hright]
    exact hall

/-- The text of a value over several lines spells its lexemes. -/
theorem spelling_prettyAt (j : Json) (depth : Nat) :
    Spelling j.lexemes (j.prettyAt depth).toList := by
  induction j using value_induction generalizing depth with
  | null => exact spelling_lexeme .null
  | bool b => exact spelling_lexeme (.bool b)
  | num n => exact spelling_lexeme (.number n)
  | str s => exact spelling_lexeme (.quoted s)
  | arr items ih =>
    rw [lexemes, itemLexemes_eq_map, prettyAt, prettyItems_eq_map]
    exact spelling_lines id (Or.inl rfl) rfl rfl depth
      (forall₂_spelling fun j hj => ih j hj (depth + 1))
  | obj fields ih =>
    rw [lexemes, fieldLexemes_eq_map, prettyAt, prettyFields_eq_map]
    refine spelling_lines id (Or.inr rfl) rfl rfl depth (forall₂_spelling fun f hf => ?_)
    simpa using spelling_field (by simp [IsBlank] : ∀ c ∈ [' '], IsBlank c) (ih f hf (depth + 1))

end Json
end Inlay
