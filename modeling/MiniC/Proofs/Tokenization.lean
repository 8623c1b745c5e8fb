/-
  Words as they are spelled, and reading what was written.

  `Lexeme.Spelled` says which characters spell a word.  Names, numbers, keywords and marks have one
  spelling each; a literal has many, since a character of it may stand for itself or be escaped
  (`Denotes`).  `Lexeme.written` is the spelling that escapes all characters that have an escape, and
  `Lexeme.writtenAll` writes words with a space between each two.

  * `Reader.step_spelled`: in front of the spelling of a word, with a blank or nothing behind it, a
    reader finds that word.
  * `tokenize_writtenAll`: the tokens of what was written are the words that were written.
-/
import Mathlib.Data.List.TakeDrop
import MiniC.Proofs.Reading

namespace MiniC

/-! ## Spellings -/

/-- The text that the characters between two quotes denote. -/
inductive Denotes : List Char → List Char → Prop
  | nil : Denotes [] []
  | plain {c : Char} {cs text : List Char} :
    c ≠ '"' → c ≠ '\\' → c ≠ '\n' → Denotes cs text → Denotes (c :: cs) (c :: text)
  | escape {e c : Char} {cs text : List Char} :
    unescape? e = some c → Denotes cs text → Denotes ('\\' :: e :: cs) (c :: text)

/-- The token of a word at a place. -/
def Lexeme.tokenAt (w : Lexeme) (l : Location) : Token := ⟨w.kind, w.content, l⟩

/-- The characters that spell a word. -/
inductive Lexeme.Spelled : Lexeme → List Char → Prop
  | number {digits : List Char} :
    digits ≠ [] → (∀ c ∈ digits, c.isDigit) → Decimal.value digits ≤ 2147483647 →
      (number (String.ofList digits)).Spelled digits
  | character {c : Char} : c ≠ '\\' → (character (String.ofList [c])).Spelled ['\'', c, '\'']
  | escaped {e c : Char} :
    unescape? e = some c → (character (String.ofList [c])).Spelled ['\'', '\\', e, '\'']
  | string {cs text : List Char} :
    Denotes cs text → (string (String.ofList text)).Spelled ('"' :: (cs ++ ['"']))
  | name {c : Char} {cs : List Char} :
    isIdentStart c → (∀ d ∈ cs, isIdentRest d) → Keyword.ofText? (String.ofList (c :: cs)) = none →
      (name (String.ofList (c :: cs))).Spelled (c :: cs)
  | keyword (k : Keyword) : (keyword k).Spelled k.text.toList
  | mark (p : Punct) : (mark p).Spelled p.text.toList

/-! ## Writing -/

/-- A character as it is written between quotes. -/
def escape : Char → List Char
  | '\n' => ['\\', 'n']
  | '\t' => ['\\', 't']
  | '\r' => ['\\', 'r']
  | '\\' => ['\\', '\\']
  | '"' => ['\\', '"']
  | '\'' => ['\\', '\'']
  | '\x00' => ['\\', '0']
  | c => [c]

namespace Lexeme

/-- A word as it is written. -/
def written : Lexeme → List Char
  | number text | name text => text.toList
  | character text => '\'' :: (text.toList.flatMap escape ++ ['\''])
  | string text => '"' :: (text.toList.flatMap escape ++ ['"'])
  | keyword k => k.text.toList
  | mark p => p.text.toList

/-- Words as they are written, with a space between each two. -/
def writtenAll (ws : List Lexeme) : String := String.ofList ([' '].intercalate (ws.map written))

/-- The words that a source can hold: a number is of digits and fits into a machine word, a character
literal denotes one character, and a name is no keyword. -/
def WellFormed : Lexeme → Prop
  | number text =>
    text ≠ "" ∧ (∀ c ∈ text.toList, c.isDigit) ∧ Decimal.value text.toList ≤ 2147483647
  | character text => text.length = 1
  | name text =>
    (∃ c cs, text.toList = c :: cs ∧ isIdentStart c ∧ ∀ d ∈ cs, isIdentRest d) ∧
      ∀ k : Keyword, k.text ≠ text
  | string _ | keyword _ | mark _ => True

end Lexeme

/-- What is written between quotes denotes the text. -/
theorem denotes_escape (text : List Char) : Denotes (text.flatMap escape) text := by
  induction text with
  | nil => exact .nil
  | cons c cs ih =>
    rw [List.flatMap_cons]
    unfold escape
    split
    case h_8 _ hn _ _ hb hq _ _ => exact .plain hq hb hn ih
    all_goals exact .escape rfl ih

theorem Keyword.ofText?_eq_none {text : String} (h : ∀ k : Keyword, k.text ≠ text) :
    ofText? text = none := by
  rw [ofText?, List.find?_eq_none]
  intro k _
  simpa using h k

theorem Keyword.ofText?_text (k : Keyword) : ofText? k.text = some k := by
  cases k <;> rfl

/-- A word is written as it can be spelled. -/
theorem Lexeme.WellFormed.spelled {w : Lexeme} (h : w.WellFormed) : w.Spelled w.written := by
  cases w with
  | number text =>
    have hs : (number (String.ofList text.toList)).Spelled text.toList :=
      .number (by simpa using h.1) h.2.1 h.2.2
    rwa [String.ofList_toList] at hs
  | character text =>
    obtain ⟨c, hc⟩ := List.length_eq_one_iff.1 ((String.length_toList).trans h)
    obtain rfl : text = String.ofList [c] := by rw [← hc, String.ofList_toList]
    simp only [written, String.toList_ofList, List.flatMap_singleton]
    unfold escape
    split
    case h_8 _ _ _ _ hb _ _ _ => exact .character hb
    all_goals exact .escaped rfl
  | string text =>
    have hs := Spelled.string (denotes_escape text.toList)
    rwa [String.ofList_toList] at hs
  | name text =>
    obtain ⟨⟨c, cs, hc, hstart, hrest⟩, hk⟩ := h
    obtain rfl : text = String.ofList (c :: cs) := by rw [← hc, String.ofList_toList]
    simpa only [written, String.toList_ofList] using
      Spelled.name hstart hrest (Keyword.ofText?_eq_none hk)
  | keyword k => exact .keyword k
  | mark p => exact .mark p

/-! ## Reading a spelling -/

/-- What no word can go on with: nothing, or a text that begins with a blank. -/
def Detached (rest : List Char) : Prop := ∀ c ∈ rest.head?, isBlank c

theorem eq_of_isBlank {c : Char} (h : isBlank c) : c = ' ' ∨ c = '\t' ∨ c = '\r' ∨ c = '\n' := by
  simpa [isBlank, or_assoc] using h

theorem isIdentRest_of_isBlank {c : Char} (h : isBlank c) : isIdentRest c = false := by
  rcases eq_of_isBlank h with rfl | rfl | rfl | rfl <;> rfl

theorem isIdentRest_of_isDigit {c : Char} (h : c.isDigit) : isIdentRest c := by
  simp [isIdentRest, Char.isAlphanum, h]

theorem isIdentRest_of_isIdentStart {c : Char} (h : isIdentStart c) : isIdentRest c := by
  simp only [isIdentStart, isIdentRest, Char.isAlphanum, Bool.or_eq_true, decide_eq_true_eq] at h ⊢
  rcases h with h | h
  · exact .inl (.inl h)
  · exact .inr h

theorem isDigit_of_isIdentStart {c : Char} (h : isIdentStart c) : c.isDigit = false := by
  rw [Bool.eq_false_iff]
  intro hd
  have hle : c.toNat ≤ 57 := UInt32.le_iff_toNat_le.1 (of_decide_eq_true (Bool.and_eq_true_iff.1 hd).2)
  have letter (ha : c.isAlpha) : 65 ≤ c.toNat := by
    rcases Bool.or_eq_true_iff.1 ha with hu | hl
    · exact UInt32.le_iff_toNat_le.1 (of_decide_eq_true hu).1
    · have hz : 97 ≤ c.toNat :=
        UInt32.le_iff_toNat_le.1 (of_decide_eq_true (Bool.and_eq_true_iff.1 hl).1)
      omega
  rcases Bool.or_eq_true_iff.1 h with ha | hu
  · have hge := letter ha
    omega
  · rw [of_decide_eq_true hu] at hle
    exact absurd hle (by decide)

theorem isDigit_of_isBlank {c : Char} (h : isBlank c) : c.isDigit = false := by
  rcases eq_of_isBlank h with rfl | rfl | rfl | rfl <;> rfl

/-- Digits spell a word of the machine if their value is not too large for one. -/
theorem Word.ofText?_isSome {digits : List Char} (hne : digits ≠ [])
    (hd : ∀ c ∈ digits, c.isDigit) :
    (Word.ofText? (String.ofList digits)).isSome ↔ Decimal.value digits ≤ 2147483647 := by
  have sign {c : Char} (hc : c.isDigit = false) (ds : List Char) : digits ≠ c :: ds := by
    rintro rfl
    simpa [hc] using hd c List.mem_cons_self
  have hvalue : Decimal.ofChars? digits = some (Decimal.value digits) := by
    rw [Decimal.ofChars?.eq_def]
    split
    · exact absurd rfl (sign rfl _)
    · rw [Decimal.ofDigits?, if_neg (by simpa [hne] using hd)]
  rw [Word.ofText?, String.toList_ofList]
  split
  · exact absurd rfl (sign rfl _)
  · rw [hvalue, Option.bind_some, Word.ofInt?]
    split
    · simp only [Option.isSome_some, true_iff]
      omega
    · simp only [Option.isSome_none, Bool.false_eq_true, false_iff]
      omega

theorem Keyword.text_eq_cons (k : Keyword) :
    ∃ c cs, k.text.toList = c :: cs ∧ isIdentStart c ∧ ∀ d ∈ cs, isIdentRest d := by
  cases k <;> exact ⟨_, _, rfl, rfl, List.all_eq_true.1 rfl⟩

namespace Punct

/-- How the spelling of a mark begins: like nothing but a mark. -/
theorem text_eq_cons (p : Punct) : ∃ c cs, p.text.toList = c :: cs ∧ isBlank c = false ∧ c ≠ '#' ∧
    c ≠ '"' ∧ c ≠ '\'' ∧ c.isDigit = false ∧ isIdentStart c = false ∧ (c = '/' → cs = []) := by
  cases p <;> exact ⟨_, _, rfl, by decide⟩

/-- A mark is recognized if a blank or nothing is behind it. -/
theorem punct?_eq_some {p : Punct} {c : Char} {cs : List Char} {next : Option Char}
    (hp : p.text.toList = c :: cs) (hn : ∀ d ∈ next, isBlank d) :
    punct? c (cs.head?.or next) = some p := by
  have other {d : Char} (hd : isBlank d = false) : next ≠ some d := by
    rintro rfl
    simpa [hd] using hn d rfl
  have eq : next ≠ some '=' := other rfl
  have gt : next ≠ some '>' := other rfl
  have amp : next ≠ some '&' := other rfl
  cases p <;> simp only [text, String.reduceToList, List.cons.injEq] at hp <;>
    obtain ⟨rfl, rfl⟩ := hp <;> simp [punct?, eq, gt, amp]

end Punct

namespace Reader
variable {c : Char} {cs rest text : List Char} {l opened : Location}

/-- What begins with neither a blank nor a `#` nor a comment begins with a token. -/
theorem step_eq_lexeme (hb : isBlank c = false) (hd : c ≠ '#')
    (hs : c = '/' → cs.head? ≠ some '/' ∧ cs.head? ≠ some '*') :
    step ⟨c :: cs, l⟩ = lexeme ⟨c :: cs, l⟩ c cs := by
  unfold step
  split
  case h_1 hn => cases hn
  case h_2 hc => cases hc; exact absurd rfl (hs rfl).1
  case h_3 hc => cases hc; exact absurd rfl (hs rfl).2
  case h_4 hc => cases hc; exact absurd rfl hd
  case h_5 hc => cases hc; rw [if_neg (by simp [hb])]

theorem span_of_detached {p : Char → Bool} (hp : ∀ c, isBlank c → p c = false)
    (hcs : ∀ c ∈ cs, p c) (hr : Detached rest) : (cs ++ rest).span p = (cs, rest) := by
  rw [List.span_eq_takeWhile_dropWhile, List.takeWhile_append_of_pos hcs,
    List.dropWhile_append_of_pos hcs]
  cases rest with
  | nil => simp
  | cons d ds => simp [hp d (hr d rfl)]

theorem scanString_of_denotes (h : Denotes cs text) (l : Location) :
    scanString opened l (cs ++ '"' :: rest) =
      .ok (text, ⟨rest, (l.advanceAll cs).advance '"'⟩) := by
  induction h generalizing l with
  | nil => simp [scanString]
  | plain hq hb hn _ ih => simp [scanString, hb, ih, Except.map]
  | escape he _ ih => simp [scanString, he, ih, Except.map]

/-- What begins with a letter, a digit or an underscore is a token and no literal in quotes. -/
theorem step_eq_lexeme_of_isIdentRest (hc : isIdentRest c) :
    step ⟨c :: cs, l⟩ = lexeme ⟨c :: cs, l⟩ c cs ∧ c ≠ '"' ∧ c ≠ '\'' := by
  have other {d : Char} (hd : isIdentRest d = false) : c ≠ d := by
    rintro rfl
    rw [hd] at hc
    cases hc
  refine ⟨step_eq_lexeme ?_ (other rfl) fun h => absurd h (other rfl), other rfl, other rfl⟩
  cases hb : isBlank c with
  | false => rfl
  | true => exact absurd (isIdentRest_of_isBlank hb) (by simp [hc])

theorem step_number (hc : c.isDigit) (hcs : ∀ d ∈ cs, d.isDigit)
    (hv : Decimal.value (c :: cs) ≤ 2147483647) (hr : Detached rest) :
    step ⟨c :: (cs ++ rest), l⟩ =
      .token ((Lexeme.number (String.ofList (c :: cs))).tokenAt l) ⟨rest, l.advanceAll (c :: cs)⟩ := by
  obtain ⟨hs, hq, ha⟩ := step_eq_lexeme_of_isIdentRest (isIdentRest_of_isDigit hc)
  have hspan : (cs ++ rest).span Char.isDigit = (cs, rest) :=
    span_of_detached (fun d hd => isDigit_of_isBlank hd) hcs hr
  obtain ⟨w, hw⟩ := Option.isSome_iff_exists.1
    ((Word.ofText?_isSome (List.cons_ne_nil c cs) (List.forall_mem_cons.2 ⟨hc, hcs⟩)).2 hv)
  rw [hs, lexeme, if_neg hq, if_neg ha, if_pos hc, hspan]
  simp only [hw]
  rfl

/-- A word of letters is the keyword that is spelled so, or else a name. -/
theorem step_word (hc : isIdentStart c) (hcs : ∀ d ∈ cs, isIdentRest d) (hr : Detached rest) :
    step ⟨c :: (cs ++ rest), l⟩ =
      .token ⟨match Keyword.ofText? (String.ofList (c :: cs)) with
          | some k => .keyword k
          | none => .identifier, String.ofList (c :: cs), l⟩ ⟨rest, l.advanceAll (c :: cs)⟩ := by
  obtain ⟨hs, hq, ha⟩ := step_eq_lexeme_of_isIdentRest (isIdentRest_of_isIdentStart hc)
  have hspan : (cs ++ rest).span isIdentRest = (cs, rest) :=
    span_of_detached (fun _ => isIdentRest_of_isBlank) hcs hr
  rw [hs, lexeme, if_neg hq, if_neg ha, if_neg (by simp [isDigit_of_isIdentStart hc]), if_pos hc,
    hspan]
  rfl

theorem step_mark (p : Punct) (hr : Detached rest) :
    step ⟨p.text.toList ++ rest, l⟩ =
      .token ((Lexeme.mark p).tokenAt l) ⟨rest, l.advanceAll p.text.toList⟩ := by
  obtain ⟨c, cs, htext, hb, hd, hq, ha, hn, hi, hslash⟩ := p.text_eq_cons
  have hp : punct? c (cs ++ rest).head? = some p := by
    rw [List.head?_append]
    exact Punct.punct?_eq_some htext fun d hd => hr d hd
  -- Behind a slash stands no second slash and no star, so it opens no comment.
  have alone : c = '/' → (cs ++ rest).head? ≠ some '/' ∧ (cs ++ rest).head? ≠ some '*' := by
    intro h
    rw [hslash h, List.nil_append]
    constructor
    · intro he
      cases hr _ he
    · intro he
      cases hr _ he
  have hdrop : (c :: (cs ++ rest)).drop (c :: cs).length = rest := by
    rw [← List.cons_append, List.drop_left]
  rw [htext, List.cons_append, step_eq_lexeme hb hd alone, lexeme, if_neg hq, if_neg ha,
    if_neg (by simp [hn]), if_neg (by simp [hi]), hp]
  simp only [emit, htext, hdrop]
  rfl

theorem step_string (h : Denotes cs text) :
    step ⟨'"' :: (cs ++ '"' :: rest), l⟩ =
      .token ((Lexeme.string (String.ofList text)).tokenAt l)
        ⟨rest, l.advanceAll ('"' :: (cs ++ ['"']))⟩ := by
  rw [step_eq_lexeme rfl (by decide) (by simp), lexeme, if_pos rfl, scanString_of_denotes h]
  simp only [emitScanned, Location.advanceAll_cons, Location.advanceAll_append,
    Location.advanceAll_nil]
  rfl

theorem step_character (hc : c ≠ '\\') :
    step ⟨'\'' :: c :: '\'' :: rest, l⟩ =
      .token ((Lexeme.character (String.ofList [c])).tokenAt l)
        ⟨rest, l.advanceAll ['\'', c, '\'']⟩ := by
  rw [step_eq_lexeme rfl (by decide) (by simp), lexeme, if_neg (by decide), if_pos rfl]
  simp [scanChar, hc, closeChar, emitScanned, Except.map]
  rfl

theorem step_escaped {e : Char} (he : unescape? e = some c) :
    step ⟨'\'' :: '\\' :: e :: '\'' :: rest, l⟩ =
      .token ((Lexeme.character (String.ofList [c])).tokenAt l)
        ⟨rest, l.advanceAll ['\'', '\\', e, '\'']⟩ := by
  rw [step_eq_lexeme rfl (by decide) (by simp), lexeme, if_neg (by decide), if_pos rfl]
  simp [scanChar, he, closeChar, emitScanned, Except.map]
  rfl

/-- **In front of a word that is spelled out a reader finds that word**, if a blank or nothing is
behind it. -/
theorem step_spelled {w : Lexeme} (h : w.Spelled cs) (hr : Detached rest) (l : Location) :
    step ⟨cs ++ rest, l⟩ = .token (w.tokenAt l) ⟨rest, l.advanceAll cs⟩ := by
  cases h with
  | number hne hd hv =>
    obtain ⟨c, cs, rfl⟩ := List.exists_cons_of_ne_nil hne
    rw [List.forall_mem_cons] at hd
    exact step_number hd.1 hd.2 hv hr
  | character hc => exact step_character hc
  | escaped he => exact step_escaped he
  | string hd =>
    rw [List.cons_append, List.append_assoc]
    exact step_string hd
  | name hc hcs hk =>
    rw [List.cons_append, step_word hc hcs hr, hk]
    rfl
  | keyword k =>
    obtain ⟨c, cs, htext, hc, hcs⟩ := k.text_eq_cons
    have hk : Keyword.ofText? (String.ofList (c :: cs)) = some k := by
      rw [← htext, String.ofList_toList, Keyword.ofText?_text]
    rw [htext, List.cons_append, step_word hc hcs hr, hk, ← htext, String.ofList_toList]
    rfl
  | mark p => exact step_mark p hr

/-- A word is spelled with at least one character. -/
theorem spelled_ne_nil {w : Lexeme} (h : w.Spelled cs) : cs ≠ [] := by
  cases h with
  | number hne _ _ => exact hne
  | keyword k =>
    obtain ⟨c, cs, htext, -⟩ := k.text_eq_cons
    simp [htext]
  | mark p =>
    obtain ⟨c, cs, htext, -⟩ := p.text_eq_cons
    simp [htext]
  | _ => exact List.cons_ne_nil _ _

/-! ## Reading what was written -/

/-- Words with a space in front of each. -/
def spaced (ws : List Lexeme) : List Char := ws.flatMap fun w => ' ' :: w.written

theorem detached_spaced (ws : List Lexeme) : Detached (spaced ws) := by
  intro c hc
  cases ws with
  | nil => cases hc
  | cons w ws =>
    cases hc
    rfl

theorem tokens_nil (fuel : Nat) (l : Location) :
    tokens fuel ⟨[], l⟩ = .ok [⟨.endOfFile, "", l⟩] := by
  cases fuel <;> rfl

/-- The tokens at `r` are words, and then the file is over. -/
def Finds (fuel : Nat) (r : Reader) (ws : List Lexeme) : Prop :=
  ∃ ts l, r.tokens fuel = .ok (ts ++ [⟨.endOfFile, "", l⟩]) ∧
    ts.map (fun t => (t.kind, t.content)) = ws.map fun w => (w.kind, w.content)

theorem Finds.cons {w : Lexeme} {ws : List Lexeme} {fuel : Nat} (hw : w.WellFormed)
    (hr : Detached rest) (h : Finds fuel ⟨rest, l.advanceAll w.written⟩ ws) :
    Finds (fuel + 1) ⟨w.written ++ rest, l⟩ (w :: ws) := by
  obtain ⟨ts, l', hts, hws⟩ := h
  refine ⟨w.tokenAt l :: ts, l', ?_, ?_⟩
  · rw [tokens, step_spelled hw.spelled hr]
    simp only [hts]
    rfl
  · rw [List.map_cons, List.map_cons, hws]
    rfl

/-- **Words with a space in front of each are found in turn**, if there are as many steps as
characters. -/
theorem finds_spaced {ws : List Lexeme} (h : ∀ w ∈ ws, w.WellFormed) {fuel : Nat}
    (hf : (spaced ws).length ≤ fuel) (l : Location) : Finds fuel ⟨spaced ws, l⟩ ws := by
  induction ws generalizing fuel l with
  | nil => exact ⟨[], l, tokens_nil fuel l, rfl⟩
  | cons w ws ih =>
    rw [List.forall_mem_cons] at h
    have he : spaced (w :: ws) = ' ' :: (w.written ++ spaced ws) := rfl
    have hpos := List.length_pos_iff.2 (spelled_ne_nil h.1.spelled)
    rw [he, List.length_cons, List.length_append] at hf
    obtain ⟨fuel, rfl⟩ := Nat.exists_eq_add_of_le' (show 2 ≤ fuel by omega)
    have found : Finds (fuel + 1) ⟨w.written ++ spaced ws, l.advance ' '⟩ (w :: ws) :=
      Finds.cons h.1 (detached_spaced ws) (ih h.2 (by omega) _)
    obtain ⟨ts, l', hts, hws⟩ := found
    exact ⟨ts, l', hts, hws⟩

end Reader

theorem Lexeme.intercalate_written (w : Lexeme) (ws : List Lexeme) :
    [' '].intercalate ((w :: ws).map written) = w.written ++ Reader.spaced ws := by
  induction ws generalizing w with
  | nil => simp [List.intercalate, Reader.spaced]
  | cons v ws ih =>
    rw [List.map_cons, List.map_cons, List.intercalate_cons_cons, ← List.map_cons, ih]
    simp [Reader.spaced]

/-- **Reading undoes writing.**  The tokens of words that were written with a space between each two
have the kinds and contents of those words, in order, and then the file is over. -/
theorem tokenize_writtenAll (ws : List Lexeme) (h : ∀ w ∈ ws, w.WellFormed) :
    ∃ ts l, tokenize (Lexeme.writtenAll ws) = .ok (ts ++ [⟨.endOfFile, "", l⟩]) ∧
      ts.map (fun t => (t.kind, t.content)) = ws.map fun w => (w.kind, w.content) := by
  have htext : (Lexeme.writtenAll ws).toList = [' '].intercalate (ws.map Lexeme.written) :=
    String.toList_ofList
  unfold tokenize Reader.ofString
  rw [htext]
  cases ws with
  | nil => exact ⟨[], .start, rfl, rfl⟩
  | cons w ws =>
    rw [List.forall_mem_cons] at h
    rw [Lexeme.intercalate_written]
    have hpos := List.length_pos_iff.2 (Reader.spelled_ne_nil h.1.spelled)
    obtain ⟨fuel, hfuel⟩ : ∃ fuel, (w.written ++ Reader.spaced ws).length = fuel + 1 :=
      Nat.exists_eq_succ_of_ne_zero (by rw [List.length_append]; omega)
    simp only [hfuel]
    refine Reader.Finds.cons h.1 (Reader.detached_spaced ws) (Reader.finds_spaced h.2 ?_ _)
    rw [List.length_append] at hfuel
    omega

/-- Escapes, what would open a comment or a directive outside of a literal, and characters of two bytes
or more. -/
theorem tokenize_writtenAll_literals :
    let ws : List Lexeme := [.keyword .char, .mark .star, .name "s1", .mark .assign,
      .string "/* \"#é\\\n\t\r\x00// 'λ'", .character "\'", .mark .slash, .mark .slash, .number "007"]
    (∀ w ∈ ws, w.WellFormed) ∧
      ∃ ts l, tokenize (Lexeme.writtenAll ws) = .ok (ts ++ [⟨.endOfFile, "", l⟩]) ∧
        ts.map (fun t => (t.kind, t.content)) = ws.map fun w => (w.kind, w.content) := by
  intro ws
  have h : ∀ w ∈ ws, w.WellFormed := by
    have name : (Lexeme.name "s1").WellFormed := by
      refine ⟨⟨'s', ['1'], rfl, rfl, List.all_eq_true.1 rfl⟩, ?_⟩
      rintro ⟨⟩ <;> decide
    have number : (Lexeme.number "007").WellFormed := ⟨by decide, List.all_eq_true.1 rfl, by decide⟩
    simp only [ws, List.forall_mem_cons]
    exact ⟨trivial, trivial, name, trivial, trivial, rfl, trivial, trivial, number, nofun⟩
  exact ⟨h, tokenize_writtenAll ws h⟩

example : Lexeme.writtenAll [.string "a\n//", .mark .slash, .character "'"] = "\"a\\n//\" / '\\''" := by
  decide

end MiniC
