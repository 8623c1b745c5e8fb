/-
  What a look at the next tokens tells.

  The parser chooses between the ways to go on by the next token, sometimes also by the one behind
  it and, at the top of a program, by the tokens up to the one behind the name that is declared.  A
  choice is right because the alternatives begin with different words (`Derives.opens`), and because
  what stands behind the name tells a function from a variable (`itemProduction_of_reads`).
-/
import MiniC.Proofs.Spelling

namespace MiniC

namespace TokenKind

/-- The kinds of token that a primary can begin with. -/
def startsPrimary : TokenKind → Bool
  | intLiteral | charLiteral | stringLiteral | identifier | keyword .null | punct .lparen => true
  | _ => false

/-- The kinds of token that an expression can begin with. -/
def startsExpr : TokenKind → Bool
  | punct .minus | punct .bang | punct .star | punct .amp | keyword .sizeof => true
  | kind => kind.startsPrimary

theorem startsExpr_of_startsPrimary {k : TokenKind} (h : k.startsPrimary) : k.startsExpr := by
  unfold startsPrimary at h
  split at h <;> first | rfl | cases h

/-- No expression begins with a type. -/
theorem startsType_of_startsExpr {k : TokenKind} (h : k.startsExpr) : k.startsType = false := by
  cases k with
  | keyword k => cases k <;> first | rfl | cases h
  | _ => rfl

end TokenKind

theorem Lexeme.startsPrimary_of_literal? {l : Lexeme} {shape : Shape}
    (h : l.literal? = some shape) : l.kind.startsPrimary := by
  unfold literal? at h
  split at h <;> first | rfl | cases h

/-- The kinds of token that a construct can begin with; of a statement it is enough to know which it
cannot begin with. -/
@[simp] def Category.Begins : Category → TokenKind → Prop
  | expr .suffix, k | expr .primary, k => k.startsPrimary
  | expr _, k => k.startsExpr
  | initializer, k | block, k => k = .punct .lbrace
  | declarator, k => k = .punct .star ∨ k = .identifier
  | declaration, k | parameter, k | item, k => k.startsType
  | statement _, k => k ≠ .punct .rbrace ∧ k ≠ .keyword .else_
  | program, _ => True

/-- The words begin with one that the construct can begin with; an expression stands behind a
parenthesis that opens them. -/
def Category.Opens (s : Category) (ls : List Lexeme) : Prop :=
  ∃ l ms, ls = l :: ms ∧ s.Begins l.kind ∧
    (l = .mark .lparen → ∃ m ns, ms = m :: ns ∧ m.kind.startsExpr)

namespace Category.Opens
variable {s : Category} {ls : List Lexeme}

theorem append (h : s.Opens ls) (ms : List Lexeme) : s.Opens (ls ++ ms) := by
  obtain ⟨l, ls, rfl, hb, hp⟩ := h
  refine ⟨l, ls ++ ms, rfl, hb, fun hl => ?_⟩
  obtain ⟨m, ns, rfl, hm⟩ := hp hl
  exact ⟨m, ns ++ ms, rfl, hm⟩

theorem mono {r : Category} (h : s.Opens ls) (hr : ∀ k, s.Begins k → r.Begins k) : r.Opens ls := by
  obtain ⟨l, ls, rfl, hb, hp⟩ := h
  exact ⟨l, ls, rfl, hr _ hb, hp⟩

/-- A word that is no parenthesis. -/
theorem of_cons {l : Lexeme} (hb : s.Begins l.kind) (hl : l ≠ .mark .lparen) : s.Opens (l :: ls) :=
  ⟨l, ls, rfl, hb, fun h => absurd h hl⟩

theorem of_base {b : Base} (h : ∀ k : Keyword, k.startsType → s.Begins (.keyword k)) :
    s.Opens (b.lexemes ++ ls) := by
  cases b <;> exact of_cons (h _ rfl) (by simp)

theorem of_stars {k : Nat} {x : String} (h : s.Begins (.punct .star)) (h' : s.Begins .identifier) :
    s.Opens (Lexeme.stars k ++ .name x :: ls) := by
  cases k with
  | zero => exact of_cons h' (by simp)
  | succ k => exact of_cons (l := .mark .star) h (by simp)

end Category.Opens

/-- Every precedence lets its expressions begin with what tighter ones begin with. -/
theorem Category.begins_loosen {ℓ : Precedence} {k : TokenKind}
    (h : (Category.expr ℓ.tighter).Begins k) : (Category.expr ℓ).Begins k := by
  cases ℓ with
  | unary => exact TokenKind.startsExpr_of_startsPrimary h
  | _ => exact h

/-- What is known of the first words of a phrase. -/
def Phrase.Opens : Phrase → List Lexeme → Prop
  | one s _, ls | listed s _, ls => s ≠ .program → s.Opens ls
  | _, _ => True

/-- A statement can begin with what a declaration or an expression begins with. -/
theorem Category.begins_statement {d : Bool} {k : TokenKind} (h : k.startsType ∨ k.startsExpr) :
    (Category.statement d).Begins k := by
  constructor <;> rintro rfl <;> rcases h with h | h <;> cases h

/-- **A construct begins with a word of its own.** -/
theorem Derives.opens {x : Phrase} {ls : List Lexeme} (h : Derives x ls) : x.Opens ls := by
  induction h with
  | loosen _ ih => exact fun _ => (ih (by simp)).mono fun _ => Category.begins_loosen
  | group _ ih =>
    obtain ⟨l, ms, rfl, hb, -⟩ := ih (by simp)
    exact fun _ => ⟨_, _, rfl, rfl, fun _ => ⟨l, _, rfl, hb⟩⟩
  | assign _ _ ih _ | assignValues _ _ ih _ =>
    exact fun _ => ((ih (by simp)).append _).mono fun _ h => h
  | binary _ _ ih _ | index _ _ ih _ => exact fun _ => (ih (by simp)).append _
  | member _ _ ih | pointerMember _ _ ih => exact fun _ => (ih (by simp)).append _
  | @unary op => exact fun _ => .of_cons (by cases op <;> rfl) (by cases op <;> simp [UnaryOp.mark])
  | deref | addressOf | sizeofExpr | sizeofType | call | identifier | initializer | block
  | structDef => exact fun _ => .of_cons rfl (by simp)
  | literal h =>
    refine fun _ => .of_cons (Lexeme.startsPrimary_of_literal? h) ?_
    rintro rfl
    cases h
  | scalar | unsized | sized => exact fun _ => .of_stars (.inl rfl) (.inr rfl)
  | declaration | parameter | functionDef => exact fun _ => .of_base fun _ h => h
  | blockStatement _ ih =>
    refine fun _ => (ih (by simp)).mono ?_
    rintro _ rfl
    exact ⟨by simp, by simp⟩
  | declared _ ih =>
    exact fun _ => (ih (by simp)).mono fun _ h => Category.begins_statement (.inl h)
  | ifThen | ifElse | whileLoop | doWhile | forLoop | returns | breaks | continues | empty =>
    exact fun _ => .of_cons (by simp [Lexeme.kind]) (by simp)
  | exprStatement _ ih =>
    exact fun _ => ((ih (by simp)).append _).mono fun _ h => Category.begins_statement (.inr h)
  | global _ ih => exact fun _ => (ih (by simp)).mono fun _ h => h
  | program => exact fun h => absurd rfl h
  | last _ ih => exact ih
  | more _ _ ih _ => exact fun h => (ih h).append _
  | absent | present | noValues | someValues | noParameters | voidParameters | someParameters | nil
  | cons => trivial

/-- Only a program can have no words. -/
theorem Derives.ne_nil {s : Category} {n : Node} {ls : List Lexeme} (h : Derives (.one s n) ls)
    (hs : s ≠ .program) : ls ≠ [] := by
  obtain ⟨l, ms, rfl, -⟩ := h.opens hs
  exact List.cons_ne_nil l ms

/-! ## Declared names -/

theorem Base.lexemes_length_pos (b : Base) : 0 < b.lexemes.length := by
  cases b <;> simp [lexemes]

/-- A declarator is stars and a name, with brackets behind them for an array. -/
theorem Derives.declarator {n : Node} {ls : List Lexeme} (h : Derives (.one .declarator n) ls) :
    ∃ k x ms, ls = Lexeme.stars k ++ .name x :: ms ∧
      (ms = [] ∨ ∃ ns, ms = .mark .lbracket :: ns) := by
  cases h with
  | scalar k x => exact ⟨k, x, [], rfl, .inl rfl⟩
  | unsized k x => exact ⟨k, x, _, rfl, .inr ⟨_, rfl⟩⟩
  | sized k x => exact ⟨k, x, _, rfl, .inr ⟨_, rfl⟩⟩

/-- A name in a declaration does not stand in front of a parenthesis. -/
theorem Derives.declaration_name {n : Node} {ls : List Lexeme}
    (h : Derives (.one .declaration n) ls) : ∃ b k x l ms,
      ls = Base.lexemes b ++ (Lexeme.stars k ++ .name x :: l :: ms) ∧ l.kind ≠ .punct .lparen := by
  cases h with
  | declaration b h =>
    cases h with
    | last h =>
      obtain ⟨k, x, ms, rfl, rfl | ⟨ns, rfl⟩⟩ := h.declarator
      · exact ⟨b, k, x, .mark .semicolon, [], by simp, by simp [Lexeme.kind]⟩
      · exact ⟨b, k, x, .mark .lbracket, ns ++ [.mark .semicolon], by simp, by simp [Lexeme.kind]⟩
    | @more _ _ _ _ rs h _ =>
      obtain ⟨k, x, ms, rfl, rfl | ⟨ns, rfl⟩⟩ := h.declarator
      · exact ⟨b, k, x, .mark .comma, rs ++ [.mark .semicolon], by simp, by simp [Lexeme.kind]⟩
      · exact ⟨b, k, x, .mark .lbracket, ns ++ .mark .comma :: (rs ++ [.mark .semicolon]), by simp,
          by simp [Lexeme.kind]⟩

/-- A parameter is more than its type. -/
theorem Derives.parameters_type {ns : List Node} {ls : List Lexeme}
    (h : Derives (.listed .parameter ns) ls) :
    ∃ b l ms, ls = Base.lexemes b ++ l :: ms ∧ l.kind ≠ .punct .rparen := by
  have one : ∀ {n ls}, Derives (.one .parameter n) ls →
      ∃ b l ms, ls = Base.lexemes b ++ l :: ms ∧ l.kind ≠ .punct .rparen := by
    intro n ls h
    cases h with
    | parameter b h =>
      obtain ⟨l, ms, rfl, hb, -⟩ := h.opens (by simp)
      refine ⟨b, l, ms, rfl, ?_⟩
      rcases hb with hb | hb <;> simp [hb]
  cases h with
  | last h => exact one h
  | more h _ =>
    obtain ⟨b, l, ms, rfl, hl⟩ := one h
    exact ⟨b, l, _, List.append_assoc .., hl⟩

/-! ## Items of a program -/

namespace Cursor.Reads
variable {c d : Cursor} {l : Lexeme} {ls : List Lexeme}

theorem later (h : c.Reads (l :: ls) d) : c.later = c.advance.here :: c.advance.later := by
  cases h with
  | cons ht h => rw [advance_cons (by simp [Token.kind_of_lexeme? ht])]

/-- Behind a base type. -/
theorem base {b : Base} (h : c.Reads (b.lexemes ++ ls) d) :
    ∃ e : Cursor, (c.here :: c.later).drop (if c.kind = .keyword .struct then 2 else 1) =
      e.here :: e.later ∧ e.Reads ls d := by
  cases b with
  | struct x =>
    have h' : c.advance.Reads (.name x :: ls) d := h.advance
    have hk : c.kind = .keyword .struct := h.kind
    refine ⟨c.advance.advance, ?_, h'.advance⟩
    rw [if_pos hk, h.later, h'.later]
    rfl
  | _ =>
    refine ⟨c.advance, ?_, h.advance⟩
    rw [if_neg (by simp [h.kind, Lexeme.kind]), h.later]
    rfl

theorem dropWhile_stars {k : Nat} (h : c.Reads (Lexeme.stars k ++ l :: ls) d)
    (hl : l.kind ≠ .punct .star) :
    ∃ e : Cursor, (c.here :: c.later).dropWhile (fun t => t.kind = .punct .star) =
      e.here :: e.later ∧ e.Reads (l :: ls) d := by
  induction k generalizing c with
  | zero =>
    have hk : c.here.kind ≠ .punct .star := by rw [show c.here.kind = l.kind from h.kind]; exact hl
    exact ⟨c, List.dropWhile_cons_of_neg (by simpa using hk), h⟩
  | succ k ih =>
    have hk : c.here.kind = .punct .star := Reads.kind (l := .mark .star) h
    obtain ⟨e, he, hr⟩ := ih (advance (l := .mark .star) h)
    refine ⟨e, ?_, hr⟩
    rw [List.dropWhile_cons_of_pos (by simpa using hk), later (l := .mark .star) h, he]

end Cursor.Reads

namespace Rule
variable {c d : Cursor} {b : Base} {k : Nat} {x : String} {l : Lexeme} {ls : List Lexeme}

/-- A type in front of stars and a name does not begin the definition of a structure. -/
theorem startsStruct_of_reads (h : c.Reads (b.lexemes ++ (Lexeme.stars k ++ .name x :: ls)) d) :
    startsStruct c = false := by
  cases b with
  | struct y =>
    have h' : c.advance.Reads (.name y :: (Lexeme.stars k ++ .name x :: ls)) d := h.advance
    have hk : c.kindAhead 2 ≠ .punct .lbrace := by
      rw [h.kindAhead, h'.kindAhead, Cursor.kindAhead_zero]
      have h'' := h'.advance
      cases k with
      | zero => rw [h''.kind]; simp [Lexeme.kind]
      | succ k => rw [Cursor.Reads.kind (l := .mark .star) h'']; simp [Lexeme.kind]
    simp [startsStruct, hk]
  | _ => simp [startsStruct, h.kind, Lexeme.kind]

/-- The token behind the name tells the definition of a function. -/
theorem startsFunction_of_reads
    (h : c.Reads (b.lexemes ++ (Lexeme.stars k ++ .name x :: l :: ls)) d) :
    startsFunction c = decide (l.kind = .punct .lparen) := by
  obtain ⟨e, he, h⟩ := h.base
  obtain ⟨f, hf, h⟩ := h.dropWhile_stars (by simp [Lexeme.kind])
  have hn : f.here.kind = .identifier := h.kind
  have hp : f.advance.here.kind = l.kind := h.advance.kind
  simp [startsFunction, he, hf, h.later, hn, hp]

/-- The production that reads an item is the one that the item belongs to. -/
theorem itemProduction_of_reads
    (h : c.Reads (b.lexemes ++ (Lexeme.stars k ++ .name x :: l :: ls)) d) :
    itemProduction c = if l.kind = .punct .lparen then .functionDef else .varDec := by
  simp [itemProduction, startsStruct_of_reads h, startsFunction_of_reads h]

theorem itemProduction_of_structDef
    (h : c.Reads (.keyword .struct :: .name x :: .mark .lbrace :: ls) d) :
    itemProduction c = .structDef := by
  have ha : c.kindAhead 1 = .identifier := by
    rw [h.kindAhead, Cursor.kindAhead_zero, h.advance.name]
  have hb : c.kindAhead 2 = .punct .lbrace := by
    rw [h.kindAhead, h.advance.kindAhead, Cursor.kindAhead_zero, h.advance.advance.mark]
  rw [itemProduction, if_pos]
  simp [startsStruct, h.keyword, ha, hb]

end Rule

end MiniC
