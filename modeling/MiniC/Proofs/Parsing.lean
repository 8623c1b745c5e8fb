/-
  The parser accepts exactly the language and builds the trees that the syntax dictates.

  What is left for the acceptance of renderings are declarations, statements and programs, whose
  rules are read token by token; `Derives.accepted` then goes through all rules of the syntax.
  Together with `parseWithin_takes` it gives the main result, `parse_program_iff_renderedAs`: the
  parser returns a tree for the tokens of a source if and only if the tokens render the tree.
-/
import MiniC.Proofs.Acceptance

namespace MiniC

open Parse Node

/-! ## Declarations -/

namespace Category.Accepted
variable {n : Node} {ns : List Node} {ls : List Lexeme}

theorem scalar (k : Nat) (x : String) :
    declarator.Accepted (Shape.varItem k x).node (Lexeme.stars k ++ [.name x]) := by
  intro fuel c d hr hs room
  obtain ⟨fuel, rfl⟩ := room.succ
  obtain ⟨e, hk, he⟩ := stars_splits hr (by simp)
  refine makes_parts (s := .varItem k x) ?_ (by simp)
  show Rule.varItem _ c = _
  rw [Rule.varItem, bind_of_ok hk, bind_of_ok (name_of_reads he), he.advance.eq_of_nil,
    bind_of_ok (accept_of_kind_ne hs)]
  rfl

theorem unsized (k : Nat) (x : String) : declarator.Accepted (Shape.arrayItem k x none).node
    (Lexeme.stars k ++ [.name x, .mark .lbracket, .mark .rbracket]) := by
  intro fuel c d hr _ room
  obtain ⟨fuel, rfl⟩ := room.succ
  obtain ⟨e, hk, he⟩ := stars_splits hr (by simp)
  have he' := he.advance
  refine makes_parts (s := .arrayItem k x none) ?_ (by simp)
  show Rule.varItem _ c = _
  rw [Rule.varItem, bind_of_ok hk, bind_of_ok (name_of_reads he),
    bind_of_ok (accept_of_kind he'.mark), if_pos rfl, bind_of_ok (accept_of_kind he'.advance.mark),
    if_pos rfl, he'.advance.advance.eq_of_nil]
  rfl

theorem sized (k : Nat) (x : String) (h : Precedence.assignment.Accepted n ls)
    (ho : (Category.expr .assignment).Opens ls) : declarator.Accepted
      (Shape.arrayItem k x (some n)).node
      (Lexeme.stars k ++ .name x :: .mark .lbracket :: (ls ++ [.mark .rbracket])) := by
  intro fuel c d hr _ room
  obtain ⟨fuel, rfl⟩ := room.succ
  obtain ⟨e, hk, he⟩ := stars_splits hr (by simp)
  have he' := he.advance
  obtain ⟨m, f, hm, rfl, hf⟩ := expr_splits h he'.advance rfl
    (room.behind hr he'.advance (by simp; omega) (by decide))
  have hn : e.advance.advance.kind ≠ .punct .rbracket := by
    obtain ⟨l, ls, rfl, hl, -⟩ := ho
    rw [he'.advance.kind]
    intro hk
    rw [hk] at hl
    cases hl
  refine makes_parts (s := .arrayItem k x (some m)) ?_ (by simp)
  show Rule.varItem _ c = _
  rw [Rule.varItem, bind_of_ok hk, bind_of_ok (name_of_reads he),
    bind_of_ok (accept_of_kind he'.mark), if_pos rfl, bind_of_ok (accept_of_kind_ne hn),
    if_neg (by simp), bind_of_ok hm, mark_bind hf, hf.advance.eq_of_nil]
  rfl

theorem declaration (b : Base) (h : declarator.ListAccepted ns ls) :
    Category.declaration.Accepted (Shape.varDec b ns).node
      (b.lexemes ++ (ls ++ [.mark .semicolon])) := by
  intro fuel c d hr _ room
  obtain ⟨fuel, rfl⟩ := room.succ
  obtain ⟨e, hb, he⟩ := base_splits hr (room.below (Nat.lt_succ_self 0))
  obtain ⟨f, h₁, h₂⟩ := he.append
  have hbs := b.lexemes_length_pos
  obtain ⟨ms, hms, rfl⟩ := h.commaList h₁ nofun (by simp [h₂.mark]) (by simp [h₂.mark])
    (room.behind hr he (by simp; omega) (by decide))
  have hms : commaList (parseWithin .full fuel .varItem) e = .ok (ms, f) := hms
  refine makes_parts (s := .varDec b ms) ?_ (by simp)
  show Rule.varDec _ c = _
  rw [Rule.varDec, bind_of_ok hb, bind_of_ok hms, mark_bind h₂, h₂.advance.eq_of_nil]
  rfl

theorem parameter (b : Base) (h : declarator.Accepted n ls) :
    Category.parameter.Accepted (Shape.param b n).node (b.lexemes ++ ls) := by
  intro fuel c d hr hs room
  obtain ⟨fuel, rfl⟩ := room.succ
  obtain ⟨e, hb, he⟩ := base_splits hr (room.below (Nat.lt_succ_self 0))
  have hbs := b.lexemes_length_pos
  obtain ⟨m, hm, rfl⟩ := h _ _ _ he hs (room.behind hr he (by simp; omega) (by decide))
  refine makes_parts (s := .param b m) ?_ (by simp)
  show Rule.param _ c = _
  rw [Rule.param, bind_of_ok hb]
  exact bind_of_ok hm _

end Category.Accepted

/-- Wherever the words are next, the parameters of a function are read from them. -/
def ParametersAccepted (ns : List Node) (ls : List Lexeme) : Prop :=
  ∀ (fuel : Nat) (c d : Cursor), c.Reads ls d → d.kind = .punct .rparen → Room 1 c fuel →
    ∃ ms, Rule.params (parseWithin .full fuel) c = .ok (ms, d) ∧ ms.map unplaced = ns

namespace ParametersAccepted

theorem none : ParametersAccepted [] [] := by
  intro fuel c d hr hd _
  obtain rfl := hr.eq_of_nil
  refine ⟨[], ?_, rfl⟩
  rw [Rule.params, peek_bind, peekAhead_bind, if_neg (by simp [hd]), if_pos hd]
  rfl

theorem void : ParametersAccepted [] [.keyword .void] := by
  intro fuel c d hr hd _
  have hk : c.kindAhead 1 = .punct .rparen := by
    rw [hr.kindAhead, Cursor.kindAhead_zero, hr.advance.eq_of_nil, hd]
  refine ⟨[], ?_, rfl⟩
  rw [Rule.params, peek_bind, peekAhead_bind, if_pos ⟨hr.keyword, hk⟩, discard_bind, advance_bind,
    hr.advance.eq_of_nil]
  rfl

theorem some {ns : List Node} {ls : List Lexeme} (h : Category.parameter.ListAccepted ns ls)
    (hd : Derives (.listed .parameter ns) ls) : ParametersAccepted ns ls := by
  intro fuel c d hr hp room
  obtain ⟨ms, hms, hn⟩ := h.commaList hr nofun (by simp [hp]) (by simp [hp]) room
  refine ⟨ms, ?_, hn⟩
  obtain ⟨b, l, ls, rfl, hl⟩ := hd.parameters_type
  have hv : ¬ (c.kind = .keyword .void ∧ c.kindAhead 1 = .punct .rparen) := by
    rintro ⟨hv, hk⟩
    cases b with
    | void =>
      rw [hr.kindAhead, Cursor.kindAhead_zero, hr.advance.kind] at hk
      exact hl hk
    | _ => rw [hr.keyword] at hv; cases hv
  have hk : c.kind ≠ .punct .rparen := by
    cases b <;> rw [hr.keyword] <;> simp
  rw [Rule.params, peek_bind, peekAhead_bind, if_neg hv, if_neg hk]
  exact hms

end ParametersAccepted

/-! ## Statements -/

/-- Wherever the words are next, the expression that may be left out is read from them. -/
def OptionalAccepted (n? : Option Node) (ls : List Lexeme) : Prop :=
  ∀ (fuel : Nat) (c d : Cursor) (p : Punct), c.Reads ls d → d.kind = .punct p →
    p = .semicolon ∨ p = .rparen → Room 11 c fuel →
    ∃ m?, Rule.optional (parseWithin .full fuel) (.punct p) c = .ok (m?, d) ∧ m?.map unplaced = n?

namespace OptionalAccepted
variable {n : Node} {n? : Option Node} {ls ms : List Lexeme} {p : Punct} {c d : Cursor} {fuel : Nat}

theorem absent : OptionalAccepted none [] := by
  intro fuel c d p hr hd _ _
  obtain rfl := hr.eq_of_nil
  refine ⟨none, ?_, rfl⟩
  rw [Rule.optional, peek_bind, if_pos hd]
  rfl

theorem present (h : Precedence.assignment.Accepted n ls)
    (ho : (Category.expr .assignment).Opens ls) : OptionalAccepted (some n) ls := by
  intro fuel c d p hr hd hp room
  have hpull : d.kind.pull = 0 := by
    rw [hd]
    rcases hp with rfl | rfl <;> rfl
  obtain ⟨m, hm, rfl⟩ := expr_makes h hr hpull room
  have hk : c.kind ≠ .punct p := by
    obtain ⟨l, ls, rfl, hl, -⟩ := ho
    rw [hr.kind]
    intro hk
    rcases hp with rfl | rfl <;> rw [hk] at hl <;> cases hl
  refine ⟨some m, ?_, rfl⟩
  rw [Rule.optional, peek_bind, if_neg hk]
  exact bind_of_ok hm _

theorem splits (h : OptionalAccepted n? ls) (hr : c.Reads (ls ++ .mark p :: ms) d)
    (hp : p = .semicolon ∨ p = .rparen) (room : Room 11 c fuel) :
    ∃ m? e, Rule.optional (parseWithin .full fuel) (.punct p) c = .ok (m?, e) ∧
      m?.map unplaced = n? ∧ e.Reads (.mark p :: ms) d := by
  obtain ⟨e, h₁, h₂⟩ := hr.append
  obtain ⟨m?, hm, hn⟩ := h _ _ _ _ h₁ h₂.mark hp room
  exact ⟨m?, e, hm, hn, h₂⟩

end OptionalAccepted

namespace Category.Accepted
variable {dangling : Bool} {n c t e b : Node} {ns : List Node} {ls cs ts es bs : List Lexeme}

theorem block (h : (Category.statement true).SeriesAccepted ns ls) :
    Category.block.Accepted (Shape.block ns).node (.mark .lbrace :: (ls ++ [.mark .rbrace])) := by
  intro fuel c d hr _ room
  obtain ⟨fuel, rfl⟩ := room.succ
  obtain ⟨e, h₁, h₂⟩ := hr.advance.append
  obtain ⟨ms, hms, rfl⟩ := h.upTo
    (fun kind => kind = .punct .rbrace || kind = .endOfFile) h₁ (by simp [h₂.mark])
    (fun kind hb hk => ⟨by simpa using ⟨hb.1, hk⟩, fun _ => hb.2⟩) (fun _ => by simp [h₂.mark])
    (room.behind hr hr.advance (by simp) (by decide))
  have hms : upTo _ (parseWithin .full fuel .statement) c.advance = .ok (ms, e) := hms
  refine makes_parts (s := .block ms) ?_ (by simp)
  show Rule.block _ c = _
  rw [Rule.block, mark_bind hr, bind_of_ok hms, mark_bind h₂, h₂.advance.eq_of_nil]
  rfl

/-- A statement is read by the production that its first word tells. -/
theorem of_production {p : Production} {l : Lexeme} (hp : Rule.statementProduction l.kind = p)
    (h : ∀ (fuel : Nat) (c d : Cursor), c.Reads (l :: ls) d →
      (Category.statement dangling).Stops d.kind → Room 12 c (fuel + 1) →
      (parseWithin .full (fuel + 1) p).Makes c n d) :
    (Category.statement dangling).Accepted n (l :: ls) := by
  intro fuel c d hr hs room
  obtain ⟨fuel, rfl⟩ := room.succ
  have room' : Room 12 c fuel := room.below (Nat.lt_succ_self 12)
  obtain ⟨fuel, rfl⟩ := room'.succ
  obtain ⟨m, hm, rfl⟩ := h _ _ _ hr hs room'
  refine makes_whole (p := .statement) ?_
  show Rule.statement _ c = _
  rw [Rule.statement, peek_bind, hr.kind, hp, bind_of_ok hm]
  rfl

theorem blockStatement (h : Category.block.Accepted n ls) (ho : Category.block.Opens ls) :
    (Category.statement dangling).Accepted n ls := by
  obtain ⟨l, ls, rfl, hl, -⟩ := ho
  have hl : l.kind = .punct .lbrace := hl
  refine of_production (p := .block) (by rw [hl]; rfl) fun fuel c d hr _ room => ?_
  exact h _ _ _ hr trivial (room.le (by decide))

theorem declared (h : Category.declaration.Accepted n ls) (ho : Category.declaration.Opens ls) :
    (Category.statement dangling).Accepted n ls := by
  obtain ⟨l, ls, rfl, hl, -⟩ := ho
  refine of_production (p := .varDec) ?_ fun fuel c d hr _ room => ?_
  · cases l with
    | keyword k => cases k <;> first | rfl | cases hl
    | _ => cases hl
  · exact h _ _ _ hr trivial (room.le (by decide))

theorem exprStatement (h : Precedence.assignment.Accepted n ls)
    (ho : (Category.expr .assignment).Opens ls) : (Category.statement dangling).Accepted
      (Shape.exprStatement n).node (ls ++ [.mark .semicolon]) := by
  obtain ⟨l, ls, rfl, hl, -⟩ := ho
  refine of_production (p := .exprStatement) ?_ fun fuel c d hr _ room => ?_
  · cases l with
    | keyword k => cases k <;> first | rfl | cases hl
    | mark p => cases p <;> first | rfl | cases hl
    | _ => rfl
  · obtain ⟨m, e, hm, rfl, he⟩ := expr_splits h hr rfl (room.below (by decide))
    refine makes_parts (s := .exprStatement m) ?_ (by simp)
    show Rule.exprStatement _ c = _
    rw [Rule.exprStatement, bind_of_ok hm, mark_bind he, he.advance.eq_of_nil]
    rfl

theorem statement_makes (h : (Category.statement dangling).Accepted n ls) {fuel : Nat}
    {c d : Cursor} (hr : c.Reads ls d) (hs : (Category.statement dangling).Stops d.kind)
    (room : Room 13 c fuel) : (parseWithin .full fuel .statement).Makes c n d :=
  h _ _ _ hr hs room

theorem statement_splits (h : (Category.statement dangling).Accepted n ls) {fuel : Nat}
    {c d : Cursor} {l : Lexeme} {ms : List Lexeme} (hr : c.Reads (ls ++ l :: ms) d)
    (hs : (Category.statement dangling).Stops l.kind) (room : Room 13 c fuel) :
    ∃ m e, parseWithin .full fuel .statement c = .ok (m, e) ∧ m.unplaced = n ∧
      e.Reads (l :: ms) d :=
  h.splits hr hs room

theorem ifThen (hc : Precedence.assignment.Accepted c cs)
    (ht : (Category.statement true).Accepted t ts) : (Category.statement true).Accepted
      (Shape.ifElse c t none).node
      (.keyword .if_ :: .mark .lparen :: (cs ++ .mark .rparen :: ts)) := by
  refine of_production (p := .ifElse) rfl fun fuel c d hr hs room => ?_
  obtain ⟨m, e, hm, rfl, he⟩ := parenthesized_splits hc hr.advance (room.advance hr)
  obtain ⟨t, hm', rfl⟩ := ht.statement_makes he hs (room.behind hr he (by simp; omega) (by decide))
  refine makes_parts (s := .ifElse m t none) ?_ (by simp)
  show Rule.ifElse _ c = _
  rw [Rule.ifElse, keyword_bind hr, bind_of_ok hm, bind_of_ok hm',
    bind_of_ok (accept_of_kind_ne (hs rfl))]
  rfl

theorem ifElse (hc : Precedence.assignment.Accepted c cs)
    (ht : (Category.statement false).Accepted t ts)
    (he : (Category.statement dangling).Accepted e es) : (Category.statement dangling).Accepted
      (Shape.ifElse c t (some e)).node (.keyword .if_ :: .mark .lparen ::
        (cs ++ .mark .rparen :: (ts ++ .keyword .else_ :: es))) := by
  refine of_production (p := .ifElse) rfl fun fuel c d hr hs room => ?_
  obtain ⟨m, f, hm, rfl, h₁⟩ := parenthesized_splits hc hr.advance (room.advance hr)
  obtain ⟨t, g, hm', rfl, h₂⟩ := ht.statement_splits h₁ nofun
    (room.behind hr h₁ (by simp; omega) (by decide))
  obtain ⟨e, hm'', rfl⟩ := he.statement_makes h₂.advance hs
    (room.behind hr h₂.advance (by simp; omega) (by decide))
  refine makes_parts (s := .ifElse m t (some e)) ?_ (by simp)
  show Rule.ifElse _ c = _
  rw [Rule.ifElse, keyword_bind hr, bind_of_ok hm, bind_of_ok hm',
    bind_of_ok (accept_of_kind h₂.keyword), if_pos rfl, bind_of_ok hm'']
  rfl

theorem whileLoop (hc : Precedence.assignment.Accepted c cs)
    (hb : (Category.statement dangling).Accepted b bs) : (Category.statement dangling).Accepted
      (Shape.whileLoop c b).node
      (.keyword .while_ :: .mark .lparen :: (cs ++ .mark .rparen :: bs)) := by
  refine of_production (p := .whileLoop) rfl fun fuel c d hr hs room => ?_
  obtain ⟨m, e, hm, rfl, he⟩ := parenthesized_splits hc hr.advance (room.advance hr)
  obtain ⟨b, hm', rfl⟩ := hb.statement_makes he hs (room.behind hr he (by simp; omega) (by decide))
  refine makes_parts (s := .whileLoop m b) ?_ (by simp)
  show Rule.whileLoop _ c = _
  rw [Rule.whileLoop, keyword_bind hr, bind_of_ok hm, bind_of_ok hm']
  rfl

theorem doWhile (hb : (Category.statement true).Accepted b bs)
    (hc : Precedence.assignment.Accepted c cs) : (Category.statement dangling).Accepted
      (Shape.doWhile b c).node (.keyword .do_ :: (bs ++ .keyword .while_ :: .mark .lparen ::
        (cs ++ [.mark .rparen, .mark .semicolon]))) := by
  refine of_production (p := .doWhile) rfl fun fuel c d hr hs room => ?_
  obtain ⟨b, e, hm, rfl, he⟩ := hb.statement_splits hr.advance nofun
    (room.behind hr hr.advance (by simp) (by decide))
  have room' : Room 0 e.advance fuel := room.behind hr he.advance (by simp; omega) (by decide)
  obtain ⟨m, f, hm', rfl, hf⟩ := parenthesized_splits hc he.advance room'.more
  refine makes_parts (s := .doWhile b m) ?_ (by simp)
  show Rule.doWhile _ c = _
  rw [Rule.doWhile, keyword_bind hr, bind_of_ok hm, keyword_bind he, bind_of_ok hm', mark_bind hf,
    hf.advance.eq_of_nil]
  rfl

theorem forLoop {i s : Option Node} {c : Option Node} {is ss : List Lexeme}
    (hi : OptionalAccepted i is) (hc : OptionalAccepted c cs) (hs : OptionalAccepted s ss)
    (hb : (Category.statement dangling).Accepted b bs) : (Category.statement dangling).Accepted
      (Shape.forLoop i c s b).node (.keyword .for_ :: .mark .lparen ::
        (is ++ .mark .semicolon :: (cs ++ .mark .semicolon :: (ss ++ .mark .rparen :: bs)))) := by
  refine of_production (p := .forLoop) rfl fun fuel c d hr hd room => ?_
  have hr' := hr.advance
  obtain ⟨i, e₁, hm₁, rfl, h₁⟩ := hi.splits hr'.advance (.inl rfl)
    (room.behind hr hr'.advance (by grind) (by decide))
  obtain ⟨t, e₂, hm₂, rfl, h₂⟩ := hc.splits h₁.advance (.inl rfl)
    (room.behind hr h₁.advance (by simp; omega) (by decide))
  obtain ⟨s, e₃, hm₃, rfl, h₃⟩ := hs.splits h₂.advance (.inr rfl)
    (room.behind hr h₂.advance (by simp; omega) (by decide))
  obtain ⟨b, hm₄, rfl⟩ := hb.statement_makes h₃.advance hd
    (room.behind hr h₃.advance (by simp; omega) (by decide))
  refine makes_parts (s := .forLoop i t s b) ?_ (by simp)
  show Rule.forLoop _ c = _
  rw [Rule.forLoop, keyword_bind hr, mark_bind hr', bind_of_ok hm₁, mark_bind h₁, bind_of_ok hm₂,
    mark_bind h₂, bind_of_ok hm₃, mark_bind h₃, bind_of_ok hm₄]
  rfl

theorem returns {n? : Option Node} (h : OptionalAccepted n? ls) :
    (Category.statement dangling).Accepted (Shape.returns n?).node
      (.keyword .return_ :: (ls ++ [.mark .semicolon])) := by
  refine of_production (p := .returns) rfl fun fuel c d hr _ room => ?_
  obtain ⟨m?, e, hm, rfl, he⟩ := h.splits hr.advance (.inl rfl)
    (room.behind hr hr.advance (by simp) (by decide))
  refine makes_parts (s := .returns m?) ?_ (by simp)
  show Rule.returns _ c = _
  rw [Rule.returns, keyword_bind hr, bind_of_ok hm, mark_bind he, he.advance.eq_of_nil]
  rfl

/-- A keyword and a semicolon. -/
theorem jump {k : Keyword} {s : Shape} {p : Production}
    (hp : Rule.statementProduction (.keyword k) = p) (hs : s.production = p)
    (hu : unplacedShape s = s) (h : ∀ parse, Rule.of parse p = Rule.jump k s) :
    (Category.statement dangling).Accepted s.node [.keyword k, .mark .semicolon] := by
  refine of_production hp fun fuel c d hr _ room => ?_
  refine makes_parts (s := s) ?_ (by rw [hu, Shape.node, hs])
  rw [h, Rule.jump, keyword_bind hr, mark_bind hr.advance, hr.advance.advance.eq_of_nil]
  rfl

theorem empty : (Category.statement dangling).Accepted Shape.empty.node [.mark .semicolon] := by
  refine of_production (p := .empty) rfl fun fuel c d hr _ room => ?_
  refine makes_parts (s := .empty) ?_ (by simp)
  show Rule.empty c = _
  rw [Rule.empty, mark_bind hr, hr.advance.eq_of_nil]
  rfl

end Category.Accepted

/-! ## Programs -/

namespace Category.Accepted
variable {n : Node} {ns ps : List Node} {ls bs : List Lexeme}

/-- An item is read by the production that the tokens ahead tell. -/
theorem item_makes {p : Production} {fuel : Nat} {c d : Cursor} (hp : Rule.itemProduction c = p)
    (h : (parseWithin .full fuel p).Makes c n d) :
    (item.reader (parseWithin .full fuel)).Makes c n d := by
  subst hp
  exact h

theorem structDef (x : String) (h : Category.declaration.SeriesAccepted ns ls) :
    item.Accepted (Shape.structDef x ns).node (.keyword .struct :: .name x :: .mark .lbrace ::
      (ls ++ [.mark .rbrace, .mark .semicolon])) := by
  intro fuel c d hr _ room
  obtain ⟨fuel, rfl⟩ := room.succ
  have h₁ := hr.advance
  have h₂ := h₁.advance
  have hp : Rule.itemProduction c = .structDef := Rule.itemProduction_of_structDef hr
  obtain ⟨e, h₃, h₄⟩ := h₂.advance.append
  have hb : ∀ kind, Category.declaration.Begins kind → kind ≠ .endOfFile →
      decide (kind = .punct .rbrace) = false ∧ Category.declaration.Stops kind := by
    rintro kind hk -
    refine ⟨decide_eq_false ?_, trivial⟩
    rintro rfl
    cases hk
  obtain ⟨ms, hms, rfl⟩ := h.upTo _ h₃ (by simp [h₄.mark]) hb trivial
    (room.behind hr h₂.advance (by simp) (by decide))
  have hms : upTo _ (parseWithin .full fuel .varDec) _ = .ok (ms, e) := hms
  refine item_makes hp (makes_parts (s := .structDef x ms) ?_ (by simp))
  show Rule.structDef _ c = _
  rw [Rule.structDef, keyword_bind hr, bind_of_ok (name_of_reads h₁), mark_bind h₂, bind_of_ok hms,
    mark_bind h₄, mark_bind h₄.advance, h₄.advance.advance.eq_of_nil]
  rfl

theorem functionDef (b : Base) (k : Nat) (x : String) (hps : ParametersAccepted ps ls)
    (hb : Category.block.Accepted n bs) : item.Accepted (Shape.functionDef b k x ps n).node
      (b.lexemes ++
        (Lexeme.stars k ++ .name x :: .mark .lparen :: (ls ++ .mark .rparen :: bs))) := by
  intro fuel c d hr _ room
  obtain ⟨fuel, rfl⟩ := room.succ
  have hp : Rule.itemProduction c = .functionDef := by
    rw [Rule.itemProduction_of_reads hr]
    rfl
  obtain ⟨e, hm₁, h₁⟩ := base_splits hr (room.below (Nat.lt_succ_self 0))
  obtain ⟨f, hm₂, h₂⟩ := stars_splits h₁ (by simp)
  have h₃ := h₂.advance
  obtain ⟨g, h₄, h₅⟩ := h₃.advance.append
  obtain ⟨ps, hm₃, rfl⟩ := hps _ _ _ h₄ h₅.mark
    (room.behind hr h₃.advance (by simp; omega) (by decide))
  obtain ⟨n, hm₄, rfl⟩ := hb _ _ _ h₅.advance trivial
    (room.behind hr h₅.advance (by simp; omega) (by decide))
  have hm₄ : parseWithin .full fuel .block _ = .ok (n, d) := hm₄
  refine item_makes hp (makes_parts (s := .functionDef b k x ps n) ?_ (by simp))
  show Rule.functionDef _ c = _
  rw [Rule.functionDef, bind_of_ok hm₁, bind_of_ok hm₂, bind_of_ok (name_of_reads h₂), mark_bind h₃,
    bind_of_ok hm₃, mark_bind h₅, bind_of_ok hm₄]
  rfl

theorem global (h : Category.declaration.Accepted n ls) (hd : Derives (.one .declaration n) ls) :
    item.Accepted n ls := by
  intro fuel c d hr _ room
  refine item_makes (p := .varDec) ?_ (h _ _ _ hr trivial room)
  obtain ⟨b, k, x, l, ms, rfl, hl⟩ := hd.declaration_name
  rw [Rule.itemProduction_of_reads hr, if_neg hl]

theorem program (h : item.SeriesAccepted ns ls) :
    Category.program.Accepted (Shape.program ns).node ls := by
  intro fuel c d hr hs room
  obtain ⟨fuel, rfl⟩ := room.succ
  obtain ⟨ms, hms, rfl⟩ := h.upTo (fun kind => kind = .endOfFile) hr (by simpa using hs)
    (fun kind _ hk => ⟨by simpa using hk, trivial⟩) trivial (room.below (by decide))
  refine makes_parts (s := .program ms) ?_ (by simp)
  exact bind_of_ok hms _

end Category.Accepted

/-! ## All rules -/

/-- A phrase is accepted by the readers of its constructs. -/
def Phrase.Accepted : Phrase → List Lexeme → Prop
  | one (.expr ℓ) n, ls => ℓ.Accepted n ls
  | one s n, ls => s.Accepted n ls
  | optional n?, ls => OptionalAccepted n? ls
  | listed s ns, ls => s.ListAccepted ns ls
  | values ns, ls => ValuesAccepted ns ls
  | parameters ns, ls => ParametersAccepted ns ls
  | series s ns, ls => s ≠ .program → s.SeriesAccepted ns ls

theorem Phrase.Accepted.one {s : Category} {n : Node} {ls : List Lexeme}
    (h : (Phrase.one s n).Accepted ls) : s.Accepted n ls := by
  cases s with
  | expr => exact Precedence.Accepted.whole h
  | _ => exact h

/-- A series is empty or begins as its first construct does. -/
theorem Derives.series_opens {s : Category} {ns : List Node} {ls : List Lexeme}
    (h : Derives (.series s ns) ls) (hs : s ≠ .program) : ls = [] ∨ s.Opens ls := by
  cases h with
  | nil => exact .inl rfl
  | cons h _ => exact .inr ((h.opens hs).append _)

/-- **Every rendering of a phrase is accepted.** -/
theorem Derives.accepted {x : Phrase} {ls : List Lexeme} (h : Derives x ls) : x.Accepted ls := by
  induction h with
  | loosen h ih => exact Precedence.Accepted.loosen ih (h.opens (by simp))
  | group _ ih => exact Precedence.Accepted.group ih
  | assign _ hr ihl ihr => exact Precedence.Accepted.assign ihl ihr (hr.opens (by simp))
  | assignValues _ hr ihl ihr => exact Precedence.Accepted.assignValues ihl ihr (hr.opens (by simp))
  | initializer _ ih => exact Category.Accepted.initializer ih
  | binary _ _ ihl ihr => exact Precedence.Accepted.binary ihl ihr
  | @unary op _ _ _ ih =>
    refine Precedence.Accepted.operator (f := .unary op) (fun parse c hk => ?_)
      (fun _ => by simp) ih
    cases op <;> rw [Rule.unary, peek_bind, hk] <;> rfl
  | deref _ ih =>
    refine Precedence.Accepted.operator (f := .deref) (fun parse c hk => ?_) (fun _ => by simp) ih
    rw [Rule.unary, peek_bind, hk]
    rfl
  | addressOf _ ih =>
    refine Precedence.Accepted.operator (f := .addressOf) (fun parse c hk => ?_)
      (fun _ => by simp) ih
    rw [Rule.unary, peek_bind, hk]
    rfl
  | sizeofExpr h ih => exact Precedence.Accepted.sizeofExpr ih (h.opens (by simp))
  | sizeofType b k => exact Precedence.Accepted.sizeofType b k
  | index _ _ ihb ihi => exact Precedence.Accepted.index ihb ihi
  | member f _ ih => exact Precedence.Accepted.member ih
  | pointerMember f _ ih => exact Precedence.Accepted.pointerMember ih
  | call f _ ih => exact Precedence.Accepted.call ih
  | literal h => exact Precedence.Accepted.literal h
  | identifier x => exact Precedence.Accepted.identifier x
  | scalar k x => exact Category.Accepted.scalar k x
  | unsized k x => exact Category.Accepted.unsized k x
  | sized k x h ih => exact Category.Accepted.sized k x ih (h.opens (by simp))
  | declaration b _ ih => exact Category.Accepted.declaration b ih
  | parameter b _ ih => exact Category.Accepted.parameter b ih
  | block _ ih => exact Category.Accepted.block (ih (by simp))
  | blockStatement h ih => exact Category.Accepted.blockStatement ih (h.opens (by simp))
  | declared h ih => exact Category.Accepted.declared ih (h.opens (by simp))
  | ifThen _ _ ihc iht => exact Category.Accepted.ifThen ihc iht
  | ifElse _ _ _ ihc iht ihe => exact Category.Accepted.ifElse ihc iht ihe
  | whileLoop _ _ ihc ihb => exact Category.Accepted.whileLoop ihc ihb
  | doWhile _ _ ihb ihc => exact Category.Accepted.doWhile ihb ihc
  | forLoop _ _ _ _ ihi ihc ihs ihb => exact Category.Accepted.forLoop ihi ihc ihs ihb
  | returns _ ih => exact Category.Accepted.returns ih
  | breaks => exact Category.Accepted.jump rfl rfl rfl fun _ => rfl
  | continues => exact Category.Accepted.jump rfl rfl rfl fun _ => rfl
  | empty => exact Category.Accepted.empty
  | exprStatement h ih => exact Category.Accepted.exprStatement ih (h.opens (by simp))
  | structDef x _ ih => exact Category.Accepted.structDef x (ih (by simp))
  | functionDef b k x _ _ ihp ihb => exact Category.Accepted.functionDef b k x ihp ihb
  | global h ih => exact Category.Accepted.global ih h
  | program _ ih => exact Category.Accepted.program (ih (by simp))
  | absent => exact OptionalAccepted.absent
  | present h ih => exact OptionalAccepted.present ih (h.opens (by simp))
  | last _ ih => exact Category.ListAccepted.last ih.one
  | more _ _ ih iht => exact Category.ListAccepted.more ih.one iht
  | noValues => exact .inl ⟨rfl, rfl⟩
  | someValues h ih => exact .inr ⟨ih, h.opens (by simp)⟩
  | noParameters => exact ParametersAccepted.none
  | voidParameters => exact ParametersAccepted.void
  | someParameters h ih => exact ParametersAccepted.some ih h
  | nil => exact fun _ => Category.SeriesAccepted.nil
  | cons h ht ih iht =>
    exact fun hs => Category.SeriesAccepted.cons ih.one (h.opens hs) (iht hs) (ht.series_opens hs)

/-- **The parser returns a tree if and only if the tokens render it.**  The tokens are those of any
source; trees are compared without their places. -/
theorem parse_program_iff_renderedAs {source : String} {ts : List Token}
    (h : tokenize source = .ok ts) (t : Node) :
    (∃ t' c, parse .full .program (.ofTokens ts) = .ok (t', c) ∧ t'.unplaced = t.unplaced) ↔
      t.RenderedAs ts := by
  obtain ⟨c, hc, rfl⟩ := tokenize_closed h
  rw [hc.ofTokens, Node.RenderedAs]
  constructor
  · rintro ⟨t', d, hp, ht⟩
    obtain ⟨ls, hr, hs, hd⟩ := parseWithin_takes .full _ .program c hc t' d hp
    rw [hr.eq_filterMap hc hd, ← ht]
    exact hs
  · intro hr
    obtain ⟨d, hd, hk⟩ := hc.reads_all
    obtain ⟨t', hp, ht⟩ := hr.accepted _ _ _ hd hk
      (show Room 14 c ((c.later.length + 1) * callsPerToken) by unfold Room callsPerToken; omega)
    exact ⟨t', d, hp, ht⟩

/-! A source in which an `else` could belong to two `if`s and a sum stands around a product. -/

namespace Sample

def source : String := "int f(void) \x7b if (a) if (b) ; else x = y + 1 * z; \x7d"

def words : List Lexeme :=
  [.keyword .int, .name "f", .mark .lparen, .keyword .void, .mark .rparen, .mark .lbrace,
    .keyword .if_, .mark .lparen, .name "a", .mark .rparen,
    .keyword .if_, .mark .lparen, .name "b", .mark .rparen, .mark .semicolon,
    .keyword .else_, .name "x", .mark .assign, .name "y", .mark .plus, .number "1", .mark .star,
    .name "z", .mark .semicolon, .mark .rbrace]

/-- The inner `if` has the `else`, and the product is an operand of the sum. -/
def tree : Node :=
  let sum := Shape.binary .add (Shape.identifier "y").node
    (Shape.binary .mul (Shape.intLiteral 1).node (Shape.identifier "z").node).node
  let inner := Shape.ifElse (Shape.identifier "b").node Shape.empty.node
    (some (Shape.exprStatement (Shape.assign (Shape.identifier "x").node sum.node).node).node)
  let body := Shape.block [(Shape.ifElse (Shape.identifier "a").node inner.node none).node]
  (Shape.program [(Shape.functionDef .int 0 "f" [] body.node).node]).node

theorem tokenize_source : (tokenize source).map (List.filterMap Token.lexeme?) = .ok words := rfl

theorem tree_derives : Derives (.one .program tree.unplaced) words := by
  have one : Derives (.one (.expr .multiplicative) (Shape.intLiteral 1).node) [.number "1"] :=
    .loosen (.loosen (.loosen (.literal rfl)))
  have sum := @Derives.binary .add _ _ _ _ (.name _ "y")
    (@Derives.binary .mul _ _ _ _ one (.name _ "z"))
  have assigned := @Derives.exprStatement true _ _
    (.assign (.name _ "x") (.loosen (.loosen (.loosen (.loosen (.loosen sum))))))
  have body := @Derives.ifThen _ _ _ _ (.name _ "a") (.ifElse (.name _ "b") .empty assigned)
  exact .program (.cons (.functionDef .int 0 "f" .voidParameters (.block (.cons body .nil))) .nil)

end Sample

/-- The parser gives an `else` to the nearest `if` and a product to the sum around it. -/
theorem parse_program_nested : ∃ ts t c, tokenize Sample.source = .ok ts ∧
    parse .full .program (.ofTokens ts) = .ok (t, c) ∧ t.unplaced = Sample.tree.unplaced := by
  have hw := Sample.tokenize_source
  cases h : tokenize Sample.source with
  | error e => rw [h] at hw; cases hw
  | ok ts =>
    rw [h] at hw
    have hr : Sample.tree.RenderedAs ts := by
      rw [Node.RenderedAs, Except.ok.inj hw]
      exact Sample.tree_derives
    obtain ⟨t, c, hp, ht⟩ := (parse_program_iff_renderedAs h Sample.tree).2 hr
    exact ⟨ts, t, c, rfl, hp, ht⟩

end MiniC
