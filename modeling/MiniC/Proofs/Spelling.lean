/-
  What the parser takes is a rendering of what it gives.

  `x.Takes c Q` speaks of the reader `x` started at the cursor `c`: whenever it gives something, `Q`
  holds of that, of the words between `c` and the place where it stops, and of that place.  There is
  one lemma for each way of reading and one for each rule of the grammar, and `parseWithin_takes`
  puts the rules together: every production takes words that spell the tree that it gives.

  Where a statement stops matters, since the token there says which of its `if`s are complete: in
  front of an `else` no `if` at the end of the statement is left without one.
-/
import MiniC.Proofs.Reading

namespace MiniC

namespace Parse
variable {α β : Type} {c : Cursor} {Q : α → List Lexeme → Cursor → Prop}

/-- Whatever `x` gives from the cursor `c` on, `Q` holds of it, of the words taken and of the place
where `x` stops. -/
def Takes (x : Parse α) (c : Cursor) (Q : α → List Lexeme → Cursor → Prop) : Prop :=
  c.Closed → ∀ a d, x c = .ok (a, d) → ∃ ls, c.Reads ls d ∧ Q a ls d

theorem Takes.mono {x : Parse α} {P : α → List Lexeme → Cursor → Prop} (hx : x.Takes c P)
    (h : ∀ a ls d, P a ls d → Q a ls d) : x.Takes c Q := by
  intro hc a d ha
  obtain ⟨ls, hr, hp⟩ := hx hc a d ha
  exact ⟨ls, hr, h a ls d hp⟩

theorem takes_pure {a : α} (h : Q a [] c) : (pure a : Parse α).Takes c Q := by
  intro _ b d hb
  cases hb
  exact ⟨[], .nil c, h⟩

theorem takes_fail {e : SyntaxError} : (fail e : Parse α).Takes c Q := by
  intro _ a d h
  cases h

theorem takes_refuse {w : Wanted} : (refuse w : Parse α).Takes c Q := by
  intro _ a d h
  cases h

theorem Takes.bind {x : Parse β} {f : β → Parse α} {P : β → List Lexeme → Cursor → Prop}
    (hx : x.Takes c P) (hf : ∀ b ls d, P b ls d → (f b).Takes d fun a ms e => Q a (ls ++ ms) e) :
    (x >>= f).Takes c Q := by
  intro hc a e h
  cases hb : x c with
  | error e => rw [bind_of_error hb] at h; cases h
  | ok p =>
    obtain ⟨b, d⟩ := p
    rw [bind_of_ok hb] at h
    obtain ⟨ls, hr, hp⟩ := hx hc b d hb
    obtain ⟨ms, hr', hq⟩ := hf b ls d hp (hr.closed hc) a e h
    exact ⟨ls ++ ms, hr.trans hr', hq⟩

theorem takes_ite {p : Prop} [Decidable p] {x y : Parse α} (hx : p → x.Takes c Q)
    (hy : ¬ p → y.Takes c Q) : (if p then x else y).Takes c Q := by
  by_cases h : p
  · rw [if_pos h]
    exact hx h
  · rw [if_neg h]
    exact hy h

/-! ## Looking ahead takes nothing -/

theorem takes_peek {f : TokenKind → Parse α} (h : (f c.kind).Takes c Q) :
    (peek >>= f).Takes c Q := h

theorem takes_peekAhead {n : Nat} {f : TokenKind → Parse α} (h : (f (c.kindAhead n)).Takes c Q) :
    (peekAhead n >>= f).Takes c Q := h

theorem takes_here {f : Location → Parse α} (h : (f c.loc).Takes c Q) : (here >>= f).Takes c Q := h

theorem takes_remaining {f : Nat → Parse α} (h : (f c.later.length).Takes c Q) :
    (remaining >>= f).Takes c Q := h

/-! ## Taking one token -/

theorem takes_advance {l : Lexeme} (hl : c.here.lexeme? = some l) {f : Token → Parse α}
    (hf : ∀ d, (f c.here).Takes d fun a ms e => Q a (l :: ms) e) : (advance >>= f).Takes c Q := by
  refine Takes.bind (P := fun t ls _ => t = c.here ∧ ls = [l]) ?_ ?_
  · intro hc t d h
    cases h
    exact ⟨[l], hc.reads hl, rfl, rfl⟩
  · rintro t ls d ⟨rfl, rfl⟩
    exact hf d

theorem takes_discard {x : Parse β} {f : Unit → Parse α}
    (h : (x >>= fun _ => f ()).Takes c Q) : (discard x >>= f).Takes c Q := by
  rwa [discard_bind]

/-- Taking a token that has to be next. -/
theorem takes_expect {kind : TokenKind} {f : Token → Parse α}
    (h : c.kind = kind → (advance >>= f).Takes c Q) : (expect kind >>= f).Takes c Q := by
  intro hc a d ha
  by_cases hk : c.kind = kind
  · rw [bind_of_ok (expect_of_kind hk)] at ha
    exact h hk hc a d ha
  · rw [bind_of_error (if_neg hk)] at ha
    cases ha

theorem takes_mark {p : Punct} {f : Unit → Parse α}
    (hf : ∀ d, (f ()).Takes d fun a ms e => Q a (.mark p :: ms) e) :
    (discard (expect (.punct p)) >>= f).Takes c Q :=
  takes_discard (takes_expect fun hk => takes_advance (Token.lexeme?_of_mark hk) hf)

theorem takes_keyword {k : Keyword} {f : Unit → Parse α}
    (hf : ∀ d, (f ()).Takes d fun a ms e => Q a (.keyword k :: ms) e) :
    (discard (expect (.keyword k)) >>= f).Takes c Q :=
  takes_discard (takes_expect fun hk => takes_advance (Token.lexeme?_of_keyword hk) hf)

theorem takes_name {f : String → Parse α}
    (hf : ∀ s d, (f s).Takes d fun a ms e => Q a (.name s :: ms) e) : (name >>= f).Takes c Q := by
  rw [name_bind]
  exact takes_expect fun hk => takes_advance (Token.lexeme?_of_name hk) (hf _)

/-- Taking a token if it is next. -/
theorem takes_accept {kind : TokenKind} {f : Bool → Parse α}
    (hx : c.kind = kind → (advance >>= fun _ => f true).Takes c Q)
    (hy : c.kind ≠ kind → (f false).Takes c Q) : (accept kind >>= f).Takes c Q := by
  intro hc a d ha
  by_cases hk : c.kind = kind
  · rw [bind_of_ok (accept_of_kind hk)] at ha
    exact hx hk hc a d ha
  · rw [bind_of_ok (accept_of_kind_ne hk)] at ha
    exact hy hk hc a d ha

theorem takes_acceptMark {p : Punct} {f : Bool → Parse α}
    (hx : ∀ d, (f true).Takes d fun a ms e => Q a (.mark p :: ms) e) (hy : (f false).Takes c Q) :
    (accept (.punct p) >>= f).Takes c Q :=
  takes_accept (fun hk => takes_advance (Token.lexeme?_of_mark hk) hx) fun _ => hy

/-! ## Taking several tokens -/

theorem takes_stars {f : Nat → Parse α}
    (hf : ∀ n d, (f n).Takes d fun a ms e => Q a (Lexeme.stars n ++ ms) e) :
    (stars >>= f).Takes c Q := by
  refine Takes.bind (P := fun n ls _ => ls = Lexeme.stars n) ?_ ?_
  · intro hc n d h
    have hr := Cursor.skipStars_reads c.here c.later hc
    rw [Except.ok.inj h] at hr
    exact ⟨_, hr, rfl⟩
  · rintro n ls d rfl
    exact hf n d

/-- Items up to a token that ends them. -/
theorem takes_itemsUntil {ends : TokenKind → Bool} {item : Parse Node} {s : Category}
    (h : ∀ c, item.Takes c fun n ls _ => Derives (.one s n.unplaced) ls) (fuel : Nat) (c : Cursor) :
    (itemsUntil ends item fuel).Takes c fun ns ls d =>
      Derives (.series s (ns.map Node.unplaced)) ls ∧ ends d.kind := by
  induction fuel generalizing c with
  | zero =>
    intro _ ns d h
    cases h
  | succ fuel ih =>
    refine takes_peek (takes_ite (fun he => takes_pure ⟨.nil, he⟩) fun _ => ?_)
    refine (h c).bind fun n ls d hn => (ih d).bind fun ns ms e hns => takes_pure ?_
    rw [List.append_nil]
    exact ⟨.cons hn hns.1, hns.2⟩

theorem takes_upTo {ends : TokenKind → Bool} {item : Parse Node} {s : Category}
    (h : ∀ c, item.Takes c fun n ls _ => Derives (.one s n.unplaced) ls) :
    (upTo ends item).Takes c fun ns ls d =>
      Derives (.series s (ns.map Node.unplaced)) ls ∧ ends d.kind :=
  takes_remaining (takes_itemsUntil h _ c)

/-- Items with commas between them. -/
theorem takes_separated {item : Parse Node} {s : Category}
    (h : ∀ c, item.Takes c fun n ls _ => Derives (.one s n.unplaced) ls) (fuel : Nat) (c : Cursor) :
    (separated item fuel).Takes c fun ns ls _ => Derives (.listed s (ns.map Node.unplaced)) ls := by
  induction fuel generalizing c with
  | zero =>
    intro _ ns d h
    cases h
  | succ fuel ih =>
    refine (h c).bind fun n ls d hn => takes_acceptMark (fun e => ?_) (takes_pure ?_)
    · refine (ih e).bind fun ns ms d hns => takes_pure ?_
      rw [List.append_nil]
      exact .more hn hns
    · rw [List.append_nil]
      exact .last hn

theorem takes_commaList {item : Parse Node} {s : Category}
    (h : ∀ c, item.Takes c fun n ls _ => Derives (.one s n.unplaced) ls) :
    (commaList item).Takes c fun ns ls _ => Derives (.listed s (ns.map Node.unplaced)) ls :=
  takes_remaining (takes_separated h _ c)

end Parse

/-! ## The rules -/

/-- What the words taken for a production are: a rendering of the node that it gives. -/
@[simp] def Production.Spells (p : Production) (n : Node) (ls : List Lexeme) (c : Cursor) : Prop :=
  match p with
  | .type => ∃ b, n.shape = .type b ∧ ls = b.lexemes
  | .program => Derives (.one .program n.unplaced) ls ∧ c.kind = .endOfFile
  | .structDef | .functionDef => Derives (.one .item n.unplaced) ls
  | .param => Derives (.one .parameter n.unplaced) ls
  | .varDec => Derives (.one .declaration n.unplaced) ls
  | .varItem => Derives (.one .declarator n.unplaced) ls
  | .block => Derives (.one .block n.unplaced) ls
  | .statement | .ifElse | .whileLoop | .doWhile | .forLoop | .returns | .breaks | .continues
  | .empty | .exprStatement =>
    Derives (.one (.statement (c.kind ≠ .keyword .else_)) n.unplaced) ls
  | .expr | .assignment => Derives (.one (.expr .assignment) n.unplaced) ls
  | .arrayInit => Derives (.one .initializer n.unplaced) ls
  | .logicalOr => Derives (.one (.expr .or) n.unplaced) ls
  | .logicalAnd => Derives (.one (.expr .and) n.unplaced) ls
  | .equality => Derives (.one (.expr .equality) n.unplaced) ls
  | .relational => Derives (.one (.expr .relational) n.unplaced) ls
  | .additive => Derives (.one (.expr .additive) n.unplaced) ls
  | .multiplicative => Derives (.one (.expr .multiplicative) n.unplaced) ls
  | .unary => Derives (.one (.expr .unary) n.unplaced) ls
  -- A call is read where a primary is, but binds no tighter than the suffixes.
  | .suffix | .primary | .call => Derives (.one (.expr .suffix) n.unplaced) ls
  | .identifier | .literal => Derives (.one (.expr .primary) n.unplaced) ls
  | .other _ => False

/-- What the words taken by the rule of a production are, wherever its node starts. -/
def Parsed.Spells (p : Production) (r : Parsed) (ls : List Lexeme) (c : Cursor) : Prop :=
  ∀ start, p.Spells (r.node p start) ls c

/-- The level of the parser that reads the binary operators of a precedence. -/
def Precedence.level? : Precedence → Option Rule.Level
  | or => some Rule.orLevel
  | and => some Rule.andLevel
  | equality => some Rule.equalityLevel
  | relational => some Rule.relationalLevel
  | additive => some Rule.additiveLevel
  | multiplicative => some Rule.multiplicativeLevel
  | _ => none

namespace Rule

/-- A level reads exactly the binary operators of its precedence, between tighter operands. -/
structure Level.IsFor (level : Level) (ℓ : Precedence) : Prop where
  rule : ∀ parse, of parse ℓ.production = binary parse level
  production : level.production = ℓ.production
  operand : level.operand = ℓ.tighter.production
  tighter : ℓ.tighter ≠ .primary
  operator : ∀ kind op, level.operator? kind = some op ↔ op.precedence = ℓ ∧ kind = .punct op.mark

theorem isFor_of_level? {level : Level} {ℓ : Precedence} (h : ℓ.level? = some level) :
    level.IsFor ℓ := by
  cases ℓ <;> cases h
  all_goals
    refine ⟨fun _ => rfl, rfl, rfl, nofun, fun kind op => ⟨fun h => ?_, ?_⟩⟩
    · simp only [orLevel, andLevel, equalityLevel, relationalLevel, additiveLevel,
        multiplicativeLevel] at h
      split at h <;> cases h <;> exact ⟨rfl, rfl⟩
    · rintro ⟨h, rfl⟩
      cases op <;> cases h <;> rfl

open Parse Parsed Node

/-- A node that is made of parts, without its place. -/
@[simp] theorem unplaced_parts (p : Production) (start : Location) (shape : Shape) :
    ((parts shape).node p start).unplaced = .mk ⟨p, .nowhere⟩ (unplacedShape shape) := by
  rw [Parsed.node, unplaced]

/-- A rule that hands on a node. -/
theorem takes_whole {c : Cursor} {p : Production} {x : Parse Node} (hx : x.Takes c p.Spells) :
    (x >>= fun n => pure (whole n)).Takes c (Parsed.Spells p) := by
  refine hx.bind fun n ls d hn => takes_pure fun start => ?_
  rwa [List.append_nil]

variable {parse : Productions} {c : Cursor} (H : ∀ p c, (parse p).Takes c p.Spells)
include H

/-! ### Declarations -/

theorem takes_base {α : Type} {Q : α → List Lexeme → Cursor → Prop} {f : Base → Parse α}
    (hf : ∀ b d, (f b).Takes d fun a ms e => Q a (b.lexemes ++ ms) e) :
    (base parse >>= f).Takes c Q := by
  refine Takes.bind (P := fun b ls _ => ls = b.lexemes) ?_ ?_
  · refine (H .type c).bind fun n ls d hn => ?_
    obtain ⟨b, hb, rfl⟩ := hn
    rw [hb]
    exact takes_pure (List.append_nil _)
  · rintro b ls d rfl
    exact hf b d

omit H in
theorem type_takes : type.Takes c (Parsed.Spells .type) := by
  refine takes_peek ?_
  split
  next hk =>
    exact takes_discard (takes_advance (Token.lexeme?_of_keyword hk) fun _ =>
      takes_pure fun _ => ⟨.int, rfl, rfl⟩)
  next hk =>
    exact takes_discard (takes_advance (Token.lexeme?_of_keyword hk) fun _ =>
      takes_pure fun _ => ⟨.char, rfl, rfl⟩)
  next hk =>
    exact takes_discard (takes_advance (Token.lexeme?_of_keyword hk) fun _ =>
      takes_pure fun _ => ⟨.void, rfl, rfl⟩)
  next hk =>
    exact takes_discard (takes_advance (Token.lexeme?_of_keyword hk) fun _ =>
      takes_name fun s _ => takes_pure fun _ => ⟨.struct s, rfl, rfl⟩)
  next => exact takes_refuse

theorem varItem_takes : (varItem parse).Takes c (Parsed.Spells .varItem) := by
  refine takes_stars fun k d => takes_name fun x d => takes_acceptMark (fun d => ?_) ?_
  · refine takes_acceptMark (fun d => takes_pure fun start => ?_) ?_
    · simpa using Derives.unsized k x
    · refine (H .expr d).bind fun n ls d hn => takes_mark fun d => takes_pure fun start => ?_
      simpa using Derives.sized k x hn
  · refine takes_pure fun start => ?_
    simpa using Derives.scalar k x

theorem varDec_takes : (varDec parse).Takes c (Parsed.Spells .varDec) := by
  refine takes_base H fun b d => (takes_commaList (H .varItem)).bind fun ns ls d hns =>
    takes_mark fun d => takes_pure fun start => ?_
  simpa using Derives.declaration b hns

theorem param_takes : (param parse).Takes c (Parsed.Spells .param) := by
  refine takes_base H fun b d => (H .varItem d).bind fun n ls d hn => takes_pure fun start => ?_
  simpa using Derives.parameter b hn

theorem structDef_takes : (structDef parse).Takes c (Parsed.Spells .structDef) := by
  refine takes_keyword fun d => takes_name fun x d => takes_mark fun d =>
    (takes_upTo (H .varDec)).bind fun ns ls d hns => takes_mark fun d => takes_mark fun d =>
      takes_pure fun start => ?_
  simpa using Derives.structDef x hns.1

theorem params_takes : (params parse).Takes c fun ns ls _ =>
    Derives (.parameters (ns.map unplaced)) ls := by
  refine takes_peek (takes_peekAhead (takes_ite (fun hk => ?_) fun _ => takes_ite (fun _ => ?_)
    fun _ => ?_))
  · exact takes_discard (takes_advance (Token.lexeme?_of_keyword hk.1) fun d =>
      takes_pure .voidParameters)
  · exact takes_pure .noParameters
  · exact (takes_commaList (H .param)).mono fun ns ls d h => .someParameters h

theorem functionDef_takes : (functionDef parse).Takes c (Parsed.Spells .functionDef) := by
  refine takes_base H fun b d => takes_stars fun k d => takes_name fun x d => takes_mark fun d =>
    (params_takes H).bind fun ps ls d hps => takes_mark fun d =>
      (H .block d).bind fun n bs d hn => takes_pure fun start => ?_
  simpa using Derives.functionDef b k x hps hn

/-- Every production that an item of a program can belong to spells one. -/
theorem takes_item (c : Cursor) : Takes (fun c => parse (itemProduction c) c) c fun n ls _ =>
    Derives (.one .item n.unplaced) ls := by
  have h : (parse (itemProduction c)).Takes c fun n ls _ => Derives (.one .item n.unplaced) ls := by
    unfold itemProduction
    split
    · exact H .structDef c
    · split
      · exact H .functionDef c
      · exact (H .varDec c).mono fun n ls d h => .global h
  exact h

theorem program_takes : (program parse).Takes c (Parsed.Spells .program) := by
  refine (takes_upTo (takes_item H)).bind fun ns ls d hns => takes_pure fun start => ?_
  exact ⟨by simpa using Derives.program hns.1, of_decide_eq_true hns.2⟩

/-! ### Statements -/

theorem parenthesized_takes : (parenthesized parse).Takes c fun n ls _ =>
    ∃ ms, ls = .mark .lparen :: (ms ++ [.mark .rparen]) ∧
      Derives (.one (.expr .assignment) n.unplaced) ms := by
  refine takes_mark fun d => (H .expr d).bind fun n ls d hn => takes_mark fun d => takes_pure ?_
  exact ⟨ls, rfl, hn⟩

theorem optional_takes (follow : TokenKind) : (optional parse follow).Takes c fun n? ls _ =>
    Derives (.optional (n?.map unplaced)) ls := by
  refine takes_peek (takes_ite (fun _ => takes_pure .absent) fun _ => ?_)
  refine (H .expr c).bind fun n ls d hn => takes_pure ?_
  rw [List.append_nil]
  exact .present hn

theorem statement_takes : (statement parse).Takes c (Parsed.Spells .statement) := by
  refine takes_peek (takes_whole ((H (statementProduction c.kind) c).mono fun n ls d hn => ?_))
  show Derives (.one (.statement (d.kind ≠ .keyword .else_)) n.unplaced) ls
  unfold statementProduction at hn
  split at hn
  case h_1 => exact .blockStatement hn
  case h_10 =>
    split at hn
    · exact .declared hn
    · exact hn
  all_goals exact hn

theorem block_takes : (block parse).Takes c (Parsed.Spells .block) := by
  refine takes_mark fun d => (takes_upTo (s := .statement true) fun c => ?_).bind
    fun ns ls d hns => takes_mark fun d => takes_pure fun start => ?_
  · exact (H .statement c).mono fun n ls d h => Derives.dangling h
  · simpa using Derives.block hns.1

theorem ifElse_takes : (ifElse parse).Takes c (Parsed.Spells .ifElse) := by
  refine takes_keyword fun d => (parenthesized_takes H).bind ?_
  rintro n _ d ⟨cs, rfl, hn⟩
  refine (H .statement d).bind fun t ts d ht => takes_accept (fun hk => ?_) fun hk => ?_
  · refine takes_advance (Token.lexeme?_of_keyword hk) fun d =>
      (H .statement d).bind fun e es d he => takes_pure fun start => ?_
    have ht : Derives (.one (.statement false) t.unplaced) ts := by simpa [hk] using ht
    simpa using Derives.ifElse hn ht he
  · refine takes_pure fun start => ?_
    have ht : Derives (.one (.statement true) t.unplaced) ts := by simpa [hk] using ht
    simpa [hk] using Derives.ifThen hn ht

theorem whileLoop_takes : (whileLoop parse).Takes c (Parsed.Spells .whileLoop) := by
  refine takes_keyword fun d => (parenthesized_takes H).bind ?_
  rintro n _ d ⟨cs, rfl, hn⟩
  refine (H .statement d).bind fun b bs d hb => takes_pure fun start => ?_
  simpa using Derives.whileLoop hn hb

theorem doWhile_takes : (doWhile parse).Takes c (Parsed.Spells .doWhile) := by
  refine takes_keyword fun d => (H .statement d).bind fun b bs d hb => takes_keyword fun d =>
    (parenthesized_takes H).bind ?_
  rintro n _ d ⟨cs, rfl, hn⟩
  refine takes_mark fun d => takes_pure fun start => ?_
  simpa using Derives.doWhile (Derives.dangling hb) hn

theorem forLoop_takes : (forLoop parse).Takes c (Parsed.Spells .forLoop) := by
  refine takes_keyword fun d => takes_mark fun d => (optional_takes H _).bind fun i is d hi =>
    takes_mark fun d => (optional_takes H _).bind fun n cs d hn => takes_mark fun d =>
      (optional_takes H _).bind fun s ss d hs => takes_mark fun d =>
        (H .statement d).bind fun b bs d hb => takes_pure fun start => ?_
  simpa using Derives.forLoop hi hn hs hb

theorem returns_takes : (returns parse).Takes c (Parsed.Spells .returns) := by
  refine takes_keyword fun d => (optional_takes H _).bind fun n ls d hn => takes_mark fun d =>
    takes_pure fun start => ?_
  simpa using Derives.returns hn

theorem exprStatement_takes : (exprStatement parse).Takes c (Parsed.Spells .exprStatement) := by
  refine (H .expr c).bind fun n ls d hn => takes_mark fun d => takes_pure fun start => ?_
  simpa using Derives.exprStatement hn

/-! ### Expressions -/

theorem assignment_takes : (assignment parse).Takes c (Parsed.Spells .assignment) := by
  refine (H .logicalOr c).bind fun l ls d hl => takes_acceptMark (fun d => ?_) ?_
  · refine takes_peek (Takes.bind (H _ d) fun r rs e hr => takes_pure fun start => ?_)
    split at hr
    · simpa using Derives.assignValues hl hr
    · simpa using Derives.assign hl hr
  · refine takes_pure fun start => ?_
    rw [List.append_nil]
    exact @Derives.loosen .assignment _ _ hl

theorem arrayInit_takes : (arrayInit parse).Takes c (Parsed.Spells .arrayInit) := by
  refine takes_mark fun d => takes_acceptMark (fun d => takes_pure fun start => ?_) ?_
  · simpa using Derives.initializer .noValues
  · refine (takes_commaList (H .assignment)).bind fun ns ls d hns => takes_mark fun d =>
      takes_pure fun start => ?_
    simpa using Derives.initializer (.someValues hns)

theorem call_takes : (call parse).Takes c (Parsed.Spells .call) := by
  refine takes_name fun f d => takes_mark fun d =>
    takes_acceptMark (fun d => takes_pure fun start => ?_) ?_
  · simpa using Derives.call f .noValues
  · refine (takes_commaList (H .assignment)).bind fun ns ls d hns => takes_mark fun d =>
      takes_pure fun start => ?_
    simpa using Derives.call f (.someValues hns)

theorem takes_operand {ℓ : Precedence} (hℓ : ℓ ≠ .primary) (c : Cursor) :
    (parse ℓ.production).Takes c fun n ls _ => Derives (.one (.expr ℓ) n.unplaced) ls := by
  cases ℓ with
  | primary => exact absurd rfl hℓ
  | _ => exact H _ c

/-- A chain goes on with an expression that has been read. -/
theorem chain_takes {level : Level} {ℓ : Precedence} (hℓ : level.IsFor ℓ) (start : Location)
    (fuel : Nat) (left : Node) (c : Cursor) : (chain parse level start fuel left).Takes c
      fun n ms _ => ∀ ls, Derives (.one (.expr ℓ) left.unplaced) ls →
        Derives (.one (.expr ℓ) n.unplaced) (ls ++ ms) := by
  induction fuel generalizing left c with
  | zero =>
    intro _ n d h
    cases h
  | succ fuel ih =>
    refine takes_peek ?_
    split
    next =>
      refine takes_pure fun ls hl => ?_
      rwa [List.append_nil]
    next op hop =>
      obtain ⟨rfl, hk⟩ := (hℓ.operator _ _).1 hop
      refine takes_discard (takes_advance (Token.lexeme?_of_mark hk) fun d => ?_)
      rw [hℓ.operand, hℓ.production]
      refine (takes_operand H hℓ.tighter d).bind fun r rs d hr => (ih _ d).mono ?_
      intro n ms e hn ls hl
      simpa using hn _ (.binary hl hr)

theorem binary_takes {level : Level} {ℓ : Precedence} (hℓ : level.IsFor ℓ) :
    (binary parse level).Takes c fun r ls _ => ∀ p start,
      Derives (.one (.expr ℓ) (r.node p start).unplaced) ls := by
  refine takes_here ?_
  rw [hℓ.operand]
  refine (takes_operand H hℓ.tighter c).bind fun l ls d hl => takes_remaining ?_
  refine (chain_takes H hℓ _ _ l d).bind fun n ms e hn => takes_pure fun p start => ?_
  rw [List.append_nil]
  exact hn ls (.loosen hl)

theorem sizeof_takes : (sizeof parse).Takes c (Parsed.Spells .unary) := by
  refine takes_keyword fun d => takes_peek (takes_peekAhead (takes_ite (fun hk => ?_) fun _ => ?_))
  · refine takes_discard (takes_advance (Token.lexeme?_of_mark hk.1) fun d =>
      takes_base H fun b d => takes_stars fun k d => takes_mark fun d => takes_pure fun start => ?_)
    simpa using Derives.sizeofType b k
  · refine (H .unary d).bind fun n ls d hn => takes_pure fun start => ?_
    simpa using Derives.sizeofExpr hn

/-- An operator in front of its operand. -/
theorem operator_takes {p : Punct} {f : Node → Shape} (hk : c.kind = .punct p)
    (hf : ∀ {n ls start}, Derives (.one (.expr .unary) (unplaced n)) ls →
      Derives (.one (.expr .unary) ((parts (f n)).node .unary start).unplaced) (.mark p :: ls)) :
    (discard advance >>= fun _ => parse .unary >>= fun n => pure (parts (f n))).Takes c
      (Parsed.Spells .unary) := by
  refine takes_discard (takes_advance (Token.lexeme?_of_mark hk) fun d =>
    (H .unary d).bind fun n ls d hn => takes_pure fun start => ?_)
  rw [List.append_nil]
  exact hf hn

theorem unary_takes : (unary parse).Takes c (Parsed.Spells .unary) := by
  refine takes_peek ?_
  split
  next hk =>
    exact operator_takes H hk fun h => by simpa [UnaryOp.mark] using @Derives.unary .neg _ _ h
  next hk =>
    exact operator_takes H hk fun h => by simpa [UnaryOp.mark] using @Derives.unary .not _ _ h
  next hk => exact operator_takes H hk fun h => by simpa using Derives.deref h
  next hk => exact operator_takes H hk fun h => by simpa using Derives.addressOf h
  next => exact sizeof_takes H
  next => exact takes_whole ((H .suffix c).mono fun n ls d hn => @Derives.loosen .unary _ _ hn)

/-- Suffixes go on with an expression that has been read. -/
theorem suffixes_takes (start : Location) (fuel : Nat) (node : Node) (c : Cursor) :
    (suffixes parse start fuel node).Takes c fun n ms _ => ∀ ls,
      Derives (.one (.expr .suffix) node.unplaced) ls →
        Derives (.one (.expr .suffix) n.unplaced) (ls ++ ms) := by
  induction fuel generalizing node c with
  | zero =>
    intro _ n d h
    cases h
  | succ fuel ih =>
    refine takes_peek ?_
    split
    next hk =>
      refine takes_discard (takes_advance (Token.lexeme?_of_mark hk) fun d =>
        (H .expr d).bind fun i is d hi => takes_mark fun d => (ih _ d).mono ?_)
      intro n ms e hn ls hl
      simpa using hn _ (.index hl hi)
    next hk =>
      refine takes_discard (takes_advance (Token.lexeme?_of_mark hk) fun d =>
        takes_name fun f d => (ih _ d).mono ?_)
      intro n ms e hn ls hl
      simpa using hn _ (.member f hl)
    next hk =>
      refine takes_discard (takes_advance (Token.lexeme?_of_mark hk) fun d =>
        takes_name fun f d => (ih _ d).mono ?_)
      intro n ms e hn ls hl
      simpa using hn _ (.pointerMember f hl)
    next =>
      refine takes_pure fun ls hl => ?_
      rwa [List.append_nil]

theorem suffix_takes : (suffix parse).Takes c (Parsed.Spells .suffix) := by
  refine takes_here ((H .primary c).bind fun l ls d hl => takes_remaining ?_)
  refine (suffixes_takes H _ _ l d).bind fun n ms e hn => takes_pure fun start => ?_
  rw [List.append_nil]
  exact hn ls hl

theorem primary_takes : (primary parse).Takes c (Parsed.Spells .primary) := by
  refine takes_peek ?_
  split
  next =>
    refine takes_peekAhead (takes_whole (Takes.mono (H _ c) fun n ls d hn => ?_))
    split at hn
    · exact hn
    · exact @Derives.loosen .suffix _ _ hn
  iterate 4
    next => exact takes_whole ((H .literal c).mono fun n ls d hn => @Derives.loosen .suffix _ _ hn)
  next =>
    refine takes_whole ((parenthesized_takes H).mono ?_)
    rintro n _ d ⟨ls, rfl, hn⟩
    exact @Derives.loosen .suffix _ _ (.group hn)
  next => exact takes_refuse

omit H in
theorem takes_literal {l : Lexeme} {shape : Shape} (h : l.literal? = some shape) :
    (pure (parts shape) : Parse Parsed).Takes c fun r ms d => r.Spells .literal (l :: ms) d := by
  refine takes_pure fun start => ?_
  show Derives (.one (.expr .primary) _) _
  rw [unplaced_parts, Lexeme.node_of_literal? h]
  exact .literal h

omit H in
theorem literal_takes : literal.Takes c (Parsed.Spells .literal) := by
  cases hl : c.here.lexeme? with
  | none =>
    -- The end of the file is no literal.
    intro _ r d h
    rw [literal, advance_bind, Token.lexeme?_eq_none.1 hl] at h
    cases h
  | some l =>
    refine takes_advance hl fun d => ?_
    rw [Token.lexeme?] at hl
    split
    next hk =>
      rw [hk] at hl
      cases hl
      split
      next w hw => exact takes_literal (by rw [Lexeme.literal?, hw]; rfl)
      next => exact takes_fail
    iterate 3
      next hk =>
        rw [hk] at hl
        cases hl
        exact takes_literal rfl
    next => exact takes_fail

/-- Each rule takes words that spell what it makes. -/
theorem of_takes (p : Production) : (of parse p).Takes c (Parsed.Spells p) := by
  have level : ∀ {ℓ l}, Precedence.level? ℓ = some l →
      (binary parse l).Takes c fun r ls _ => ∀ p start,
        Derives (.one (.expr ℓ) (r.node p start).unplaced) ls :=
    fun hℓ => binary_takes H (isFor_of_level? hℓ)
  cases p with
  | program => exact program_takes H
  | structDef => exact structDef_takes H
  | functionDef => exact functionDef_takes H
  | param => exact param_takes H
  | type => exact type_takes
  | varDec => exact varDec_takes H
  | varItem => exact varItem_takes H
  | statement => exact statement_takes H
  | block => exact block_takes H
  | ifElse => exact ifElse_takes H
  | whileLoop => exact whileLoop_takes H
  | doWhile => exact doWhile_takes H
  | forLoop => exact forLoop_takes H
  | returns => exact returns_takes H
  | breaks =>
    refine takes_keyword fun d => takes_mark fun d => takes_pure fun start => ?_
    simpa using Derives.breaks
  | continues =>
    refine takes_keyword fun d => takes_mark fun d => takes_pure fun start => ?_
    simpa using Derives.continues
  | empty =>
    refine takes_mark fun d => takes_pure fun start => ?_
    simpa using Derives.empty
  | exprStatement => exact exprStatement_takes H
  | expr => exact takes_whole (H .assignment c)
  | assignment => exact assignment_takes H
  | arrayInit => exact arrayInit_takes H
  | logicalOr => exact (@level .or _ rfl).mono fun r ls d h => h _
  | logicalAnd => exact (@level .and _ rfl).mono fun r ls d h => h _
  | equality => exact (@level .equality _ rfl).mono fun r ls d h => h _
  | relational => exact (@level .relational _ rfl).mono fun r ls d h => h _
  | additive => exact (@level .additive _ rfl).mono fun r ls d h => h _
  | multiplicative => exact (@level .multiplicative _ rfl).mono fun r ls d h => h _
  | unary => exact unary_takes H
  | suffix => exact suffix_takes H
  | primary => exact primary_takes H
  | call => exact call_takes H
  | identifier =>
    refine takes_name fun x d => takes_pure fun start => ?_
    simpa using Derives.identifier x
  | literal => exact literal_takes
  | other name =>
    intro _ r d h
    cases h

end Rule

/-- **Every production takes words that spell the tree that it gives**, however deep its calls may
nest. -/
theorem parseWithin_takes (g : Grammar) (fuel : Nat) (p : Production) (c : Cursor) :
    (parseWithin g fuel p).Takes c p.Spells := by
  induction fuel generalizing p c with
  | zero =>
    intro _ n d h
    cases h
  | succ fuel ih =>
    intro hc n d h
    simp only [parseWithin, parseStep] at h
    split at h
    · cases hr : Rule.of (parseWithin g fuel) p c with
      | error e => simp [hr] at h
      | ok r =>
        obtain ⟨parsed, e⟩ := r
        simp only [hr, Except.ok.injEq, Prod.mk.injEq] at h
        obtain ⟨rfl, rfl⟩ := h
        obtain ⟨ls, hl, hs⟩ := Rule.of_takes ih p hc parsed e hr
        exact ⟨ls, hl, hs c.loc⟩
    · cases h

end MiniC
