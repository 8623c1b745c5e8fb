/-
  The rules of the grammar read promptly.

  Each rule stops at the first token that no way to write its construct goes on with: what it has
  taken is the beginning of such a way (`Production.Viable`), and the token that it refuses does not
  depend on what comes behind it.  There is one lemma for each rule, given that the rules for its parts
  read promptly (`Rule.Promptly`), as far as calls may nest.

  A rule looks behind the next token in three places: at the parameters of a function, at the operand
  of `sizeof` and at a name in an expression.  The next token is taken there whatever is behind it,
  which is why the look does no harm (`Parse.prompt_peekAhead`).
-/
import MiniC.Proofs.Promptness

namespace MiniC

/-! ## What has been taken -/

namespace Production

/-- What a production has taken is the beginning of words that it reads. -/
@[simp] def Viable : Production → List Lexeme → Prop
  | .type, ls => ∃ ms b, ls ++ ms = Base.lexemes b
  | .program, ls => Category.program.Viable ls
  | .structDef, ls | .functionDef, ls => Category.item.Viable ls
  | .param, ls => Category.parameter.Viable ls
  | .varDec, ls => Category.declaration.Viable ls
  | .varItem, ls => Category.declarator.Viable ls
  | .block, ls => Category.block.Viable ls
  | .statement, ls | .ifElse, ls | .whileLoop, ls | .doWhile, ls | .forLoop, ls | .returns, ls
  | .breaks, ls | .continues, ls | .empty, ls | .exprStatement, ls =>
    (Category.statement true).Viable ls
  | .expr, ls | .assignment, ls => (Category.expr .assignment).Viable ls
  | .arrayInit, ls => Category.initializer.Viable ls
  | .logicalOr, ls => (Category.expr .or).Viable ls
  | .logicalAnd, ls => (Category.expr .and).Viable ls
  | .equality, ls => (Category.expr .equality).Viable ls
  | .relational, ls => (Category.expr .relational).Viable ls
  | .additive, ls => (Category.expr .additive).Viable ls
  | .multiplicative, ls => (Category.expr .multiplicative).Viable ls
  | .unary, ls => (Category.expr .unary).Viable ls
  | .suffix, ls | .primary, ls | .call, ls => (Category.expr .suffix).Viable ls
  | .identifier, ls | .literal, ls => (Category.expr .primary).Viable ls
  | .other _, _ => True

/-- How many calls nest below that of a production before a token is taken. -/
def rank : Production → Nat
  | .program => 14
  | .statement => 13
  | .exprStatement => 12
  | .expr => 11
  | .assignment => 10
  | .logicalOr => 9
  | .logicalAnd => 8
  | .equality => 7
  | .relational => 6
  | .additive => 5
  | .multiplicative => 4
  | .unary => 3
  | .suffix => 2
  | .primary | .functionDef | .varDec | .param => 1
  | _ => 0

/-- How deep calls nest at most below that of a production. -/
def depth (p : Production) (c : Cursor) : Nat := c.later.length * callsPerToken + p.rank

theorem rank_lt (p : Production) : p.rank < callsPerToken := by
  cases p <;> simp [rank, callsPerToken]

theorem depth_lt_of_le {p q : Production} {c d : Cursor} (h : d.later.length ≤ c.later.length)
    (hr : p.rank < q.rank) : p.depth d < q.depth c :=
  Nat.add_lt_add_of_le_of_lt (Nat.mul_le_mul_right _ h) hr

theorem depth_lt_of_rank {p q : Production} (h : p.rank < q.rank) (c : Cursor) :
    p.depth c < q.depth c := depth_lt_of_le (Nat.le_refl _) h

/-- Behind a token that has been taken calls nest less deep. -/
theorem depth_behind {p q : Production} {c d : Cursor} (h : d.later.length < c.later.length) :
    p.depth d < q.depth c := by
  have hp := p.rank_lt
  unfold depth callsPerToken at *
  omega

end Production

namespace Rule

open Parse Node

/-- The rule of a production reads promptly, with the parser for its parts nesting up to `fuel` deep. -/
def Prompts (fuel : Nat) (p : Production) (c : Cursor) : Prop :=
  Prompt (of (parseWithin .full fuel) p) (fun i => of (parseWithin .full i) p) c p.Viable
    (fuel < p.depth c)

variable {α ι : Type} {fuel w : Nat} {c : Cursor} {V : List Lexeme → Prop}

/-- The parser reads promptly, unless calls nest too deep. -/
def Promptly (fuel : Nat) : Prop := ∀ p c, Prompt (parseWithin .full fuel p)
  (fun i => parseWithin .full i p) c p.Viable (fuel ≤ p.depth c)

variable (H : Promptly fuel)
include H

/-- A part of a construct. -/
theorem prompt_part {p : Production} (k : ι → Nat) (hw : p.depth c < w)
    (hV : ∀ ls, p.Viable ls → V ls) :
    Prompt (parseWithin .full fuel p) (fun i => parseWithin .full (k i) p) c V (fuel < w) :=
  ((H p c).mono hV fun h => Nat.lt_of_le_of_lt h hw).reindex k

/-- A part of a construct, and what follows it. -/
theorem prompt_call {p : Production} {k : ι → Nat} {f : Node → Parse α} {G : ι → Node → Parse α}
    (hw : p.depth c < w) (hV : ∀ ls, p.Viable ls → V ls)
    (hf : ∀ n ls d, p.Spells n ls d → c.later.length = ls.length + d.later.length →
      Prompt (f n) (fun i => G i n) d (fun ms => V (ls ++ ms)) (fuel < w)) :
    Prompt (parseWithin .full fuel p >>= f) (fun i => parseWithin .full (k i) p >>= G i) c V
      (fuel < w) :=
  (prompt_part H k hw hV).bind (parseWithin_takes .full fuel p c) hf

/-- A rule that hands on a node. -/
theorem prompt_whole {p q : Production} (hw : p.depth c < q.depth c)
    (hV : ∀ ls, p.Viable ls → q.Viable ls) :
    Prompt (parseWithin .full fuel p >>= fun n => pure (Parsed.whole n))
      (fun i => parseWithin .full i p >>= fun n => pure (Parsed.whole n)) c q.Viable
      (fuel < q.depth c) :=
  prompt_call H hw hV fun _ _ _ _ _ => prompt_pure

/-- Parts with commas between them, and what follows them. -/
theorem prompt_list {p : Production} {s : Category} {f : List Node → Parse α}
    {G : Nat → List Node → Parse α}
    (hp : ∀ n ls d, p.Spells n ls d → Derives (.one s n.unplaced) ls)
    (hv : ∀ ls, p.Viable ls → s.Viable ls)
    (hw : ∀ d : Cursor, d.later.length ≤ c.later.length → p.depth d < w)
    (hV : ∀ ls, Viable (Phrase.listed s) ls → V ls)
    (hf : ∀ ns ls d, Derives (.listed s (ns.map unplaced)) ls →
      c.later.length = ls.length + d.later.length →
      Prompt (f ns) (fun i => G i ns) d (fun ms => V (ls ++ ms)) (fuel < w)) :
    Prompt (commaList (parseWithin .full fuel p) >>= f)
      (fun i => commaList (parseWithin .full i p) >>= G i) c V (fuel < w) := by
  have taken : ∀ d, (parseWithin .full fuel p).Takes d fun n ls _ => Derives (.one s n.unplaced) ls :=
    fun d => (parseWithin_takes .full fuel p d).mono hp
  exact ((prompt_commaList taken fun d hd => prompt_part H id (hw d hd) hv).mono hV id).bind
    (takes_commaList taken) hf

/-- Parts up to a token that ends them, and what follows them. -/
theorem prompt_series {ends : TokenKind → Bool} {p : Production} {s : Category}
    {f : List Node → Parse α} {G : Nat → List Node → Parse α} (hs : s ≠ .program)
    (hp : ∀ n ls d, p.Spells n ls d → Derives (.one s n.unplaced) ls)
    (hv : ∀ ls, p.Viable ls → s.Viable ls)
    (hw : ∀ d : Cursor, d.later.length ≤ c.later.length → p.depth d < w)
    (hV : ∀ ls, Viable (Phrase.series s) ls → V ls)
    (hf : ∀ ns ls d, Derives (.series s (ns.map unplaced)) ls →
      c.later.length = ls.length + d.later.length →
      Prompt (f ns) (fun i => G i ns) d (fun ms => V (ls ++ ms)) (fuel < w)) :
    Prompt (upTo ends (parseWithin .full fuel p) >>= f)
      (fun i => upTo ends (parseWithin .full i p) >>= G i) c V (fuel < w) := by
  have taken : ∀ d, (parseWithin .full fuel p).Takes d fun n ls _ => Derives (.one s n.unplaced) ls :=
    fun d => (parseWithin_takes .full fuel p d).mono hp
  exact ((prompt_upTo hs taken fun d hd => prompt_part H id (hw d hd) hv).mono hV id).bind
    (takes_upTo taken) fun ns ls d h => hf ns ls d h.1

/-! ## Declarations -/

theorem prompt_base {f : Base → Parse α} {G : Nat → Base → Parse α}
    (hw : Production.type.depth c < w) (hV : ∀ ls ms b, ls ++ ms = Base.lexemes b → V ls)
    (hf : ∀ b d, c.later.length = (Base.lexemes b).length + d.later.length →
      Prompt (f b) (fun i => G i b) d (fun ms => V (b.lexemes ++ ms)) (fuel < w)) :
    Prompt (base (parseWithin .full fuel) >>= f) (fun i => base (parseWithin .full i) >>= G i) c V
      (fuel < w) := by
  refine Prompt.bind (P := fun b ls _ => ls = b.lexemes) ?_ ?_ ?_
  · refine prompt_call H hw (fun ls ⟨ms, b, h⟩ => hV ls ms b h) fun n ls d hn _ => ?_
    obtain ⟨b, hb, rfl⟩ := hn
    simp only [hb]
    exact prompt_pure
  · refine (parseWithin_takes .full fuel .type c).bind fun n ls d hn => ?_
    obtain ⟨b, hb, rfl⟩ := hn
    rw [hb]
    exact takes_pure (List.append_nil _)
  · rintro b ls d rfl hlen
    exact hf b d hlen

omit H in
theorem type_prompt {D : Prop} : Prompt type (fun _ : ι => type) c Production.type.Viable D := by
  have none : Production.type.Viable [] := ⟨_, .int, rfl⟩
  refine prompt_peek ?_
  generalize hk : c.kind = k
  have word : ∀ {kw : Keyword} {b : Base}, k = .keyword kw →
      Prompt (discard advance >>= fun _ => pure (Parsed.parts (.type b)))
        (fun _ : ι => discard advance >>= fun _ => pure (Parsed.parts (.type b))) c
        Production.type.Viable D := fun h =>
    prompt_discard (prompt_advance (Token.lexeme?_of_keyword (hk.trans h)) fun _ _ => prompt_pure)
  split
  · exact word rfl
  · exact word rfl
  · exact word rfl
  · refine prompt_discard (prompt_advance (Token.lexeme?_of_keyword hk) fun d _ => ?_)
    exact prompt_name ⟨[.name "x"], .struct "x", rfl⟩ fun s _ _ => prompt_pure
  · exact prompt_refuse none

theorem varItem_prompt : Prompts fuel .varItem c := by
  refine prompt_stars fun k d hd => prompt_name (Viable.of (.scalar k "x") (by simp))
    fun x e he => prompt_acceptMark (fun f hf => prompt_acceptMark (fun g hg => prompt_pure) ?_)
      prompt_pure
  refine prompt_call H (Production.depth_behind (by omega)) ?_ fun n ls g hn hg =>
    prompt_mark (Viable.of (.sized k x hn) (by simp)) fun _ _ => prompt_pure
  rintro ls ⟨ms, n, hn⟩
  exact Viable.of (.sized k x hn) (by simp)

theorem varDec_prompt : Prompts fuel .varDec c := by
  refine prompt_base H (Production.depth_lt_of_rank (by decide) c) ?_ fun b d hd => ?_
  · intro ls ms b h
    exact Viable.of (.declaration b (.last (.scalar 0 "x"))) (by simp [Lexeme.stars, ← h])
  have hb := b.lexemes_length_pos
  refine prompt_list H (s := .declarator) (fun _ _ _ h => h) (fun _ h => h)
    (fun e he => Production.depth_behind (by omega)) ?_ fun ns ls e hns he =>
      prompt_mark (Viable.of (.declaration b hns) (by simp)) fun _ _ => prompt_pure
  rintro ls ⟨ms, ns, hns⟩
  exact Viable.of (.declaration b hns) (by simp)

theorem param_prompt : Prompts fuel .param c := by
  refine prompt_base H (Production.depth_lt_of_rank (by decide) c) ?_ fun b d hd => ?_
  · intro ls ms b h
    exact Viable.of (.parameter b (.scalar 0 "x")) (by simp [Lexeme.stars, ← h])
  have hb := b.lexemes_length_pos
  refine prompt_call H (Production.depth_behind (by omega)) ?_ fun _ _ _ _ _ => prompt_pure
  rintro ls ⟨ms, n, hn⟩
  exact Viable.of (.parameter b hn) (by simp)

theorem structDef_prompt : Prompts fuel .structDef c := by
  -- A structure without members.
  have none : ∀ x, Derives (.one .item (Shape.structDef x []).node)
      [.keyword .struct, .name x, .mark .lbrace, .mark .rbrace, .mark .semicolon] :=
    fun x => .structDef x .nil
  refine prompt_keyword (Viable.of (none "x") (by simp)) fun d hd =>
    prompt_name (Viable.of (none "x") (by simp)) fun x e he =>
      prompt_mark (Viable.of (none x) (by simp)) fun f hf => ?_
  refine prompt_series H (s := .declaration) nofun (fun _ _ _ h => h) (fun _ h => h)
    (fun e he => Production.depth_behind (by omega)) ?_ fun ns ls g hns hg =>
      prompt_mark (Viable.of (.structDef x hns) (by simp)) fun _ _ =>
        prompt_mark (Viable.of (.structDef x hns) (by simp)) fun _ _ => prompt_pure
  rintro ls ⟨ms, ns, hns⟩
  exact Viable.of (.structDef x hns) (by simp)

/-- The parameters of a function.  A `void` in front of them is taken in any case: another word may
stand behind it. -/
theorem params_prompt
    (hw : ∀ d : Cursor, d.later.length ≤ c.later.length → Production.param.depth d < w) :
    Prompt (params (parseWithin .full fuel)) (fun i => params (parseWithin .full i)) c
      (Viable Phrase.parameters) (fuel < w) := by
  have taken : ∀ d, (parseWithin .full fuel .param).Takes d fun n ls _ =>
      Derives (.one .parameter n.unplaced) ls := parseWithin_takes .full fuel .param
  have listed : Prompt (commaList (parseWithin .full fuel .param))
      (fun i => commaList (parseWithin .full i .param)) c (Viable (Phrase.listed .parameter))
      (fuel < w) := prompt_commaList taken fun d hd => prompt_part H id (hw d hd) fun _ h => h
  have some : ∀ ls, Viable (Phrase.listed .parameter) ls → Viable Phrase.parameters ls :=
    fun ls ⟨ms, ns, h⟩ => ⟨ms, ns, .someParameters h⟩
  have none : Viable Phrase.parameters [] := ⟨[], [], .noParameters⟩
  refine prompt_peek (prompt_lookahead (fun hv hp => ?_) (fun hv => ?_) (fun hv => ?_) (fun hv => ?_)
    fun hv => ?_)
  · exact prompt_discard (prompt_advance (Token.lexeme?_of_keyword hv) fun d _ => prompt_pure)
  · exact takes_discard (takes_advance (Token.lexeme?_of_keyword hv) fun d => takes_pure (by simp))
  · have h : Derives (.listed .parameter [(Shape.param .void (Shape.varItem 0 "x").node).node])
        [.keyword .void, .name "x"] := .last (.parameter .void (.scalar 0 "x"))
    have hp : c.kind ≠ .punct .rparen := by simp [hv]
    simp only [if_neg hp]
    refine (listed.begun fun hc => ?_).mono (fun _ h => ⟨h.1, some _ h.2⟩) id
    obtain ⟨c', hs, hr⟩ := (Cursor.Reads.nil c).turned hc (Token.lexeme?_of_keyword hv) [.name "x"]
    obtain ⟨ns, hn, -⟩ := h.accepted.commaList hr nofun nofun nofun (Nat.lt_succ_self _)
    exact ⟨c', _, ns, _, hs, hn⟩
  · rw [if_neg (by simp [hv])]
    refine (takes_commaList taken).mono fun ns ls d h => ?_
    obtain ⟨l, ls, rfl, -⟩ := h.opens nofun
    exact List.cons_ne_nil l ls
  · exact prompt_ite (fun _ => prompt_pure) fun _ => listed.mono some id

theorem functionDef_prompt : Prompts fuel .functionDef c := by
  -- A function without parameters and statements.
  have none : ∀ b k x, Derives (.one .item (Shape.functionDef b k x [] (Shape.block []).node).node)
      (b.lexemes ++ (Lexeme.stars k ++
        [.name x, .mark .lparen, .mark .rparen, .mark .lbrace, .mark .rbrace])) :=
    fun b k x => .functionDef b k x .noParameters (.block .nil)
  refine prompt_base H (Production.depth_lt_of_rank (by decide) c) ?_ fun b d hd => ?_
  · intro ls ms b h
    exact Viable.of (none b 0 "x") (by simp [← h])
  have hb := b.lexemes_length_pos
  refine prompt_stars fun k e he => prompt_name (Viable.of (none b k "x") (by simp)) fun x f hf =>
    prompt_mark (Viable.of (none b k x) (by simp)) fun g hg => ?_
  refine ((params_prompt H fun e he => Production.depth_behind (by omega)).mono ?_ id).bind
    (params_takes (parseWithin_takes .full fuel)) fun ps ls h hps hh =>
      prompt_mark (Viable.of (.functionDef b k x hps (.block .nil)) (by simp)) fun i hi =>
        prompt_call H (Production.depth_behind (by omega)) ?_ fun _ _ _ _ _ => prompt_pure
  · rintro ls ⟨ms, ps, hps⟩
    exact Viable.of (.functionDef b k x hps (.block .nil)) (by simp)
  · rintro bs ⟨ms, n, hn⟩
    exact Viable.of (.functionDef b k x hps hn) (by simp)

/-! ## Statements -/

theorem prompt_parenthesized {f : Node → Parse α} {G : Nat → Node → Parse α}
    (hw : ∀ d : Cursor, d.later.length < c.later.length → Production.expr.depth d < w)
    (hV : ∀ ls us n, Derives (.one (.expr .assignment) n) us →
      ls <+: .mark .lparen :: (us ++ [.mark .rparen]) → V ls)
    (hf : ∀ n ls d, Derives (.one (.expr .assignment) n.unplaced) ls →
      c.later.length = ls.length + d.later.length + 2 →
      Prompt (f n) (fun i => G i n) d
        (fun ms => V (.mark .lparen :: (ls ++ .mark .rparen :: ms))) (fuel < w)) :
    Prompt (parenthesized (parseWithin .full fuel) >>= f)
      (fun i => parenthesized (parseWithin .full i) >>= G i) c V (fuel < w) := by
  have inner : Prompt (parenthesized (parseWithin .full fuel))
      (fun i => parenthesized (parseWithin .full i)) c V (fuel < w) := by
    refine prompt_mark (hV _ _ _ (.name _ "x") List.nil_prefix) fun d hd =>
      prompt_call H (hw d (by omega)) ?_ fun n ls e hn he =>
        prompt_mark (hV _ _ _ hn (by simp)) fun _ _ => prompt_pure
    rintro ls ⟨ms, n, hn⟩
    exact hV _ _ _ hn (by simp)
  refine inner.bind (parenthesized_takes (parseWithin_takes .full fuel)) ?_
  rintro n _ d ⟨ls, rfl, hn⟩ hlen
  simp only [List.length_cons, List.length_append, List.length_nil] at hlen
  have h := hf n ls d hn (by omega)
  simpa using h

theorem prompt_optional {follow : TokenKind} {f : Option Node → Parse α}
    {G : Nat → Option Node → Parse α} (hw : Production.expr.depth c < w)
    (hV : ∀ ls ms n?, Derives (.optional n?) (ls ++ ms) → V ls)
    (hf : ∀ n? ls d, Derives (.optional (n?.map unplaced)) ls →
      c.later.length = ls.length + d.later.length →
      Prompt (f n?) (fun i => G i n?) d (fun ms => V (ls ++ ms)) (fuel < w)) :
    Prompt (optional (parseWithin .full fuel) follow >>= f)
      (fun i => optional (parseWithin .full i) follow >>= G i) c V (fuel < w) := by
  have inner : Prompt (optional (parseWithin .full fuel) follow)
      (fun i => optional (parseWithin .full i) follow) c V (fuel < w) := by
    refine prompt_peek (prompt_ite (fun _ => prompt_pure) fun _ => ?_)
    refine prompt_call H hw ?_ fun _ _ _ _ _ => prompt_pure
    rintro ls ⟨ms, n, hn⟩
    exact hV ls ms (some n) (.present hn)
  exact inner.bind (optional_takes (parseWithin_takes .full fuel) follow) hf

omit H in
theorem statementProduction_rank_lt (k : TokenKind) :
    (statementProduction k).rank < Production.statement.rank := by
  unfold statementProduction
  split
  case h_10 => split <;> decide
  all_goals decide

omit H in
theorem statementProduction_viable (k : TokenKind) {ls : List Lexeme}
    (h : (statementProduction k).Viable ls) : Production.statement.Viable ls := by
  unfold statementProduction at h
  split at h
  case h_1 =>
    obtain ⟨ms, n, hn⟩ := h
    exact ⟨ms, n, .blockStatement hn⟩
  case h_10 =>
    split at h
    · obtain ⟨ms, n, hn⟩ := h
      exact ⟨ms, n, .declared hn⟩
    · exact h
  all_goals exact h

theorem statement_prompt : Prompts fuel .statement c :=
  prompt_peek (prompt_whole H (Production.depth_lt_of_rank (statementProduction_rank_lt _) c)
    fun _ => statementProduction_viable _)

theorem block_prompt : Prompts fuel .block c := by
  refine prompt_mark (Viable.of (.block .nil) (by simp)) fun d hd =>
    prompt_series H (s := .statement true) nofun (fun _ _ _ h => Derives.dangling h) (fun _ h => h)
      (fun e he => Production.depth_behind (by omega)) ?_ fun ns ls e hns he =>
        prompt_mark (Viable.of (.block hns) (by simp)) fun _ _ => prompt_pure
  rintro ls ⟨ms, ns, hns⟩
  exact Viable.of (.block hns) (by simp)

/-- A statement inside another one, given how the other one is completed. -/
theorem prompt_inner {f : Node → Parse α} {G : Nat → Node → Parse α}
    (hw : Production.statement.depth c < w)
    (hV : ∀ ls us n, Derives (.one (.statement true) n) us → ls <+: us → V ls)
    (hf : ∀ n ls d, Derives (.one (.statement (d.kind ≠ .keyword .else_)) n.unplaced) ls →
      c.later.length = ls.length + d.later.length →
      Prompt (f n) (fun i => G i n) d (fun ms => V (ls ++ ms)) (fuel < w)) :
    Prompt (parseWithin .full fuel .statement >>= f)
      (fun i => parseWithin .full i .statement >>= G i) c V (fuel < w) :=
  prompt_call H hw (fun ls ⟨_, _, hn⟩ => hV ls _ _ hn (by simp)) hf

theorem ifElse_prompt : Prompts fuel .ifElse c := by
  -- The statement behind a condition is at least an empty one.
  have short : ∀ {n cs}, Derives (.one (.expr .assignment) n) cs → Derives
      (.one (.statement true) (Shape.ifElse n Shape.empty.node none).node)
      (.keyword .if_ :: .mark .lparen :: (cs ++ [.mark .rparen, .mark .semicolon])) :=
    fun h => .ifThen h .empty
  refine prompt_keyword (Viable.of (short (.name _ "x")) (by simp)) fun d hd =>
    prompt_parenthesized H (fun e he => Production.depth_behind (by omega)) ?_ fun n cs e hn he => ?_
  · intro ls us n hn hp
    exact Viable.of (short hn) (List.cons_prefix_cons.2 ⟨rfl, hp.trans (by simp)⟩)
  refine prompt_inner H (Production.depth_behind (by omega)) ?_ fun t ts f ht hf =>
    prompt_accept (fun hk => ?_) fun _ => prompt_pure
  · intro ls us t ht hp
    exact Viable.of (.ifThen hn ht) (by simpa using hp)
  have ht : Derives (.one (.statement false) t.unplaced) ts := by simpa [hk] using ht
  refine prompt_advance (Token.lexeme?_of_keyword hk) fun g hg =>
    prompt_inner H (Production.depth_behind (by omega)) ?_ fun _ _ _ _ _ => prompt_pure
  intro ls us e he hp
  exact Viable.of (.ifElse hn ht he) (by simpa using hp)

theorem whileLoop_prompt : Prompts fuel .whileLoop c := by
  have short : ∀ {n cs}, Derives (.one (.expr .assignment) n) cs → Derives
      (.one (.statement true) (Shape.whileLoop n Shape.empty.node).node)
      (.keyword .while_ :: .mark .lparen :: (cs ++ [.mark .rparen, .mark .semicolon])) :=
    fun h => .whileLoop h .empty
  refine prompt_keyword (Viable.of (short (.name _ "x")) (by simp)) fun d hd =>
    prompt_parenthesized H (fun e he => Production.depth_behind (by omega)) ?_ fun n cs e hn he => ?_
  · intro ls us n hn hp
    exact Viable.of (short hn) (List.cons_prefix_cons.2 ⟨rfl, hp.trans (by simp)⟩)
  refine prompt_inner H (Production.depth_behind (by omega)) ?_ fun _ _ _ _ _ => prompt_pure
  intro ls us b hb hp
  exact Viable.of (.whileLoop hn hb) (by simpa using hp)

theorem doWhile_prompt : Prompts fuel .doWhile c := by
  have short : ∀ {b bs}, Derives (.one (.statement true) b) bs → ∀ {n cs},
      Derives (.one (.expr .assignment) n) cs → Derives
      (.one (.statement true) (Shape.doWhile b n).node)
      (.keyword .do_ ::
        (bs ++ .keyword .while_ :: .mark .lparen :: (cs ++ [.mark .rparen, .mark .semicolon]))) :=
    fun hb _ _ hn => .doWhile hb hn
  refine prompt_keyword (Viable.of (short .empty (.name _ "x")) (by simp)) fun d hd =>
    prompt_inner H (Production.depth_behind (by omega)) ?_ fun b bs e hb he => ?_
  · intro ls us b hb hp
    exact Viable.of (short hb (.name _ "x")) (List.cons_prefix_cons.2 ⟨rfl, hp.trans (by simp)⟩)
  have hb := hb.dangling
  refine prompt_keyword (Viable.of (short hb (.name _ "x")) (by simp)) fun f hf =>
    prompt_parenthesized H (fun e he => Production.depth_behind (by omega)) ?_ fun n cs g hn hg =>
      prompt_mark (Viable.of (short hb hn) (by simp)) fun _ _ => prompt_pure
  intro ls us n hn hp
  refine Viable.of (short hb hn) ?_
  simpa using hp.trans (List.prefix_append _ [Lexeme.mark .semicolon])

theorem forLoop_prompt : Prompts fuel .forLoop c := by
  have whole : ∀ {i n s is cs ss b bs}, Derives (.optional i) is → Derives (.optional n) cs →
      Derives (.optional s) ss → Derives (.one (.statement true) b) bs →
      Derives (.one (.statement true) (Shape.forLoop i n s b).node) (.keyword .for_ :: .mark .lparen ::
        (is ++ .mark .semicolon :: (cs ++ .mark .semicolon :: (ss ++ .mark .rparen :: bs)))) :=
    .forLoop
  refine prompt_keyword (Viable.of (whole .absent .absent .absent .empty) (by simp)) fun d hd =>
    prompt_mark (Viable.of (whole .absent .absent .absent .empty) (by simp)) fun e he =>
      prompt_optional H (Production.depth_behind (by omega)) ?_ fun i is f hi hf => prompt_mark
        (Viable.of (whole hi .absent .absent .empty) (by simp)) fun g hg => ?_
  · intro ls ms i hi
    exact Viable.of (whole hi .absent .absent .empty) (by simp)
  refine prompt_optional H (Production.depth_behind (by omega)) ?_ fun n cs f hn hf =>
    prompt_mark (Viable.of (whole hi hn .absent .empty) (by simp)) fun g hg =>
      prompt_optional H (Production.depth_behind (by omega)) ?_ fun s ss f hs hf => prompt_mark
        (Viable.of (whole hi hn hs .empty) (by simp)) fun g hg =>
          prompt_inner H (Production.depth_behind (by omega)) ?_ fun _ _ _ _ _ => prompt_pure
  · intro ls ms n hn
    exact Viable.of (whole hi hn .absent .empty) (by simp)
  · intro ls ms s hs
    exact Viable.of (whole hi hn hs .empty) (by simp)
  · intro ls us b hb hp
    exact Viable.of (whole hi hn hs hb) (by simpa using hp)

theorem returns_prompt : Prompts fuel .returns c := by
  refine prompt_keyword (Viable.of (.returns .absent) (by simp)) fun d hd =>
    prompt_optional H (Production.depth_behind (by omega)) ?_ fun n ls e hn he =>
      prompt_mark (Viable.of (.returns hn) (by simp)) fun _ _ => prompt_pure
  intro ls ms n hn
  exact Viable.of (.returns hn) (by simp)

omit H in
theorem jump_prompt {k : Keyword} {s : Shape} {n : Node} {D : Prop}
    (h : Derives (.one (.statement true) n) [.keyword k, .mark .semicolon]) :
    Prompt (jump k s) (fun _ : ι => jump k s) c (Category.statement true).Viable D :=
  prompt_keyword (Viable.of h (by simp)) fun _ _ => prompt_mark (Viable.of h (by simp)) fun _ _ =>
    prompt_pure

theorem exprStatement_prompt : Prompts fuel .exprStatement c := by
  refine prompt_call H (Production.depth_lt_of_rank (by decide) c) ?_ fun n ls d hn hd =>
    prompt_mark (Viable.of (.exprStatement hn) (by simp)) fun _ _ => prompt_pure
  rintro ls ⟨ms, n, hn⟩
  exact Viable.of (.exprStatement hn) (by simp)

/-! ## Expressions -/

theorem assignment_prompt : Prompts fuel .assignment c := by
  refine prompt_call H (Production.depth_lt_of_rank (by decide) c) ?_ fun l ls d hl hd =>
    prompt_acceptMark (fun e he => prompt_peek ?_) prompt_pure
  · rintro ls ⟨ms, n, hn⟩
    exact Viable.of (@Derives.loosen .assignment _ _ hn) (by simp)
  refine prompt_call H (Production.depth_behind (by omega)) ?_ fun _ _ _ _ _ => prompt_pure
  split
  · rintro ls ⟨ms, r, hr⟩
    exact Viable.of (.assignValues hl hr) (by simp)
  · rintro ls ⟨ms, r, hr⟩
    exact Viable.of (.assign hl hr) (by simp)

/-- Values up to the bracket that closes them. -/
theorem prompt_values {p : Punct} {f : List Node → Parsed}
    (hw : ∀ d : Cursor, d.later.length ≤ c.later.length → Production.assignment.depth d < w)
    (hV : ∀ ls us ns, Derives (.values ns) us → ls <+: us ++ [.mark p] → V ls) :
    Prompt (do
      if ← accept (.punct p) then return f []
      let values ← commaList (parseWithin .full fuel .assignment)
      discard (expect (.punct p))
      return f values)
      (fun i => do
        if ← accept (.punct p) then return f []
        let values ← commaList (parseWithin .full i .assignment)
        discard (expect (.punct p))
        return f values) c V (fuel < w) := by
  refine prompt_acceptMark (fun _ _ => prompt_pure) ?_
  refine prompt_list H (s := .expr .assignment) (fun _ _ _ h => h) (fun _ h => h) hw ?_
    fun ns ls d hns hd => prompt_mark (hV _ _ _ (.someValues hns) (by simp)) fun _ _ => prompt_pure
  rintro ls ⟨ms, ns, hns⟩
  exact hV _ _ _ (.someValues hns) (by simp)

theorem arrayInit_prompt : Prompts fuel .arrayInit c := by
  refine prompt_mark (Viable.of (.initializer .noValues) (by simp)) fun d hd =>
    prompt_values H (fun e he => Production.depth_behind (by omega)) ?_
  intro ls us ns hns hp
  exact Viable.of (.initializer hns) (by simpa using hp)

theorem call_prompt : Prompts fuel .call c := by
  refine prompt_name (Viable.of (.call "f" .noValues) (by simp)) fun x d hd =>
    prompt_mark (Viable.of (.call x .noValues) (by simp)) fun e he =>
      prompt_values H (fun f hf => Production.depth_behind (by omega)) ?_
  intro ls us ns hns hp
  exact Viable.of (.call x hns) (by simpa using hp)

omit H in
theorem viable_operand {ℓ : Precedence} (hℓ : ℓ ≠ .primary) {ls : List Lexeme}
    (h : ℓ.production.Viable ls) : (Category.expr ℓ).Viable ls := by
  cases ℓ with
  | primary => exact absurd rfl hℓ
  | _ => exact h

theorem prompt_operand {ℓ : Precedence} (hℓ : ℓ ≠ .primary) (k : ι → Nat)
    (hw : ℓ.production.depth c < w) (hV : ∀ ls, (Category.expr ℓ).Viable ls → V ls) :
    Prompt (parseWithin .full fuel ℓ.production) (fun i => parseWithin .full (k i) ℓ.production) c V
      (fuel < w) :=
  prompt_part H k hw fun ls h => hV ls (viable_operand hℓ h)

omit H in
theorem rank_operand_lt {ℓ : Precedence} (hℓ : ℓ ≠ .primary) :
    ℓ.tighter.production.rank < ℓ.production.rank := by
  cases ℓ with
  | primary => exact absurd rfl hℓ
  | _ => decide

/-- A chain goes on with an expression that has been read. -/
theorem chain_prompt {level : Level} {ℓ : Precedence} (hℓ : level.IsFor ℓ) (start : Location)
    (hw : ∀ d : Cursor, d.later.length < c.later.length → ℓ.tighter.production.depth d < w) {k : Nat}
    (hk : c.later.length < k) {left : Node} {us : List Lexeme}
    (hl : Derives (.one (.expr ℓ) left.unplaced) us) :
    Prompt (chain (parseWithin .full fuel) level start k left)
      (fun i : Nat × Nat => chain (parseWithin .full i.1) level start i.2 left) c
      (fun ms => (Category.expr ℓ).Viable (us ++ ms)) (fuel < w) := by
  induction k generalizing c left us with
  | zero => exact absurd hk (Nat.not_lt_zero _)
  | succ k ih =>
    have step : Prompt (chain (parseWithin .full fuel) level start (k + 1) left)
        (fun i : Nat × Nat => chain (parseWithin .full i.1) level start (i.2 + 1) left) c
        (fun ms => (Category.expr ℓ).Viable (us ++ ms)) (fuel < w) := by
      refine prompt_peek ?_
      cases ho : level.operator? c.kind with
      | none => exact prompt_pure
      | some op =>
        obtain ⟨rfl, hm⟩ := (hℓ.operator _ _).1 ho
        refine prompt_discard (prompt_advance (Token.lexeme?_of_mark hm) fun d hd => ?_)
        rw [hℓ.operand, hℓ.production]
        refine (prompt_operand H hℓ.tighter Prod.fst (hw d (by omega)) ?_).bind
          (takes_operand (parseWithin_takes .full fuel) hℓ.tighter d) fun r rs e hr he => ?_
        · rintro ls ⟨ms, r, hr⟩
          exact Viable.of (.binary hl hr) (by simp)
        · have hb : Derives (.one (.expr op.precedence)
              (Node.mk ⟨op.precedence.production, start⟩ (.binary op left r)).unplaced)
              (us ++ .mark op.mark :: rs) := by simpa [unplaced] using Derives.binary hl hr
          refine (ih (fun f hf => hw f (by omega)) (by omega) hb).mono ?_ id
          intro ms h
          simpa using h
    exact step.turns fun _ _ _ _ h => by cases h

theorem binary_prompt {level : Level} {ℓ : Precedence} (hℓ : level.IsFor ℓ) :
    Prompt (binary (parseWithin .full fuel) level) (fun i => binary (parseWithin .full i) level) c
      (Category.expr ℓ).Viable (fuel < ℓ.production.depth c) := by
  have hne : ℓ ≠ .primary := by
    rintro rfl
    exact hℓ.tighter rfl
  refine prompt_here ?_
  rw [hℓ.operand]
  refine (prompt_operand H hℓ.tighter id (Production.depth_lt_of_rank (rank_operand_lt hne) c)
    ?_).bind (takes_operand (parseWithin_takes .full fuel) hℓ.tighter c) fun l ls d hl hd =>
      prompt_remaining ?_
  · rintro ls ⟨ms, n, hn⟩
    exact Viable.of (.loosen hn) (by simp)
  have go := chain_prompt H hℓ c.loc (c := d)
    (fun e he => Production.depth_behind (q := ℓ.production) (c := c) (by omega))
    (Nat.lt_succ_self _) (.loosen hl)
  exact (go.reindex fun i : Nat × Nat => (i.1, i.2 + 1)).bind
    (chain_takes (parseWithin_takes .full fuel) hℓ _ _ l d) fun _ _ _ _ _ => prompt_pure

/-- The size of something.  A parenthesis behind `sizeof` is taken in any case: an expression may
stand behind it. -/
theorem sizeof_prompt : Prompt (sizeof (parseWithin .full fuel))
    (fun i => sizeof (parseWithin .full i)) c (Category.expr .unary).Viable
      (fuel < Production.unary.depth c) := by
  have type : ∀ b k, Derives (.one (.expr .unary) (Shape.sizeofType b k).node)
      (.keyword .sizeof :: .mark .lparen :: (b.lexemes ++ (Lexeme.stars k ++ [.mark .rparen]))) :=
    .sizeofType
  refine prompt_keyword (Viable.of (type .int 0) (by simp)) fun d hd => prompt_peek ?_
  have operand : Prompt (do return Parsed.parts (.sizeofExpr (← parseWithin .full fuel .unary)))
      (fun i => do return Parsed.parts (.sizeofExpr (← parseWithin .full i .unary))) d
      (fun ls => (Category.expr .unary).Viable (.keyword .sizeof :: ls))
      (fuel < Production.unary.depth c) := by
    refine prompt_call H (Production.depth_behind (by omega)) ?_ fun _ _ _ _ _ => prompt_pure
    rintro ls ⟨ms, n, hn⟩
    exact Viable.of (.sizeofExpr hn) (by simp)
  refine prompt_lookahead (fun hp _ => ?_) (fun hp => ?_) (fun hp => operand.begun fun hc => ?_)
    (fun _ => ?_) fun _ => operand
  · refine prompt_discard (prompt_advance (Token.lexeme?_of_mark hp) fun e he => Prompt.mono
      (V := fun ms => (Category.expr .unary).Viable (.keyword .sizeof :: .mark .lparen :: ms)) ?_
      (fun ms h => ⟨List.cons_ne_nil _ ms, h⟩) id)
    refine prompt_base H (Production.depth_behind (by omega)) ?_ fun b f hf =>
      prompt_stars fun k g hg => prompt_mark (Viable.of (type b k) (by simp)) fun _ _ => prompt_pure
    intro ls ms b h
    exact Viable.of (type b 0) (by simp [← h])
  · exact takes_discard (takes_advance (Token.lexeme?_of_mark hp) fun d => takes_base
      (parseWithin_takes .full fuel) fun b d => takes_stars fun k d => takes_mark fun d =>
        takes_pure (List.cons_ne_nil _ _))
  · have h : Derives (.one (.expr .unary) (Shape.identifier "x").node)
        [.mark .lparen, .name "x", .mark .rparen] := .loosen (.loosen (.group (.name _ "x")))
    obtain ⟨c', hs, hr⟩ := (Cursor.Reads.nil d).turned hc (Token.lexeme?_of_mark hp)
      [.name "x", .mark .rparen]
    obtain ⟨n, hn, -⟩ := h.accepted.one _ _ _ hr (Nat.zero_lt_succ 8) (Nat.lt_succ_self _)
    exact ⟨c', _, _, _, hs, bind_of_ok hn _⟩
  · refine (parseWithin_takes .full fuel .unary d).bind fun n ls e hn => takes_pure ?_
    simpa using Derives.ne_nil hn (by simp)

/-- An operator in front of its operand. -/
theorem operator_prompt {p : Punct} {f : Node → Shape} (hk : c.kind = .punct p)
    (hf : ∀ {n ls}, Derives (.one (.expr .unary) n) ls →
      ∃ m, Derives (.one (.expr .unary) m) (.mark p :: ls)) :
    Prompt (discard advance >>= fun _ => parseWithin .full fuel .unary >>= fun n =>
        pure (Parsed.parts (f n)))
      (fun i => discard advance >>= fun _ => parseWithin .full i .unary >>= fun n =>
        pure (Parsed.parts (f n))) c (Category.expr .unary).Viable (fuel < Production.unary.depth c) := by
  refine prompt_discard (prompt_advance (Token.lexeme?_of_mark hk) fun d hd =>
    prompt_call H (Production.depth_behind (by omega)) ?_ fun _ _ _ _ _ => prompt_pure)
  rintro ls ⟨ms, n, hn⟩
  obtain ⟨m, hm⟩ := hf hn
  exact Viable.of hm (by simp)

theorem unary_prompt : Prompts fuel .unary c := by
  refine prompt_peek ?_
  generalize hk : c.kind = kind
  split
  · exact operator_prompt H hk fun h => ⟨_, @Derives.unary .neg _ _ h⟩
  · exact operator_prompt H hk fun h => ⟨_, @Derives.unary .not _ _ h⟩
  · exact operator_prompt H hk fun h => ⟨_, .deref h⟩
  · exact operator_prompt H hk fun h => ⟨_, .addressOf h⟩
  · exact sizeof_prompt H
  · refine prompt_whole H (Production.depth_lt_of_rank (by decide) c) ?_
    rintro ls ⟨ms, n, hn⟩
    exact Viable.of (@Derives.loosen .unary _ _ hn) (by simp)

/-- Suffixes go on with an expression that has been read. -/
theorem suffixes_prompt (start : Location)
    (hw : ∀ d : Cursor, d.later.length < c.later.length → Production.expr.depth d < w) {k : Nat}
    (hk : c.later.length < k) {node : Node} {us : List Lexeme}
    (hl : Derives (.one (.expr .suffix) node.unplaced) us) :
    Prompt (suffixes (parseWithin .full fuel) start k node)
      (fun i : Nat × Nat => suffixes (parseWithin .full i.1) start i.2 node) c
      (fun ms => (Category.expr .suffix).Viable (us ++ ms)) (fuel < w) := by
  induction k generalizing c node us with
  | zero => exact absurd hk (Nat.not_lt_zero _)
  | succ k ih =>
    have step : Prompt (suffixes (parseWithin .full fuel) start (k + 1) node)
        (fun i : Nat × Nat => suffixes (parseWithin .full i.1) start (i.2 + 1) node) c
        (fun ms => (Category.expr .suffix).Viable (us ++ ms)) (fuel < w) := by
      -- What is left once a suffix has been read.
      have next : ∀ (s : Shape) (ms : List Lexeme) {d : Cursor},
          Derives (.one (.expr .suffix) (Node.mk ⟨.suffix, start⟩ s).unplaced) (us ++ ms) →
          d.later.length < c.later.length →
          Prompt (suffixes (parseWithin .full fuel) start k (.mk ⟨.suffix, start⟩ s))
            (fun i : Nat × Nat => suffixes (parseWithin .full i.1) start i.2 (.mk ⟨.suffix, start⟩ s))
            d (fun ns => (Category.expr .suffix).Viable (us ++ (ms ++ ns))) (fuel < w) := by
        intro s ms d hs hd
        refine (ih (fun e he => hw e (by omega)) (by omega) hs).mono ?_ id
        intro ns h
        rwa [← List.append_assoc]
      refine prompt_peek ?_
      generalize hk : c.kind = kind
      split
      · refine prompt_discard (prompt_advance (Token.lexeme?_of_mark hk) fun d hd =>
          prompt_call H (k := Prod.fst) (hw d (by omega)) ?_ fun i is e hi he => prompt_mark
            (Viable.of (.index hl hi) (by simp)) fun f hf => ?_)
        · rintro ls ⟨ms, i, hi⟩
          exact Viable.of (.index hl hi) (by simp)
        · refine (next (.index node i) (.mark .lbracket :: (is ++ [.mark .rbracket])) ?_
            (by omega)).mono (fun ns h => by simpa using h) id
          simpa [unplaced] using Derives.index hl hi
      · refine prompt_discard (prompt_advance (Token.lexeme?_of_mark hk) fun d hd =>
          prompt_name (Viable.of (.member "x" hl) (by simp)) fun f e he => ?_)
        exact next _ [.mark .dot, .name f] (by simpa [unplaced] using Derives.member f hl)
          (by omega)
      · refine prompt_discard (prompt_advance (Token.lexeme?_of_mark hk) fun d hd =>
          prompt_name (Viable.of (.pointerMember "x" hl) (by simp)) fun f e he => ?_)
        exact next _ [.mark .arrow, .name f]
          (by simpa [unplaced] using Derives.pointerMember f hl) (by omega)
      · exact prompt_pure
    exact step.turns fun _ _ _ _ h => by cases h

theorem suffix_prompt : Prompts fuel .suffix c := by
  refine prompt_here (prompt_call H (Production.depth_lt_of_rank (by decide) c) (fun _ h => h)
    fun n ls d hn hd => prompt_remaining ?_)
  have go := suffixes_prompt H c.loc (c := d)
    (fun e he => Production.depth_behind (q := .suffix) (c := c) (by omega)) (Nat.lt_succ_self _) hn
  exact (go.reindex fun i : Nat × Nat => (i.1, i.2 + 1)).bind
    (suffixes_takes (parseWithin_takes .full fuel) _ _ n d) fun _ _ _ _ _ => prompt_pure

/-- A primary.  A name is taken whatever is behind it. -/
theorem primary_prompt : Prompts fuel .primary c := by
  refine prompt_peek ?_
  generalize hk : c.kind = kind
  have literal : Prompt (do return Parsed.whole (← parseWithin .full fuel .literal))
      (fun i => do return Parsed.whole (← parseWithin .full i .literal)) c Production.primary.Viable
      (fuel < Production.primary.depth c) := by
    refine prompt_whole H (Production.depth_lt_of_rank (by decide) c) ?_
    rintro ls ⟨ms, n, hn⟩
    exact Viable.of (@Derives.loosen .suffix _ _ hn) (by simp)
  split
  · refine prompt_peekAhead (Prompt.begun ?_ fun hc => ?_) ?_
    · refine prompt_whole H (Production.depth_lt_of_rank (by split <;> decide) c) ?_
      split
      · exact fun _ h => h
      · rintro ls ⟨ms, n, hn⟩
        exact Viable.of (@Derives.loosen .suffix _ _ hn) (by simp)
    · have hl := Token.lexeme?_of_name hk
      split
      · obtain ⟨c', hs, hr⟩ := (Cursor.Reads.nil c).turned hc hl [.mark .lparen, .mark .rparen]
        have hx : Rule.of (parseWithin .full 0) .call c' =
            .ok (.parts (.call c.here.content []), Cursor.before []) := by
          show Rule.call _ c' = _
          rw [Rule.call, bind_of_ok (name_of_reads hr), mark_bind hr.advance,
            bind_of_ok (accept_of_kind hr.advance.advance.mark), if_pos rfl,
            hr.advance.advance.advance.eq_of_nil]
          rfl
        exact ⟨c', 1, _, _, hs, bind_of_ok (parseWithin_of_rule hx) _⟩
      · have hx : Rule.of (parseWithin .full 0) .identifier c =
            .ok (.parts (.identifier c.here.content), c.advance) :=
          bind_of_ok (name_of_reads (hc.reads hl)) _
        exact ⟨c, 1, _, _, .refl hc, bind_of_ok (parseWithin_of_rule hx) _⟩
    · refine (parseWithin_takes .full fuel _ c).bind fun n ls d hn => takes_pure ?_
      have hne : ls ≠ [] := by split at hn <;> exact Derives.ne_nil hn (by simp)
      simpa using hne
  · exact literal
  · exact literal
  · exact literal
  · exact literal
  · refine prompt_parenthesized H (fun d hd => Production.depth_behind hd) ?_
      fun _ _ _ _ _ => prompt_pure
    intro ls us n hn hp
    exact Viable.of (@Derives.loosen .suffix _ _ (.group hn)) hp
  · exact prompt_refuse (Viable.of (.name .suffix "x") (by simp))

omit H in
theorem literal_prompt {D : Prop} :
    Prompt literal (fun _ : ι => literal) c Production.literal.Viable D := by
  by_cases h : ∃ l s, c.here.lexeme? = some l ∧ l.literal? = some s
  · obtain ⟨l, s, hl, hs⟩ := h
    have read : Prompt (advance >>= fun _ => pure (Parsed.parts s))
        (fun _ : ι => advance >>= fun _ => pure (Parsed.parts s)) c Production.literal.Viable D :=
      prompt_advance hl fun _ _ => prompt_pure
    exact read.congr (Precedence.literal_of_lexeme hs hl) fun h _ =>
      Precedence.literal_of_lexeme hs (by rwa [h.here_eq])
  · have wrong : ∀ c' : Cursor, c'.here = c.here → ∃ e, literal c' = .error ⟨e, c.loc⟩ := by
      intro c' hc
      rw [literal, advance_bind, hc]
      cases hl : c.here.lexeme? with
      | none =>
        rw [Token.lexeme?_eq_none.1 hl]
        exact ⟨_, rfl⟩
      | some l =>
        have word : ∀ s, l.literal? ≠ some s := fun s hs => h ⟨l, s, hl, hs⟩
        have hk := Token.kind_of_lexeme? hl
        cases l with
        | number digits =>
          rw [Token.lexeme?, hk] at hl
          cases hl
          cases hw : Word.ofText? c.here.content with
          | none =>
            rw [hk]
            exact ⟨_, rfl⟩
          | some w => exact absurd (by rw [Lexeme.literal?, hw]; rfl) (word (.intLiteral w))
        | character | string => exact absurd rfl (word _)
        | name | mark =>
          rw [hk]
          exact ⟨_, rfl⟩
        | keyword k =>
          rw [hk]
          cases k with
          | null => exact absurd rfl (word _)
          | _ => exact ⟨_, rfl⟩
    obtain ⟨e, he⟩ := wrong c rfl
    refine prompt_refused he rfl (Viable.of (.identifier "x") (by simp)) fun hs i b d hi => ?_
    obtain ⟨e, he⟩ := wrong _ hs.here_eq
    cases he.symm.trans hi

end Rule

end MiniC
