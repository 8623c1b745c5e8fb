/-
  Reading ends.

  A production calls other productions, some of them before it has taken a token, and lists are read
  until a token that may never come.  Still every call comes to an end, on any tokens and whatever
  productions the grammar lacks: where no token is taken before a call, the rank of the production
  goes down.

  * `Rule.Calls`: the calls that a rule may make, and `Rule.of_alike`: it depends on no others.
  * `parseWithin_alike`: parsers with enough fuel do the same, by induction on the fuel.
  * `parse_terminates`: the parser comes to an end, and its rules leave no choice which.
-/
import MiniC.Proofs.Progress
import MiniC.Proofs.PromptRules

namespace MiniC

/-! ## Rules -/

namespace Production

/-- The fewest tokens that a production takes: a program may be empty. -/
def least (p : Production) : Nat := if p = program then 0 else 1

theorem least_of_ne {p : Production} (h : p ≠ program) : p.least = 1 := if_neg h

end Production

/-- A production that reads types reads nothing else. -/
def Parse.Types (x : Parse Node) (c : Cursor) : Prop :=
  ∀ node d, x c = .ok (node, d) → ∃ base, node.shape = .type base

namespace Rule
open Parse Cursor

/-- What `F` and `H` do when a rule at `c` calls them: some tokens are taken before the call, or it
goes below the rank `r`. -/
structure Calls (r : Nat) (c : Cursor) (F H : Productions) : Prop where
  ended : c.Ended
  alike : ∀ q d ts, c.Passes ts d → ts ≠ [] ∨ q.rank < r → Alike q.least (F q) (H q) d
  types : ∀ d ts, c.Passes ts d → ts ≠ [] ∨ Production.type.rank < r → Types (F .type) d

variable {r : Nat} {c : Cursor} {F H : Productions}

namespace Calls

/-- A call before a token is taken. -/
theorem lead (h : Calls r c F H) {q : Production} (hr : q.rank < r) (hq : q ≠ .program) :
    Alike 1 (F q) (H q) c := by
  rw [← Production.least_of_ne hq]
  exact h.alike q c [] (passes_refl c) (.inr hr)

/-- A call behind a token. -/
theorem item (h : Calls r c F H) {q : Production} (hq : q ≠ .program) :
    AlikeBehind 1 c 1 (F q) (H q) := by
  rintro d ⟨_, ts, hts, taken⟩
  rw [← Production.least_of_ne hq]
  exact h.alike q d ts hts (.inl (List.ne_nil_of_length_pos taken))

theorem tail (h : Calls r c F H) (q : Production) : AlikeBehind 1 c 0 (F q) (H q) := by
  rintro d ⟨_, ts, hts, taken⟩
  exact (h.alike q d ts hts (.inl (List.ne_nil_of_length_pos taken))).mono (Nat.zero_le _)

/-- Further on, the calls behind a token are still all allowed. -/
theorem moved (h : Calls r c F H) {k : Nat} {d : Cursor} (hd : Behind k c d) :
    Calls 0 d F H := by
  obtain ⟨hc, us, hus, _⟩ := hd
  have some_taken : ∀ {ts : List Token} {m : Nat}, ts ≠ [] ∨ m < 0 → us ++ ts ≠ [] :=
    fun h => List.append_ne_nil_of_right_ne_nil _ (h.resolve_right (Nat.not_lt_zero _))
  refine ⟨hus.ended hc, fun q e ts hts taken => ?_, fun e ts hts taken => ?_⟩
  · exact h.alike q e _ (hus.trans hts) (.inl (some_taken taken))
  · exact h.types e _ (hus.trans hts) (.inl (some_taken taken))

end Calls

/-- The base of a type that is read alike. -/
theorem alike_base (h : Alike 1 (F .type) (H .type) c) (ht : Types (F .type) c) :
    Alike 1 (base F) (base H) c := by
  obtain ⟨same, stops⟩ := h
  cases hr : F .type c with
  | error e =>
    rw [hr] at stops same
    refine ⟨(bind_of_error hr _).trans (bind_of_error same.symm _).symm, ?_⟩
    rw [base, bind_of_error hr]
    exact stops
  | ok p =>
    obtain ⟨node, d⟩ := p
    obtain ⟨b, hb⟩ := ht node d hr
    rw [hr] at stops same
    have read : ∀ {G : Productions}, G .type c = .ok (node, d) → base G c = .ok (b, d) := by
      intro G hG
      rw [base, bind_of_ok hG, hb]
      rfl
    refine ⟨(read hr).trans (read same.symm).symm, ?_⟩
    rw [read hr]
    exact stops

section
variable (h : Calls r c F H)
include h

theorem Calls.base (hr : 0 < r) : Alike 1 (base F) (Rule.base H) c :=
  alike_base (h.lead hr nofun) (h.types c [] (passes_refl c) (.inr hr))

theorem Calls.tailBase : AlikeBehind 1 c 0 (Rule.base F) (Rule.base H) := by
  intro d hd
  obtain ⟨_, ts, hts, taken⟩ := id hd
  have types : Types (F .type) d := h.types d ts hts (.inl (List.ne_nil_of_length_pos taken))
  exact (alike_base (h.item (q := .type) nofun d hd) types).mono (Nat.zero_le _)

theorem behind_parenthesized : AlikeBehind 1 c 0 (parenthesized F) (parenthesized H) :=
  .mark <| (h.tail _).bind fun _ => .mark <| behind_pure _

theorem behind_optional (follow : TokenKind) :
    AlikeBehind 1 c 0 (optional F follow) (optional H follow) :=
  behind_peek.bind fun _ => (behind_pure _).ite ((h.tail _).bind fun _ => behind_pure _)

/-! ### Declarations -/

omit h in
theorem alike_type (hc : c.Ended) : Alike 1 type type c := by
  refine alike_seen rfl ?_
  split
  case h_1 hk | h_2 hk | h_3 hk => exact alike_taken hc (not_over hk nofun) (behind_pure _)
  case h_4 hk =>
    exact alike_taken hc (not_over hk nofun) (behind_name.bind fun _ => behind_pure _)
  case h_5 => exact alike_refuse

theorem alike_varItem : Alike 1 (varItem F) (varItem H) c := by
  -- The stars may be missing; the name is what takes a token.
  refine alike_stars.bind (n := 1) (fun stars d ts hts _ => ?_) (Nat.le_refl _)
  have hd : Calls 0 d F H := h.moved ⟨h.ended, ts, hts, Nat.zero_le _⟩
  refine (alike_name hd.ended).first hd.ended fun name => .accept fun bracket => .ite ?_ ?_
  · refine .accept fun closed => .ite (behind_pure _) ?_
    exact (hd.tail _).bind fun _ => .mark <| behind_pure _
  · exact behind_pure _

theorem alike_varDec (hr : 0 < r) : Alike 1 (varDec F) (varDec H) c :=
  (h.base hr).first h.ended fun _ => (h.item (q := .varItem) nofun).commaList.bind fun _ =>
    .mark <| behind_pure _

theorem alike_param (hr : 0 < r) : Alike 1 (param F) (param H) c :=
  (h.base hr).first h.ended fun _ => (h.tail _).bind fun _ => behind_pure _

theorem alike_structDef : Alike 1 (structDef F) (structDef H) c :=
  alike_keyword h.ended <| behind_name.bind fun _ => .mark <|
    (h.item (q := .varDec) nofun).upTo.bind fun _ => .mark <| .mark <| behind_pure _

theorem behind_params : AlikeBehind 1 c 0 (params F) (params H) := by
  intro d hd
  refine alike_seen rfl (alike_seen rfl ?_)
  split
  case isTrue none =>
    refine (alike_taken hd.ended (not_over none.1 nofun) ?_).mono (Nat.zero_le _)
    exact behind_pure _
  case isFalse => exact (behind_pure _).ite (h.item (q := .param) nofun).commaList d hd

theorem alike_functionDef (hr : 0 < r) : Alike 1 (functionDef F) (functionDef H) c :=
  (h.base hr).first h.ended fun _ => behind_stars.bind fun _ => behind_name.bind fun _ =>
    .mark <| (behind_params h).bind fun _ => .mark <| (h.tail _).bind fun _ => behind_pure _

theorem alike_program (hr : 1 < r) : Alike 0 (program F) (program H) c := by
  have items : AlikeBehind 0 c 1 (fun d => F (itemProduction d) d)
      fun d => H (itemProduction d) d := by
    rintro d ⟨_, ts, hts, _⟩
    obtain ⟨low, ne⟩ : (itemProduction d).rank ≤ 1 ∧ itemProduction d ≠ .program := by
      unfold itemProduction
      split
      · decide
      · split <;> decide
    have item := h.alike (itemProduction d) d ts hts (.inr (Nat.lt_of_le_of_lt low hr))
    rwa [Production.least_of_ne ne] at item
  exact (items.upTo.bind fun _ => behind_pure _) c (.here h.ended)

/-! ### Statements -/

omit h in
theorem statementProduction_low (kind : TokenKind) :
    (statementProduction kind).rank ≤ 12 ∧ statementProduction kind ≠ .program := by
  unfold statementProduction
  split <;> try decide
  split <;> decide

theorem alike_statement (hr : 12 < r) : Alike 1 (statement F) (statement H) c := by
  obtain ⟨low, ne⟩ := statementProduction_low c.kind
  exact alike_seen rfl <|
    (h.lead (Nat.lt_of_le_of_lt low hr) ne).first h.ended fun _ => behind_pure _

theorem alike_block : Alike 1 (block F) (block H) c :=
  alike_mark h.ended <| (h.item (q := .statement) nofun).upTo.bind fun _ => .mark <| behind_pure _

theorem alike_ifElse : Alike 1 (ifElse F) (ifElse H) c :=
  alike_keyword h.ended <| (behind_parenthesized h).bind fun _ => (h.tail _).bind fun _ =>
    (behind_accept (w := .keyword .else_) nofun).bind fun _ =>
      .ite ((h.tail _).bind fun _ => behind_pure _) (behind_pure _)

theorem alike_whileLoop : Alike 1 (whileLoop F) (whileLoop H) c :=
  alike_keyword h.ended <| (behind_parenthesized h).bind fun _ => (h.tail _).bind fun _ =>
    behind_pure _

theorem alike_doWhile : Alike 1 (doWhile F) (doWhile H) c :=
  alike_keyword h.ended <| (h.tail _).bind fun _ =>
    (behind_skip (w := .keyword .while_) nofun).bind fun _ =>
    (behind_parenthesized h).bind fun _ => .mark <| behind_pure _

theorem alike_forLoop : Alike 1 (forLoop F) (forLoop H) c :=
  alike_keyword h.ended <| .mark <| (behind_optional h _).bind fun _ => .mark <|
    (behind_optional h _).bind fun _ => .mark <| (behind_optional h _).bind fun _ => .mark <|
      (h.tail _).bind fun _ => behind_pure _

theorem alike_returns : Alike 1 (returns F) (returns H) c :=
  alike_keyword h.ended <| (behind_optional h _).bind fun _ => .mark <| behind_pure _

omit h in
theorem alike_jump (hc : c.Ended) (keyword : Keyword) (shape : Shape) :
    Alike 1 (jump keyword shape) (jump keyword shape) c :=
  alike_keyword hc <| .mark <| behind_pure _

omit h in
theorem alike_empty (hc : c.Ended) : Alike 1 empty empty c := alike_mark hc <| behind_pure _

theorem alike_exprStatement (hr : 11 < r) : Alike 1 (exprStatement F) (exprStatement H) c :=
  (h.lead (q := .expr) hr nofun).first h.ended fun _ => .mark <| behind_pure _

/-! ### Expressions -/

theorem alike_expr (hr : 10 < r) :
    Alike 1 (do return Parsed.whole (← F .assignment)) (do return .whole (← H .assignment)) c :=
  (h.lead (q := .assignment) hr nofun).first h.ended fun _ => behind_pure _

theorem alike_assignment (hr : 9 < r) : Alike 1 (assignment F) (assignment H) c :=
  (h.lead (q := .logicalOr) hr nofun).first h.ended fun _ => .accept fun _ =>
    .ite (behind_peek.bind fun _ => (h.tail _).bind fun _ => behind_pure _) (behind_pure _)

theorem alike_arrayInit : Alike 1 (arrayInit F) (arrayInit H) c :=
  alike_mark h.ended <| .accept fun _ => .ite (behind_pure _) <|
    (h.item (q := .assignment) nofun).commaList.bind fun _ => .mark <| behind_pure _

/-- Operators and operands: each round takes an operator. -/
theorem alike_chain {level : Level} {start : Location} (hl : level.operator? .endOfFile = none)
    (fuel : Nat) (left : Node) (d : Cursor) (hd : Behind 1 c d) (room : d.later.length < fuel) :
    Alike 0 (chain F level start fuel left) (chain H level start fuel left) d := by
  induction fuel generalizing d left with
  | zero => omega
  | succ fuel ih =>
    refine alike_seen rfl ?_
    split
    case h_1 => exact alike_pure
    case h_2 op hop =>
      have rest : ∀ node, AlikeBehind 1 d 0 (chain F level start fuel node)
          (chain H level start fuel node) := fun node e he =>
        ih node e (hd.trans he) (Nat.lt_of_lt_of_le he.shorter (Nat.le_of_lt_succ room))
      have hk : d.kind ≠ .endOfFile := fun hk => by rw [hk, hl] at hop; cases hop
      refine (alike_taken hd.ended hk ?_).mono (Nat.zero_le _)
      exact ((h.moved hd).tail _).bind fun _ => rest _

theorem alike_binary {level : Level} (hl : level.operator? .endOfFile = none)
    (hr : level.operand.rank < r) (hp : level.operand ≠ .program) :
    Alike 1 (binary F level) (binary H level) c := by
  refine alike_seen rfl ((h.lead hr hp).first h.ended fun left d hd => alike_seen rfl ?_)
  exact (alike_chain h hl _ left d hd (Nat.lt_succ_self _)).next fun _ _ _ _ _ => alike_pure

theorem alike_sizeof : Alike 1 (sizeof F) (sizeof H) c := by
  refine alike_keyword h.ended fun d hd => alike_seen rfl (alike_seen rfl ?_)
  split
  case isTrue paren =>
    refine (alike_taken hd.ended (not_over paren.1 nofun) ?_).mono (Nat.zero_le _)
    exact (h.moved hd).tailBase.bind fun _ => behind_stars.bind fun _ => .mark <| behind_pure _
  case isFalse => exact ((h.tail _).bind fun _ => behind_pure _) d hd

theorem alike_unary (hr : 2 < r) : Alike 1 (unary F) (unary H) c := by
  refine alike_seen rfl ?_
  split
  case h_1 hk | h_2 hk | h_3 hk | h_4 hk =>
    exact alike_taken h.ended (not_over hk nofun) ((h.tail _).bind fun _ => behind_pure _)
  case h_5 => exact alike_sizeof h
  case h_6 => exact (h.lead (q := .suffix) hr nofun).first h.ended fun _ => behind_pure _

/-- Subscripts and selections: each takes a token. -/
theorem alike_suffixes {start : Location} (fuel : Nat) (node : Node) (d : Cursor)
    (hd : Behind 1 c d) (room : d.later.length < fuel) :
    Alike 0 (suffixes F start fuel node) (suffixes H start fuel node) d := by
  induction fuel generalizing d node with
  | zero => omega
  | succ fuel ih =>
    have rest : ∀ node, AlikeBehind 1 d 0 (suffixes F start fuel node)
        (suffixes H start fuel node) := fun node e he =>
      ih node e (hd.trans he) (Nat.lt_of_lt_of_le he.shorter (Nat.le_of_lt_succ room))
    refine alike_seen rfl ?_
    split
    case h_1 hk =>
      refine (alike_taken hd.ended (not_over hk nofun) ?_).mono (Nat.zero_le _)
      exact ((h.moved hd).tail _).bind fun _ => .mark <| rest _
    case h_2 hk | h_3 hk =>
      refine (alike_taken hd.ended (not_over hk nofun) ?_).mono (Nat.zero_le _)
      exact behind_name.bind fun _ => rest _
    case h_4 => exact alike_pure

theorem alike_suffix (hr : 1 < r) : Alike 1 (suffix F) (suffix H) c := by
  refine alike_seen rfl
    ((h.lead (q := .primary) hr nofun).first h.ended fun node d hd => alike_seen rfl ?_)
  exact (alike_suffixes h _ node d hd (Nat.lt_succ_self _)).next fun _ _ _ _ _ => alike_pure

theorem alike_primary (hr : 0 < r) : Alike 1 (primary F) (primary H) c := by
  have handed : ∀ {q : Production}, q.rank = 0 → q ≠ .program → Alike 1
      (do return Parsed.whole (← F q)) (do return .whole (← H q)) c := fun h0 hq =>
    (h.lead (h0 ▸ hr) hq).first h.ended fun _ => behind_pure _
  refine alike_seen rfl ?_
  split
  case h_1 =>
    refine alike_seen rfl (handed ?_ ?_)
    · split <;> rfl
    · split <;> nofun
  case h_2 | h_3 | h_4 | h_5 => exact handed rfl nofun
  case h_6 =>
    refine Alike.next ?_ fun _ _ _ _ _ => alike_pure
    exact alike_mark h.ended <| (h.tail _).bind fun _ => .mark <| behind_pure _
  case h_7 => exact alike_refuse

theorem alike_call : Alike 1 (call F) (call H) c :=
  (alike_name h.ended).first h.ended fun _ => .mark <| .accept fun _ => .ite (behind_pure _) <|
    (h.item (q := .assignment) nofun).commaList.bind fun _ => .mark <| behind_pure _

omit h in
theorem alike_identifier (hc : c.Ended) : Alike 1 identifier identifier c :=
  (alike_name hc).first hc fun _ => behind_pure _

omit h in
/-- The token that is taken is also the one at fault if it is no literal. -/
theorem alike_literal (hc : c.Ended) : Alike 1 literal literal c := by
  have took : ∀ {kind : TokenKind} {a : Parsed}, c.here.kind = kind → kind ≠ .endOfFile →
      Stops 1 c (.ok (a, c.advance)) := fun hk ne =>
    ⟨[c.here], passes_advance hc (not_over hk ne), Nat.le_refl _⟩
  have fault : ∀ {e : SyntaxCause}, e ≠ .tooDeep →
      Stops (α := Parsed) 1 c (.error ⟨e, c.here.loc⟩) := fun hd =>
    ⟨hd, [], c, passes_refl c, rfl⟩
  refine ⟨rfl, ?_⟩
  rw [literal, advance_bind]
  generalize hk : c.here.kind = kind
  cases kind
  case intLiteral =>
    cases hv : Word.ofText? c.here.content with
    | some value => exact took hk (by simp)
    | none => exact fault (e := .literalRange c.here.content) (by simp)
  case charLiteral | stringLiteral => exact took hk (by simp)
  case keyword w =>
    cases w
    case null => exact took hk (by simp)
    all_goals exact fault (e := .notALiteral c.here) (by simp)
  case identifier | punct | endOfFile => exact fault (e := .notALiteral c.here) (by simp)

end

/-- **A rule depends only on calls that it may make**, takes the tokens that it has to take, and
reads on to an end. -/
theorem of_alike {p : Production} (h : Calls p.rank c F H) :
    Alike p.least (Rule.of F p) (Rule.of H p) c := by
  cases p
  case program => exact alike_program h (by decide)
  case structDef => exact alike_structDef h
  case functionDef => exact alike_functionDef h (by decide)
  case param => exact alike_param h (by decide)
  case type => exact alike_type h.ended
  case varDec => exact alike_varDec h (by decide)
  case varItem => exact alike_varItem h
  case statement => exact alike_statement h (by decide)
  case block => exact alike_block h
  case ifElse => exact alike_ifElse h
  case whileLoop => exact alike_whileLoop h
  case doWhile => exact alike_doWhile h
  case forLoop => exact alike_forLoop h
  case returns => exact alike_returns h
  case breaks | continues => exact alike_jump h.ended _ _
  case empty => exact alike_empty h.ended
  case exprStatement => exact alike_exprStatement h (by decide)
  case expr => exact alike_expr h (by decide)
  case assignment => exact alike_assignment h (by decide)
  case arrayInit => exact alike_arrayInit h
  case logicalOr | logicalAnd | equality | relational | additive | multiplicative =>
    exact alike_binary h rfl (by decide) (by decide)
  case unary => exact alike_unary h (by decide)
  case suffix => exact alike_suffix h (by decide)
  case primary => exact alike_primary h (by decide)
  case call => exact alike_call h
  case identifier => exact alike_identifier h.ended
  case literal => exact alike_literal h.ended
  case other name => exact alike_fault (e := .unknownProduction (.other name)) nofun rfl rfl

theorem type_parts {t : Parsed} {d : Cursor} (h : type c = .ok (t, d)) :
    ∃ base, t = .parts (.type base) := by
  rw [type, peek_bind] at h
  generalize c.kind = kind at h
  cases kind
  case keyword w =>
    cases w
    case int | char | void =>
      cases h
      exact ⟨_, rfl⟩
    case struct =>
      simp only [discard_bind, advance_bind, name_bind] at h
      by_cases next : c.advance.kind = .identifier
      · rw [bind_of_ok (expect_of_kind next)] at h
        cases h
        exact ⟨_, rfl⟩
      · rw [bind_of_error (if_neg next)] at h
        cases h
    all_goals cases h
  all_goals cases h

end Rule

/-! ## The parser -/

section
variable {g : Grammar} {F H : Productions} {p q : Production} {c d : Cursor} {ts : List Token}

/-- From call to call tokens have been taken, or the rank goes down. -/
theorem Production.depth_lt (hts : c.Passes ts d) (lower : ts ≠ [] ∨ q.rank < p.rank) :
    q.depth d < p.depth c := by
  have length := hts.length
  rcases lower with taken | lower
  · have := List.length_pos_iff.2 taken
    exact depth_behind (by omega)
  · exact depth_lt_of_le (by omega) lower

theorem parseStep_alike (h : Rule.Calls p.rank c F H) :
    Parse.Alike p.least (parseStep g F p) (parseStep g H p) c := by
  by_cases known : g.contains p
  · obtain ⟨same, stops⟩ := Rule.of_alike h
    rw [Parse.Alike, parseStep, parseStep, if_pos known, if_pos known, same]
    refine ⟨rfl, ?_⟩
    rw [same] at stops
    cases hr : Rule.of H p c <;> rw [hr] at stops <;> exact stops
  · have cause : SyntaxCause.unknownProduction p ≠ .tooDeep := by simp
    exact Parse.alike_fault cause (if_neg known) (if_neg known)

theorem parseStep_types (c : Cursor) : Parse.Types (parseStep g F .type) c := by
  intro node d h
  rw [parseStep] at h
  split at h
  case isFalse => cases h
  case isTrue =>
    cases hr : Rule.type c with
    | error e => rw [Rule.of, hr] at h; cases h
    | ok r =>
      obtain ⟨base, hb⟩ := Rule.type_parts (t := r.1) (d := r.2) hr
      rw [Rule.of, hr] at h
      cases h
      exact ⟨base, by rw [hb]; rfl⟩

/-- Parsers with enough fuel do the same. -/
theorem parseWithin_alike {n m : Nat} (hc : c.Ended) (hn : p.depth c < n) (hm : p.depth c < m) :
    Parse.Alike p.least (parseWithin g n p) (parseWithin g m p) c := by
  induction n generalizing m p c with
  | zero => omega
  | succ n ih =>
    obtain ⟨m, rfl⟩ := Nat.exists_eq_succ_of_ne_zero (Nat.ne_zero_of_lt hm)
    refine parseStep_alike ⟨hc, fun q d ts hts lower => ?_, fun d ts hts lower => ?_⟩
    · have less := Production.depth_lt hts lower
      exact ih (hts.ended hc) (by omega) (by omega)
    · have less := Production.depth_lt hts lower
      obtain ⟨n, rfl⟩ := Nat.exists_eq_succ_of_ne_zero (n := n) (by omega)
      exact parseStep_types d

theorem Production.depth_lt_fuel (p : Production) (c : Cursor) :
    p.depth c < (c.later.length + 1) * callsPerToken := by
  have rank := p.rank_lt
  unfold depth callsPerToken at *
  omega

theorem parse_alike (hc : c.Ended) : Parse.Alike p.least (parse g p) (parse g p) c := by
  have same := parseWithin_alike (g := g) hc (p.depth_lt_fuel c) (p.depth_lt_fuel c)
  unfold Parse.Alike parse at *
  exact same

/-- A production is determined by the calls that it may make. -/
theorem parseStep_of_calls (hc : c.Ended)
    (hF : ∀ q us d, c.Passes us d → us ≠ [] ∨ q.rank < p.rank → F q d = parse g q d) :
    parseStep g F p c = parse g p c := by
  obtain ⟨n, hn⟩ : ∃ n, (c.later.length + 1) * callsPerToken = n + 1 :=
    Nat.exists_eq_succ_of_ne_zero (Nat.ne_zero_of_lt (p.depth_lt_fuel c))
  have room := p.depth_lt_fuel c
  have calls : Rule.Calls p.rank c (parseWithin g n) F := by
    refine ⟨hc, fun q d us hus lower => ?_, fun d us hus lower => ?_⟩
    · have less := Production.depth_lt hus lower
      obtain ⟨same, stops⟩ := parseWithin_alike (g := g) (n := n) (hus.ended hc) (by omega)
        (q.depth_lt_fuel d)
      exact ⟨same.trans (hF q us d hus lower).symm, stops⟩
    · have less := Production.depth_lt hus lower
      obtain ⟨n, rfl⟩ := Nat.exists_eq_succ_of_ne_zero (n := n) (by omega)
      exact parseStep_types d
  have unfolded : parse g p c = parseStep g (parseWithin g n) p c := by
    rw [parse, hn]
    rfl
  exact unfolded.symm ▸ (parseStep_alike calls).1.symm

/-- What satisfies the parser's equation wherever it is called is the parser. -/
theorem eq_parse_of_step (hc : c.Ended)
    (hF : ∀ q us d, c.Passes us d → F q d = parseStep g F q d) : F p c = parse g p c := by
  induction hw : p.depth c using Nat.strongRecOn generalizing p c with
  | ind w ih =>
    rw [hF p [] c (Cursor.passes_refl c)]
    refine parseStep_of_calls hc fun q us d hus lower => ?_
    exact ih _ (hw ▸ Production.depth_lt hus lower) (hus.ended hc)
      (fun q' us' d' hus' => hF q' _ d' (hus.trans hus')) rfl

end

/-- **Reading a production terminates.**  On any tokens, for any production and whatever productions
the grammar lacks: more fuel does not change the outcome, a rule depends only on calls behind a
token and calls of a lower rank, and so only one parser satisfies the rules.  What is read stops no
later than in front of the first token that ends the file, and behind at least one token unless it
is a program; what is refused is refused at a token up to there. -/
theorem parse_terminates (g : Grammar) (p : Production) (ts : List Token) :
    let c := Cursor.ofTokens ts
    (∀ fuel, (c.later.length + 1) * callsPerToken ≤ fuel →
      parseWithin g fuel p c = parse g p c) ∧
    (∀ F : Productions,
      (∀ q us d, c.Passes us d → us ≠ [] ∨ q.rank < p.rank → F q d = parse g q d) →
        parseStep g F p c = parse g p c) ∧
    (∀ F : Productions, (∀ q us d, c.Passes us d → F q d = parseStep g F q d) →
      F p c = parse g p c) ∧
    (∀ node d, parse g p c = .ok (node, d) →
      ∃ us, c.Passes us d ∧ (p ≠ .program → us ≠ [])) ∧
    (∀ e, parse g p c = .error e → e.cause ≠ .tooDeep ∧ ∃ us d, c.Passes us d ∧ e.loc = d.loc) := by
  intro c
  have hc : c.Ended := Cursor.ended_ofTokens ts
  have stops := (parse_alike (g := g) (p := p) hc).2
  refine ⟨fun fuel more => ?_, fun F => parseStep_of_calls hc, fun F => eq_parse_of_step hc, ?_, ?_⟩
  · have room := p.depth_lt_fuel c
    exact (parseWithin_alike hc (Nat.lt_of_lt_of_le room more) room).1
  · intro node d hr
    rw [hr] at stops
    obtain ⟨us, hus, taken⟩ := stops
    refine ⟨us, hus, fun hp => ?_⟩
    rw [Production.least_of_ne hp] at taken
    exact List.ne_nil_of_length_pos taken
  · intro e hr
    rw [hr] at stops
    exact stops

end MiniC
