/-
  Every rendering is accepted, and read as the tree that it renders.

  The proof follows the rules of the syntax.  A phrase is accepted if its reader, wherever the words
  of the phrase are next, takes exactly these words and gives the tree, given that what stands
  behind them does not go on with it (`Category.Stops`) and that enough nesting is left (`Room`).

  Binary operators and suffixes are read in loops, while their rules are left recursive.  Such an
  expression is accepted in two steps: `Precedence.Accepted` says that its loop comes to hold the
  tree at the place behind the words and has turns left (`Precedence.goOn`), which is what the rule
  for a longer chain continues from; if nothing more pulls at the expression, the loop stops there.
-/
import MiniC.Proofs.Lookahead

namespace MiniC

/-! ## Where phrases stop -/

/-- How strongly a token of a kind pulls at the expression in front of it.  A precedence has the
strength of the operators that it reads; 0 pulls at nothing. -/
def TokenKind.pull : TokenKind → Nat
  | punct .assign => 2
  | punct .orOr => 3
  | punct .andAnd => 4
  | punct .eqEq | punct .notEq => 5
  | punct .lt | punct .le | punct .gt | punct .ge => 6
  | punct .plus | punct .minus => 7
  | punct .star | punct .slash | punct .percent => 8
  | punct .lbracket | punct .dot | punct .arrow => 10
  | punct .lparen => 12
  | _ => 0

namespace Precedence

/-- How strong a pull an expression of a precedence withstands. -/
def strength : Precedence → Nat
  | assignment => 1
  | or => 3
  | and => 4
  | equality => 5
  | relational => 6
  | additive => 7
  | multiplicative => 8
  | unary => 9
  | suffix => 10
  | primary => 11

/-- How many calls nest below that of a precedence before a token is taken. -/
def rank : Precedence → Nat
  | assignment => 10
  | or => 9
  | and => 8
  | equality => 7
  | relational => 6
  | additive => 5
  | multiplicative => 4
  | unary => 3
  | suffix => 2
  | primary => 1

theorem strength_lt_tighter {ℓ : Precedence} (h : ℓ ≠ .primary) :
    ℓ.strength < ℓ.tighter.strength := by
  cases ℓ <;> first | exact absurd rfl h | decide

theorem rank_tighter_lt {ℓ : Precedence} (h : ℓ ≠ .primary) : ℓ.tighter.rank < ℓ.rank := by
  cases ℓ <;> first | exact absurd rfl h | decide

end Precedence

theorem BinaryOp.pull_mark (op : BinaryOp) :
    (TokenKind.punct op.mark).pull = op.precedence.strength := by
  cases op <;> rfl

namespace Category

/-- Whether a token of a kind leaves the construct in front of it as it is. -/
@[simp] def Stops : Category → TokenKind → Prop
  | expr ℓ, k => k.pull < ℓ.strength
  | declarator, k | parameter, k => k ≠ .punct .lbracket
  | statement dangling, k => dangling → k ≠ .keyword .else_
  | program, k => k = .endOfFile
  | _, _ => True

/-- The reader of a construct. -/
def reader (parse : Productions) : Category → Parse Node
  | expr ℓ => parse ℓ.production
  | initializer => parse .arrayInit
  | declarator => parse .varItem
  | declaration => parse .varDec
  | parameter => parse .param
  | block => parse .block
  | statement _ => parse .statement
  | item => fun c => parse (Rule.itemProduction c) c
  | program => parse .program

/-- How many calls nest below the reader of a construct before a token is taken. -/
def rank : Category → Nat
  | expr ℓ => ℓ.rank
  | initializer | declarator | block => 0
  | declaration | parameter | item => 1
  | statement _ => 13
  | program => 14

end Category

/-! ## Nesting -/

/-- Enough nesting is left for `r` calls at the cursor and as many as there may be behind it. -/
def Room (r : Nat) (c : Cursor) (fuel : Nat) : Prop :=
  c.later.length * callsPerToken + r < fuel

namespace Room
variable {r r' fuel : Nat} {c d e : Cursor} {ls ms : List Lexeme}

theorem succ (h : Room r c fuel) : ∃ f, fuel = f + 1 :=
  ⟨fuel - 1, by unfold Room at h; omega⟩

theorem le (h : Room r c fuel) (hr : r' ≤ r) : Room r' c fuel := by
  unfold Room at *
  omega

theorem more (h : Room r c fuel) : Room r c (fuel + 1) := Nat.lt_succ_of_lt h

/-- A call at the same place. -/
theorem below (h : Room r c (fuel + 1)) (hr : r' < r) : Room r' c fuel := by
  unfold Room at *
  omega

theorem mono (h : Room r c fuel) (he : e.later.length ≤ c.later.length) : Room r e fuel := by
  unfold Room callsPerToken at *
  omega

theorem advance {l : Lexeme} (h : Room r c fuel) (hr : c.Reads (l :: ls) d) :
    Room r c.advance fuel := by
  refine h.mono ?_
  rw [hr.length, hr.advance.length, List.length_cons]
  omega

/-- A call behind a token that has been taken. -/
theorem behind (h : Room r c (fuel + 1)) (hc : c.Reads ls d) (he : e.Reads ms d)
    (hlt : ms.length < ls.length) (hr : r' < callsPerToken) : Room r' e fuel := by
  have hc := hc.length
  have he := he.length
  unfold Room callsPerToken at *
  omega

end Room

/-! ## Steps in front of words -/

namespace Parse
variable {α : Type} {c d : Cursor} {ls : List Lexeme}

theorem mark_bind {p : Punct} (h : c.Reads (.mark p :: ls) d) (f : Unit → Parse α) :
    (discard (expect (.punct p)) >>= f) c = f () c.advance := by
  rw [discard_bind, bind_of_ok (expect_of_kind h.mark)]

theorem keyword_bind {k : Keyword} (h : c.Reads (.keyword k :: ls) d) (f : Unit → Parse α) :
    (discard (expect (.keyword k)) >>= f) c = f () c.advance := by
  rw [discard_bind, bind_of_ok (expect_of_kind h.keyword)]

theorem name_of_reads {x : String} (h : c.Reads (.name x :: ls) d) :
    name c = .ok (x, c.advance) := by
  have hx : c.here.content = x := by
    have hl := h.lexeme
    have hk : c.here.kind = .identifier := h.name
    rw [Token.lexeme?, hk] at hl
    cases hl
    rfl
  rw [← hx, name, bind_of_ok (expect_of_kind h.name)]
  rfl

/-- The reader `x` gives the tree `n`, places aside, from `c` on and stops at `d`. -/
def Makes (x : Parse Node) (c : Cursor) (n : Node) (d : Cursor) : Prop :=
  ∃ m, x c = .ok (m, d) ∧ m.unplaced = n

end Parse

open Parse Node

section
variable {p : Production} {fuel : Nat} {c d : Cursor}

theorem contains_of_rule {parse : Productions} {r : Parsed × Cursor}
    (h : Rule.of parse p c = .ok r) : Grammar.full.contains p := by
  cases p with
  | other => cases h
  | _ => rfl

theorem parseWithin_of_rule {r : Parsed} (h : Rule.of (parseWithin .full fuel) p c = .ok (r, d)) :
    parseWithin .full (fuel + 1) p c = .ok (r.node p c.loc, d) := by
  simp only [parseWithin, parseStep, if_pos (contains_of_rule h), h]

/-- A rule that makes a node of its own. -/
theorem makes_parts {s : Shape} {n : Node}
    (h : Rule.of (parseWithin .full fuel) p c = .ok (.parts s, d))
    (hn : .mk ⟨p, .nowhere⟩ (unplacedShape s) = n) : (parseWithin .full (fuel + 1) p).Makes c n d :=
  ⟨_, parseWithin_of_rule h, by rw [Rule.unplaced_parts, hn]⟩

/-- A rule that hands on a node. -/
theorem makes_whole {m : Node} (h : Rule.of (parseWithin .full fuel) p c = .ok (.whole m, d)) :
    (parseWithin .full (fuel + 1) p).Makes c m.unplaced d :=
  ⟨m, parseWithin_of_rule h, rfl⟩

end

/-! ## Accepted phrases -/

/-- Wherever the words are next, the reader of the construct takes them and gives the tree. -/
def Category.Accepted (s : Category) (n : Node) (ls : List Lexeme) : Prop :=
  ∀ (fuel : Nat) (c d : Cursor), c.Reads ls d → s.Stops d.kind → Room s.rank c fuel →
    (s.reader (parseWithin .full fuel)).Makes c n d

namespace Precedence

/-- The loop that goes on with an expression of a precedence. -/
def goOn (ℓ : Precedence) (parse : Productions) (start : Location) (k : Nat) (n : Node) :
    Parse Node :=
  match ℓ.level? with
  | some level => Rule.chain parse level start k n
  | none => if ℓ = .suffix then Rule.suffixes parse start k n else pure n

/-- Wherever the words are next, the reader of the precedence comes to hold the tree behind them and
goes on from there, with more turns of its loop left than there are tokens. -/
def Accepted (ℓ : Precedence) (n : Node) (ls : List Lexeme) : Prop :=
  ∀ (fuel : Nat) (c d : Cursor), c.Reads ls d → d.kind.pull ≤ ℓ.strength →
    Room ℓ.rank c (fuel + 1) → ∃ k m, d.later.length < k ∧ m.unplaced = n ∧
      parseWithin .full (fuel + 1) ℓ.production c =
        ℓ.goOn (parseWithin .full fuel) c.loc k m d

variable {ℓ : Precedence} {parse : Productions} {start : Location} {k : Nat} {n : Node} {c : Cursor}

/-- The loop stops where nothing pulls at the expression. -/
theorem goOn_of_pull_lt (h : c.kind.pull < ℓ.strength) :
    ℓ.goOn parse start (k + 1) n c = .ok (n, c) := by
  rw [goOn]
  cases hl : ℓ.level? with
  | some level =>
    have hn : level.operator? c.kind = none := by
      cases ho : level.operator? c.kind with
      | none => rfl
      | some op =>
        obtain ⟨rfl, hk⟩ := ((Rule.isFor_of_level? hl).operator _ _).1 ho
        rw [hk, op.pull_mark] at h
        omega
    simp only [Rule.chain]
    rw [peek_bind, hn]
    rfl
  | none =>
    by_cases hs : ℓ = .suffix
    · subst hs
      simp only [if_true, Rule.suffixes]
      rw [peek_bind]
      generalize c.kind = kind at h
      split <;> first | rfl | simp [TokenKind.pull, strength] at h
    · simp only [if_neg hs]
      rfl

/-- An expression that nothing pulls at is read as a whole. -/
theorem Accepted.whole {ls : List Lexeme} (h : ℓ.Accepted n ls) :
    (Category.expr ℓ).Accepted n ls := by
  intro fuel c d hr hs room
  obtain ⟨fuel, rfl⟩ := room.succ
  obtain ⟨k, m, hk, rfl, he⟩ := h _ _ _ hr (Nat.le_of_lt hs) room
  obtain ⟨j, rfl⟩ : ∃ j, k = j + 1 := ⟨k - 1, by omega⟩
  exact ⟨m, he.trans (goOn_of_pull_lt hs), rfl⟩

/-- Nothing pulls exactly as strongly as an expression without a loop withstands. -/
theorem pull_ne_strength (hl : ℓ.level? = none) (hs : ℓ ≠ .suffix) (kind : TokenKind) :
    kind.pull ≠ ℓ.strength := by
  cases ℓ with
  | assignment | unary | primary => unfold TokenKind.pull; split <;> decide
  | suffix => exact absurd rfl hs
  | _ => cases hl

/-- A precedence that is read without a loop. -/
theorem Accepted.of_makes {ls : List Lexeme} (hl : ℓ.level? = none) (hs : ℓ ≠ .suffix)
    (h : ∀ (fuel : Nat) (c d : Cursor), c.Reads ls d → d.kind.pull < ℓ.strength →
      Room ℓ.rank c (fuel + 1) → (parseWithin .full (fuel + 1) ℓ.production).Makes c n d) :
    ℓ.Accepted n ls := by
  intro fuel c d hr hp room
  obtain ⟨m, hm, rfl⟩ := h _ _ _ hr (Nat.lt_of_le_of_ne hp (pull_ne_strength hl hs _)) room
  refine ⟨_, m, Nat.lt_succ_self _, rfl, ?_⟩
  rw [goOn, hl]
  simp only [if_neg hs]
  exact hm

end Precedence

section
variable {s : Category} {n : Node} {ls ms : List Lexeme} {l : Lexeme} {c d : Cursor} {fuel r : Nat}

/-- A construct in front of a word that leaves it as it is. -/
theorem Category.Accepted.splits (h : s.Accepted n ls) (hr : c.Reads (ls ++ l :: ms) d)
    (hs : s.Stops l.kind) (room : Room s.rank c fuel) :
    ∃ m e, s.reader (parseWithin .full fuel) c = .ok (m, e) ∧ m.unplaced = n ∧
      e.Reads (l :: ms) d := by
  obtain ⟨e, hr₁, hr₂⟩ := hr.append
  rw [← hr₂.kind] at hs
  obtain ⟨m, hm, hn⟩ := h _ _ _ hr₁ hs room
  exact ⟨m, e, hm, hn, hr₂⟩

theorem expr_makes (h : Precedence.assignment.Accepted n ls) (hr : c.Reads ls d)
    (hd : d.kind.pull = 0) (room : Room 11 c fuel) :
    (parseWithin .full fuel .expr).Makes c n d := by
  obtain ⟨fuel, rfl⟩ := room.succ
  obtain ⟨m, hm, rfl⟩ := h.whole _ _ _ hr (by simp [hd, Precedence.strength])
    (room.below (by decide))
  exact makes_whole (p := .expr) (bind_of_ok hm _)

/-- An expression in front of a word that does not go on with it. -/
theorem expr_splits (h : Precedence.assignment.Accepted n ls) (hr : c.Reads (ls ++ l :: ms) d)
    (hl : l.kind.pull = 0) (room : Room 11 c fuel) :
    ∃ m e, parseWithin .full fuel .expr c = .ok (m, e) ∧ m.unplaced = n ∧ e.Reads (l :: ms) d := by
  obtain ⟨e, hr₁, hr₂⟩ := hr.append
  obtain ⟨m, hm, hn⟩ := expr_makes h hr₁ (by rw [hr₂.kind, hl]) room
  exact ⟨m, e, hm, hn, hr₂⟩

theorem parenthesized_splits (h : Precedence.assignment.Accepted n ls)
    (hr : c.Reads (.mark .lparen :: (ls ++ .mark .rparen :: ms)) d) (room : Room r c (fuel + 1)) :
    ∃ m e, Rule.parenthesized (parseWithin .full fuel) c = .ok (m, e) ∧ m.unplaced = n ∧
      e.Reads ms d := by
  obtain ⟨m, e, hm, hn, hr'⟩ := expr_splits h hr.advance rfl
    (room.behind hr hr.advance (by simp) (by decide))
  refine ⟨m, e.advance, ?_, hn, hr'.advance⟩
  rw [Rule.parenthesized, mark_bind hr, bind_of_ok hm, mark_bind hr']
  rfl

theorem base_splits {b : Base} (hr : c.Reads (b.lexemes ++ ls) d) (room : Room r c fuel) :
    ∃ e, Rule.base (parseWithin .full fuel) c = .ok (b, e) ∧ e.Reads ls d := by
  obtain ⟨fuel, rfl⟩ := room.succ
  have type : ∀ {e}, Rule.type c = .ok (.parts (.type b), e) →
      Rule.base (parseWithin .full (fuel + 1)) c = .ok (b, e) := by
    intro e h
    rw [Rule.base, bind_of_ok (parseWithin_of_rule (p := .type) h)]
    rfl
  cases b with
  | int | char | void =>
    refine ⟨c.advance, type ?_, hr.advance⟩
    rw [Rule.type, peek_bind, hr.keyword]
    rfl
  | struct x =>
    have hx : c.advance.Reads (.name x :: ls) d := hr.advance
    refine ⟨c.advance.advance, type ?_, hx.advance⟩
    rw [Rule.type, peek_bind, hr.keyword]
    simp only
    rw [discard_bind, advance_bind, bind_of_ok (name_of_reads hx)]
    rfl

theorem stars_splits {k : Nat} (hr : c.Reads (Lexeme.stars k ++ l :: ls) d) (hl : l ≠ .mark .star) :
    ∃ e, stars c = .ok (k, e) ∧ e.Reads (l :: ls) d := by
  obtain ⟨e, he, hr⟩ := hr.skipStars hl
  exact ⟨e, by rw [stars, he], hr⟩

end

/-! ## Several constructs -/

/-- Wherever the words are next, the reader of a list takes them and gives the trees. -/
def Category.ListAccepted (s : Category) (ns : List Node) (ls : List Lexeme) : Prop :=
  ∀ (fuel k : Nat) (c d : Cursor), c.Reads ls d → s.Stops (.punct .comma) → s.Stops d.kind →
    d.kind ≠ .punct .comma → Room s.rank c fuel → c.later.length < k →
    ∃ ms, separated (s.reader (parseWithin .full fuel)) k c = .ok (ms, d) ∧ ms.map unplaced = ns

/-- Wherever the words are next, the reader of a series takes them and gives the trees. -/
def Category.SeriesAccepted (s : Category) (ns : List Node) (ls : List Lexeme) : Prop :=
  ∀ (ends : TokenKind → Bool) (fuel k : Nat) (c d : Cursor), c.Reads ls d → ends d.kind →
    (∀ kind, s.Begins kind → kind ≠ .endOfFile → ends kind = false ∧ s.Stops kind) →
    s.Stops d.kind → Room s.rank c fuel → c.later.length < k →
    ∃ ms, itemsUntil ends (s.reader (parseWithin .full fuel)) k c = .ok (ms, d) ∧
      ms.map unplaced = ns

namespace Category
variable {s : Category} {n : Node} {ns : List Node} {ls ms : List Lexeme}

theorem ListAccepted.last (h : s.Accepted n ls) : s.ListAccepted [n] ls := by
  intro fuel k c d hr _ hs hd room hk
  obtain ⟨k, rfl⟩ : ∃ j, k = j + 1 := ⟨k - 1, by omega⟩
  obtain ⟨m, hm, rfl⟩ := h _ _ _ hr hs room
  refine ⟨[m], ?_, rfl⟩
  rw [separated, bind_of_ok hm, bind_of_ok (accept_of_kind_ne hd)]
  rfl

theorem ListAccepted.more (h : s.Accepted n ls) (ht : s.ListAccepted ns ms) :
    s.ListAccepted (n :: ns) (ls ++ .mark .comma :: ms) := by
  intro fuel k c d hr hc hs hd room hk
  obtain ⟨k, rfl⟩ : ∃ j, k = j + 1 := ⟨k - 1, by omega⟩
  obtain ⟨m, e, hm, rfl, he⟩ := h.splits hr hc room
  have h₁ := hr.length
  have h₂ := he.advance.length
  simp only [List.length_append, List.length_cons] at h₁
  obtain ⟨ms, hms, rfl⟩ := ht fuel k _ _ he.advance hc hs hd (room.mono (by omega)) (by omega)
  refine ⟨m :: ms, ?_, rfl⟩
  rw [separated, bind_of_ok hm, bind_of_ok (accept_of_kind he.mark), if_pos rfl, bind_of_ok hms]
  rfl

theorem ListAccepted.commaList {fuel : Nat} {c d : Cursor} (h : s.ListAccepted ns ls)
    (hr : c.Reads ls d) (hc : s.Stops (.punct .comma)) (hs : s.Stops d.kind)
    (hd : d.kind ≠ .punct .comma) (room : Room s.rank c fuel) :
    ∃ ms, Parse.commaList (s.reader (parseWithin .full fuel)) c = .ok (ms, d) ∧
      ms.map unplaced = ns :=
  h fuel _ _ _ hr hc hs hd room (Nat.lt_succ_self _)

theorem SeriesAccepted.nil : s.SeriesAccepted [] [] := by
  intro ends fuel k c d hr hd _ _ _ hk
  obtain ⟨k, rfl⟩ : ∃ j, k = j + 1 := ⟨k - 1, by omega⟩
  cases hr
  refine ⟨[], ?_, rfl⟩
  rw [itemsUntil, peek_bind, if_pos hd]
  rfl

theorem SeriesAccepted.cons (h : s.Accepted n ls) (ho : s.Opens ls) (ht : s.SeriesAccepted ns ms)
    (hms : ms = [] ∨ s.Opens ms) : s.SeriesAccepted (n :: ns) (ls ++ ms) := by
  intro ends fuel k c d hr hd hb hs room hk
  obtain ⟨k, rfl⟩ : ∃ j, k = j + 1 := ⟨k - 1, by omega⟩
  obtain ⟨e, h₁, h₂⟩ := hr.append
  -- The next token either begins the next construct or ends the series.
  have he : s.Stops e.kind := by
    rcases hms with rfl | ⟨l, ms, rfl, hl, -⟩
    · cases h₂
      exact hs
    · rw [h₂.kind]
      exact (hb _ hl (by simp)).2
  obtain ⟨m, hm, rfl⟩ := h _ _ _ h₁ he room
  obtain ⟨l, ls, rfl, hl, -⟩ := ho
  have hl₁ := h₁.length
  simp only [List.length_cons] at hl₁
  obtain ⟨ms, hms, rfl⟩ := ht ends fuel k _ _ h₂ hd hb hs (room.mono (by omega)) (by omega)
  refine ⟨m :: ms, ?_, rfl⟩
  have hn : ¬ ends c.kind := by simp [h₁.kind, (hb _ hl (by simp)).1]
  rw [itemsUntil, peek_bind, if_neg hn, bind_of_ok hm, bind_of_ok hms]
  rfl

theorem SeriesAccepted.upTo (ends : TokenKind → Bool) {fuel : Nat} {c d : Cursor}
    (h : s.SeriesAccepted ns ls) (hr : c.Reads ls d) (hd : ends d.kind)
    (hb : ∀ kind, s.Begins kind → kind ≠ .endOfFile → ends kind = false ∧ s.Stops kind)
    (hs : s.Stops d.kind) (room : Room s.rank c fuel) :
    ∃ ms, Parse.upTo ends (s.reader (parseWithin .full fuel)) c = .ok (ms, d) ∧
      ms.map unplaced = ns :=
  h ends fuel _ _ _ hr hd hb hs room (Nat.lt_succ_self _)

end Category

/-- Values between brackets are accepted: there are none, or a list of them. -/
def ValuesAccepted (ns : List Node) (ls : List Lexeme) : Prop :=
  ns = [] ∧ ls = [] ∨
    (Category.expr .assignment).ListAccepted ns ls ∧ (Category.expr .assignment).Opens ls

/-- Values up to the bracket that closes them. -/
theorem ValuesAccepted.splits {ns : List Node} {ls : List Lexeme} {c d : Cursor} {fuel : Nat}
    {p : Punct} (h : ValuesAccepted ns ls) (hr : c.Reads (ls ++ [.mark p]) d)
    (hp : p = .rparen ∨ p = .rbrace) (room : Room 10 c fuel) (f : List Node → Shape) :
    ∃ ms, (do
      if ← accept (.punct p) then return .parts (f [])
      let values ← commaList (parseWithin .full fuel .assignment)
      discard (expect (.punct p))
      return .parts (f values) : Parse Parsed) c = .ok (.parts (f ms), d) ∧
        ms.map unplaced = ns := by
  rcases h with ⟨rfl, rfl⟩ | ⟨h, l, ls, rfl, hl, -⟩
  · refine ⟨[], ?_, rfl⟩
    rw [bind_of_ok (accept_of_kind hr.mark), if_pos rfl, ← hr.advance.eq_of_nil]
    rfl
  · obtain ⟨e, h₁, h₂⟩ := hr.append
    have hk : c.kind ≠ .punct p := by
      rintro hk
      rw [h₁.kind] at hk
      rcases hp with rfl | rfl <;> rw [hk] at hl <;> cases hl
    have he : e.kind.pull = 0 ∧ e.kind ≠ .punct .comma := by
      rw [h₂.mark]
      rcases hp with rfl | rfl <;> decide
    obtain ⟨ms, hms, hn⟩ := h.commaList h₁ (Nat.zero_lt_succ _)
      (show _ < _ by rw [he.1]; decide) he.2 room
    have hms : commaList (parseWithin .full fuel .assignment) c = .ok (ms, e) := hms
    refine ⟨ms, ?_, hn⟩
    rw [bind_of_ok (accept_of_kind_ne hk), if_neg (by simp), bind_of_ok hms, mark_bind h₂,
      h₂.advance.eq_of_nil]
    rfl

/-! ## Expressions -/

namespace Precedence
variable {ℓ : Precedence} {n : Node} {ls : List Lexeme} {c d : Cursor} {fuel : Nat}

theorem contains_production (ℓ : Precedence) : Grammar.full.contains ℓ.production := by
  cases ℓ <;> rfl

/-- A rule that ends with a loop and hands on what the loop gives. -/
theorem parseWithin_of_loop {x : Parse Node}
    (h : Rule.of (parseWithin .full fuel) ℓ.production c = (x >>= fun n => pure (.whole n)) d) :
    parseWithin .full (fuel + 1) ℓ.production c = x d := by
  simp only [parseWithin, parseStep, if_pos ℓ.contains_production, h]
  cases hx : x d with
  | error e => rw [bind_of_error hx]
  | ok p =>
    obtain ⟨m, e⟩ := p
    rw [bind_of_ok hx]
    rfl

/-- A level of binary operators comes to hold its first operand. -/
theorem parseWithin_level {level : Rule.Level} (hl : ℓ.level? = some level) {m : Node}
    (hm : parseWithin .full fuel ℓ.tighter.production c = .ok (m, d)) :
    parseWithin .full (fuel + 1) ℓ.production c =
      ℓ.goOn (parseWithin .full fuel) c.loc (d.later.length + 1) m d := by
  have hℓ := Rule.isFor_of_level? hl
  rw [← hℓ.operand] at hm
  apply parseWithin_of_loop
  rw [hℓ.rule, Rule.binary, here_bind, bind_of_ok hm, remaining_bind, goOn, hl]

/-- The level of the suffixes comes to hold what they stand behind. -/
theorem parseWithin_suffix {m : Node} (hm : parseWithin .full fuel .primary c = .ok (m, d)) :
    parseWithin .full (fuel + 1) .suffix c =
      suffix.goOn (parseWithin .full fuel) c.loc (d.later.length + 1) m d := by
  apply @parseWithin_of_loop .suffix
  show Rule.suffix _ c = _
  rw [Rule.suffix, here_bind, bind_of_ok hm, remaining_bind]
  rfl

/-- A primary is no operator in front of an operand. -/
theorem unary_of_startsPrimary {parse : Productions} (h : c.kind.startsPrimary) :
    Rule.unary parse c = (parse .suffix >>= fun n => pure (.whole n)) c := by
  rw [Rule.unary, peek_bind]
  generalize c.kind = kind at h
  split <;> first | rfl | cases h

/-- What binds tighter is accepted where something looser is. -/
theorem Accepted.loosen (h : ℓ.tighter.Accepted n ls) (ho : (Category.expr ℓ.tighter).Opens ls) :
    ℓ.Accepted n ls := by
  by_cases hp : ℓ = .primary
  · subst hp
    exact h
  -- What follows pulls less than the tighter construct does, so it ends at the same token.
  have tight : ∀ (fuel : Nat) (c d : Cursor), c.Reads ls d → d.kind.pull ≤ ℓ.strength →
      Room ℓ.rank c (fuel + 1) → (parseWithin .full fuel ℓ.tighter.production).Makes c n d :=
    fun fuel c d hr hd room => h.whole _ _ _ hr (Nat.lt_of_le_of_lt hd (strength_lt_tighter hp))
      (room.below (rank_tighter_lt hp))
  cases hl : ℓ.level? with
  | some level =>
    intro fuel c d hr hd room
    obtain ⟨m, hm, rfl⟩ := tight _ _ _ hr hd room
    exact ⟨_, m, Nat.lt_succ_self _, rfl, parseWithin_level hl hm⟩
  | none =>
    cases ℓ with
    | assignment =>
      refine .of_makes rfl nofun fun fuel c d hr hd room => ?_
      obtain ⟨m, hm, rfl⟩ := tight _ _ _ hr (Nat.le_of_lt hd) room
      -- A target in front of an assignment sign would not end here.
      have hk : d.kind ≠ .punct .assign := by
        intro hk
        simp [hk, TokenKind.pull, strength] at hd
      refine makes_whole ((bind_of_ok hm _).trans ?_)
      exact bind_of_ok (accept_of_kind_ne hk) _
    | unary =>
      refine .of_makes rfl nofun fun fuel c d hr hd room => ?_
      obtain ⟨m, hm, rfl⟩ := tight _ _ _ hr (Nat.le_of_lt hd) room
      obtain ⟨l, ms, rfl, hb, -⟩ := ho
      refine makes_whole ((unary_of_startsPrimary ?_).trans (bind_of_ok hm _))
      rw [hr.kind]
      exact hb
    | suffix =>
      intro fuel c d hr hd room
      obtain ⟨m, hm, rfl⟩ := tight _ _ _ hr hd room
      exact ⟨_, m, Nat.lt_succ_self _, rfl, parseWithin_suffix hm⟩
    | primary => exact absurd rfl hp
    | _ => cases hl

/-! ### Assignments and operators -/

/-- Both sides of an assignment have been read. -/
theorem makes_assign {l r : Node} {e : Cursor}
    (hl : parseWithin .full fuel .logicalOr c = .ok (l, e)) (he : e.kind = .punct .assign)
    (hr : parseWithin .full fuel (if e.advance.kind = .punct .lbrace then .arrayInit
      else .assignment) e.advance = .ok (r, d)) :
    (parseWithin .full (fuel + 1) .assignment).Makes c
      (Shape.assign l.unplaced r.unplaced).node d := by
  refine makes_parts (s := .assign l r) ?_ (by simp)
  show Rule.assignment _ c = _
  rw [Rule.assignment, bind_of_ok hl, bind_of_ok (accept_of_kind he), if_pos rfl, peek_bind,
    bind_of_ok hr]
  rfl

theorem Accepted.assign {l r : Node} {ls rs : List Lexeme} (hl : or.Accepted l ls)
    (hr : assignment.Accepted r rs) (ho : (Category.expr .assignment).Opens rs) :
    assignment.Accepted (Shape.assign l r).node (ls ++ .mark .assign :: rs) := by
  refine .of_makes rfl nofun fun fuel c d h hd room => ?_
  obtain ⟨l, e, hm, rfl, he⟩ := hl.whole.splits h (Nat.lt_succ_self 2) (room.below (by decide))
  obtain ⟨r, hm', rfl⟩ := hr.whole _ _ _ he.advance hd
    (room.behind h he.advance (by simp; omega) (by decide))
  refine makes_assign hm he.mark ?_
  rwa [if_neg]
  obtain ⟨m, ms, rfl, hm, -⟩ := ho
  rw [he.advance.kind]
  rintro hk
  rw [hk] at hm
  cases hm

theorem Accepted.assignValues {l r : Node} {ls rs : List Lexeme} (hl : or.Accepted l ls)
    (hr : Category.initializer.Accepted r rs) (ho : Category.initializer.Opens rs) :
    assignment.Accepted (Shape.assign l r).node (ls ++ .mark .assign :: rs) := by
  refine .of_makes rfl nofun fun fuel c d h hd room => ?_
  obtain ⟨l, e, hm, rfl, he⟩ := hl.whole.splits h (Nat.lt_succ_self 2) (room.below (by decide))
  obtain ⟨r, hm', rfl⟩ := hr _ _ _ he.advance trivial
    (room.behind h he.advance (by simp; omega) (by decide))
  refine makes_assign hm he.mark ?_
  rwa [if_pos]
  obtain ⟨m, ms, rfl, hm, -⟩ := ho
  rw [he.advance.kind]
  exact hm

/-- One turn of the loop of a level. -/
theorem chain_operator {parse : Productions} {level : Rule.Level} {start : Location} {k : Nat}
    {op : BinaryOp} {left : Node} (h : level.operator? c.kind = some op) :
    Rule.chain parse level start (k + 1) left c = (parse level.operand >>= fun right =>
      Rule.chain parse level start k (.mk ⟨level.production, start⟩ (.binary op left right)))
        c.advance := by
  simp only [Rule.chain]
  rw [peek_bind, h]
  rfl

theorem Accepted.binary {op : BinaryOp} {l r : Node} {ls rs : List Lexeme}
    (hl : op.precedence.Accepted l ls) (hr : op.precedence.tighter.Accepted r rs) :
    op.precedence.Accepted (Shape.binary op l r).node (ls ++ .mark op.mark :: rs) := by
  intro fuel c d h hd room
  obtain ⟨level, hlevel⟩ : ∃ level, op.precedence.level? = some level := by
    cases op <;> exact ⟨_, rfl⟩
  have hℓ := Rule.isFor_of_level? hlevel
  have hne : op.precedence ≠ .primary := by cases op <;> simp [BinaryOp.precedence]
  obtain ⟨e, h₁, h₂⟩ := h.append
  obtain ⟨k, l, hk, rfl, hc⟩ := hl _ _ _ h₁ (Nat.le_of_eq (by rw [h₂.mark, op.pull_mark])) room
  obtain ⟨r, hm, rfl⟩ := hr.whole _ _ _ h₂.advance
    (Nat.lt_of_le_of_lt hd (strength_lt_tighter hne))
    (room.behind h h₂.advance (by simp; omega) (by cases op <;> decide))
  have he := h₂.length
  simp only [List.length_cons] at he
  obtain ⟨j, rfl⟩ : ∃ j, k = j + 1 := ⟨k - 1, by omega⟩
  refine ⟨j, .mk ⟨level.production, c.loc⟩ (.binary op l r), by omega, ?_, ?_⟩
  · simp [unplaced, hℓ.production]
  · rw [hc, goOn, goOn, hlevel]
    simp only
    rw [chain_operator ((hℓ.operator _ _).2 ⟨rfl, h₂.mark⟩), hℓ.operand]
    exact bind_of_ok hm _

/-! ### Operators in front -/

/-- An operator in front of its operand, which the rule reads and makes a part of its node. -/
theorem Accepted.operator {p : Punct} {f : Node → Shape}
    (hf : ∀ (parse : Productions) (c : Cursor), c.kind = .punct p →
      Rule.unary parse c = (parse .unary >>= fun n => pure (.parts (f n))) c.advance)
    (hu : ∀ m, .mk ⟨.unary, .nowhere⟩ (unplacedShape (f m)) = (f m.unplaced).node)
    (h : unary.Accepted n ls) : unary.Accepted (f n).node (.mark p :: ls) := by
  refine .of_makes rfl nofun fun fuel c d hr hd room => ?_
  obtain ⟨m, hm, rfl⟩ := h.whole _ _ _ hr.advance hd
    (room.behind hr hr.advance (by simp) (by decide))
  refine makes_parts ?_ (hu m)
  show Rule.unary _ c = _
  rw [hf _ _ hr.mark]
  exact bind_of_ok hm _

theorem unary_of_sizeof {parse : Productions} (h : c.kind = .keyword .sizeof) :
    Rule.unary parse c = Rule.sizeof parse c := by
  rw [Rule.unary, peek_bind, h]

theorem Accepted.sizeofExpr (h : unary.Accepted n ls) (ho : (Category.expr .unary).Opens ls) :
    unary.Accepted (Shape.sizeofExpr n).node (.keyword .sizeof :: ls) := by
  refine .of_makes rfl nofun fun fuel c d hr hd room => ?_
  obtain ⟨m, hm, rfl⟩ := h.whole _ _ _ hr.advance hd
    (room.behind hr hr.advance (by simp) (by decide))
  -- An expression in parentheses does not begin with a type.
  have hn : ¬ (c.advance.kind = .punct .lparen ∧ (c.advance.kindAhead 1).startsType) := by
    rintro ⟨hk, ht⟩
    obtain ⟨l, ms, rfl, -, hp⟩ := ho
    rw [hr.advance.kind] at hk
    obtain ⟨l, ns, rfl, hl⟩ := hp (by cases l <;> simp_all [Lexeme.kind])
    rw [hr.advance.kindAhead, Cursor.kindAhead_zero, hr.advance.advance.kind,
      TokenKind.startsType_of_startsExpr hl] at ht
    cases ht
  refine makes_parts (s := .sizeofExpr m) ?_ (by simp [production])
  show Rule.unary _ c = _
  rw [unary_of_sizeof hr.keyword, Rule.sizeof, keyword_bind hr, peek_bind, peekAhead_bind,
    if_neg hn]
  exact bind_of_ok hm _

theorem Accepted.sizeofType (b : Base) (k : Nat) :
    unary.Accepted (Shape.sizeofType b k).node (.keyword .sizeof :: .mark .lparen ::
      (b.lexemes ++ (Lexeme.stars k ++ [.mark .rparen]))) := by
  refine .of_makes rfl nofun fun fuel c d hr hd room => ?_
  have hr' := hr.advance
  obtain ⟨e, hb, he⟩ := base_splits hr'.advance
    (room.behind hr hr'.advance (by grind) (by decide) : Room 0 _ fuel)
  obtain ⟨f, hk, hf⟩ := stars_splits he (by simp)
  have hp : c.advance.kind = .punct .lparen ∧ (c.advance.kindAhead 1).startsType := by
    refine ⟨hr'.mark, ?_⟩
    rw [hr'.kindAhead, Cursor.kindAhead_zero]
    have ht := hr'.advance
    cases b <;> rw [ht.keyword] <;> rfl
  refine makes_parts (s := .sizeofType b k) ?_ (by simp [production])
  show Rule.unary _ c = _
  rw [unary_of_sizeof hr.keyword, Rule.sizeof, keyword_bind hr, peek_bind, peekAhead_bind,
    if_pos hp, discard_bind, advance_bind, bind_of_ok hb, bind_of_ok hk, mark_bind hf, hf.advance.eq_of_nil]
  rfl

/-! ### Suffixes and primaries -/

/-- One turn of the loop of the suffixes, which begins with the word `l`. -/
theorem Accepted.suffixed {l : Lexeme} {m : Node} {ms : List Lexeme} (h : suffix.Accepted n ls)
    (hl : l.kind.pull = suffix.strength)
    (turn : ∀ (fuel k : Nat) (start : Location) (c d : Cursor) (b : Node), c.Reads (l :: ms) d →
      b.unplaced = n → Room 11 c.advance fuel → ∃ b' : Node, b'.unplaced = m ∧
        Rule.suffixes (parseWithin .full fuel) start (k + 1) b c =
          Rule.suffixes (parseWithin .full fuel) start k b' d) :
    suffix.Accepted m (ls ++ l :: ms) := by
  intro fuel c d hr hd room
  obtain ⟨e, h₁, h₂⟩ := hr.append
  obtain ⟨k, b, hk, hb, hc⟩ := h _ _ _ h₁ (Nat.le_of_eq (by rw [h₂.kind, hl])) room
  have he := h₂.length
  simp only [List.length_cons] at he
  obtain ⟨j, rfl⟩ : ∃ j, k = j + 1 := ⟨k - 1, by omega⟩
  obtain ⟨b', hb', ht⟩ := turn fuel j c.loc _ _ b h₂ hb
    (room.behind hr h₂.advance (by simp; omega) (by decide))
  exact ⟨j, b', by omega, hb', hc.trans ht⟩

theorem Accepted.index {b i : Node} {bs ls : List Lexeme} (hb : suffix.Accepted b bs)
    (hi : assignment.Accepted i ls) : suffix.Accepted (Shape.index b i).node
      (bs ++ .mark .lbracket :: (ls ++ [.mark .rbracket])) := by
  refine hb.suffixed rfl ?_
  rintro fuel k start c d b hr rfl room
  obtain ⟨i, e, hm, rfl, he⟩ := expr_splits hi hr.advance rfl room
  refine ⟨.mk ⟨.suffix, start⟩ (.index b i), by simp [unplaced], ?_⟩
  rw [Rule.suffixes, peek_bind, hr.mark]
  simp only
  rw [discard_bind, advance_bind, bind_of_ok hm, mark_bind he, he.advance.eq_of_nil]

theorem Accepted.member {f : String} (h : suffix.Accepted n ls) :
    suffix.Accepted (Shape.member n f).node (ls ++ [.mark .dot, .name f]) := by
  refine h.suffixed rfl ?_
  rintro fuel k start c d b hr rfl -
  refine ⟨.mk ⟨.suffix, start⟩ (.member b f), by simp [unplaced], ?_⟩
  rw [Rule.suffixes, peek_bind, hr.mark]
  simp only
  rw [discard_bind, advance_bind, bind_of_ok (name_of_reads hr.advance),
    hr.advance.advance.eq_of_nil]

theorem Accepted.pointerMember {f : String} (h : suffix.Accepted n ls) :
    suffix.Accepted (Shape.pointerMember n f).node (ls ++ [.mark .arrow, .name f]) := by
  refine h.suffixed rfl ?_
  rintro fuel k start c d b hr rfl -
  refine ⟨.mk ⟨.suffix, start⟩ (.pointerMember b f), by simp [unplaced], ?_⟩
  rw [Rule.suffixes, peek_bind, hr.mark]
  simp only
  rw [discard_bind, advance_bind, bind_of_ok (name_of_reads hr.advance),
    hr.advance.advance.eq_of_nil]

theorem Accepted.call {f : String} {ns : List Node} (h : ValuesAccepted ns ls) :
    suffix.Accepted (Shape.call f ns).node
      (.name f :: .mark .lparen :: (ls ++ [.mark .rparen])) := by
  intro fuel c d hr hd room
  have hr' := hr.advance
  obtain ⟨fuel, rfl⟩ := (room.below (by decide) : Room 1 c fuel).succ
  have room' : Room 0 c fuel := (room.below (by decide) : Room 1 c (fuel + 1)).below (by decide)
  obtain ⟨fuel, rfl⟩ := room'.succ
  obtain ⟨ms, hms, rfl⟩ := h.splits hr'.advance (.inl rfl)
    (room'.behind hr hr'.advance (by simp) (by decide)) (.call f)
  obtain ⟨m, hm, hn⟩ : (parseWithin .full (fuel + 1) .call).Makes c
      (Shape.call f (ms.map unplaced)).node d := by
    refine makes_parts (s := .call f ms) ?_ (by simp)
    show Rule.call _ c = _
    rw [Rule.call, bind_of_ok (name_of_reads hr), mark_bind hr']
    exact hms
  refine ⟨_, m, Nat.lt_succ_self _, hn, parseWithin_suffix ?_⟩
  refine parseWithin_of_rule (p := .primary) (r := .whole m) ?_
  show Rule.primary _ c = _
  rw [Rule.primary, peek_bind, hr.name]
  simp only
  rw [peekAhead_bind, hr.kindAhead, Cursor.kindAhead_zero, hr'.mark, if_pos rfl, bind_of_ok hm]
  rfl

theorem Accepted.group (h : assignment.Accepted n ls) :
    primary.Accepted n (.mark .lparen :: (ls ++ [.mark .rparen])) := by
  refine .of_makes rfl nofun fun fuel c d hr hd room => ?_
  obtain ⟨m, e, hm, rfl, he⟩ := parenthesized_splits h hr room
  refine makes_whole ?_
  show Rule.primary _ c = _
  rw [Rule.primary, peek_bind, hr.mark]
  simp only
  rw [bind_of_ok hm, he.eq_of_nil]
  rfl

theorem Accepted.identifier (x : String) :
    primary.Accepted (Shape.identifier x).node [.name x] := by
  refine .of_makes rfl nofun fun fuel c d hr hd room => ?_
  obtain ⟨fuel, rfl⟩ := (room.below (by decide) : Room 0 c fuel).succ
  obtain ⟨m, hm, hn⟩ : (parseWithin .full (fuel + 1) .identifier).Makes c
      (Shape.identifier x).node d := by
    refine makes_parts (s := .identifier x) ?_ (by simp)
    show Rule.identifier c = _
    rw [Rule.identifier, bind_of_ok (name_of_reads hr), hr.advance.eq_of_nil]
    rfl
  have hk : c.kindAhead 1 ≠ .punct .lparen := by
    rw [hr.kindAhead, Cursor.kindAhead_zero, hr.advance.eq_of_nil]
    intro hk
    simp [hk, TokenKind.pull, strength] at hd
  rw [← hn]
  refine makes_whole ?_
  show Rule.primary _ c = _
  rw [Rule.primary, peek_bind, hr.name]
  simp only
  rw [peekAhead_bind, if_neg hk, bind_of_ok hm]
  rfl

/-- A literal is one token. -/
theorem literal_of_lexeme {l : Lexeme} {s : Shape} (h : l.literal? = some s)
    (hl : c.here.lexeme? = some l) : Rule.literal c = .ok (.parts s, c.advance) := by
  have hk := Token.kind_of_lexeme? hl
  rw [Rule.literal, advance_bind]
  unfold Lexeme.literal? at h
  split at h
  case h_1 digits =>
    obtain ⟨w, hw, rfl⟩ := Option.map_eq_some_iff.1 h
    rw [Token.lexeme?, hk] at hl
    cases hl
    rw [hk]
    simp only [Lexeme.kind, hw]
    rfl
  case h_5 => cases h
  all_goals
    cases h
    rw [Token.lexeme?, hk] at hl
    cases hl
    rw [hk]
    rfl

theorem primary_of_literal {parse : Productions} {l : Lexeme} {s : Shape} (h : l.literal? = some s)
    (hk : c.kind = l.kind) :
    Rule.primary parse c = (parse .literal >>= fun n => pure (.whole n)) c := by
  rw [Rule.primary, peek_bind, hk]
  unfold Lexeme.literal? at h
  split at h <;> first | rfl | cases h

theorem Accepted.literal {l : Lexeme} {s : Shape} (h : l.literal? = some s) :
    primary.Accepted s.node [l] := by
  refine .of_makes rfl nofun fun fuel c d hr hd room => ?_
  obtain ⟨fuel, rfl⟩ := (room.below (by decide) : Room 0 c fuel).succ
  obtain ⟨m, hm, hn⟩ : (parseWithin .full (fuel + 1) .literal).Makes c s.node d := by
    refine makes_parts (s := s) ?_ (Lexeme.node_of_literal? h)
    show Rule.literal c = _
    rw [literal_of_lexeme h hr.lexeme, hr.advance.eq_of_nil]
  rw [← hn]
  refine makes_whole ?_
  show Rule.primary _ c = _
  rw [primary_of_literal h hr.kind, bind_of_ok hm]
  rfl

end Precedence

theorem Category.Accepted.initializer {ns : List Node} {ls : List Lexeme}
    (h : ValuesAccepted ns ls) : Category.initializer.Accepted (Shape.arrayInit ns).node
      (.mark .lbrace :: (ls ++ [.mark .rbrace])) := by
  intro fuel c d hr _ room
  obtain ⟨fuel, rfl⟩ := room.succ
  obtain ⟨ms, hms, rfl⟩ := h.splits hr.advance (.inr rfl)
    (room.behind hr hr.advance (by simp) (by decide)) .arrayInit
  refine makes_parts (s := .arrayInit ms) ?_ (by simp)
  show Rule.arrayInit _ c = _
  rw [Rule.arrayInit, mark_bind hr]
  exact hms

end MiniC
