/-
  The trees of the parser are regular.

  A regular tree has definitions only at the top, declarations of members in structures, parameters
  in the heads of functions and a block as the body of each function, its declarations declare
  something, and its character literals are characters.  The parser makes no other trees (`ofSource_readAs`).
-/
import MiniC.Proofs.Tree
import MiniC.Program.Build

namespace MiniC

/-- The productions of definitions and of their heads, which have no place among statements. -/
def Production.isTop : Production → Bool
  | program | structDef | functionDef | param => true
  | _ => false

/-- The productions that make a node of their own from what they read. -/
def Production.isOwn : Production → Bool
  | program | structDef | functionDef | param | varDec | block | ifElse | whileLoop | doWhile
  | forLoop | returns | breaks | continues | empty | exprStatement => true
  | _ => false

/-- What a shape asks of its own parts. -/
def Shape.Fits : Shape → Prop
  | program items =>
    ∀ n ∈ items, n.production = .structDef ∨ n.production = .functionDef ∨ n.production = .varDec
  | structDef _ members => ∀ n ∈ members, n.production = .varDec
  | varDec _ items => items ≠ []
  | functionDef _ _ _ params body => (∀ n ∈ params, n.production = .param) ∧ body.production = .block
  | block statements => ∀ n ∈ statements, n.production.isTop = false
  | ifElse _ thenBranch elseBranch =>
    thenBranch.production.isTop = false ∧ ∀ n ∈ elseBranch, n.production.isTop = false
  | whileLoop _ body | doWhile body _ | forLoop _ _ _ body => body.production.isTop = false
  | charLiteral value => -128 ≤ value.toInt ∧ value.toInt ≤ 127
  | _ => True

/-- A tree all of whose parts stand where they belong. -/
inductive Node.Regular : Node → Prop
  | mk {n : Node} : n.shape.Fits → (∀ m ∈ n.shape.parts, m.Regular) → n.Regular

namespace Node.Regular
variable {m n : Node}

theorem fits (h : n.Regular) : n.shape.Fits := by cases h; assumption

theorem part (h : n.Regular) (hm : m ∈ n.shape.parts) : m.Regular := by
  cases h with
  | mk _ hp => exact hp m hm

end Node.Regular

/-! ## What readers give -/

/-- Whatever `x` reads satisfies `Q`. -/
def Parse.Gives {α : Type} (x : Parse α) (Q : α → Prop) : Prop :=
  ∀ c a c', x c = .ok (a, c') → Q a

namespace Parse
variable {α β : Type} {Q : α → Prop}

theorem gives_any (x : Parse α) : x.Gives fun _ => True := fun _ _ _ _ => trivial

theorem gives_pure {a : α} (h : Q a) : (pure a : Parse α).Gives Q := by
  intro c b c' hb
  cases hb
  exact h

theorem gives_fail {e : SyntaxError} : (fail e : Parse α).Gives Q := by
  intro c a c' h
  cases h

theorem gives_refuse {w : Wanted} : (refuse w : Parse α).Gives Q := by
  intro c a c' h
  cases h

theorem Gives.bind {P : β → Prop} {x : Parse β} {f : β → Parse α} (hx : x.Gives P)
    (hf : ∀ b, P b → (f b).Gives Q) : (x >>= f).Gives Q := by
  intro c a c' h
  change (Except.bind (x c) fun p => f p.1 p.2) = _ at h
  cases hb : x c with
  | error e => simp [hb, Except.bind] at h
  | ok p =>
    obtain ⟨b, d⟩ := p
    rw [hb] at h
    exact hf b (hx _ _ _ hb) _ _ _ h

/-- What is read first does not matter to what is given. -/
theorem gives_after {x : Parse β} {f : β → Parse α} (hf : ∀ b, (f b).Gives Q) :
    (x >>= f).Gives Q :=
  (gives_any x).bind fun b _ => hf b

theorem gives_ite {p : Prop} [Decidable p] {x y : Parse α} (hx : x.Gives Q) (hy : y.Gives Q) :
    (if p then x else y).Gives Q := by
  by_cases h : p <;> simp only [h, if_true, if_false] <;> assumption

theorem gives_itemsUntil {ends : TokenKind → Bool} {item : Parse α} (h : item.Gives Q) :
    ∀ fuel, (itemsUntil ends item fuel).Gives fun as => ∀ a ∈ as, Q a := by
  intro fuel
  induction fuel with
  | zero =>
    intro c as c' h
    cases h
  | succ fuel ih =>
    refine gives_after fun kind => gives_ite (gives_pure (by simp)) (h.bind fun a ha => ?_)
    refine ih.bind fun as has => gives_pure ?_
    simpa using ⟨ha, has⟩

theorem gives_upTo {ends : TokenKind → Bool} {item : Parse α} (h : item.Gives Q) :
    (upTo ends item).Gives fun as => ∀ a ∈ as, Q a :=
  gives_after fun _ => gives_itemsUntil h _

theorem gives_separated {item : Parse α} (h : item.Gives Q) :
    ∀ fuel, (separated item fuel).Gives fun as => ∀ a ∈ as, Q a := by
  intro fuel
  induction fuel with
  | zero =>
    intro c as c' h
    cases h
  | succ fuel ih =>
    refine h.bind fun a ha => gives_after fun more => gives_ite ?_ (gives_pure (by simpa using ha))
    refine ih.bind fun as has => gives_pure ?_
    simpa using ⟨ha, has⟩

theorem gives_separated_ne_nil (item : Parse α) :
    ∀ fuel, (separated item fuel).Gives (· ≠ []) := by
  intro fuel
  cases fuel with
  | zero =>
    intro c as c' h
    cases h
  | succ fuel =>
    refine gives_after fun a => gives_after fun more => gives_ite ?_ (gives_pure (by simp))
    exact gives_after fun as => gives_pure (by simp)

/-- A list with commas is never empty. -/
theorem gives_commaList_ne_nil (item : Parse α) : (commaList item).Gives (· ≠ []) :=
  gives_after fun _ => gives_separated_ne_nil item _

theorem gives_commaList {item : Parse α} (h : item.Gives Q) :
    (commaList item).Gives fun as => ∀ a ∈ as, Q a :=
  gives_after fun _ => gives_separated h _

end Parse

/-! ## The rules -/

/-- What a node read for the production `p` is like. -/
structure Node.ReadAs (p : Production) (n : Node) : Prop where
  regular : n.Regular
  own : p.isOwn → n.production = p
  statement : p = .statement → n.production.isTop = false

/-- What the rule of the production `p` makes. -/
def Parsed.ReadAs (p : Production) : Parsed → Prop
  | parts shape => shape.Fits ∧ (∀ m ∈ shape.parts, m.Regular) ∧ p ≠ .statement
  | whole n => n.ReadAs p

namespace Rule
open Parse

/-- A rule that is no statement of its own and hands on a regular node. -/
theorem readAs_whole {p : Production} {n : Node} (h : n.Regular) (ho : p.isOwn = false)
    (hs : p ≠ .statement) : (Parsed.whole n).ReadAs p :=
  ⟨h, by simp [ho], fun h => absurd h hs⟩

variable {parse : Productions} (H : ∀ p, (parse p).Gives (Node.ReadAs p))
include H

theorem gives_regular (p : Production) : (parse p).Gives Node.Regular :=
  fun c n c' h => (H p c n c' h).regular

theorem gives_parenthesized : (parenthesized parse).Gives Node.Regular :=
  gives_after fun _ => (gives_regular H .expr).bind fun _ hn => gives_after fun _ => gives_pure hn

theorem gives_optional (follow : TokenKind) :
    (optional parse follow).Gives fun o => ∀ n ∈ o, n.Regular :=
  gives_after fun _ => gives_ite (gives_pure (by simp))
    ((gives_regular H .expr).bind fun n hn => gives_pure (by simpa using hn))

theorem gives_statement : (parse .statement).Gives fun n => n.Regular ∧ n.production.isTop = false :=
  fun c n c' h => ⟨(H _ c n c' h).regular, (H _ c n c' h).statement rfl⟩

theorem gives_own {p : Production} (hp : p.isOwn) :
    (parse p).Gives fun n => n.Regular ∧ n.production = p :=
  fun c n c' h => ⟨(H p c n c' h).regular, (H p c n c' h).own hp⟩

/-! ### Declarations -/

theorem varItem_readAs : (varItem parse).Gives (Parsed.ReadAs .varItem) := by
  refine gives_after fun stars => gives_after fun name => gives_after fun bracket => gives_ite ?_ ?_
  · refine gives_after fun closed => gives_ite (gives_pure (by simp [Parsed.ReadAs, Shape.Fits,
      Shape.parts])) ((gives_regular H .expr).bind fun n hn => gives_after fun _ => gives_pure ?_)
    simpa [Parsed.ReadAs, Shape.Fits, Shape.parts] using hn
  · exact gives_pure (by simp [Parsed.ReadAs, Shape.Fits, Shape.parts])

theorem varDec_readAs : (varDec parse).Gives (Parsed.ReadAs .varDec) := by
  have items : (commaList (parse .varItem)).Gives fun ns => ns ≠ [] ∧ ∀ n ∈ ns, n.Regular :=
    fun c ns c' h => ⟨gives_commaList_ne_nil _ c ns c' h,
      gives_commaList (gives_regular H .varItem) c ns c' h⟩
  refine gives_after fun base => items.bind fun ns hi => gives_after fun _ => gives_pure ?_
  exact ⟨hi.1, hi.2, by simp⟩

theorem param_readAs : (param parse).Gives (Parsed.ReadAs .param) := by
  refine gives_after fun base => (gives_regular H .varItem).bind fun item hi => gives_pure ?_
  exact ⟨trivial, by simpa [Shape.parts] using hi, by simp⟩

theorem structDef_readAs : (structDef parse).Gives (Parsed.ReadAs .structDef) := by
  refine gives_after fun _ => gives_after fun name => gives_after fun _ =>
    (gives_upTo (gives_own H (p := .varDec) rfl)).bind fun members hm => gives_after fun _ =>
      gives_after fun _ => gives_pure ?_
  exact ⟨fun n hn => (hm n hn).2, fun n hn => (hm n hn).1, by simp⟩

theorem gives_params :
    (params parse).Gives fun ns => ∀ n ∈ ns, n.Regular ∧ n.production = .param := by
  refine gives_after fun next => gives_after fun ahead => gives_ite ?_ (gives_ite ?_ ?_)
  · exact gives_after fun _ => gives_pure (by simp)
  · exact gives_pure (by simp)
  · exact gives_commaList (gives_own H rfl)

theorem functionDef_readAs : (functionDef parse).Gives (Parsed.ReadAs .functionDef) := by
  refine gives_after fun base => gives_after fun stars => gives_after fun name => gives_after fun _ =>
    (gives_params H).bind fun params hp => gives_after fun _ =>
      (gives_own H (p := .block) rfl).bind fun body hb => gives_pure ?_
  refine ⟨⟨fun n hn => (hp n hn).2, hb.2⟩, fun n hn => ?_, by simp⟩
  rcases List.mem_cons.1 hn with rfl | hn
  · exact hb.1
  · exact (hp n hn).1

theorem gives_item : Parse.Gives (fun c => parse (itemProduction c) c) fun n =>
    n.Regular ∧ (n.production = .structDef ∨ n.production = .functionDef ∨ n.production = .varDec) := by
  intro c n c' h
  refine ⟨(H _ c n c' h).regular, ?_⟩
  have ho := (H _ c n c' h).own
  unfold itemProduction at ho
  split at ho
  · exact .inl (ho rfl)
  · split at ho
    · exact .inr (.inl (ho rfl))
    · exact .inr (.inr (ho rfl))

theorem program_readAs : (program parse).Gives (Parsed.ReadAs .program) := by
  refine (gives_upTo (gives_item H)).bind fun items hi => gives_pure ?_
  exact ⟨fun n hn => (hi n hn).2, fun n hn => (hi n hn).1, by simp⟩

/-! ### Statements -/

theorem statement_readAs : (statement parse).Gives (Parsed.ReadAs .statement) := by
  refine gives_after fun kind => ?_
  intro c r c' h
  refine Gives.bind (H (statementProduction kind)) (fun n hn => gives_pure ?_) c r c' h
  refine ⟨hn.regular, by simp [Production.isOwn], fun _ => ?_⟩
  have ho := hn.own
  unfold statementProduction at ho
  split at ho
  all_goals first
    | (rw [ho rfl]; rfl)
    | (split at ho <;> (rw [ho rfl]; rfl))

theorem block_readAs : (block parse).Gives (Parsed.ReadAs .block) := by
  refine gives_after fun _ => (gives_upTo (gives_statement H)).bind fun ss hs =>
    gives_after fun _ => gives_pure ?_
  exact ⟨fun n hn => (hs n hn).2, fun n hn => (hs n hn).1, by simp⟩

theorem ifElse_readAs : (ifElse parse).Gives (Parsed.ReadAs .ifElse) := by
  refine gives_after fun _ => (gives_parenthesized H).bind fun test ht =>
    (gives_statement H).bind fun thenBranch hb => gives_after fun more => gives_ite ?_ ?_
  · refine (gives_statement H).bind fun elseBranch he => gives_pure ?_
    exact ⟨⟨hb.2, by simpa using he.2⟩, by simpa [Shape.parts] using ⟨ht, hb.1, he.1⟩, by simp⟩
  · exact gives_pure ⟨⟨hb.2, by simp⟩, by simpa [Shape.parts] using ⟨ht, hb.1⟩, by simp⟩

theorem whileLoop_readAs : (whileLoop parse).Gives (Parsed.ReadAs .whileLoop) := by
  refine gives_after fun _ => (gives_parenthesized H).bind fun test ht =>
    (gives_statement H).bind fun body hb => gives_pure ?_
  exact ⟨hb.2, by simpa [Shape.parts] using ⟨ht, hb.1⟩, by simp⟩

theorem doWhile_readAs : (doWhile parse).Gives (Parsed.ReadAs .doWhile) := by
  refine gives_after fun _ => (gives_statement H).bind fun body hb => gives_after fun _ =>
    (gives_parenthesized H).bind fun test ht => gives_after fun _ => gives_pure ?_
  exact ⟨hb.2, by simpa [Shape.parts] using ⟨hb.1, ht⟩, by simp⟩

theorem forLoop_readAs : (forLoop parse).Gives (Parsed.ReadAs .forLoop) := by
  refine gives_after fun _ => gives_after fun _ => (gives_optional H _).bind fun init hi =>
    gives_after fun _ => (gives_optional H _).bind fun test ht => gives_after fun _ =>
      (gives_optional H _).bind fun increment hn => gives_after fun _ =>
        (gives_statement H).bind fun body hb => gives_pure ?_
  refine ⟨hb.2, fun n hm => ?_, by simp⟩
  simp only [Shape.parts, List.mem_cons, List.mem_append, Option.mem_toList] at hm
  rcases hm with rfl | (hm | hm) | hm
  · exact hb.1
  · exact hi n hm
  · exact ht n hm
  · exact hn n hm

theorem returns_readAs : (returns parse).Gives (Parsed.ReadAs .returns) := by
  refine gives_after fun _ => (gives_optional H _).bind fun value hv => gives_after fun _ =>
    gives_pure ?_
  exact ⟨trivial, by simpa [Shape.parts] using hv, by simp⟩

theorem exprStatement_readAs : (exprStatement parse).Gives (Parsed.ReadAs .exprStatement) := by
  refine (gives_regular H .expr).bind fun e he => gives_after fun _ => gives_pure ?_
  exact ⟨trivial, by simpa [Shape.parts] using he, by simp⟩

/-! ### Expressions -/

theorem assignment_readAs : (assignment parse).Gives (Parsed.ReadAs .assignment) := by
  refine (gives_regular H .logicalOr).bind fun left hl => gives_after fun more => gives_ite ?_ ?_
  · refine gives_after fun next => (gives_regular H _).bind fun right hr => gives_pure ?_
    exact ⟨trivial, by simpa [Shape.parts] using ⟨hl, hr⟩, by simp⟩
  · exact gives_pure (readAs_whole hl rfl (by simp))

theorem arrayInit_readAs : (arrayInit parse).Gives (Parsed.ReadAs .arrayInit) := by
  refine gives_after fun _ => gives_after fun closed => gives_ite ?_ ?_
  · exact gives_pure ⟨trivial, by simp [Shape.parts], by simp⟩
  · refine (gives_commaList (gives_regular H .assignment)).bind fun values hv =>
      gives_after fun _ => gives_pure ?_
    exact ⟨trivial, hv, by simp⟩

theorem gives_chain (level : Level) (start : Location) (fuel : Nat) {left : Node}
    (hl : left.Regular) : (chain parse level start fuel left).Gives Node.Regular := by
  induction fuel generalizing left with
  | zero =>
    intro c n c' h
    cases h
  | succ fuel ih =>
    refine gives_after fun kind => ?_
    cases level.operator? kind with
    | none => exact gives_pure hl
    | some op =>
      refine gives_after fun _ => (gives_regular H level.operand).bind fun right hr =>
        ih (.mk trivial ?_)
      simpa [Node.shape, Shape.parts] using ⟨hl, hr⟩

theorem binary_readAs (level : Level) {p : Production} (ho : p.isOwn = false) (hs : p ≠ .statement) :
    (binary parse level).Gives (Parsed.ReadAs p) :=
  gives_after fun start => (gives_regular H level.operand).bind fun _ hl => gives_after fun _ =>
    (gives_chain H level start _ hl).bind fun _ hn => gives_pure (readAs_whole hn ho hs)

theorem sizeof_readAs : (sizeof parse).Gives (Parsed.ReadAs .unary) := by
  refine gives_after fun _ => gives_after fun next => gives_after fun ahead => gives_ite ?_ ?_
  · exact gives_after fun _ => gives_after fun base => gives_after fun stars => gives_after fun _ =>
      gives_pure ⟨trivial, by simp [Shape.parts], by simp⟩
  · refine (gives_regular H .unary).bind fun operand ho => gives_pure ?_
    exact ⟨trivial, by simpa [Shape.parts] using ho, by simp⟩

theorem unary_readAs : (unary parse).Gives (Parsed.ReadAs .unary) := by
  refine gives_after fun kind => ?_
  split
  iterate 4
    refine gives_after fun _ => (gives_regular H .unary).bind fun operand ho => gives_pure ?_
    exact ⟨trivial, by simpa [Shape.parts] using ho, by simp⟩
  · exact sizeof_readAs H
  · exact (gives_regular H .suffix).bind fun n hn => gives_pure (readAs_whole hn rfl (by simp))

theorem gives_suffixes (start : Location) (fuel : Nat) {node : Node} (hn : node.Regular) :
    (suffixes parse start fuel node).Gives Node.Regular := by
  induction fuel generalizing node with
  | zero =>
    intro c n c' h
    cases h
  | succ fuel ih =>
    refine gives_after fun kind => ?_
    split
    · refine gives_after fun _ => (gives_regular H .expr).bind fun number hi => gives_after fun _ =>
        ih (.mk trivial ?_)
      simpa [Node.shape, Shape.parts] using ⟨hn, hi⟩
    · refine gives_after fun _ => gives_after fun field => ih (.mk trivial ?_)
      simpa [Node.shape, Shape.parts] using hn
    · refine gives_after fun _ => gives_after fun field => ih (.mk trivial ?_)
      simpa [Node.shape, Shape.parts] using hn
    · exact gives_pure hn

theorem suffix_readAs : (suffix parse).Gives (Parsed.ReadAs .suffix) :=
  gives_after fun start => (gives_regular H .primary).bind fun _ hn => gives_after fun _ =>
    (gives_suffixes H start _ hn).bind fun _ hm => gives_pure (readAs_whole hm rfl (by simp))

theorem primary_readAs : (primary parse).Gives (Parsed.ReadAs .primary) := by
  refine gives_after fun kind => ?_
  split
  · exact gives_after fun next => (gives_regular H _).bind fun n hn =>
      gives_pure (readAs_whole hn rfl (by simp))
  iterate 4
    exact (gives_regular H .literal).bind fun n hn => gives_pure (readAs_whole hn rfl (by simp))
  · exact (gives_parenthesized H).bind fun n hn => gives_pure (readAs_whole hn rfl (by simp))
  · exact gives_refuse

theorem call_readAs : (call parse).Gives (Parsed.ReadAs .call) := by
  refine gives_after fun name => gives_after fun _ => gives_after fun closed => gives_ite ?_ ?_
  · exact gives_pure ⟨trivial, by simp [Shape.parts], by simp⟩
  · refine (gives_commaList (gives_regular H .assignment)).bind fun args ha =>
      gives_after fun _ => gives_pure ?_
    exact ⟨trivial, ha, by simp⟩

omit H in
/-- The low byte of a word is a character. -/
theorem signedLowByte_range (w : Word) :
    -128 ≤ (Word.signedLowByte w).toInt ∧ (Word.signedLowByte w).toInt ≤ 127 := by
  rw [Word.signedLowByte, Int8.toInt_toInt32]
  exact ⟨Int8.le_toInt _, Int8.toInt_le _⟩

omit H in
theorem literal_readAs : literal.Gives (Parsed.ReadAs .literal) := by
  refine gives_after fun token => ?_
  split
  · split
    · exact gives_pure ⟨trivial, by simp [Shape.parts], by simp⟩
    · exact gives_fail
  · exact gives_pure ⟨signedLowByte_range _, by simp [Shape.parts], by simp⟩
  · exact gives_pure ⟨trivial, by simp [Shape.parts], by simp⟩
  · exact gives_pure ⟨trivial, by simp [Shape.parts], by simp⟩
  · exact gives_fail

/-- Each rule makes what its production asks for. -/
theorem of_readAs (p : Production) : (of parse p).Gives (Parsed.ReadAs p) := by
  have plain : ∀ {shape : Shape} {p : Production}, shape.parts = [] → shape.Fits → p ≠ .statement →
      (Parsed.parts shape).ReadAs p := fun hp hf hs => ⟨hf, by simp [hp], hs⟩
  cases p with
  | program => exact program_readAs H
  | structDef => exact structDef_readAs H
  | functionDef => exact functionDef_readAs H
  | param => exact param_readAs H
  | type =>
    refine gives_after fun kind => ?_
    split
    · exact gives_after fun _ => gives_pure (plain rfl trivial (by simp))
    · exact gives_after fun _ => gives_pure (plain rfl trivial (by simp))
    · exact gives_after fun _ => gives_pure (plain rfl trivial (by simp))
    · exact gives_after fun _ => gives_after fun _ => gives_pure (plain rfl trivial (by simp))
    · exact gives_refuse
  | varDec => exact varDec_readAs H
  | varItem => exact varItem_readAs H
  | statement => exact statement_readAs H
  | block => exact block_readAs H
  | ifElse => exact ifElse_readAs H
  | whileLoop => exact whileLoop_readAs H
  | doWhile => exact doWhile_readAs H
  | forLoop => exact forLoop_readAs H
  | returns => exact returns_readAs H
  | breaks | continues =>
    exact gives_after fun _ => gives_after fun _ => gives_pure (plain rfl trivial (by simp))
  | empty => exact gives_after fun _ => gives_pure (plain rfl trivial (by simp))
  | exprStatement => exact exprStatement_readAs H
  | expr =>
    exact (gives_regular H .assignment).bind fun n hn => gives_pure (readAs_whole hn rfl (by simp))
  | assignment => exact assignment_readAs H
  | arrayInit => exact arrayInit_readAs H
  | logicalOr | logicalAnd | equality | relational | additive | multiplicative =>
    exact binary_readAs H _ rfl (by simp)
  | unary => exact unary_readAs H
  | suffix => exact suffix_readAs H
  | primary => exact primary_readAs H
  | call => exact call_readAs H
  | identifier => exact gives_after fun name => gives_pure (plain rfl trivial (by simp))
  | literal => exact literal_readAs
  | other name =>
    intro c r c' h
    cases h

end Rule

/-- Every production gives nodes that it may give, however deep its calls nest. -/
theorem parseWithin_readAs (g : Grammar) :
    ∀ (fuel : Nat) (p : Production), (parseWithin g fuel p).Gives (Node.ReadAs p) := by
  intro fuel
  induction fuel with
  | zero =>
    intro p c n c' h
    cases h
  | succ fuel ih =>
    intro p c n c' h
    simp only [parseWithin, parseStep] at h
    split at h
    · cases hr : Rule.of (parseWithin g fuel) p c with
      | error e => simp [hr] at h
      | ok r =>
        obtain ⟨parsed, d⟩ := r
        simp only [hr, Except.ok.injEq, Prod.mk.injEq] at h
        obtain ⟨rfl, rfl⟩ := h
        have hp := Rule.of_readAs ih p _ _ _ hr
        cases parsed with
        | parts shape => exact ⟨.mk hp.1 hp.2.1, fun _ => rfl, fun h => absurd h hp.2.2⟩
        | whole n => exact hp
    · cases h

/-- **The tree of a source is regular.** -/
theorem ofSource_readAs {g : Grammar} {p : Production} {source : String} {root : Node}
    (h : Node.ofSource g p source = .ok root) : root.ReadAs p := by
  unfold Node.ofSource at h
  split at h
  · cases h
  · split at h
    · cases h
    · rename_i hp
      cases h
      exact parseWithin_readAs g _ p _ _ _ hp

end MiniC
