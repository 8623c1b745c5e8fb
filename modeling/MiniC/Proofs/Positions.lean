/-
  Positions that come from a source.

  A location is in a text if it counts what stands before some place of the text: its characters,
  its newlines and the characters since the last of them (`Location.In`).  A reader stands in a text
  if it has read what stands before it, and all that it does keeps it there, so tokens and lexical
  faults are in the text.  The parser copies the places of tokens, whatever the grammar: with tokens
  that satisfy `P`, its faults and its nodes do (`Parse.Places`, `Node.Placed`).

  * `Reader.In.step`: one step of a reader.
  * `Rule.of_places` and `parseWithin_places`: one rule of the grammar and all of them.
  * `Node.ofSource_placed`: the nodes of a source's tree, or the fault that it has, are in the source.
-/
import Mathlib.Data.List.Induction
import Mathlib.Data.List.TakeDrop
import MiniC.Program.Build
import MiniC.Proofs.Reading
import MiniC.Proofs.Tree

namespace MiniC

/-! ## Positions of a text -/

/-- The position of a place in a text: the characters before it, one more than the newlines among
them, and one more than the characters behind the last of those. -/
structure Location.In (source : String) (l : Location) : Prop where
  offset : l.offset ≤ source.toList.length
  line : l.line = 1 + (source.toList.take l.offset).count '\n'
  column : l.column =
    1 + ((source.toList.take l.offset).reverse.takeWhile fun c => c ≠ '\n').length

theorem Location.start_advanceAll (cs : List Char) :
    (start.advanceAll cs).line = 1 + cs.count '\n' ∧
      (start.advanceAll cs).column = 1 + (cs.reverse.takeWhile fun c => c ≠ '\n').length := by
  induction cs using List.reverseRecOn with
  | nil => exact ⟨rfl, rfl⟩
  | append_singleton cs c ih =>
    rw [advanceAll_append, advanceAll_cons, advanceAll_nil, advance]
    by_cases hc : c = '\n'
    · subst hc
      simp only [if_true, List.count_append, List.reverse_append, ih.1]
      exact ⟨by simp [Nat.add_assoc], by simp⟩
    · simp only [hc, if_false, List.count_append, List.reverse_append, ih.1, ih.2]
      exact ⟨by simp [hc], by simp [hc, Nat.add_assoc]⟩

/-- Where a reader arrives is in the text. -/
theorem Location.in_of_prefix {source : String} {cs rest : List Char}
    (h : source.toList = cs ++ rest) : (start.advanceAll cs).In source := by
  obtain ⟨line, column⟩ := start_advanceAll cs
  have offset : (start.advanceAll cs).offset = cs.length := by
    rw [offset_advanceAll, start, Nat.zero_add]
  have before : source.toList.take (start.advanceAll cs).offset = cs := by
    rw [offset, h, List.take_left]
  exact ⟨by rw [offset, h, List.length_append]; omega, by rw [before, line], by rw [before, column]⟩

/-! ## Readers -/

/-- The reader has read what stands before it in the text. -/
def Reader.In (source : String) (r : Reader) : Prop :=
  ∃ cs, source.toList = cs ++ r.rest ∧ r.loc = Location.start.advanceAll cs

/-- What a reader finds is in the text, and so is the reader behind it. -/
def Step.In (source : String) : Step → Prop
  | done => True
  | skip next => next.In source
  | token t next => t.loc.In source ∧ next.In source
  | fault e => e.loc.In source

/-- What a literal is scanned to: the reader behind it, or a fault. -/
def Reader.Scanned {α : Type} (source : String) : Except LexicalError (α × Reader) → Prop
  | .ok (_, next) => next.In source
  | .error e => e.loc.In source

/-- What a text is read as: tokens in it, or a fault in it. -/
def Reader.Lexed (source : String) : Except LexicalError (List Token) → Prop
  | .ok ts => ∀ t ∈ ts, t.loc.In source
  | .error e => e.loc.In source

namespace Reader
variable {source : String} {r : Reader} {l opened : Location} {c : Char} {cs rest : List Char}

theorem in_ofString (source : String) : (ofString source).In source := ⟨[], rfl, rfl⟩

theorem In.loc (h : r.In source) : r.loc.In source := by
  obtain ⟨cs, hs, hl⟩ := h
  exact hl ▸ Location.in_of_prefix hs

theorem In.advanceAll (h : r.In source) (hr : r.rest = cs ++ rest) :
    In source ⟨rest, r.loc.advanceAll cs⟩ := by
  obtain ⟨ds, hs, hl⟩ := h
  refine ⟨ds ++ cs, ?_, ?_⟩
  · rw [hs, hr, List.append_assoc]
  · rw [hl, Location.advanceAll_append]

theorem In.consume (h : r.In source) (hr : r.rest = c :: cs) : In source ⟨cs, r.loc.advance c⟩ :=
  h.advanceAll (hr.trans List.singleton_append.symm)

theorem In.advance (h : In source ⟨c :: cs, l⟩) : In source ⟨cs, l.advance c⟩ := h.consume rfl

theorem Scanned.map {α β : Type} {x : Except LexicalError (α × Reader)} {f : α → β}
    (h : Scanned source x) : Scanned source (x.map fun (a, next) => (f a, next)) := by
  cases x with
  | error e => exact h
  | ok r => exact h

theorem splitLine_append (cs : List Char) : (splitLine cs).1 ++ (splitLine cs).2 = cs := by
  fun_induction splitLine cs with
  | case1 => rfl
  | case2 => rfl
  | case3 c cs hc line rest hsplit ih =>
    rw [hsplit] at ih
    rw [List.cons_append, ih]

theorem splitComment_append {cs comment rest : List Char}
    (h : splitComment cs = some (comment, rest)) : cs = comment ++ rest := by
  fun_induction splitComment cs generalizing comment with
  | case1 => cases h
  | case2 cs =>
    cases h
    rfl
  | case3 c cs hc ih =>
    obtain ⟨⟨comment', rest'⟩, hs, he⟩ := Option.map_eq_some_iff.1 h
    cases he
    rw [ih hs, List.cons_append]

theorem In.scanString (h : In source ⟨cs, l⟩) (ho : opened.In source) :
    Scanned source (scanString opened l cs) := by
  fun_induction Reader.scanString opened l cs with
  | case1 => exact ho
  | case2 _ cs => exact h.advance
  | case3 => exact ho
  | case4 _ => exact h.advance.loc
  | case5 _ e cs _ he => exact h.advance.advance.loc
  | case6 _ e cs _ c he ih => exact (ih h.advance.advance).map
  | case7 _ c cs _ _ _ _ ih => exact (ih h.advance).map

theorem In.closeChar (h : In source ⟨cs, l⟩) (d : Char) : Scanned source (closeChar d l cs) := by
  unfold Reader.closeChar
  split
  · exact h.loc
  · exact h.advance
  · exact h.advance.loc

theorem In.scanChar (h : In source ⟨cs, l⟩) : Scanned source (scanChar l cs) := by
  unfold Reader.scanChar
  split
  · exact h.loc
  · exact h.advance.loc
  · simp only
    split
    · exact h.advance.advance.loc
    · exact h.advance.advance.closeChar _
  · exact h.advance.closeChar _

theorem In.emitScanned {x : Except LexicalError (List Char × Reader)} (h : r.In source)
    (hx : Scanned source x) (kind : TokenKind) : (r.emitScanned kind x).In source := by
  cases x with
  | error e => exact hx
  | ok p => exact ⟨h.loc, hx⟩

theorem In.emit (h : r.In source) (hr : r.rest = cs ++ rest) (kind : TokenKind) (content : String) :
    (r.emit kind content cs rest).In source :=
  ⟨h.loc, h.advanceAll hr⟩

/-- A mark is spelled by the characters that it is recognized by. -/
theorem punct?_spelling {p : Punct} (h : punct? c cs.head? = some p) :
    ∃ rest, c :: cs = p.text.toList ++ rest := by
  -- Where a mark of two characters is recognized, the second one is the next.
  have second : ∀ {d : Char}, cs.head? = some d → ∃ rest, cs = d :: rest := by
    intro d hd
    cases cs with
    | nil => cases hd
    | cons e rest =>
      cases hd
      exact ⟨rest, rfl⟩
  unfold punct? at h
  simp only at h
  split at h <;> (try split at h) <;> cases h
  all_goals first
    | (obtain ⟨rest, rfl⟩ := second ‹_›; exact ⟨rest, rfl⟩)
    | exact ⟨cs, rfl⟩

theorem span_append (p : Char → Bool) (cs : List Char) : (cs.span p).1 ++ (cs.span p).2 = cs := by
  rw [List.span_eq_takeWhile_dropWhile, List.takeWhile_append_dropWhile]

theorem In.lexeme (h : r.In source) (hr : r.rest = c :: cs) : (r.lexeme c cs).In source := by
  have behind : In source ⟨cs, r.loc.advance c⟩ := h.consume hr
  unfold Reader.lexeme
  split
  · exact h.emitScanned (behind.scanString h.loc) _
  split
  · exact h.emitScanned (behind.scanChar.map (f := fun d => [d])) _
  split
  · simp only
    split
    · exact h.loc
    · refine h.emit ?_ _ _
      exact hr.trans (congrArg (c :: ·) (span_append Char.isDigit cs).symm)
  split
  · refine h.emit ?_ _ _
    exact hr.trans (congrArg (c :: ·) (span_append isIdentRest cs).symm)
  · split
    · exact h.loc
    · rename_i p hp
      obtain ⟨rest, hrest⟩ := punct?_spelling hp
      refine h.emit ?_ _ _
      rw [hr, hrest, List.drop_left]

/-- **One step of a reader stays in the text.** -/
theorem In.step (h : r.In source) : r.step.In source := by
  unfold Reader.step
  split
  · trivial
  · rename_i cs hr
    exact h.advanceAll (hr.trans (splitLine_append _).symm)
  · rename_i cs hr
    split
    · exact h.loc
    · rename_i comment rest hc
      refine h.advanceAll ?_
      rw [hr, splitComment_append hc]
      rfl
  · rename_i cs hr
    exact h.advanceAll (hr.trans (splitLine_append _).symm)
  · rename_i c cs _ _ _ hr
    split
    · exact h.consume hr
    · exact h.lexeme hr

/-- Tokens, or the fault that ends them, are in the text. -/
theorem In.tokens (h : r.In source) (fuel : Nat) : Lexed source (r.tokens fuel) := by
  induction fuel generalizing r with
  | zero => exact List.forall_mem_singleton.2 h.loc
  | succ fuel ih =>
    have hstep := h.step
    unfold Reader.tokens
    cases hs : r.step <;> rw [hs] at hstep
    case done => exact List.forall_mem_singleton.2 h.loc
    case skip next => exact ih hstep
    case token t next =>
      have rest := ih hstep.2
      change Lexed source ((Reader.tokens fuel next).map (t :: ·))
      cases hn : Reader.tokens fuel next with
      | error e => rwa [hn] at rest
      | ok ts =>
        rw [hn] at rest
        exact List.forall_mem_cons.2 ⟨hstep.1, rest⟩
    case fault e => exact hstep

end Reader

/-! ## Trees -/

/-- The places of all nodes of a tree satisfy `P`. -/
inductive Node.Placed (P : Location → Prop) : Node → Prop
  | mk {n : Node} : P n.start → (∀ m ∈ n.shape.parts, m.Placed P) → n.Placed P

namespace Node.Placed
variable {P Q : Location → Prop} {m n : Node}

theorem start (h : n.Placed P) : P n.start := by cases h; assumption

theorem part (h : n.Placed P) (hm : m ∈ n.shape.parts) : m.Placed P := by
  cases h with
  | mk _ hp => exact hp m hm

theorem mono (h : n.Placed P) (hPQ : ∀ l, P l → Q l) : n.Placed Q := by
  induction h with
  | mk hs _ ih => exact .mk (hPQ _ hs) ih

end Node.Placed

/-- The parts that a rule makes, or the node that it hands on, are placed. -/
def Parsed.Placed (P : Location → Prop) : Parsed → Prop
  | parts shape => ∀ m ∈ shape.parts, m.Placed P
  | whole n => n.Placed P

/-- The places of all tokens from the cursor on satisfy `P`. -/
def Cursor.Placed (P : Location → Prop) (c : Cursor) : Prop := ∀ t ∈ c.here :: c.later, P t.loc

/-- From tokens at `P`, `x` reads what satisfies `Q` and comes to tokens at `P`, or has a fault at
`P`. -/
def Parse.Places {α : Type} (P : Location → Prop) (x : Parse α) (Q : α → Prop) : Prop :=
  ∀ c, Cursor.Placed P c →
    (∀ a c', x c = .ok (a, c') → c'.Placed P ∧ Q a) ∧ ∀ e, x c = .error e → P e.loc

namespace Cursor.Placed
variable {P : Location → Prop} {c : Cursor}

theorem loc (h : c.Placed P) : P c.loc := h c.here List.mem_cons_self

theorem advance (h : c.Placed P) : c.advance.Placed P := by
  unfold Cursor.advance
  split
  · exact h
  · split
    · exact h
    · rename_i t ts hl
      exact fun u hu => h u (by rw [hl]; exact List.mem_cons_of_mem _ hu)

theorem skipStars {t : Token} {ts : List Token} (h : ∀ u ∈ t :: ts, P u.loc) :
    (Cursor.skipStars t ts).2.Placed P := by
  induction ts generalizing t with
  | nil => exact h
  | cons u us ih =>
    unfold Cursor.skipStars
    split
    · exact ih fun v hv => h v (List.mem_cons_of_mem _ hv)
    · exact h

end Cursor.Placed

namespace Parse
variable {P : Location → Prop} {α β : Type} {Q R : α → Prop}

theorem places_pure {a : α} (h : Q a) : (pure a : Parse α).Places P Q := by
  refine fun c hc => ⟨?_, fun _ h => by cases h⟩
  rintro b c' ⟨⟩
  exact ⟨hc, h⟩

theorem places_fail {e : SyntaxError} (h : P e.loc) : (fail e : Parse α).Places P Q := by
  refine fun c hc => ⟨nofun, ?_⟩
  rintro e' ⟨⟩
  exact h

/-- A fault that is reported where the cursor stands. -/
theorem places_here {x : Parse α} (h : ∀ c, ∃ cause, x c = .error ⟨cause, c.loc⟩) :
    x.Places P Q := by
  intro c hc
  obtain ⟨cause, hx⟩ := h c
  rw [hx]
  refine ⟨nofun, ?_⟩
  rintro e ⟨⟩
  exact hc.loc

theorem places_refuse {w : Wanted} : (refuse w : Parse α).Places P Q :=
  places_here fun c => ⟨.unexpected w c.here, rfl⟩

/-- A look at the cursor. -/
theorem places_look {f : Cursor → α} (h : ∀ c, c.Placed P → Q (f c)) :
    Places P (fun c => .ok (f c, c)) Q := by
  refine fun c hc => ⟨?_, fun _ h => by cases h⟩
  rintro a c' ⟨⟩
  exact ⟨hc, h c hc⟩

theorem places_peek : peek.Places P fun _ => True := places_look fun _ _ => trivial

theorem places_peekAhead (n : Nat) : (peekAhead n).Places P fun _ => True :=
  places_look fun _ _ => trivial

theorem places_remaining : remaining.Places P fun _ => True := places_look fun _ _ => trivial

theorem places_hereLoc : here.Places P P := places_look fun _ hc => hc.loc

theorem places_advance : advance.Places P fun t => P t.loc := by
  refine fun c hc => ⟨?_, fun _ h => by cases h⟩
  rintro a c' ⟨⟩
  exact ⟨hc.advance, hc.loc⟩

theorem places_expect (kind : TokenKind) : (expect kind).Places P fun t => P t.loc := by
  intro c hc
  unfold expect
  split
  · exact places_advance c hc
  · exact places_refuse c hc

theorem places_accept (kind : TokenKind) : (accept kind).Places P fun _ => True := by
  intro c hc
  unfold accept
  split
  · refine ⟨?_, fun _ h => by cases h⟩
    rintro a c' ⟨⟩
    exact ⟨hc.advance, trivial⟩
  · exact places_pure trivial c hc

theorem places_stars : stars.Places P fun _ => True := by
  refine fun c hc => ⟨?_, fun _ h => by cases h⟩
  intro a c' hx
  have hs := Cursor.Placed.skipStars hc
  rw [stars, Except.ok.injEq] at hx
  rw [hx] at hs
  exact ⟨hs, trivial⟩

theorem Places.bind {x : Parse β} {f : β → Parse α} {R : β → Prop} (hx : x.Places P R)
    (hf : ∀ b, R b → (f b).Places P Q) : (x >>= f).Places P Q := by
  intro c hc
  obtain ⟨good, bad⟩ := hx c hc
  change (∀ a c', Except.bind (x c) (fun p => f p.1 p.2) = .ok (a, c') → _) ∧
    ∀ e, Except.bind (x c) (fun p => f p.1 p.2) = .error e → _
  cases hb : x c with
  | error e =>
    refine ⟨nofun, ?_⟩
    rintro e' ⟨⟩
    exact bad e hb
  | ok p =>
    obtain ⟨b, d⟩ := p
    obtain ⟨hd, hR⟩ := good b d hb
    exact hf b hR d hd

/-- What is read first does not matter to what follows. -/
theorem Places.next {x : Parse β} {f : β → Parse α} {R : β → Prop} (hx : x.Places P R)
    (hf : ∀ b, (f b).Places P Q) : (x >>= f).Places P Q :=
  hx.bind fun b _ => hf b

theorem Places.discard {x : Parse β} {R : β → Prop} (hx : x.Places P R) :
    (discard x).Places P fun _ => True := by
  have hd : Functor.discard x = x >>= fun _ => pure PUnit.unit :=
    map_eq_pure_bind (fun _ => PUnit.unit) x
  rw [hd]
  exact hx.next fun _ => places_pure trivial

theorem places_ite {p : Prop} [Decidable p] {x y : Parse α} (hx : x.Places P Q)
    (hy : y.Places P Q) : (if p then x else y).Places P Q := by
  by_cases h : p
  · rwa [if_pos h]
  · rwa [if_neg h]

theorem places_name : name.Places P fun _ => True :=
  (places_expect _).next fun _ => places_pure trivial

theorem places_itemsUntil {ends : TokenKind → Bool} {item : Parse α} (h : item.Places P Q)
    (fuel : Nat) : (itemsUntil ends item fuel).Places P fun as => ∀ a ∈ as, Q a := by
  induction fuel with
  | zero => exact places_here fun c => ⟨.tooDeep, rfl⟩
  | succ fuel ih =>
    refine places_peek.next fun kind => places_ite (places_pure (by simp)) (h.bind fun a ha => ?_)
    exact ih.bind fun as has => places_pure (List.forall_mem_cons.2 ⟨ha, has⟩)

theorem places_upTo {ends : TokenKind → Bool} {item : Parse α} (h : item.Places P Q) :
    (upTo ends item).Places P fun as => ∀ a ∈ as, Q a :=
  places_remaining.next fun _ => places_itemsUntil h _

theorem places_separated {item : Parse α} (h : item.Places P Q) (fuel : Nat) :
    (separated item fuel).Places P fun as => ∀ a ∈ as, Q a := by
  induction fuel with
  | zero => exact places_here fun c => ⟨.tooDeep, rfl⟩
  | succ fuel ih =>
    refine h.bind fun a ha => (places_accept _).next fun more => places_ite ?_ ?_
    · exact ih.bind fun as has => places_pure (List.forall_mem_cons.2 ⟨ha, has⟩)
    · exact places_pure (List.forall_mem_singleton.2 ha)

theorem places_commaList {item : Parse α} (h : item.Places P Q) :
    (commaList item).Places P fun as => ∀ a ∈ as, Q a :=
  places_remaining.next fun _ => places_separated h _

end Parse

/-! ## The rules of the grammar -/

namespace Rule
open Parse

variable {P : Location → Prop} {parse : Productions}
  (H : ∀ p, (parse p).Places P (Node.Placed P))
include H

theorem places_base : (base parse).Places P fun _ => True := by
  refine (H _).bind fun n hn => ?_
  split
  · exact places_pure trivial
  · exact places_fail hn.start

theorem places_parenthesized : (parenthesized parse).Places P (Node.Placed P) :=
  (places_expect _).discard.next fun _ => (H _).bind fun _ hn =>
    (places_expect _).discard.next fun _ => places_pure hn

theorem places_optional (follow : TokenKind) :
    (optional parse follow).Places P fun o => ∀ n ∈ o, n.Placed P :=
  places_peek.next fun _ => places_ite (places_pure (by simp))
    ((H _).bind fun n hn => places_pure (by simpa using hn))

/-! ### Declarations -/

omit H in
theorem places_type : type.Places P (Parsed.Placed P) := by
  have leaf : ∀ base, Parsed.Placed P (.parts (.type base)) := fun _ => by
    simp [Parsed.Placed, Shape.parts]
  refine places_peek.next fun kind => ?_
  split
  · exact places_advance.discard.next fun _ => places_pure (leaf _)
  · exact places_advance.discard.next fun _ => places_pure (leaf _)
  · exact places_advance.discard.next fun _ => places_pure (leaf _)
  · exact places_advance.discard.next fun _ => places_name.next fun _ => places_pure (leaf _)
  · exact places_refuse

theorem places_varItem : (varItem parse).Places P (Parsed.Placed P) := by
  refine places_stars.next fun stars => places_name.next fun name =>
    (places_accept _).next fun bracket => places_ite ?_ ?_
  · refine (places_accept _).next fun closed => places_ite ?_ ((H _).bind fun n hn => ?_)
    · exact places_pure (by simp [Parsed.Placed, Shape.parts])
    · exact (places_expect _).discard.next fun _ => places_pure (by simpa [Parsed.Placed, Shape.parts])
  · exact places_pure (by simp [Parsed.Placed, Shape.parts])

theorem places_varDec : (varDec parse).Places P (Parsed.Placed P) :=
  (places_base H).next fun _ => (places_commaList (H .varItem)).bind fun _ hi =>
    (places_expect _).discard.next fun _ => places_pure hi

theorem places_param : (param parse).Places P (Parsed.Placed P) :=
  (places_base H).next fun _ => (H .varItem).bind fun _ hi =>
    places_pure (List.forall_mem_singleton.2 hi)

theorem places_structDef : (structDef parse).Places P (Parsed.Placed P) :=
  (places_expect _).discard.next fun _ => places_name.next fun _ =>
    (places_expect _).discard.next fun _ => (places_upTo (H .varDec)).bind fun _ hm =>
      (places_expect _).discard.next fun _ => (places_expect _).discard.next fun _ => places_pure hm

theorem places_params : (params parse).Places P fun ns => ∀ n ∈ ns, n.Placed P := by
  refine places_peek.next fun next => (places_peekAhead 1).next fun ahead => places_ite ?_ ?_
  · exact places_advance.discard.next fun _ => places_pure (by simp)
  · exact places_ite (places_pure (by simp)) (places_commaList (H .param))

theorem places_functionDef : (functionDef parse).Places P (Parsed.Placed P) :=
  (places_base H).next fun _ => places_stars.next fun _ => places_name.next fun _ =>
    (places_expect _).discard.next fun _ => (places_params H).bind fun _ hp =>
      (places_expect _).discard.next fun _ => (H .block).bind fun _ hb =>
        places_pure (List.forall_mem_cons.2 ⟨hb, hp⟩)

theorem places_program : (program parse).Places P (Parsed.Placed P) :=
  (places_upTo fun c hc => H (itemProduction c) c hc).bind fun _ hi => places_pure hi

/-! ### Statements -/

theorem places_statement : (statement parse).Places P (Parsed.Placed P) :=
  places_peek.next fun _ => (H _).bind fun _ hn => places_pure hn

theorem places_block : (block parse).Places P (Parsed.Placed P) :=
  (places_expect _).discard.next fun _ => (places_upTo (H .statement)).bind fun _ hs =>
    (places_expect _).discard.next fun _ => places_pure hs

theorem places_ifElse : (ifElse parse).Places P (Parsed.Placed P) := by
  refine (places_expect _).discard.next fun _ => (places_parenthesized H).bind fun test ht =>
    (H .statement).bind fun thenBranch hb => (places_accept _).next fun more => places_ite ?_ ?_
  · refine (H .statement).bind fun elseBranch he => places_pure ?_
    simpa [Parsed.Placed, Shape.parts] using ⟨ht, hb, he⟩
  · exact places_pure (by simpa [Parsed.Placed, Shape.parts] using ⟨ht, hb⟩)

theorem places_whileLoop : (whileLoop parse).Places P (Parsed.Placed P) := by
  refine (places_expect _).discard.next fun _ => (places_parenthesized H).bind fun test ht =>
    (H .statement).bind fun body hb => places_pure ?_
  simpa [Parsed.Placed, Shape.parts] using ⟨ht, hb⟩

theorem places_doWhile : (doWhile parse).Places P (Parsed.Placed P) := by
  refine (places_expect _).discard.next fun _ => (H .statement).bind fun body hb =>
    (places_expect _).discard.next fun _ => (places_parenthesized H).bind fun test ht =>
      (places_expect _).discard.next fun _ => places_pure ?_
  simpa [Parsed.Placed, Shape.parts] using ⟨hb, ht⟩

theorem places_forLoop : (forLoop parse).Places P (Parsed.Placed P) := by
  refine (places_expect _).discard.next fun _ => (places_expect _).discard.next fun _ =>
    (places_optional H _).bind fun init hi => (places_expect _).discard.next fun _ =>
      (places_optional H _).bind fun test ht => (places_expect _).discard.next fun _ =>
        (places_optional H _).bind fun increment hn => (places_expect _).discard.next fun _ =>
          (H .statement).bind fun body hb => places_pure ?_
  intro m hm
  simp only [Shape.parts, List.mem_cons, List.mem_append, Option.mem_toList] at hm
  rcases hm with rfl | (hm | hm) | hm
  · exact hb
  · exact hi m hm
  · exact ht m hm
  · exact hn m hm

theorem places_returns : (returns parse).Places P (Parsed.Placed P) := by
  refine (places_expect _).discard.next fun _ => (places_optional H _).bind fun value hv =>
    (places_expect _).discard.next fun _ => places_pure ?_
  simpa [Parsed.Placed, Shape.parts] using hv

theorem places_exprStatement : (exprStatement parse).Places P (Parsed.Placed P) :=
  (H .expr).bind fun _ he => (places_expect _).discard.next fun _ =>
    places_pure (List.forall_mem_singleton.2 he)

/-! ### Expressions -/

theorem places_assignment : (assignment parse).Places P (Parsed.Placed P) := by
  refine (H .logicalOr).bind fun left hl => (places_accept _).next fun more => places_ite ?_ ?_
  · refine places_peek.next fun next => (H _).bind fun right hr => places_pure ?_
    simpa [Parsed.Placed, Shape.parts] using ⟨hl, hr⟩
  · exact places_pure hl

theorem places_arrayInit : (arrayInit parse).Places P (Parsed.Placed P) := by
  refine (places_expect _).discard.next fun _ => (places_accept _).next fun closed => places_ite ?_ ?_
  · exact places_pure (by simp [Parsed.Placed, Shape.parts])
  · exact (places_commaList (H .assignment)).bind fun values hv =>
      (places_expect _).discard.next fun _ => places_pure hv

theorem places_chain (level : Level) {start : Location} (hs : P start) (fuel : Nat) {left : Node}
    (hl : left.Placed P) : (chain parse level start fuel left).Places P (Node.Placed P) := by
  induction fuel generalizing left with
  | zero => exact places_here fun c => ⟨.tooDeep, rfl⟩
  | succ fuel ih =>
    refine places_peek.next fun kind => ?_
    split
    · exact places_pure hl
    · refine places_advance.discard.next fun _ => (H level.operand).bind fun right hr =>
        ih (.mk hs ?_)
      simpa [Node.shape, Shape.parts] using ⟨hl, hr⟩

theorem places_binary (level : Level) : (binary parse level).Places P (Parsed.Placed P) :=
  places_hereLoc.bind fun _ hs => (H level.operand).bind fun _ hl => places_remaining.next fun _ =>
    (places_chain H level hs _ hl).bind fun _ hn => places_pure hn

theorem places_sizeof : (sizeof parse).Places P (Parsed.Placed P) := by
  refine (places_expect _).discard.next fun _ => places_peek.next fun next =>
    (places_peekAhead 1).next fun ahead => places_ite ?_ ?_
  · refine places_advance.discard.next fun _ => (places_base H).next fun base =>
      places_stars.next fun stars => (places_expect _).discard.next fun _ => places_pure ?_
    simp [Parsed.Placed, Shape.parts]
  · exact (H .unary).bind fun operand ho => places_pure (List.forall_mem_singleton.2 ho)

theorem places_unary : (unary parse).Places P (Parsed.Placed P) := by
  have operator : ∀ shape : Node → Shape, (∀ n, (shape n).parts = [n]) →
      (do discard Parse.advance; return .parts (shape (← parse .unary)) : Parse Parsed).Places P
        (Parsed.Placed P) := by
    intro shape hs
    refine places_advance.discard.next fun _ => (H .unary).bind fun n hn => places_pure ?_
    rw [Parsed.Placed, hs]
    exact List.forall_mem_singleton.2 hn
  refine places_peek.next fun kind => ?_
  split
  · exact operator (.unary .neg) fun _ => rfl
  · exact operator (.unary .not) fun _ => rfl
  · exact operator .deref fun _ => rfl
  · exact operator .addressOf fun _ => rfl
  · exact places_sizeof H
  · exact (H .suffix).bind fun _ hn => places_pure hn

theorem places_suffixes {start : Location} (hs : P start) (fuel : Nat) {node : Node}
    (hn : node.Placed P) : (suffixes parse start fuel node).Places P (Node.Placed P) := by
  induction fuel generalizing node with
  | zero => exact places_here fun c => ⟨.tooDeep, rfl⟩
  | succ fuel ih =>
    refine places_peek.next fun kind => ?_
    split
    · refine places_advance.discard.next fun _ => (H .expr).bind fun number hi =>
        (places_expect _).discard.next fun _ => ih (.mk hs ?_)
      simpa [Node.shape, Shape.parts] using ⟨hn, hi⟩
    · exact places_advance.discard.next fun _ => places_name.next fun field =>
        ih (.mk hs (List.forall_mem_singleton.2 hn))
    · exact places_advance.discard.next fun _ => places_name.next fun field =>
        ih (.mk hs (List.forall_mem_singleton.2 hn))
    · exact places_pure hn

theorem places_suffix : (suffix parse).Places P (Parsed.Placed P) :=
  places_hereLoc.bind fun _ hs => (H .primary).bind fun _ hn => places_remaining.next fun _ =>
    (places_suffixes H hs _ hn).bind fun _ hm => places_pure hm

theorem places_primary : (primary parse).Places P (Parsed.Placed P) := by
  refine places_peek.next fun kind => ?_
  split
  · exact (places_peekAhead 1).next fun next => (H _).bind fun _ hn => places_pure hn
  iterate 4
    exact (H .literal).bind fun _ hn => places_pure hn
  · exact (places_parenthesized H).bind fun _ hn => places_pure hn
  · exact places_refuse

theorem places_call : (call parse).Places P (Parsed.Placed P) := by
  refine places_name.next fun name => (places_expect _).discard.next fun _ =>
    (places_accept _).next fun closed => places_ite ?_ ?_
  · exact places_pure (by simp [Parsed.Placed, Shape.parts])
  · exact (places_commaList (H .assignment)).bind fun args ha =>
      (places_expect _).discard.next fun _ => places_pure ha

omit H in
theorem places_literal : literal.Places P (Parsed.Placed P) := by
  refine places_advance.bind fun token ht => ?_
  split
  · split
    · exact places_pure (by simp [Parsed.Placed, Shape.parts])
    · exact places_fail ht
  · exact places_pure (by simp [Parsed.Placed, Shape.parts])
  · exact places_pure (by simp [Parsed.Placed, Shape.parts])
  · exact places_pure (by simp [Parsed.Placed, Shape.parts])
  · exact places_fail ht

omit H in
theorem places_jump (keyword : Keyword) {shape : Shape} (hs : shape.parts = []) :
    (jump keyword shape).Places P (Parsed.Placed P) :=
  (places_expect _).discard.next fun _ => (places_expect _).discard.next fun _ =>
    places_pure (by simp [Parsed.Placed, hs])

/-- **Each rule places what it makes where its tokens are.** -/
theorem of_places (p : Production) : (of parse p).Places P (Parsed.Placed P) := by
  cases p with
  | program => exact places_program H
  | structDef => exact places_structDef H
  | functionDef => exact places_functionDef H
  | param => exact places_param H
  | type => exact places_type
  | varDec => exact places_varDec H
  | varItem => exact places_varItem H
  | statement => exact places_statement H
  | block => exact places_block H
  | ifElse => exact places_ifElse H
  | whileLoop => exact places_whileLoop H
  | doWhile => exact places_doWhile H
  | forLoop => exact places_forLoop H
  | returns => exact places_returns H
  | breaks | continues => exact places_jump _ rfl
  | empty =>
    exact (places_expect _).discard.next fun _ => places_pure (by simp [Parsed.Placed, Shape.parts])
  | exprStatement => exact places_exprStatement H
  | expr => exact (H .assignment).bind fun _ hn => places_pure hn
  | assignment => exact places_assignment H
  | arrayInit => exact places_arrayInit H
  | logicalOr | logicalAnd | equality | relational | additive | multiplicative =>
    exact places_binary H _
  | unary => exact places_unary H
  | suffix => exact places_suffix H
  | primary => exact places_primary H
  | call => exact places_call H
  | identifier => exact places_name.next fun _ => places_pure (by simp [Parsed.Placed, Shape.parts])
  | literal => exact places_literal
  | other name => exact places_here fun c => ⟨.unknownProduction _, rfl⟩

end Rule

/-- **The parser places its nodes and its faults where its tokens are**, however deep calls nest. -/
theorem parseWithin_places (g : Grammar) {P : Location → Prop} (fuel : Nat) (p : Production) :
    (parseWithin g fuel p).Places P (Node.Placed P) := by
  induction fuel generalizing p with
  | zero => exact Parse.places_here fun c => ⟨.tooDeep, rfl⟩
  | succ fuel ih =>
    intro c hc
    obtain ⟨good, bad⟩ := Rule.of_places ih p c hc
    simp only [parseWithin, parseStep]
    split
    · cases hr : Rule.of (parseWithin g fuel) p c with
      | error e =>
        refine ⟨nofun, ?_⟩
        rintro e' ⟨⟩
        exact bad e hr
      | ok r =>
        obtain ⟨parsed, d⟩ := r
        obtain ⟨hd, hp⟩ := good parsed d hr
        refine ⟨?_, fun _ h => by cases h⟩
        rintro n c' ⟨⟩
        refine ⟨hd, ?_⟩
        cases parsed with
        | parts shape => exact .mk hc.loc hp
        | whole n => exact hp
    · exact Parse.places_here (fun c => ⟨.unknownProduction p, rfl⟩) c hc

/-- **The tree of a source is in the source**, and so is the fault of one that has none. -/
theorem Node.ofSource_placed (g : Grammar) (p : Production) (source : String) :
    (∀ root, Node.ofSource g p source = .ok root → root.Placed (Location.In source)) ∧
      ∀ e, Node.ofSource g p source = .error e → e.loc.In source := by
  have lexed := (Reader.in_ofString source).tokens (Reader.ofString source).rest.length
  change Reader.Lexed source (tokenize source) at lexed
  unfold Node.ofSource
  cases ht : tokenize source with
  | error e =>
    rw [ht] at lexed
    refine ⟨nofun, ?_⟩
    rintro e' ⟨⟩
    exact lexed
  | ok ts =>
    rw [ht] at lexed
    obtain ⟨c, closed, rfl⟩ := tokenize_closed ht
    obtain ⟨good, bad⟩ := parseWithin_places g ((c.later.length + 1) * callsPerToken) p c lexed
    simp only [closed.ofTokens]
    cases hp : parse g p c with
    | error e =>
      refine ⟨nofun, ?_⟩
      rintro e' ⟨⟩
      exact bad e hp
    | ok r =>
      refine ⟨?_, fun _ h => by cases h⟩
      rintro root ⟨⟩
      exact (good r.1 r.2 hp).2

end MiniC
