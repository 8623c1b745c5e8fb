/-
  What a cursor reads.

  `c.Reads ls c'` says that the cursor `c'` stands behind the words `ls` that `c` stands in front
  of.  The tokens of a source end with the end of the file and hold it nowhere else, so a cursor in
  them is `Closed`: in front of a word it can advance, and where it cannot the tokens are over.
-/
import MiniC.Proofs.Rendering
import MiniC.Token.Lexer

namespace MiniC

namespace Token
variable {t : Token} {l : Lexeme}

theorem kind_of_lexeme? (h : t.lexeme? = some l) : t.kind = l.kind := by
  unfold lexeme? at h
  split at h <;> cases h <;> assumption

theorem lexeme?_eq_none : t.lexeme? = none ↔ t.kind = .endOfFile := by
  unfold lexeme?
  split <;> simp_all

theorem lexeme?_of_mark {p : Punct} (h : t.kind = .punct p) : t.lexeme? = some (.mark p) := by
  rw [lexeme?, h]

theorem lexeme?_of_keyword {k : Keyword} (h : t.kind = .keyword k) :
    t.lexeme? = some (.keyword k) := by
  rw [lexeme?, h]

theorem lexeme?_of_name (h : t.kind = .identifier) : t.lexeme? = some (.name t.content) := by
  rw [lexeme?, h]

end Token

@[simp] theorem Lexeme.kind_ne_endOfFile (l : Lexeme) : l.kind ≠ .endOfFile := by
  cases l <;> simp [Lexeme.kind]

namespace Cursor

/-- The second cursor stands behind the words that the first stands in front of. -/
inductive Reads : Cursor → List Lexeme → Cursor → Prop
  | nil (c : Cursor) : Reads c [] c
  | cons {t u : Token} {us : List Token} {l : Lexeme} {ls : List Lexeme} {c : Cursor} :
    t.lexeme? = some l → Reads ⟨u, us⟩ ls c → Reads ⟨t, u :: us⟩ (l :: ls) c

/-- The last token is the end of the file, and no other is. -/
inductive Closed : Cursor → Prop
  | last {t : Token} : t.kind = .endOfFile → Closed ⟨t, []⟩
  | cons {t u : Token} {us : List Token} :
    t.kind ≠ .endOfFile → Closed ⟨u, us⟩ → Closed ⟨t, u :: us⟩

theorem advance_cons {t u : Token} {us : List Token} (h : t.kind ≠ .endOfFile) :
    (⟨t, u :: us⟩ : Cursor).advance = ⟨u, us⟩ := by
  have hn : ¬ (⟨t, u :: us⟩ : Cursor).atEnd := fun he => h (of_decide_eq_true he)
  rw [advance, if_neg hn]

namespace Reads
variable {c c' d : Cursor} {l : Lexeme} {ls ms : List Lexeme}

theorem trans (h : c.Reads ls c') (h' : c'.Reads ms d) : c.Reads (ls ++ ms) d := by
  induction h with
  | nil => exact h'
  | cons ht _ ih => exact .cons ht (ih h')

theorem append (h : c.Reads (ls ++ ms) d) : ∃ c', c.Reads ls c' ∧ c'.Reads ms d := by
  induction ls generalizing c with
  | nil => exact ⟨c, .nil c, h⟩
  | cons l ls ih =>
    cases h with
    | cons ht h =>
      obtain ⟨c', h₁, h₂⟩ := ih h
      exact ⟨c', .cons ht h₁, h₂⟩

theorem length (h : c.Reads ls c') : c.later.length = ls.length + c'.later.length := by
  induction h with
  | nil => simp
  | cons _ _ ih => simp only [List.length_cons, ih]; omega

theorem closed (h : c.Reads ls c') (hc : c.Closed) : c'.Closed := by
  induction h with
  | nil => exact hc
  | cons ht _ ih =>
    cases hc with
    | cons _ hc => exact ih hc

/-- The words of all tokens from a cursor on. -/
theorem filterMap (h : c.Reads ls c') :
    (c.here :: c.later).filterMap Token.lexeme? =
      ls ++ (c'.here :: c'.later).filterMap Token.lexeme? := by
  induction h with
  | nil => rfl
  | cons ht _ ih => rw [List.filterMap_cons_some ht, ih, List.cons_append]

/-! A cursor in front of a word. -/

theorem kind (h : c.Reads (l :: ls) c') : c.kind = l.kind := by
  cases h with
  | cons ht _ => exact Token.kind_of_lexeme? ht

theorem mark {p : Punct} (h : c.Reads (.mark p :: ls) c') : c.kind = .punct p := h.kind

theorem keyword {k : Keyword} (h : c.Reads (.keyword k :: ls) c') : c.kind = .keyword k := h.kind

theorem name {x : String} (h : c.Reads (.name x :: ls) c') : c.kind = .identifier := h.kind

theorem lexeme (h : c.Reads (l :: ls) c') : c.here.lexeme? = some l := by
  cases h with
  | cons ht _ => exact ht

theorem advance (h : c.Reads (l :: ls) c') : c.advance.Reads ls c' := by
  cases h with
  | cons ht h => rwa [advance_cons (by simp [Token.kind_of_lexeme? ht])]

theorem eq_of_nil (h : c.Reads [] c') : c = c' := by
  cases h
  rfl

theorem kindAhead (h : c.Reads (l :: ls) c') (n : Nat) :
    c.kindAhead (n + 1) = c.advance.kindAhead n := by
  cases h with
  | cons ht h =>
    rw [advance_cons (by simp [Token.kind_of_lexeme? ht])]
    rfl

end Reads

@[simp] theorem kindAhead_zero (c : Cursor) : c.kindAhead 0 = c.kind := rfl

namespace Closed
variable {c : Cursor} {l : Lexeme}

/-- In front of a word a closed cursor can advance. -/
theorem reads (h : c.Closed) (hl : c.here.lexeme? = some l) : c.Reads [l] c.advance := by
  cases h with
  | last ht => rw [Token.lexeme?_eq_none.2 ht] at hl; cases hl
  | cons ht h =>
    rw [advance_cons ht]
    exact .cons hl (.nil _)

theorem later_of_kind (h : c.Closed) (hk : c.kind = .endOfFile) : c.later = [] := by
  cases h with
  | last _ => rfl
  | cons ht _ => exact absurd hk ht

/-- The cursor on the tokens of a closed cursor is that cursor. -/
theorem ofTokens (h : c.Closed) : Cursor.ofTokens (c.here :: c.later) = c := by
  have hl : (c.here :: c.later).getLast?.map Token.kind = some .endOfFile := by
    induction h with
    | last ht => simp [ht]
    | cons _ _ ih => rwa [List.getLast?_cons_cons]
  rw [Cursor.ofTokens, if_pos hl]

end Closed

/-- The words of a closed cursor's tokens stand in front of the end of the file. -/
theorem Closed.reads_all {c : Cursor} (h : c.Closed) :
    ∃ c', c.Reads ((c.here :: c.later).filterMap Token.lexeme?) c' ∧ c'.kind = .endOfFile := by
  induction h with
  | @last t ht =>
    refine ⟨⟨t, []⟩, ?_, ht⟩
    rw [List.filterMap_cons_none (Token.lexeme?_eq_none.2 ht)]
    exact .nil _
  | @cons t u us ht _ ih =>
    obtain ⟨c', hr, hk⟩ := ih
    obtain ⟨l, hl⟩ : ∃ l, t.lexeme? = some l := by
      cases hl : t.lexeme? with
      | none => exact absurd (Token.lexeme?_eq_none.1 hl) ht
      | some l => exact ⟨l, rfl⟩
    refine ⟨c', ?_, hk⟩
    rw [List.filterMap_cons_some hl]
    exact .cons hl hr

/-- What is read up to the end of the file is all there is. -/
theorem Reads.eq_filterMap {c c' : Cursor} {ls : List Lexeme} (h : c.Reads ls c') (hc : c.Closed)
    (hk : c'.kind = .endOfFile) : (c.here :: c.later).filterMap Token.lexeme? = ls := by
  have hn : c'.here.lexeme? = none := Token.lexeme?_eq_none.2 hk
  rw [h.filterMap, (h.closed hc).later_of_kind hk, List.filterMap_cons_none hn]
  simp

/-! ## Stars -/

theorem skipStars_reads (t : Token) (ts : List Token) (h : Closed ⟨t, ts⟩) :
    Reads ⟨t, ts⟩ (Lexeme.stars (skipStars t ts).1) (skipStars t ts).2 := by
  induction ts generalizing t with
  | nil => exact .nil _
  | cons u us ih =>
    by_cases hk : t.kind = .punct .star
    · cases h with
      | cons _ h =>
        simp only [skipStars, if_pos hk]
        exact .cons (Token.lexeme?_of_mark hk) (ih u h)
    · simp only [skipStars, if_neg hk]
      exact .nil _

theorem Reads.skipStars {k : Nat} {c c' : Cursor} {l : Lexeme} {ls : List Lexeme}
    (h : c.Reads (Lexeme.stars k ++ l :: ls) c') (hl : l ≠ .mark .star) :
    ∃ d, Cursor.skipStars c.here c.later = (k, d) ∧ d.Reads (l :: ls) c' := by
  induction k generalizing c with
  | zero =>
    refine ⟨c, ?_, h⟩
    cases h with
    | cons ht h =>
      have hk : ¬ _ = TokenKind.punct .star := fun hk =>
        hl (Option.some.inj (ht.symm.trans (Token.lexeme?_of_mark hk)))
      rw [Cursor.skipStars, if_neg hk]
  | succ k ih =>
    rw [Lexeme.stars, List.replicate_succ, List.cons_append] at h
    cases h with
    | cons ht h =>
      obtain ⟨d, hd, hr⟩ := ih h
      have hk : _ = TokenKind.punct .star := Token.kind_of_lexeme? ht
      refine ⟨d, ?_, hr⟩
      rw [Cursor.skipStars, if_pos hk, hd]

end Cursor

/-! ## Steps of a reader -/

namespace Parse
variable {α β : Type} {c d : Cursor}

theorem bind_of_ok {x : Parse α} {a : α} (h : x c = .ok (a, d)) (f : α → Parse β) :
    (x >>= f) c = f a d := by
  change Except.bind (x c) (fun p => f p.1 p.2) = f a d
  rw [h]
  rfl

theorem bind_of_error {x : Parse α} {e : SyntaxError} (h : x c = .error e) (f : α → Parse β) :
    (x >>= f) c = .error e := by
  change Except.bind (x c) (fun p => f p.1 p.2) = .error e
  rw [h]
  rfl

theorem discard_bind (x : Parse α) (f : Unit → Parse β) :
    (discard x >>= f) = (x >>= fun _ => f ()) := bind_map_left (fun _ => ()) x f

theorem advance_bind (f : Token → Parse β) (c : Cursor) : (advance >>= f) c = f c.here c.advance :=
  rfl

theorem peek_bind (f : TokenKind → Parse β) (c : Cursor) : (peek >>= f) c = f c.kind c := rfl

theorem peekAhead_bind (n : Nat) (f : TokenKind → Parse β) (c : Cursor) :
    (peekAhead n >>= f) c = f (c.kindAhead n) c := rfl

theorem here_bind (f : Location → Parse β) (c : Cursor) : (here >>= f) c = f c.loc c := rfl

theorem remaining_bind (f : Nat → Parse β) (c : Cursor) :
    (remaining >>= f) c = f c.later.length c := rfl

theorem expect_of_kind {kind : TokenKind} (h : c.kind = kind) :
    expect kind c = .ok (c.here, c.advance) := by
  rw [expect, if_pos h]

theorem accept_of_kind {kind : TokenKind} (h : c.kind = kind) :
    accept kind c = .ok (true, c.advance) := by
  rw [accept, if_pos h]

theorem accept_of_kind_ne {kind : TokenKind} (h : c.kind ≠ kind) :
    accept kind c = .ok (false, c) := by
  rw [accept, if_neg h]

theorem name_bind (f : String → Parse β) :
    (name >>= f) = (expect .identifier >>= fun t => f t.content) := by
  rw [name, bind_assoc]
  rfl

end Parse

/-! ## The tokens of a source -/

namespace Reader

theorem emitScanned_kind {r : Reader} {kind : TokenKind} (hk : kind ≠ .endOfFile)
    {x : Except LexicalError (List Char × Reader)} {t : Token} {next : Reader}
    (h : r.emitScanned kind x = .token t next) : t.kind ≠ .endOfFile := by
  cases x with
  | error e => cases h
  | ok p => cases h; exact hk

theorem emit_kind {r : Reader} {kind : TokenKind} (hk : kind ≠ .endOfFile) {s : String}
    {cs rest : List Char} {t : Token} {next : Reader} (h : r.emit kind s cs rest = .token t next) :
    t.kind ≠ .endOfFile := by
  cases h
  exact hk

/-- No token that is read is the end of the file. -/
theorem lexeme_kind {r : Reader} {c : Char} {cs : List Char} {t : Token} {next : Reader}
    (h : r.lexeme c cs = .token t next) : t.kind ≠ .endOfFile := by
  unfold lexeme at h
  split at h
  · exact emitScanned_kind (by simp) h
  split at h
  · exact emitScanned_kind (by simp) h
  split at h
  · dsimp only at h
    split at h
    · cases h
    · exact emit_kind (by simp) h
  split at h
  · refine emit_kind ?_ h
    split <;> simp
  · split at h
    · cases h
    · exact emit_kind (by simp) h

theorem step_kind {r : Reader} {t : Token} {next : Reader} (h : r.step = .token t next) :
    t.kind ≠ .endOfFile := by
  unfold step at h
  split at h
  · cases h
  · cases h
  · split at h <;> cases h
  · cases h
  · split at h
    · cases h
    · exact lexeme_kind h

theorem tokens_closed {fuel : Nat} {r : Reader} {ts : List Token} (h : r.tokens fuel = .ok ts) :
    ∃ c : Cursor, c.Closed ∧ ts = c.here :: c.later := by
  induction fuel generalizing r ts with
  | zero =>
    cases h
    exact ⟨⟨_, []⟩, .last rfl, rfl⟩
  | succ fuel ih =>
    rw [tokens] at h
    cases hs : r.step with
    | done =>
      rw [hs] at h
      cases h
      exact ⟨⟨_, []⟩, .last rfl, rfl⟩
    | skip next =>
      rw [hs] at h
      exact ih h
    | token t next =>
      rw [hs] at h
      cases ht : tokens fuel next with
      | error e => simp [ht, Except.map] at h
      | ok us =>
        simp only [ht, Except.map, Except.ok.injEq] at h
        obtain ⟨c, hc, rfl⟩ := ih ht
        exact ⟨⟨t, c.here :: c.later⟩, .cons (step_kind hs) hc, h.symm⟩
    | fault e =>
      rw [hs] at h
      cases h

end Reader

/-- The tokens of a source end with the end of the file, which stands nowhere else. -/
theorem tokenize_closed {source : String} {ts : List Token} (h : tokenize source = .ok ts) :
    ∃ c : Cursor, c.Closed ∧ ts = c.here :: c.later :=
  Reader.tokens_closed h

end MiniC
