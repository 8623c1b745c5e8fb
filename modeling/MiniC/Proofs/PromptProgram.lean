/-
  The parser reads promptly.

  The last rules are those of a program and its items.  The tokens up to the one behind a declared name
  tell which rule is tried for an item, and a rule may refuse a token in front of that one.  It does so
  whatever rule the tokens behind would tell: a word that goes on with an item of one production there
  goes on with one of any other (`item_turned`).

  `parseWithin_prompt` puts all rules together.
-/
import MiniC.Proofs.PromptRules

namespace MiniC

namespace Rule

open Parse Node

variable {fuel w : Nat} {c : Cursor}

/-! ## Items of a program -/

theorem itemProduction_cases (c : Cursor) :
    itemProduction c = .structDef ∧ startsStruct c ∨ itemProduction c = .functionDef ∨
      itemProduction c = .varDec := by
  unfold itemProduction
  split
  · exact .inl ⟨rfl, ‹_›⟩
  · split
    · exact .inr (.inl rfl)
    · exact .inr (.inr rfl)

theorem itemProduction_rank_lt (c : Cursor) :
    (itemProduction c).rank < Production.program.rank := by
  rcases itemProduction_cases c with ⟨h, -⟩ | h | h <;> rw [h] <;> decide

theorem itemProduction_viable (c : Cursor) {ls : List Lexeme} (h : (itemProduction c).Viable ls) :
    Category.item.Viable ls := by
  rcases itemProduction_cases c with ⟨hp, -⟩ | hp | hp <;> rw [hp] at h
  · exact h
  · exact h
  · obtain ⟨ms, n, hn⟩ := h
    exact ⟨ms, n, .global hn⟩

/-- One word of an item tells its production.  The words in front of it do not: they are the head of
a declared name. -/
theorem item_head {n : Node} {us : List Lexeme} (h : Derives (.one .item n) us) :
    ∃ hs l ms p, us = hs ++ l :: ms ∧
      (∀ ns c d, Cursor.Reads c (hs ++ l :: ns) d → itemProduction c = p) ∧
      ∃ b k x, hs <+: Base.lexemes b ++ (Lexeme.stars k ++ [.name x]) := by
  cases h with
  | structDef x hns =>
    refine ⟨[.keyword .struct, .name x], .mark .lbrace, _, .structDef, rfl,
      fun ns c d h => itemProduction_of_structDef h, .struct x, 0, "y", ?_⟩
    simp [Base.lexemes]
  | functionDef b k x =>
    refine ⟨b.lexemes ++ (Lexeme.stars k ++ [.name x]), .mark .lparen, _, .functionDef,
      (by simp; rfl), fun ns c d h => ?_, b, k, x, List.prefix_rfl⟩
    exact itemProduction_of_reads (by simpa using h)
  | global h =>
    obtain ⟨b, k, x, l, ms, rfl, hl⟩ := h.declaration_name
    refine ⟨b.lexemes ++ (Lexeme.stars k ++ [.name x]), l, ms, .varDec, by simp,
      fun ns c d h => ?_, b, k, x, List.prefix_rfl⟩
    rw [itemProduction_of_reads (by simpa using h), if_neg hl]

/-- In front of the word that tells it an item can go on as one of the production that is tried. -/
theorem item_begun {ls : List Lexeme} {d : Cursor} (hr : c.Reads ls d) (hne : ls ≠ []) {b : Base}
    {k : Nat} {x : String} (hp : ls <+: b.lexemes ++ (Lexeme.stars k ++ [.name x])) :
    ∃ vs n, Derives (.one .item n) vs ∧ ls <+: vs ∧
      ∀ c' d', Cursor.Reads c' vs d' → itemProduction c' = itemProduction c := by
  rcases itemProduction_cases c with ⟨h, hs⟩ | h | h <;> rw [h]
  · simp only [startsStruct, Bool.and_eq_true, decide_eq_true_eq] at hs
    obtain ⟨⟨h₀, -⟩, h₂⟩ := hs
    obtain ⟨y, rfl⟩ : ∃ y, b = .struct y := by
      obtain ⟨l, ls, rfl⟩ := List.exists_cons_of_ne_nil hne
      have hl := hr.kind.symm.trans h₀
      cases b with
      | struct y => exact ⟨y, rfl⟩
      | _ =>
        simp only [Base.lexemes, List.cons_append, List.nil_append, List.cons_prefix_cons] at hp
        rw [hp.1] at hl
        cases hl
    refine ⟨[.keyword .struct, .name y, .mark .lbrace, .mark .rbrace, .mark .semicolon], _,
      .structDef y .nil, ?_, fun c' d' h => itemProduction_of_structDef h⟩
    -- The third word is no brace, so it has not been taken.
    rcases ls with _ | ⟨l₀, _ | ⟨l₁, _ | ⟨l₂, ls⟩⟩⟩
    iterate 3 simp_all [Base.lexemes]
    rw [hr.kindAhead, hr.advance.kindAhead, Cursor.kindAhead_zero, hr.advance.advance.kind] at h₂
    cases k <;> simp_all [Base.lexemes, Lexeme.stars, List.replicate_succ, Lexeme.kind]
  · refine ⟨b.lexemes ++ (Lexeme.stars k ++ .name x :: .mark .lparen ::
      ([] ++ .mark .rparen :: .mark .lbrace :: ([] ++ [.mark .rbrace]))), _,
      .functionDef b k x .noParameters (.block .nil), hp.trans (by simp), fun c' d' h => ?_⟩
    exact itemProduction_of_reads h
  · refine ⟨_, _, .global (.declaration b (.last (.scalar k x))), hp.trans (by simp),
      fun c' d' h => ?_⟩
    have h : c'.Reads (b.lexemes ++ (Lexeme.stars k ++ [.name x, .mark .semicolon])) d' := by
      simpa using h
    exact itemProduction_of_reads h

/-- What has been taken of an item is the beginning of one that the production which is tried reads. -/
theorem item_turned {ls us : List Lexeme} {d : Cursor} {n : Node} (h : Derives (.one .item n) us)
    (hp : ls <+: us) (hr : c.Reads ls d) (hne : ls ≠ []) :
    ∃ vs m, Derives (.one .item m) vs ∧ ls <+: vs ∧
      ∀ c' d', Cursor.Reads c' vs d' → itemProduction c' = itemProduction c := by
  obtain ⟨hs, l, ms, p, rfl, tells, b, k, x, hb⟩ := item_head h
  have hl : hs ++ [l] <+: hs ++ l :: ms := by simp
  rcases List.prefix_or_prefix_of_prefix hp hl with before | ⟨ns, rfl⟩
  · rcases List.prefix_concat_iff.1 before with rfl | before
    · exact ⟨_, n, h, hl, fun c' d' hr' => (tells _ _ _ hr').trans (tells [] _ _ hr).symm⟩
    · exact item_begun hr hne (before.trans hb)
  · refine ⟨_, n, h, hp, fun c' d' hr' => (tells _ _ _ hr').trans (tells ns c d ?_).symm⟩
    simpa using hr

/-- The words of an item tell its production. -/
theorem itemProduction_eq {us : List Lexeme} {c' d d' : Cursor} {n : Node}
    (h : Derives (.one .item n) us) (hr : c.Reads us d) (hr' : c'.Reads us d') :
    itemProduction c' = itemProduction c := by
  obtain ⟨hs, l, ms, p, rfl, tells, -⟩ := item_head h
  exact (tells ms _ _ hr').trans (tells ms _ _ hr).symm

section
variable (H : Promptly fuel)
include H

/-- An item.  The rule that is tried may not be the one that the tokens behind the refused one would
tell, but what that rule has taken goes on for any of them. -/
theorem prompt_item (hw : (itemProduction c).depth c < w) :
    Prompt (fun c => parseWithin .full fuel (itemProduction c) c)
      (fun i c => parseWithin .full i (itemProduction c) c) c Category.item.Viable (fuel < w) := by
  have tried := prompt_part H id hw fun _ => itemProduction_viable c
  constructor
  · intro hc n d hx
    obtain ⟨ls, hr, same⟩ := tried.ok hc hx
    obtain ⟨ls', hr', hn⟩ := takes_item (parseWithin_takes .full fuel) c hc n d hx
    obtain rfl := hr.words hr'
    refine ⟨ls, hr, fun hs i b e hi => same hs (i := i) ?_⟩
    obtain ⟨d', hd', -⟩ := Cursor.Shares.split (n := 0) hs hr
    rw [itemProduction_eq hn hr hd'] at hi
    exact hi
  · intro hc r hx
    refine (tried.error hc hx).imp id ?_
    rintro ⟨ls, d, hr, hl, hv, none⟩
    refine ⟨ls, d, hr, hl, hv, fun {c'} hs i b e hi => ?_⟩
    obtain ⟨us, hr', hb⟩ := takes_item (parseWithin_takes .full i) c' hs.closed.2 b e hi
    obtain ⟨d', hd', hs'⟩ := Cursor.Shares.split (n := 0) hs hr
    rcases Nat.lt_or_ge ls.length us.length with hlt | hge
    · -- The other item goes on with the refused word.
      obtain ⟨rest, rfl⟩ := hd'.prefix_of_length_le hr' (Nat.le_of_lt hlt)
      obtain ⟨d'', hd'', hrest⟩ := hr'.append
      obtain rfl := hd'.unique hd''
      obtain ⟨l, ms, rfl⟩ : ∃ l ms, rest = l :: ms :=
        List.exists_cons_of_ne_nil fun h => by simp [h] at hlt
      have hw : d.here.lexeme? = some l := hs'.here_eq ▸ hrest.lexeme
      have taken : ls ++ [l] <+: ls ++ l :: ms := by simp
      obtain ⟨vs, m, hm, ⟨ns, rfl⟩, tells⟩ := item_turned hb taken
        (hr.trans ((hr.closed hc).reads hw)) (by simp)
      obtain ⟨c'', hs'', hr''⟩ := hr.turned hc hw ns
      have hr'' : c''.Reads (ls ++ [l] ++ ns) (Cursor.before []) := by simpa using hr''
      obtain ⟨m', hm', -⟩ := hm.accepted.one _ _ _ hr'' trivial (Nat.lt_succ_self _)
      have hm' : parseWithin .full _ (itemProduction c'') c'' = _ := hm'
      rw [tells _ _ hr''] at hm'
      exact none hs'' hm'
    · -- The other item ends in what is shared.
      obtain ⟨rest, rfl⟩ := hr'.prefix_of_length_le hd' hge
      obtain ⟨f, hf, -⟩ := hr.append
      rw [itemProduction_eq hb hf hr'] at hi
      exact none hs (i := i) hi

theorem program_prompt : Prompts fuel .program c := by
  have items := @prompt_upTo _ _ _ .item _ (· = .endOfFile) nofun
    (takes_item (parseWithin_takes .full fuel)) (c := c) fun d hd =>
      prompt_item H (Production.depth_lt_of_le (q := .program) hd (itemProduction_rank_lt d))
  refine (items.mono ?_ id).bind (takes_upTo (takes_item (parseWithin_takes .full fuel)))
    fun _ _ _ _ _ => prompt_pure
  rintro ls ⟨ms, ns, hns⟩
  exact Viable.of (.program hns) (by simp)

/-! ## All rules -/

/-- Each rule of the language reads promptly. -/
theorem of_prompt {p : Production} (hp : Grammar.full.contains p) : Prompts fuel p c := by
  have level : ∀ {ℓ l}, Precedence.level? ℓ = some l →
      Prompt (binary (parseWithin .full fuel) l) (fun i => binary (parseWithin .full i) l) c
        (Category.expr ℓ).Viable (fuel < ℓ.production.depth c) :=
    fun hℓ => binary_prompt H (isFor_of_level? hℓ)
  cases p with
  | program => exact program_prompt H
  | structDef => exact structDef_prompt H
  | functionDef => exact functionDef_prompt H
  | param => exact param_prompt H
  | type => exact type_prompt
  | varDec => exact varDec_prompt H
  | varItem => exact varItem_prompt H
  | statement => exact statement_prompt H
  | block => exact block_prompt H
  | ifElse => exact ifElse_prompt H
  | whileLoop => exact whileLoop_prompt H
  | doWhile => exact doWhile_prompt H
  | forLoop => exact forLoop_prompt H
  | returns => exact returns_prompt H
  | breaks => exact jump_prompt .breaks
  | continues => exact jump_prompt .continues
  | empty => exact prompt_mark (Viable.of .empty (by simp)) fun _ _ => prompt_pure
  | exprStatement => exact exprStatement_prompt H
  | expr => exact prompt_whole H (Production.depth_lt_of_rank (by decide) c) fun _ h => h
  | assignment => exact assignment_prompt H
  | arrayInit => exact arrayInit_prompt H
  | logicalOr => exact @level .or _ rfl
  | logicalAnd => exact @level .and _ rfl
  | equality => exact @level .equality _ rfl
  | relational => exact @level .relational _ rfl
  | additive => exact @level .additive _ rfl
  | multiplicative => exact @level .multiplicative _ rfl
  | unary => exact unary_prompt H
  | suffix => exact suffix_prompt H
  | primary => exact primary_prompt H
  | call => exact call_prompt H
  | identifier =>
    exact prompt_name (Viable.of (.identifier "x") (by simp)) fun _ _ _ => prompt_pure
  | literal => exact literal_prompt
  | other => cases hp

end

end Rule

open Parse in
/-- **Every production stops at the first token that no way to write it goes on with**, unless calls
nest too deep. -/
theorem parseWithin_prompt (fuel : Nat) : Rule.Promptly fuel := by
  induction fuel with
  | zero =>
    intro p c
    exact ⟨nofun, fun _ _ _ => .inl (Nat.zero_le _)⟩
  | succ fuel ih =>
    intro p c
    by_cases hp : Grammar.full.contains p
    · have step : ∀ k c, parseWithin .full (k + 1) p c =
          (Rule.of (parseWithin .full k) p >>= fun r => pure (r.node p c.loc)) c := by
        intro k c
        simp only [parseWithin, parseStep, if_pos hp]
        cases h : Rule.of (parseWithin .full k) p c with
        | error e => rw [bind_of_error h]
        | ok r =>
          obtain ⟨r, d⟩ := r
          rw [bind_of_ok h]
          rfl
      have rule : Prompt (Rule.of (parseWithin .full fuel) p >>= fun r => pure (r.node p c.loc))
          (fun i => Rule.of (parseWithin .full i) p >>= fun r => pure (r.node p c.loc)) c p.Viable
          (fuel < p.depth c) :=
        (Rule.of_prompt ih hp).bind (Rule.of_takes (parseWithin_takes .full fuel) p)
          fun _ _ _ _ _ => prompt_pure
      refine rule.family (step fuel c) fun hs i b e h => ?_
      cases i with
      | zero => cases h
      | succ i => exact ⟨i, by rw [← hs.loc_eq, ← step, h]⟩
    · have unknown : ∀ k c, ∃ e, parseWithin .full k p c = .error ⟨e, c.loc⟩ := by
        intro k c
        cases k with
        | zero => exact ⟨_, rfl⟩
        | succ k => exact ⟨_, if_neg hp⟩
      have hv : p.Viable [] := by
        cases p with
        | other => trivial
        | _ => exact absurd rfl hp
      obtain ⟨e, he⟩ := unknown (fuel + 1) c
      refine prompt_refused he rfl hv fun {c'} _ i b d h => ?_
      obtain ⟨e, he⟩ := unknown i c'
      cases he.symm.trans h

end MiniC
