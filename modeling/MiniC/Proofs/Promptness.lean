/-
  Readers that stop as early as they can.

  A reader should refuse a token only if no way to go on begins with it, and should notice that at this
  token.  So what a reader does must not depend on tokens behind the one where it stops: wherever the
  tokens up to that one are next, it does the same.

  * `Cursor.Shares`: two cursors stand in front of the same tokens, up to some number of them.
  * `Parse.Prompt x X c V D`: wherever the same tokens are next, the readers `X` take what `x` takes from
    `c` on, and none of them gets past the token that `x` refuses; the words in front of that token are
    as `V` says, unless nesting is too deep, which `D` allows.
  * There is one lemma for each way of reading, as for `Parse.Takes`.
-/
import MiniC.Proofs.Parsing

namespace MiniC

namespace Lexeme

/-- A token that spells a word. -/
def token (l : Lexeme) : Token := ⟨l.kind, l.content, .nowhere⟩

@[simp] theorem lexeme?_token (l : Lexeme) : l.token.lexeme? = some l := by
  cases l <;> rfl

end Lexeme

namespace Cursor

/-- The cursors are closed and stand on the same token, and so do they behind each of the next `n`
tokens. -/
inductive Shares : Nat → Cursor → Cursor → Prop
  | here {t : Token} {us us' : List Token} :
    Closed ⟨t, us⟩ → Closed ⟨t, us'⟩ → Shares 0 ⟨t, us⟩ ⟨t, us'⟩
  | step {t : Token} {n : Nat} {u u' : Token} {us us' : List Token} : t.kind ≠ .endOfFile →
    Shares n ⟨u, us⟩ ⟨u', us'⟩ → Shares (n + 1) ⟨t, u :: us⟩ ⟨t, u' :: us'⟩

namespace Reads
variable {c c' d d' : Cursor} {ls ms : List Lexeme}

/-- Behind the same words there is one place only. -/
theorem unique (h : c.Reads ls d) (h' : c.Reads ls d') : d = d' := by
  induction h with
  | nil => exact h'.eq_of_nil
  | cons _ _ ih =>
    cases h' with
    | cons _ h' => exact ih h'

/-- Between two places there are the same words. -/
theorem words (h : c.Reads ls d) (h' : c.Reads ms d) : ls = ms :=
  List.append_cancel_right (h.filterMap.symm.trans h'.filterMap)

/-- The fewer of the words that are next begin the more. -/
theorem prefix_of_length_le (h : c.Reads ls d) (h' : c.Reads ms d') (hl : ls.length ≤ ms.length) :
    ls <+: ms :=
  List.prefix_of_prefix_length_le ⟨_, h.filterMap.symm⟩ ⟨_, h'.filterMap.symm⟩ hl

/-- Cursors in front of the same tokens, as many as are read and one more. -/
theorem shares (h : c.Reads ls d) (hc : c.Closed) (hc' : c'.Closed)
    (hp : (c.here :: c.later).take (ls.length + 1) <+: c'.here :: c'.later) :
    Shares ls.length c c' := by
  induction h generalizing c' with
  | nil c =>
    obtain ⟨t, us⟩ := c
    obtain ⟨t', us'⟩ := c'
    simp only [List.length_nil, Nat.zero_add, List.take_succ_cons, List.take_zero,
      List.cons_prefix_cons, List.nil_prefix, and_true] at hp
    subst hp
    exact .here hc hc'
  | @cons t u us l ls d ht _ ih =>
    obtain ⟨t', us'⟩ := c'
    simp only [List.length_cons, List.take_succ_cons, List.cons_prefix_cons] at hp
    obtain ⟨rfl, rest⟩ := hp
    cases hc with
    | cons hn hc =>
      cases hc' with
      | last hk => exact absurd hk hn
      | @cons _ u' us' _ hc' => exact .step hn (ih hc hc' (by simpa using rest))

end Reads

namespace Shares
variable {m n : Nat} {c c' d : Cursor} {ls : List Lexeme}

theorem refl (hc : c.Closed) : Shares 0 c c := .here hc hc

theorem closed (h : Shares n c c') : c.Closed ∧ c'.Closed := by
  induction h with
  | here hc hc' => exact ⟨hc, hc'⟩
  | step ht _ ih => exact ⟨.cons ht ih.1, .cons ht ih.2⟩

theorem here_eq (h : Shares n c c') : c'.here = c.here := by
  cases h <;> rfl

theorem le (h : Shares n c c') (hm : m ≤ n) : Shares m c c' := by
  induction h generalizing m with
  | here hc hc' =>
    obtain rfl := Nat.le_zero.1 hm
    exact .here hc hc'
  | step ht h ih =>
    cases m with
    | zero => exact .here (.cons ht h.closed.1) (.cons ht h.closed.2)
    | succ m => exact .step ht (ih (Nat.le_of_succ_le_succ hm))

theorem zero (h : Shares n c c') : Shares 0 c c' := h.le (Nat.zero_le n)

theorem kind_eq (h : Shares n c c') : c'.kind = c.kind := congrArg Token.kind h.here_eq

theorem loc_eq (h : Shares n c c') : c'.loc = c.loc := congrArg Token.loc h.here_eq

theorem kindAhead_eq (h : Shares (n + 1) c c') : c'.kindAhead 1 = c.kindAhead 1 := by
  cases h with
  | step _ h =>
    have next := h.here_eq
    simp only at next
    subst next
    rfl

/-- What one cursor reads the other one reads too, and behind it they share what is left. -/
theorem split (h : Shares (ls.length + n) c c') (hr : c.Reads ls d) :
    ∃ d', c'.Reads ls d' ∧ Shares n d d' := by
  induction hr generalizing c' with
  | nil c =>
    rw [List.length_nil, Nat.zero_add] at h
    exact ⟨c', .nil c', h⟩
  | cons ht _ ih =>
    rw [List.length_cons, Nat.succ_add] at h
    cases h with
    | step _ h =>
      obtain ⟨d', hr', hs⟩ := ih h
      exact ⟨d', .cons ht hr', hs⟩

end Shares

/-- A cursor in front of words and the end of the file. -/
def before : List Lexeme → Cursor
  | [] => ⟨closing none, []⟩
  | l :: ls => ⟨l.token, (before ls).here :: (before ls).later⟩

theorem before_reads (ls : List Lexeme) : (before ls).Reads ls (before []) := by
  induction ls with
  | nil => exact .nil _
  | cons l ls ih => exact .cons l.lexeme?_token ih

theorem before_closed (ls : List Lexeme) : (before ls).Closed := by
  induction ls with
  | nil => exact .last rfl
  | cons l ls ih => exact .cons l.kind_ne_endOfFile ih

/-- Behind the next token the words may go on in any way. -/
theorem Reads.turned {c d : Cursor} {ls : List Lexeme} {l : Lexeme} (h : c.Reads ls d)
    (hc : c.Closed) (hl : d.here.lexeme? = some l) (ms : List Lexeme) :
    ∃ c', Shares ls.length c c' ∧ c'.Reads (ls ++ l :: ms) (before []) := by
  induction h with
  | nil c =>
    have hk : c.here.kind ≠ .endOfFile := by simp [Token.kind_of_lexeme? hl]
    exact ⟨⟨c.here, _⟩, .here hc (.cons hk (before_closed ms)), .cons hl (before_reads ms)⟩
  | cons ht _ ih =>
    cases hc with
    | cons hn hc =>
      obtain ⟨c', hs, hr⟩ := ih hc hl
      exact ⟨⟨_, c'.here :: c'.later⟩, .step hn hs, .cons ht hr⟩

end Cursor

/-- The words are the beginning of words for a phrase of a kind. -/
def Viable {γ : Type} (K : γ → Phrase) (ls : List Lexeme) : Prop := ∃ ms x, Derives (K x) (ls ++ ms)

theorem Viable.of {γ : Type} {K : γ → Phrase} {x : γ} {us ls : List Lexeme} (h : Derives (K x) us)
    (hp : ls <+: us) : Viable K ls := by
  obtain ⟨ms, rfl⟩ := hp
  exact ⟨ms, x, h⟩

/-- The words are the beginning of words for a construct. -/
abbrev Category.Viable (s : Category) : List Lexeme → Prop := MiniC.Viable (Phrase.one s)

open Cursor

namespace Parse
variable {α β ι : Type}

theorem bind_eq_ok {x : Parse β} {f : β → Parse α} {c e : Cursor} {a : α} :
    (x >>= f) c = .ok (a, e) ↔ ∃ b d, x c = .ok (b, d) ∧ f b d = .ok (a, e) := by
  cases hx : x c with
  | error r => simp [bind_of_error hx]
  | ok p =>
    obtain ⟨b, d⟩ := p
    simp [bind_of_ok hx, and_assoc]

theorem bind_eq_error {x : Parse β} {f : β → Parse α} {c : Cursor} {r : SyntaxError} :
    (x >>= f) c = .error r ↔ x c = .error r ∨ ∃ b d, x c = .ok (b, d) ∧ f b d = .error r := by
  cases hx : x c with
  | error r => simp [bind_of_error hx]
  | ok p =>
    obtain ⟨b, d⟩ := p
    simp [bind_of_ok hx, and_assoc]

/-- Wherever the same tokens are next as from `c` on, the readers `X` take what `x` takes, or do not get
past the token that `x` refuses.  The words in front of that token are as `V` says; only where `D` holds
may `x` fail for another reason. -/
structure Prompt (x : Parse α) (X : ι → Parse α) (c : Cursor) (V : List Lexeme → Prop) (D : Prop) :
    Prop where
  ok : c.Closed → ∀ {a d}, x c = .ok (a, d) → ∃ ls, c.Reads ls d ∧
    ∀ {c'}, Shares ls.length c c' → ∀ {i b e}, X i c' = .ok (b, e) → b = a ∧ c'.Reads ls e
  error : c.Closed → ∀ {r}, x c = .error r → D ∨ ∃ ls d, c.Reads ls d ∧ r.loc = d.loc ∧ V ls ∧
    ∀ {c'}, Shares ls.length c c' → ∀ {i b e}, X i c' ≠ .ok (b, e)

section
variable {x y : Parse α} {X Y : ι → Parse α} {c : Cursor} {V : List Lexeme → Prop} {D : Prop}

theorem Prompt.mono {V' : List Lexeme → Prop} {D' : Prop} (h : Prompt x X c V D)
    (hV : ∀ ls, V ls → V' ls) (hD : D → D') : Prompt x X c V' D' where
  ok := h.ok
  error hc _ hx := (h.error hc hx).imp hD fun ⟨ls, d, hr, hl, hv, hX⟩ => ⟨ls, d, hr, hl, hV ls hv, hX⟩

/-- Readers that do no more than others in front of the same token. -/
theorem Prompt.family {κ : Type} {Z : κ → Parse α} (h : Prompt x X c V D) (hy : y c = x c)
    (hZ : ∀ {c'}, Shares 0 c c' → ∀ {k b e}, Z k c' = .ok (b, e) → ∃ i, X i c' = .ok (b, e)) :
    Prompt y Z c V D where
  ok hc _ _ hx := by
    obtain ⟨ls, hr, same⟩ := h.ok hc (hy.symm.trans hx)
    refine ⟨ls, hr, fun hs k b e hk => ?_⟩
    obtain ⟨i, hi⟩ := hZ hs.zero hk
    exact same hs hi
  error hc _ hx := by
    rcases h.error hc (hy.symm.trans hx) with hD | ⟨ls, d, hr, hl, hv, none⟩
    · exact .inl hD
    · refine .inr ⟨ls, d, hr, hl, hv, fun hs k b e hk => ?_⟩
      obtain ⟨i, hi⟩ := hZ hs.zero hk
      exact none hs hi

/-- Some of the readers. -/
theorem Prompt.reindex {κ : Type} (h : Prompt x X c V D) (k : κ → ι) :
    Prompt x (fun j => X (k j)) c V D :=
  h.family rfl fun _ j _ _ hj => ⟨k j, hj⟩

/-- Readers that count their turns and take nothing without any. -/
theorem Prompt.turns {Z : ι × Nat → Parse α}
    (h : Prompt x (fun i : ι × Nat => Z (i.1, i.2 + 1)) c V D)
    (hz : ∀ i c' b e, Z (i, 0) c' ≠ .ok (b, e)) : Prompt x Z c V D := by
  refine h.family rfl fun _ i b e hi => ?_
  obtain ⟨i, k⟩ := i
  cases k with
  | zero => exact absurd hi (hz i _ b e)
  | succ k => exact ⟨(i, k), hi⟩

/-- Readers that are the same in front of the same token. -/
theorem Prompt.congr (h : Prompt x X c V D) (hy : y c = x c)
    (hY : ∀ {c'}, Shares 0 c c' → ∀ i, Y i c' = X i c') : Prompt y Y c V D :=
  h.family hy fun hs k _ _ hk => ⟨k, (hY hs k).symm.trans hk⟩

/-- A token with which one of the readers goes on somewhere is not refused. -/
theorem Prompt.begun (h : Prompt x X c V D)
    (hX : c.Closed → ∃ c' i b e, Shares 0 c c' ∧ X i c' = .ok (b, e)) :
    Prompt x X c (fun ls => ls ≠ [] ∧ V ls) D where
  ok := h.ok
  error hc r hx := by
    refine (h.error hc hx).imp id ?_
    rintro ⟨ls, d, hr, hl, hv, none⟩
    refine ⟨ls, d, hr, hl, ⟨?_, hv⟩, none⟩
    rintro rfl
    obtain ⟨c', i, b, e, hs, hi⟩ := hX hc
    exact none hs hi

theorem prompt_pure {a : α} : Prompt (pure a) (fun _ : ι => pure a) c V D where
  ok _ a d h := by
    cases h
    refine ⟨[], .nil c, fun _ i b e h => ?_⟩
    cases h
    exact ⟨rfl, .nil _⟩
  error _ r h := by cases h

/-- The next token is refused. -/
theorem prompt_refused {r : SyntaxError} (hx : x c = .error r) (hr : r.loc = c.loc) (hv : V [])
    (hX : ∀ {c'}, Shares 0 c c' → ∀ {i b e}, X i c' ≠ .ok (b, e)) : Prompt x X c V D where
  ok _ a d h := by cases hx.symm.trans h
  error _ r' h := by
    cases hx.symm.trans h
    exact .inr ⟨[], c, .nil c, hr, hv, hX⟩

theorem prompt_refuse {w : Wanted} (hv : V []) :
    Prompt (refuse w : Parse α) (fun _ : ι => refuse w) c V D :=
  prompt_refused rfl rfl hv nofun

theorem Prompt.bind {x : Parse β} {X : ι → Parse β} {f : β → Parse α} {G : ι → β → Parse α}
    {P : β → List Lexeme → Cursor → Prop} (hx : Prompt x X c V D) (tx : x.Takes c P)
    (hf : ∀ b ls d, P b ls d → c.later.length = ls.length + d.later.length →
      Prompt (f b) (fun i => G i b) d (fun ms => V (ls ++ ms)) D) :
    Prompt (x >>= f) (fun i => X i >>= G i) c V D := by
  -- What the first reader has read is read in the same way wherever it is shared.
  have next : c.Closed → ∀ {b d}, x c = .ok (b, d) → ∃ ls, c.Reads ls d ∧
      (∀ {n c'}, Shares (ls.length + n) c c' → ∀ {i b' e}, X i c' = .ok (b', e) →
        b' = b ∧ c'.Reads ls e ∧ Shares n d e) ∧
      Prompt (f b) (fun i => G i b) d (fun ms => V (ls ++ ms)) D := by
    intro hc b d hb
    obtain ⟨ls, hr, same⟩ := hx.ok hc hb
    obtain ⟨ls', hr', hp⟩ := tx hc b d hb
    obtain rfl := hr.words hr'
    refine ⟨ls, hr, fun {n c'} hs i b' e h => ?_, hf b ls d hp hr.length⟩
    obtain ⟨rfl, he⟩ := same (hs.le (Nat.le_add_right ..)) h
    obtain ⟨e', he', hs'⟩ := hs.split hr
    obtain rfl := he.unique he'
    exact ⟨rfl, he, hs'⟩
  constructor
  · intro hc a e h
    obtain ⟨b, d, hb, ha⟩ := bind_eq_ok.1 h
    obtain ⟨ls, hr, same, hn⟩ := next hc hb
    obtain ⟨ms, hr', same'⟩ := hn.ok (hr.closed hc) ha
    refine ⟨ls ++ ms, hr.trans hr', fun {c'} hs i a' e' h' => ?_⟩
    rw [List.length_append] at hs
    obtain ⟨b', d', hb', ha'⟩ := bind_eq_ok.1 h'
    obtain ⟨rfl, hd', hs'⟩ := same hs hb'
    obtain ⟨rfl, he'⟩ := same' hs' ha'
    exact ⟨rfl, hd'.trans he'⟩
  · intro hc r h
    rcases bind_eq_error.1 h with h | ⟨b, d, hb, h⟩
    · refine (hx.error hc h).imp id ?_
      rintro ⟨ls, d, hr, hl, hv, none⟩
      refine ⟨ls, d, hr, hl, hv, fun hs i a' e' h' => ?_⟩
      obtain ⟨b', d', hb', -⟩ := bind_eq_ok.1 h'
      exact none hs hb'
    · obtain ⟨ls, hr, same, hn⟩ := next hc hb
      refine (hn.error (hr.closed hc) h).imp id ?_
      rintro ⟨ms, e, hr', hl, hv, none⟩
      refine ⟨ls ++ ms, e, hr.trans hr', hl, hv, fun {c'} hs i a' e' h' => ?_⟩
      rw [List.length_append] at hs
      obtain ⟨b', d', hb', ha'⟩ := bind_eq_ok.1 h'
      obtain ⟨rfl, -, hs'⟩ := same hs hb'
      exact none hs' ha'

theorem prompt_ite {p : Prop} [Decidable p] {x' : Parse α} {X' : ι → Parse α}
    (hx : p → Prompt x X c V D) (hy : ¬ p → Prompt x' X' c V D) :
    Prompt (if p then x else x') (fun i => if p then X i else X' i) c V D := by
  by_cases h : p
  · simp only [if_pos h]
    exact hx h
  · simp only [if_neg h]
    exact hy h

end

/-! ## Looking ahead -/

section
variable {c : Cursor} {V : List Lexeme → Prop} {D : Prop}

theorem prompt_peek {f : TokenKind → Parse α} {G : ι → TokenKind → Parse α}
    (h : Prompt (f c.kind) (fun i => G i c.kind) c V D) :
    Prompt (peek >>= f) (fun i => peek >>= G i) c V D :=
  h.congr rfl fun hs i => by rw [peek_bind, hs.kind_eq]

theorem prompt_here {f : Location → Parse α} {G : ι → Location → Parse α}
    (h : Prompt (f c.loc) (fun i => G i c.loc) c V D) :
    Prompt (here >>= f) (fun i => here >>= G i) c V D :=
  h.congr rfl fun hs i => by rw [here_bind, hs.loc_eq]

/-- How many tokens are left may be different elsewhere. -/
theorem prompt_remaining {f : Nat → Parse α} {G : ι → Nat → Parse α}
    (h : Prompt (f c.later.length) (fun i : ι × Nat => G i.1 i.2) c V D) :
    Prompt (remaining >>= f) (fun i => remaining >>= G i) c V D :=
  h.family rfl fun {c'} _ i _ _ hi => ⟨(i, c'.later.length), hi⟩

/-- A look behind the next token is fine if that token is taken in any case. -/
theorem prompt_peekAhead {f : TokenKind → Parse α} {G : ι → TokenKind → Parse α}
    (h : Prompt (f (c.kindAhead 1)) (fun i => G i (c.kindAhead 1)) c (fun ls => ls ≠ [] ∧ V ls) D)
    (ht : (f (c.kindAhead 1)).Takes c fun _ ls _ => ls ≠ []) :
    Prompt (peekAhead 1 >>= f) (fun i => peekAhead 1 >>= G i) c V D := by
  have same : ∀ {ls : List Lexeme} {c' : Cursor}, ls ≠ [] → Shares ls.length c c' → ∀ i,
      (peekAhead 1 >>= G i) c' = G i (c.kindAhead 1) c' := by
    intro ls c' hne hs i
    cases ls with
    | nil => exact absurd rfl hne
    | cons l ls => rw [peekAhead_bind, hs.kindAhead_eq]
  constructor
  · intro hc a d hx
    obtain ⟨ls, hr, hX⟩ := h.ok hc hx
    obtain ⟨ls', hr', hne⟩ := ht hc a d hx
    obtain rfl := hr.words hr'
    exact ⟨ls, hr, fun hs i b e hi => hX hs ((same hne hs i).symm.trans hi)⟩
  · intro hc r hx
    refine (h.error hc hx).imp id ?_
    rintro ⟨ls, d, hr, hl, ⟨hne, hv⟩, none⟩
    exact ⟨ls, d, hr, hl, hv, fun hs i b e hi => none hs ((same hne hs i).symm.trans hi)⟩

/-- A choice by the token behind the next one, where a condition on the next one holds. -/
theorem prompt_lookahead {q : Prop} [Decidable q] {r : TokenKind → Prop} [DecidablePred r]
    {x y : Parse α} {X Y : ι → Parse α}
    (hx : q → r (c.kindAhead 1) → Prompt x X c (fun ls => ls ≠ [] ∧ V ls) D)
    (tx : q → x.Takes c fun _ ls _ => ls ≠ [])
    (hy : q → Prompt y Y c (fun ls => ls ≠ [] ∧ V ls) D) (ty : q → y.Takes c fun _ ls _ => ls ≠ [])
    (hn : ¬ q → Prompt y Y c V D) :
    Prompt (peekAhead 1 >>= fun k => if q ∧ r k then x else y)
      (fun i => peekAhead 1 >>= fun k => if q ∧ r k then X i else Y i) c V D := by
  by_cases hq : q
  · simp only [hq, true_and]
    exact prompt_peekAhead (prompt_ite (hx hq) fun _ => hy hq)
      (takes_ite (fun _ => tx hq) fun _ => ty hq)
  · refine (hn hq).congr ?_ fun _ i => ?_ <;> simp only [hq, false_and, if_false] <;> rfl

/-! ## Taking one token -/

theorem prompt_advance {l : Lexeme} (hl : c.here.lexeme? = some l) {f : Token → Parse α}
    {G : ι → Token → Parse α} (hf : ∀ d, c.later.length = d.later.length + 1 →
      Prompt (f c.here) (fun i => G i c.here) d (fun ms => V (l :: ms)) D) :
    Prompt (advance >>= f) (fun i => advance >>= G i) c V D := by
  have step : Prompt advance (fun _ : ι => advance) c V D := by
    constructor
    · intro hc t d h
      cases h
      refine ⟨[l], hc.reads hl, fun {c'} hs i b e h => ?_⟩
      cases h
      obtain ⟨d', hd', -⟩ :=
        Shares.split (n := 0) (show Shares ([l].length + 0) c c' from hs) (hc.reads hl)
      exact ⟨hs.here_eq, hd'.advance.eq_of_nil ▸ hd'⟩
    · intro _ r h
      cases h
  refine step.bind (P := fun t ls _ => t = c.here ∧ ls = [l]) ?_ ?_
  · intro hc t d h
    cases h
    exact ⟨[l], hc.reads hl, rfl, rfl⟩
  · rintro t ls d ⟨rfl, rfl⟩ hlen
    exact hf d (by rw [hlen, List.length_singleton, Nat.add_comm])

theorem prompt_discard {x : Parse β} {X : ι → Parse β} {f : Unit → Parse α} {G : ι → Unit → Parse α}
    (h : Prompt (x >>= fun _ => f ()) (fun i => X i >>= fun _ => G i ()) c V D) :
    Prompt (discard x >>= f) (fun i => discard (X i) >>= G i) c V D := by
  simpa only [discard_bind] using h

theorem prompt_expect {kind : TokenKind} {f : Token → Parse α} {G : ι → Token → Parse α} (hv : V [])
    (h : c.kind = kind → Prompt (advance >>= f) (fun i => advance >>= G i) c V D) :
    Prompt (expect kind >>= f) (fun i => expect kind >>= G i) c V D := by
  by_cases hk : c.kind = kind
  · refine (h hk).congr (bind_of_ok (expect_of_kind hk) f) fun hs i => ?_
    exact bind_of_ok (expect_of_kind (hs.kind_eq.trans hk)) (G i)
  · refine prompt_refused (bind_of_error (if_neg hk) f) rfl hv fun hs i b e h => ?_
    have hk' : ¬ _ = kind := fun h => hk (hs.kind_eq.symm.trans h)
    cases (bind_of_error (if_neg hk') (G i)).symm.trans h

theorem prompt_mark {p : Punct} {f : Unit → Parse α} {G : ι → Unit → Parse α} (hv : V [])
    (hf : ∀ d, c.later.length = d.later.length + 1 →
      Prompt (f ()) (fun i => G i ()) d (fun ms => V (.mark p :: ms)) D) :
    Prompt (discard (expect (.punct p)) >>= f) (fun i => discard (expect (.punct p)) >>= G i) c V D :=
  prompt_discard (prompt_expect hv fun hk => prompt_advance (Token.lexeme?_of_mark hk) hf)

theorem prompt_keyword {k : Keyword} {f : Unit → Parse α} {G : ι → Unit → Parse α} (hv : V [])
    (hf : ∀ d, c.later.length = d.later.length + 1 →
      Prompt (f ()) (fun i => G i ()) d (fun ms => V (.keyword k :: ms)) D) :
    Prompt (discard (expect (.keyword k)) >>= f) (fun i => discard (expect (.keyword k)) >>= G i) c V
      D :=
  prompt_discard (prompt_expect hv fun hk => prompt_advance (Token.lexeme?_of_keyword hk) hf)

theorem prompt_name {f : String → Parse α} {G : ι → String → Parse α} (hv : V [])
    (hf : ∀ s d, c.later.length = d.later.length + 1 →
      Prompt (f s) (fun i => G i s) d (fun ms => V (.name s :: ms)) D) :
    Prompt (name >>= f) (fun i => name >>= G i) c V D := by
  simp only [name_bind]
  exact prompt_expect hv fun hk => prompt_advance (Token.lexeme?_of_name hk) (hf _)

theorem prompt_accept {kind : TokenKind} {f : Bool → Parse α} {G : ι → Bool → Parse α}
    (hx : c.kind = kind → Prompt (advance >>= fun _ => f true) (fun i => advance >>= fun _ => G i true)
      c V D)
    (hy : c.kind ≠ kind → Prompt (f false) (fun i => G i false) c V D) :
    Prompt (accept kind >>= f) (fun i => accept kind >>= G i) c V D := by
  by_cases hk : c.kind = kind
  · refine (hx hk).congr (bind_of_ok (accept_of_kind hk) f) fun hs i => ?_
    exact bind_of_ok (accept_of_kind (hs.kind_eq.trans hk)) (G i)
  · refine (hy hk).congr (bind_of_ok (accept_of_kind_ne hk) f) fun hs i => ?_
    exact bind_of_ok (accept_of_kind_ne fun h => hk (hs.kind_eq.symm.trans h)) (G i)

theorem prompt_acceptMark {p : Punct} {f : Bool → Parse α} {G : ι → Bool → Parse α}
    (hx : ∀ d, c.later.length = d.later.length + 1 →
      Prompt (f true) (fun i => G i true) d (fun ms => V (.mark p :: ms)) D)
    (hy : Prompt (f false) (fun i => G i false) c V D) :
    Prompt (accept (.punct p) >>= f) (fun i => accept (.punct p) >>= G i) c V D :=
  prompt_accept (fun hk => prompt_advance (Token.lexeme?_of_mark hk) hx) fun _ => hy

/-! ## Taking several tokens -/

theorem skipStars_shares {t t' : Token} {us us' : List Token} (hc : Closed ⟨t, us⟩)
    (h : Shares (skipStars t us).1 ⟨t, us⟩ ⟨t', us'⟩) :
    (skipStars t' us').1 = (skipStars t us).1 ∧
      Reads ⟨t', us'⟩ (Lexeme.stars (skipStars t us).1) (skipStars t' us').2 := by
  -- A token that is no star is followed by none that counts.
  have other : ∀ {t : Token} (us : List Token), t.kind ≠ .punct .star →
      skipStars t us = (0, ⟨t, us⟩) := by
    intro t us ht
    cases us with
    | nil => rfl
    | cons u us => rw [skipStars, if_neg ht]
  induction us generalizing t t' us' with
  | nil =>
    cases hc with
    | last ht =>
      obtain rfl : t' = t := h.here_eq
      rw [other us' (by simp [ht])]
      exact ⟨rfl, .nil _⟩
  | cons u us ih =>
    by_cases ht : t.kind = .punct .star
    · simp only [skipStars, if_pos ht] at h ⊢
      cases hc with
      | cons _ hc =>
        cases h with
        | step _ h =>
          obtain ⟨same, hr⟩ := ih hc h
          simp only [skipStars, if_pos ht, same, true_and]
          exact .cons (Token.lexeme?_of_mark ht) hr
    · obtain rfl : t' = t := h.here_eq
      rw [other _ ht, other _ ht]
      exact ⟨rfl, .nil _⟩

theorem prompt_stars {f : Nat → Parse α} {G : ι → Nat → Parse α}
    (hf : ∀ n d, c.later.length = n + d.later.length →
      Prompt (f n) (fun i => G i n) d (fun ms => V (Lexeme.stars n ++ ms)) D) :
    Prompt (stars >>= f) (fun i => stars >>= G i) c V D := by
  have count : stars.Takes c fun n ls _ => ls = Lexeme.stars n := by
    intro hc n d h
    have hr := skipStars_reads c.here c.later hc
    rw [Except.ok.inj h] at hr
    exact ⟨_, hr, rfl⟩
  have step : Prompt stars (fun _ : ι => stars) c V D := by
    constructor
    · intro hc n d h
      have hr := skipStars_reads c.here c.later hc
      have hn : (skipStars c.here c.later).1 = n := congrArg Prod.fst (Except.ok.inj h)
      have hd : (skipStars c.here c.later).2 = d := congrArg Prod.snd (Except.ok.inj h)
      refine ⟨_, hd ▸ hr, fun {c'} hs i b e h' => ?_⟩
      rw [Lexeme.stars, List.length_replicate] at hs
      obtain ⟨same, hr'⟩ := skipStars_shares hc hs
      rw [Except.ok.inj h'] at same hr'
      exact ⟨same.trans hn, hr'⟩
    · intro _ r h
      cases h
  refine step.bind count ?_
  rintro n ls d rfl hlen
  exact hf n d (by rw [hlen, Lexeme.stars, List.length_replicate])

end

section
variable {item : Parse Node} {I : ι → Parse Node} {s : Category} {D : Prop}

/-- Items up to a token that ends them. -/
theorem prompt_itemsUntil {ends : TokenKind → Bool} (hs : s ≠ .program)
    (ti : ∀ c, item.Takes c fun n ls _ => Derives (.one s n.unplaced) ls) {N : Nat}
    (hi : ∀ c : Cursor, c.later.length ≤ N → Prompt item I c s.Viable D) (k : Nat)
    {c : Cursor} (hN : c.later.length ≤ N) (hk : c.later.length < k) :
    Prompt (itemsUntil ends item k) (fun i : ι × Nat => itemsUntil ends (I i.1) i.2) c
      (Viable (Phrase.series s)) D := by
  induction k generalizing c with
  | zero => exact absurd hk (Nat.not_lt_zero _)
  | succ k ih =>
    have step : Prompt (itemsUntil ends item (k + 1))
        (fun i : ι × Nat => itemsUntil ends (I i.1) (i.2 + 1)) c (Viable (Phrase.series s)) D := by
      refine prompt_peek (prompt_ite (fun _ => prompt_pure) fun _ => ?_)
      have first : Prompt item (fun i : ι × Nat => I i.1) c (Viable (Phrase.series s)) D := by
        refine ((hi c hN).mono ?_ id).reindex Prod.fst
        rintro ls ⟨ms, n, hn⟩
        exact .of (.cons hn .nil) (by simp)
      refine first.bind (ti c) fun n ls d hn hlen => ?_
      -- An item takes a token, so there are turns left for the tokens behind it.
      obtain ⟨l, ls, rfl, -⟩ := hn.opens hs
      rw [List.length_cons] at hlen
      refine Prompt.bind ((ih (by omega) (by omega)).mono ?_ id) (takes_itemsUntil ti k d)
        fun ns ms e _ _ => prompt_pure
      rintro ms ⟨us, ns, hns⟩
      exact .of (.cons hn hns) (by simp)
    exact step.turns fun _ _ _ _ h => by cases h

theorem prompt_upTo {ends : TokenKind → Bool} (hs : s ≠ .program)
    (ti : ∀ c, item.Takes c fun n ls _ => Derives (.one s n.unplaced) ls) {c : Cursor}
    (hi : ∀ d : Cursor, d.later.length ≤ c.later.length → Prompt item I d s.Viable D) :
    Prompt (upTo ends item) (fun i => upTo ends (I i)) c (Viable (Phrase.series s)) D :=
  prompt_remaining ((prompt_itemsUntil hs ti hi _ (Nat.le_refl _) (Nat.lt_succ_self _)).reindex
    fun i : ι × Nat => (i.1, i.2 + 1))

/-- Items with commas between them. -/
theorem prompt_separated (ti : ∀ c, item.Takes c fun n ls _ => Derives (.one s n.unplaced) ls)
    {N : Nat} (hi : ∀ c : Cursor, c.later.length ≤ N → Prompt item I c s.Viable D)
    (k : Nat) {c : Cursor} (hN : c.later.length ≤ N) (hk : c.later.length < k) :
    Prompt (separated item k) (fun i : ι × Nat => separated (I i.1) i.2) c
      (Viable (Phrase.listed s)) D := by
  induction k generalizing c with
  | zero => exact absurd hk (Nat.not_lt_zero _)
  | succ k ih =>
    have step : Prompt (separated item (k + 1))
        (fun i : ι × Nat => separated (I i.1) (i.2 + 1)) c (Viable (Phrase.listed s)) D := by
      have first : Prompt item (fun i : ι × Nat => I i.1) c (Viable (Phrase.listed s)) D := by
        refine ((hi c hN).mono ?_ id).reindex Prod.fst
        rintro ls ⟨ms, n, hn⟩
        exact .of (.last hn) (by simp)
      refine first.bind (ti c) fun n ls d hn hlen => ?_
      refine prompt_acceptMark (fun e he => ?_) prompt_pure
      refine Prompt.bind ((ih (by omega) (by omega)).mono ?_ id) (takes_separated ti k e)
        fun ns ms e _ _ => prompt_pure
      rintro ms ⟨us, ns, hns⟩
      exact .of (.more hn hns) (by simp)
    exact step.turns fun _ _ _ _ h => by cases h

theorem prompt_commaList (ti : ∀ c, item.Takes c fun n ls _ => Derives (.one s n.unplaced) ls)
    {c : Cursor} (hi : ∀ d : Cursor, d.later.length ≤ c.later.length →
      Prompt item I d s.Viable D) :
    Prompt (commaList item) (fun i => commaList (I i)) c (Viable (Phrase.listed s)) D :=
  prompt_remaining ((prompt_separated ti hi _ (Nat.le_refl _) (Nat.lt_succ_self _)).reindex
    fun i : ι × Nat => (i.1, i.2 + 1))

end

end Parse

end MiniC
