/-
  Syntax errors are reported at the earliest token.

  A source whose tokens are no program has a first token up to which they are the beginning of one and
  behind which they are not.  The parser reports its error there: what stands in front of the token that
  it names begins some program (`Production.Viable`), and no program begins with that token included,
  since a parser that reads promptly refuses the token whatever is behind it.
-/
import MiniC.Proofs.PromptProgram
import MiniC.Proofs.SourceText

namespace MiniC

namespace Cursor.Reads
variable {c d : Cursor} {ls : List Lexeme}

/-- The tokens that are left behind the words. -/
theorem drop (h : c.Reads ls d) : (c.here :: c.later).drop ls.length = d.here :: d.later := by
  induction h with
  | nil => rfl
  | cons _ _ ih => exact ih

/-- Instead of what is left there may be any other words. -/
theorem resumed (h : c.Reads ls d) (ms : List Lexeme) :
    ∃ c' : Cursor, c'.Closed ∧ c'.Reads (ls ++ ms) (before []) ∧ c'.here :: c'.later =
      (c.here :: c.later).take ls.length ++ ((before ms).here :: (before ms).later) := by
  induction h with
  | nil => exact ⟨before ms, before_closed ms, before_reads ms, rfl⟩
  | @cons t u us l ls d ht _ ih =>
    obtain ⟨c', hc, hr, he⟩ := ih
    have hk : t.kind ≠ .endOfFile := by simp [Token.kind_of_lexeme? ht]
    exact ⟨⟨t, c'.here :: c'.later⟩, .cons hk hc, .cons ht hr, by simp [he]⟩

end Cursor.Reads

/-- Every program can be parsed. -/
theorem Derives.parses {n : Node} {ls : List Lexeme} (h : Derives (.one .program n) ls) {c d : Cursor}
    (hr : c.Reads ls d) (hd : d.kind = .endOfFile) : ∃ r, parse .full .program c = .ok r := by
  have room : Room 14 c ((c.later.length + 1) * callsPerToken) := by
    unfold Room callsPerToken
    omega
  obtain ⟨m, hm, -⟩ := h.accepted.one _ _ _ hr hd room
  exact ⟨_, hm⟩

/-- **A syntax error is reported at the earliest token.**  It is the place of a token such that the
tokens in front of it begin a program that can be parsed, and no source can be parsed whose tokens
begin with these and with the token itself. -/
theorem syntax_error_earliest {source : String} {ts : List Token} {e : SyntaxError}
    (h : tokenize source = .ok ts) (he : parse .full .program (.ofTokens ts) = .error e) :
    ∃ k t, ts[k]? = some t ∧ e.loc = t.loc ∧
      (∃ us r, parse .full .program (.ofTokens (ts.take k ++ us)) = .ok r) ∧
      ∀ other us, tokenize other = .ok us → ts.take (k + 1) <+: us →
        ∀ r, parse .full .program (.ofTokens us) ≠ .ok r := by
  obtain ⟨c, hc, rfl⟩ := tokenize_closed h
  rw [hc.ofTokens] at he
  rcases (parseWithin_prompt _ .program c).error hc he with deep | ⟨ls, d, hr, hl, ⟨ms, n, hn⟩, none⟩
  · -- There is room for all calls that can nest.
    have low := Production.program.rank_lt
    unfold Production.depth callsPerToken at *
    omega
  refine ⟨ls.length, d.here, ?_, hl, ?_, ?_⟩
  · rw [← Nat.add_zero ls.length, ← List.getElem?_drop, hr.drop]
    rfl
  · obtain ⟨c', hc', hr', tokens⟩ := hr.resumed ms
    obtain ⟨r, parsed⟩ := hn.parses hr' rfl
    exact ⟨_, r, by rwa [← tokens, hc'.ofTokens]⟩
  · rintro other us hu hp ⟨m, f⟩ parsed
    obtain ⟨c', hc', rfl⟩ := tokenize_closed hu
    rw [hc'.ofTokens] at parsed
    exact none (hr.shares hc hc' hp) parsed

/-- The parser misses a semicolon at the brace behind it: with one the program could go on. -/
theorem syntax_error_earliest_semicolon : ∃ ts e,
    tokenize "int main() \x7b return 1 \x7d" = .ok ts ∧
      parse .full .program (.ofTokens ts) = .error e ∧ e.loc = ⟨22, 1, 23⟩ ∧
      ∃ k t, ts[k]? = some t ∧ e.loc = t.loc ∧
        (∃ us r, parse .full .program (.ofTokens (ts.take k ++ us)) = .ok r) ∧
        ∀ other us, tokenize other = .ok us → ts.take (k + 1) <+: us →
          ∀ r, parse .full .program (.ofTokens us) ≠ .ok r := by
  have place : (tokenize "int main() \x7b return 1 \x7d").toOption.bind (fun ts =>
      match parse .full .program (.ofTokens ts) with
      | .error e => some e.loc
      | .ok _ => none) = some ⟨22, 1, 23⟩ := by
    rw [tokenize_of_toList "int main() \x7b return 1 \x7d" (String.ofList_eq.1 rfl)]
    decide +kernel
  obtain ⟨ts, h, place⟩ := Option.bind_eq_some_iff.1 place
  replace h := Except.eq_ok_of_toOption h
  split at place
  · rename_i e he
    exact ⟨ts, e, h, he, Option.some.inj place, syntax_error_earliest h he⟩
  · cases place

end MiniC
