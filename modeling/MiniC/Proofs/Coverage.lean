/-
  The tokens of a source account for all of it.

  Between tokens a source holds blanks, comments from their opening to their closing, and lines from
  `//` or `#` to their end (`Separator`, `Gap`).  A text is covered by tokens if it is their spellings in
  turn with a gap in front of each and one at the end (`Covers`): each character is in exactly one
  spelling or gap, and each token is at the place where its spelling begins.

  * `Reader.step_takes`: what one step consumes is a separator or the spelling of the token it gives.
  * `Reader.covers_tokens`: the tokens of a reader cover the text that it has left.
  * `tokens_cover_source`: the tokens of a source cover it, at places that increase.
-/
import Mathlib.Data.List.TakeWhile
import MiniC.Proofs.Positions
import MiniC.Proofs.Tokenization

namespace MiniC

/-! ## Gaps -/

/-- What separates tokens: characters, and the text behind them.  A line may end with the text. -/
inductive Separator : List Char → List Char → Prop
  | blank {c : Char} {rest : List Char} : isBlank c → Separator [c] rest
  | line {opening cs rest : List Char} :
    opening = ['/', '/'] ∨ opening = ['#'] → '\n' ∉ cs → Separator (opening ++ (cs ++ ['\n'])) rest
  | lastLine {opening cs : List Char} :
    opening = ['/', '/'] ∨ opening = ['#'] → '\n' ∉ cs → Separator (opening ++ cs) []
  | comment {cs rest : List Char} :
    ¬ ['*', '/'] <:+: cs ++ ['*'] → Separator (['/', '*'] ++ (cs ++ ['*', '/'])) rest

/-- Separators in turn, and the text behind them. -/
inductive Gap : List Char → List Char → Prop
  | nil {rest : List Char} : Gap [] rest
  | cons {cs ds rest : List Char} : Separator cs (ds ++ rest) → Gap ds rest → Gap (cs ++ ds) rest

/-- The text `cs` that begins at `l` is spellings of the tokens in turn, with gaps around them. -/
inductive Covers : Location → List Char → List Token → Prop
  | last {l : Location} {gap : List Char} :
    Gap gap [] → Covers l gap [⟨.endOfFile, "", l.advanceAll gap⟩]
  | word {l : Location} {gap cs rest : List Char} {w : Lexeme} {ts : List Token} :
    Gap gap (cs ++ rest) → w.Spelled cs → Covers ((l.advanceAll gap).advanceAll cs) rest ts →
      Covers l (gap ++ (cs ++ rest)) (w.tokenAt (l.advanceAll gap) :: ts)

theorem Separator.ne_nil {cs rest : List Char} (h : Separator cs rest) : cs ≠ [] := by
  cases h with
  | blank _ => exact List.cons_ne_nil _ _
  | line ho _ => rcases ho with rfl | rfl <;> exact List.cons_ne_nil _ _
  | lastLine ho _ => rcases ho with rfl | rfl <;> exact List.cons_ne_nil _ _
  | comment _ => exact List.cons_ne_nil _ _

/-! ## What a step takes -/

namespace Reader

/-- The second reader is the first one behind `cs`. -/
def After (r : Reader) (cs : List Char) (next : Reader) : Prop :=
  r.rest = cs ++ next.rest ∧ next.loc = r.loc.advanceAll cs

end Reader

theorem Keyword.text_of_ofText? {k : Keyword} {text : String} (h : ofText? text = some k) :
    k.text = text := by
  simpa using List.find?_some h

/-- What is between a reader and the one behind its step: a separator, or the spelling of the token
that the step gives. -/
def Step.Takes (r : Reader) : Step → Prop
  | done => r.rest = []
  | skip next => ∃ cs, r.After cs next ∧ Separator cs next.rest
  | token t next => ∃ (cs : List Char) (w : Lexeme), r.After cs next ∧ w.Spelled cs ∧ t = w.tokenAt r.loc
  | fault _ => True

namespace Reader
variable {r next : Reader} {l opened : Location} {c : Char} {cs rest text comment : List Char}

/-- A line is what stands in front of the first newline, with that newline if there is one. -/
theorem splitLine_cases (cs : List Char) : ∃ line, '\n' ∉ line ∧
    ((splitLine cs).1 = line ++ ['\n'] ∨ (splitLine cs).1 = line ∧ (splitLine cs).2 = []) := by
  fun_induction splitLine cs with
  | case1 => exact ⟨[], List.not_mem_nil, .inr ⟨rfl, rfl⟩⟩
  | case2 cs => exact ⟨[], List.not_mem_nil, .inl rfl⟩
  | case3 c cs hc line rest hs ih =>
    obtain ⟨body, hbody, hends⟩ := ih
    rw [hs] at hends
    refine ⟨c :: body, ?_, ?_⟩
    · rw [List.mem_cons, not_or]
      exact ⟨Ne.symm hc, hbody⟩
    · rcases hends with rfl | ⟨rfl, hrest⟩
      · exact .inl rfl
      · exact .inr ⟨rfl, hrest⟩

/-- A line behind its opening is a separator. -/
theorem separator_line (opening cs : List Char) (ho : opening = ['/', '/'] ∨ opening = ['#']) :
    Separator (opening ++ (splitLine cs).1) (splitLine cs).2 := by
  obtain ⟨line, hline, hends⟩ := splitLine_cases cs
  rcases hends with he | ⟨he, hrest⟩
  · rw [he]
    exact .line ho hline
  · rw [he, hrest]
    exact .lastLine ho hline

/-- A comment goes up to the first closing. -/
theorem splitComment_eq (h : splitComment cs = some (comment, rest)) :
    ∃ body, comment = body ++ ['*', '/'] ∧ ¬ ['*', '/'] <:+: body ++ ['*'] := by
  fun_induction splitComment cs generalizing comment with
  | case1 => cases h
  | case2 cs =>
    cases h
    exact ⟨[], rfl, by decide⟩
  | case3 c cs hc ih =>
    obtain ⟨⟨comment', rest'⟩, hs, he⟩ := Option.map_eq_some_iff.1 h
    cases he
    obtain ⟨body, rfl, hbody⟩ := ih hs
    refine ⟨c :: body, rfl, ?_⟩
    rw [List.cons_append, List.infix_cons_iff, not_or]
    refine ⟨?_, hbody⟩
    -- A closing right here would have ended the comment.
    intro hp
    rw [List.cons_prefix_cons] at hp
    obtain ⟨rfl, hp⟩ := hp
    cases body with
    | nil => simp at hp
    | cons d body =>
      rw [List.cons_append, List.cons_prefix_cons] at hp
      obtain ⟨rfl, -⟩ := hp
      exact hc _ rfl (splitComment_append hs)

/-- What is no escape begins with no backslash. -/
theorem ne_backslash (hone : c = '\\' → cs = [] → False)
    (hmore : ∀ e ds, c = '\\' → cs = e :: ds → False) : c ≠ '\\' := by
  intro hc
  cases cs with
  | nil => exact hone hc rfl
  | cons e ds => exact hmore e ds hc rfl

/-- Where a literal is scanned, so is what it was made from. -/
theorem eq_ok_of_map {α β : Type} {x : Except LexicalError (α × Reader)} {f : α → β} {b : β}
    (h : (x.map fun (a, next) => (f a, next)) = .ok (b, next)) :
    ∃ a, x = .ok (a, next) ∧ b = f a := by
  cases x with
  | error e => cases h
  | ok p =>
    cases h
    exact ⟨p.1, rfl, rfl⟩

theorem scanString_denotes (h : scanString opened l cs = .ok (text, next)) :
    ∃ body, Denotes body text ∧ cs = body ++ '"' :: next.rest ∧
      next.loc = (l.advanceAll body).advance '"' := by
  fun_induction scanString opened l cs generalizing text with
  | case2 l cs =>
    cases h
    exact ⟨[], .nil, rfl, rfl⟩
  | case6 =>
    rename_i e cs _ c he ih
    obtain ⟨text', hs, rfl⟩ := eq_ok_of_map h
    obtain ⟨body, hbody, rfl, hloc⟩ := ih hs
    exact ⟨'\\' :: e :: body, .escape he hbody, rfl, hloc⟩
  | case7 l c cs hq hn hone hb ih =>
    obtain ⟨text', hs, rfl⟩ := eq_ok_of_map h
    obtain ⟨body, hbody, rfl, hloc⟩ := ih hs
    exact ⟨c :: body, .plain hq (ne_backslash hone hb) hn hbody, rfl, hloc⟩
  | _ => cases h

theorem closeChar_eq {d : Char} (h : closeChar c l cs = .ok (d, next)) :
    d = c ∧ cs = '\'' :: next.rest ∧ next.loc = l.advance '\'' := by
  unfold closeChar at h
  split at h
  · cases h
  · cases h
    exact ⟨rfl, rfl, rfl⟩
  · cases h

theorem scanChar_spelled (h : scanChar l cs = .ok (c, next)) :
    ∃ body, (Lexeme.character (String.ofList [c])).Spelled ('\'' :: (body ++ ['\''])) ∧
      cs = body ++ '\'' :: next.rest ∧ next.loc = (l.advanceAll body).advance '\'' := by
  unfold scanChar at h
  split at h
  · cases h
  · cases h
  · rename_i e cs
    simp only at h
    split at h
    · cases h
    · rename_i d he
      obtain ⟨rfl, rfl, hloc⟩ := closeChar_eq h
      exact ⟨['\\', e], .escaped he, rfl, hloc⟩
  · rename_i d cs hone hb
    obtain ⟨rfl, rfl, hloc⟩ := closeChar_eq h
    exact ⟨[c], .character (ne_backslash hone hb), rfl, hloc⟩

theorem mem_span {p : Char → Bool} {d : Char} (h : d ∈ (cs.span p).1) : p d := by
  rw [List.span_eq_takeWhile_dropWhile] at h
  exact List.mem_takeWhile_imp h

theorem emitScanned_takes {kind : TokenKind} {x : Except LexicalError (List Char × Reader)}
    (h : ∀ text next, x = .ok (text, next) → ∃ (cs : List Char) (w : Lexeme), r.After cs next ∧
      w.Spelled cs ∧ w.tokenAt r.loc = ⟨kind, String.ofList text, r.loc⟩) :
    (r.emitScanned kind x).Takes r := by
  cases x with
  | error e => trivial
  | ok p =>
    obtain ⟨text, next⟩ := p
    obtain ⟨cs, w, hafter, hw, ht⟩ := h text next rfl
    exact ⟨cs, w, hafter, hw, ht.symm⟩

theorem After.emit {w : Lexeme} (hr : r.rest = cs ++ rest) (hw : w.Spelled cs) :
    (r.emit w.kind w.content cs rest).Takes r :=
  ⟨cs, w, ⟨hr, rfl⟩, hw, rfl⟩

/-! A token of each sort is spelled by what is consumed for it. -/

theorem string_takes (hr : r.rest = '"' :: cs) :
    (r.emitScanned .stringLiteral (scanString r.loc (r.loc.advance '"') cs)).Takes r := by
  refine emitScanned_takes fun text next h => ?_
  obtain ⟨body, hbody, rfl, hloc⟩ := scanString_denotes h
  refine ⟨'"' :: (body ++ ['"']), .string (String.ofList text), ⟨?_, ?_⟩, .string hbody, rfl⟩
  · simp [hr]
  · rw [hloc, Location.advanceAll_cons, Location.advanceAll_append]
    rfl

theorem character_takes (hr : r.rest = '\'' :: cs) :
    (r.emitScanned .charLiteral
      ((scanChar (r.loc.advance '\'') cs).map fun (d, next) => ([d], next))).Takes r := by
  refine emitScanned_takes fun text next h => ?_
  obtain ⟨d, hd, rfl⟩ := eq_ok_of_map (f := fun d => [d]) h
  obtain ⟨body, hbody, rfl, hloc⟩ := scanChar_spelled hd
  refine ⟨'\'' :: (body ++ ['\'']), _, ⟨?_, ?_⟩, hbody, rfl⟩
  · simp [hr]
  · rw [hloc, Location.advanceAll_cons, Location.advanceAll_append]
    rfl

theorem number_takes (hr : r.rest = (c :: cs) ++ rest) (hd : ∀ d ∈ c :: cs, d.isDigit)
    (hw : (Word.ofText? (String.ofList (c :: cs))).isSome) :
    (r.emit .intLiteral (String.ofList (c :: cs)) (c :: cs) rest).Takes r :=
  After.emit hr (.number (List.cons_ne_nil _ _) hd ((Word.ofText?_isSome (List.cons_ne_nil _ _) hd).1 hw))

theorem word_takes (hr : r.rest = (c :: cs) ++ rest) (hc : isIdentStart c)
    (hcs : ∀ d ∈ cs, isIdentRest d) :
    (r.emit (match Keyword.ofText? (String.ofList (c :: cs)) with
        | some k => .keyword k
        | none => .identifier) (String.ofList (c :: cs)) (c :: cs) rest).Takes r := by
  cases hk : Keyword.ofText? (String.ofList (c :: cs)) with
  | none => exact After.emit hr (.name hc hcs hk)
  | some k =>
    have htext : k.text = String.ofList (c :: cs) := Keyword.text_of_ofText? hk
    have hw := Lexeme.Spelled.keyword k
    rw [htext, String.toList_ofList] at hw
    simp only [← htext]
    exact After.emit hr hw

theorem mark_takes {p : Punct} (hr : r.rest = c :: cs) (hp : punct? c cs.head? = some p) :
    (r.emit (.punct p) p.text p.text.toList ((c :: cs).drop p.text.toList.length)).Takes r := by
  obtain ⟨rest, hrest⟩ := punct?_spelling hp
  rw [hrest, List.drop_left]
  exact After.emit (hr.trans hrest) (.mark p)

theorem lexeme_takes (hr : r.rest = c :: cs) : (r.lexeme c cs).Takes r := by
  have hspan (p : Char → Bool) : r.rest = (c :: (cs.span p).1) ++ (cs.span p).2 := by
    rw [hr, List.cons_append, span_append]
  unfold lexeme
  split
  · rename_i hc
    subst hc
    exact string_takes hr
  split
  · rename_i hc
    subst hc
    exact character_takes hr
  split
  · rename_i hc
    simp only
    split
    · trivial
    · rename_i w hw
      exact number_takes (hspan _) (List.forall_mem_cons.2 ⟨hc, fun d => mem_span⟩) (by rw [hw]; rfl)
  split
  · rename_i hc
    exact word_takes (hspan _) hc fun d => mem_span
  · split
    · trivial
    · rename_i p hp
      exact mark_takes hr hp

/-- **What a step consumes is a separator or the spelling of its token.** -/
theorem step_takes (r : Reader) : r.step.Takes r := by
  unfold step
  split
  · rename_i hr
    exact hr
  · rename_i cs hr
    refine ⟨_, ⟨hr.trans (splitLine_append _).symm, rfl⟩, ?_⟩
    exact separator_line ['/', '/'] cs (.inl rfl)
  · rename_i cs hr
    split
    · trivial
    · rename_i comment rest hc
      obtain ⟨body, rfl, hbody⟩ := splitComment_eq hc
      refine ⟨_, ⟨?_, rfl⟩, .comment hbody⟩
      rw [hr, splitComment_append hc]
      rfl
  · rename_i cs hr
    refine ⟨_, ⟨hr.trans (splitLine_append _).symm, rfl⟩, ?_⟩
    exact separator_line ['#'] cs (.inr rfl)
  · rename_i c cs _ _ _ hr
    split
    · rename_i hb
      exact ⟨[c], ⟨hr, rfl⟩, .blank hb⟩
    · exact lexeme_takes hr

theorem After.length (h : r.After cs next) (hcs : cs ≠ []) : next.rest.length < r.rest.length := by
  have hpos := List.length_pos_iff.2 hcs
  rw [h.1, List.length_append]
  omega

end Reader

/-! ## Covers -/

/-- A separator lengthens the first gap. -/
theorem Covers.after_separator {l : Location} {cs rest : List Char} {ts : List Token}
    (hcs : Separator cs rest) (h : Covers (l.advanceAll cs) rest ts) : Covers l (cs ++ rest) ts := by
  cases h with
  | last hgap =>
    rw [← Location.advanceAll_append]
    refine .last (.cons ?_ hgap)
    rwa [List.append_nil]
  | word hgap hw hts =>
    rw [← Location.advanceAll_append l cs] at hts ⊢
    rw [← List.append_assoc]
    exact .word (.cons hcs hgap) hw hts

theorem Reader.covers_tokens {fuel : Nat} {r : Reader} {ts : List Token} (hf : r.rest.length ≤ fuel)
    (h : r.tokens fuel = .ok ts) : Covers r.loc r.rest ts := by
  induction fuel generalizing r ts with
  | zero =>
    have hr : r.rest = [] := List.length_eq_zero_iff.1 (Nat.le_zero.1 hf)
    cases h
    rw [hr]
    exact .last .nil
  | succ fuel ih =>
    have hstep := r.step_takes
    unfold tokens at h
    cases hs : r.step <;> rw [hs] at hstep h
    case done =>
      cases h
      rw [hstep]
      exact .last .nil
    case skip next =>
      -- The rest gets shorter with each step, so the fuel lasts.
      obtain ⟨cs, hafter, hsep⟩ := hstep
      have hlt := hafter.length hsep.ne_nil
      rw [hafter.1]
      refine Covers.after_separator hsep ?_
      rw [← hafter.2]
      exact ih (by omega) h
    case token t next =>
      obtain ⟨cs, w, hafter, hw, rfl⟩ := hstep
      have hlt := hafter.length (spelled_ne_nil hw)
      simp only at h
      cases hn : Reader.tokens fuel next with
      | error e =>
        rw [hn] at h
        cases h
      | ok us =>
        rw [hn] at h
        cases h
        rw [hafter.1]
        refine .word .nil hw ?_
        rw [Location.advanceAll_nil, ← hafter.2]
        exact ih (by omega) hn
    case fault e => cases h

namespace Covers
variable {l : Location} {cs : List Char} {ts : List Token}

/-- The tokens are at places behind the beginning of the text. -/
theorem offset_le (h : Covers l cs ts) : ∀ t ∈ ts, l.offset ≤ t.loc.offset := by
  induction h with
  | last _ =>
    intro t ht
    rw [List.mem_singleton.1 ht, Location.offset_advanceAll]
    omega
  | word _ _ _ ih =>
    intro t ht
    rcases List.mem_cons.1 ht with rfl | ht
    · rw [Lexeme.tokenAt, Location.offset_advanceAll]
      omega
    · have hle := ih t ht
      rw [Location.offset_advanceAll, Location.offset_advanceAll] at hle
      omega

/-- Each token is at a place behind those of the tokens before it. -/
theorem offsets_increase (h : Covers l cs ts) : ts.Pairwise fun t u => t.loc.offset < u.loc.offset := by
  induction h with
  | last _ => exact List.pairwise_singleton _ _
  | @word l gap cs rest w ts _ hw hts ih =>
    refine List.pairwise_cons.2 ⟨?_, ih⟩
    intro u hu
    have hle := hts.offset_le u hu
    have hpos := List.length_pos_iff.2 (Reader.spelled_ne_nil hw)
    rw [Location.offset_advanceAll] at hle
    change (l.advanceAll gap).offset < u.loc.offset
    omega

/-- The last token, and no other, is the end of the file, behind all characters. -/
theorem closed (h : Covers l cs ts) : ∃ us l', ts = us ++ [⟨.endOfFile, "", l'⟩] ∧
    l'.offset = l.offset + cs.length ∧ ∀ t ∈ us, t.kind ≠ .endOfFile := by
  induction h with
  | last _ => exact ⟨[], _, rfl, Location.offset_advanceAll _ _, nofun⟩
  | @word l gap cs rest w ts _ _ _ ih =>
    obtain ⟨us, l', rfl, hl, hus⟩ := ih
    refine ⟨w.tokenAt (l.advanceAll gap) :: us, l', rfl, ?_, ?_⟩
    · rw [hl, Location.offset_advanceAll, Location.offset_advanceAll, List.length_append,
        List.length_append]
      omega
    · intro t ht
      rcases List.mem_cons.1 ht with rfl | ht
      · exact w.kind_ne_endOfFile
      · exact hus t ht

/-- The text at the place of a token spells it. -/
theorem spelled (h : Covers l cs ts) : ∀ t ∈ ts, t.kind ≠ .endOfFile → ∃ (w : Lexeme) (ds : List Char),
    t = w.tokenAt t.loc ∧ w.Spelled ds ∧ ds <+: cs.drop (t.loc.offset - l.offset) := by
  induction h with
  | last _ =>
    intro t ht hk
    rw [List.mem_singleton.1 ht] at hk
    exact absurd rfl hk
  | @word l gap cs rest w ts _ hw hts ih =>
    intro t ht hk
    rcases List.mem_cons.1 ht with rfl | ht
    · refine ⟨w, cs, rfl, hw, ?_⟩
      rw [Lexeme.tokenAt, Location.offset_advanceAll, Nat.add_sub_cancel_left, List.drop_left]
      exact List.prefix_append cs rest
    · obtain ⟨v, ds, hv, hds, hp⟩ := ih t ht hk
      refine ⟨v, ds, hv, hds, ?_⟩
      have hle := hts.offset_le t ht
      rw [Location.offset_advanceAll, Location.offset_advanceAll] at hp hle
      have hn : t.loc.offset - l.offset =
          (gap ++ cs).length + (t.loc.offset - (l.offset + gap.length + cs.length)) := by
        rw [List.length_append]
        omega
      rwa [hn, ← List.append_assoc, ← List.drop_drop, List.drop_left]

end Covers

/-- **The tokens of a source cover it.**  The places of its tokens increase up to that of the end of the
file, which is behind all characters; each has the line and the column of its offset; and from the start
on the text is, in turn, a gap of separators and the spelling of the next token, which begins at the
token's place. -/
theorem tokens_cover_source {source : String} {ts : List Token} (h : tokenize source = .ok ts) :
    (ts.Pairwise fun t u => t.loc.offset < u.loc.offset) ∧
      (∃ us l, ts = us ++ [⟨.endOfFile, "", l⟩] ∧ l.offset = source.length ∧
        ∀ t ∈ us, t.kind ≠ .endOfFile) ∧
      (∀ t ∈ ts, t.loc.In source) ∧
      (∀ t ∈ ts, t.kind ≠ .endOfFile → ∃ (w : Lexeme) (cs : List Char), t = w.tokenAt t.loc ∧
        w.Spelled cs ∧ cs <+: source.toList.drop t.loc.offset) ∧
      Covers .start source.toList ts := by
  have covers : Covers .start source.toList ts := Reader.covers_tokens (Nat.le_refl _) h
  refine ⟨covers.offsets_increase, ?_, ?_, covers.spelled, covers⟩
  · obtain ⟨us, l, hts, hl, hus⟩ := covers.closed
    refine ⟨us, l, hts, ?_, hus⟩
    rw [hl, Location.start, Nat.zero_add, String.length_toList]
  · have placed := (Reader.in_ofString source).tokens source.toList.length
    rw [show (Reader.ofString source).tokens source.toList.length = .ok ts from h] at placed
    exact placed

/-- A directive, a comment with stars at its end, a literal with a quote and slashes in it, and a last
line that ends with the text. -/
theorem tokens_cover_source_commented : ∃ source ts,
    source = "#include <é>\n/* x **/ s=\n\t\"\\\"//\"; // end" ∧ tokenize source = .ok ts ∧
      ts.map (fun t => t.loc.offset) = [22, 23, 26, 32, 40] ∧
      (ts.Pairwise fun t u => t.loc.offset < u.loc.offset) ∧
        (∃ us l, ts = us ++ [⟨.endOfFile, "", l⟩] ∧ l.offset = source.length ∧
          ∀ t ∈ us, t.kind ≠ .endOfFile) ∧
        (∀ t ∈ ts, t.loc.In source) ∧
        (∀ t ∈ ts, t.kind ≠ .endOfFile → ∃ (w : Lexeme) (cs : List Char), t = w.tokenAt t.loc ∧
          w.Spelled cs ∧ cs <+: source.toList.drop t.loc.offset) ∧
        Covers .start source.toList ts := by
  have places : (tokenize "#include <é>\n/* x **/ s=\n\t\"\\\"//\"; // end").map
      (List.map fun t => t.loc.offset) = .ok [22, 23, 26, 32, 40] := rfl
  cases h : tokenize "#include <é>\n/* x **/ s=\n\t\"\\\"//\"; // end" with
  | error e =>
    rw [h] at places
    cases places
  | ok ts =>
    rw [h] at places
    exact ⟨_, ts, rfl, h, Except.ok.inj places, tokens_cover_source h⟩

end MiniC
