/-
  Readers that get on.

  Reading moves a cursor over tokens and never over one that ends the file.  What a reader takes is
  what lets a list of items, or a call in a call, come to an end.

  * `Cursor.Passes`: the tokens between two cursors, none of which ends the file.
  * `Parse.Alike n x y c`: from `c` on the readers `x` and `y` do the same, and that takes at least
    `n` tokens or stops at a token in reach.  Two readers are compared because they will differ in
    the parsers that they call for their parts.
  * There is one lemma for each way of reading, as for `Parse.Takes`.
-/
import MiniC.Proofs.Reading

namespace MiniC

/-! ## Cursors -/

namespace Cursor

/-- The second cursor stands behind the tokens `ts` that the first stands in front of, and none of
them ends the file. -/
def Passes (c : Cursor) (ts : List Token) (d : Cursor) : Prop :=
  c.here :: c.later = ts ++ d.here :: d.later ∧ ∀ t ∈ ts, t.kind ≠ .endOfFile

/-- Some token from the cursor on ends the file. -/
def Ended (c : Cursor) : Prop := ∃ t ∈ c.here :: c.later, t.kind = .endOfFile

/-- The second cursor stands at least `k` tokens behind the first, in a file that ends. -/
def Behind (k : Nat) (c d : Cursor) : Prop := c.Ended ∧ ∃ ts, c.Passes ts d ∧ k ≤ ts.length

/-- What is read from the cursor takes at least `n` tokens, or a token in reach is at fault. -/
def Stops {α : Type} (n : Nat) (c : Cursor) : Except SyntaxError (α × Cursor) → Prop
  | .ok (_, d) => ∃ ts, c.Passes ts d ∧ n ≤ ts.length
  | .error e => e.cause ≠ .tooDeep ∧ ∃ ts d, c.Passes ts d ∧ e.loc = d.loc

variable {c d d' : Cursor} {ts us : List Token} {k l : Nat}

theorem passes_refl (c : Cursor) : c.Passes [] c := ⟨rfl, nofun⟩

theorem Passes.trans (h : c.Passes ts d) (h' : d.Passes us d') : c.Passes (ts ++ us) d' :=
  ⟨by rw [h.1, h'.1, List.append_assoc], List.forall_mem_append.2 ⟨h.2, h'.2⟩⟩

theorem Passes.length (h : c.Passes ts d) : c.later.length = ts.length + d.later.length := by
  have same := congrArg List.length h.1
  simp only [List.length_append, List.length_cons] at same
  omega

theorem Passes.ended (h : c.Passes ts d) (hc : c.Ended) : d.Ended := by
  obtain ⟨t, ht, end_⟩ := hc
  rw [h.1] at ht
  exact (List.mem_append.1 ht).elim (fun ht => absurd end_ (h.2 t ht)) fun ht => ⟨t, ht, end_⟩

theorem not_over {w : TokenKind} (hk : c.kind = w) (hw : w ≠ .endOfFile) : c.kind ≠ .endOfFile :=
  hk ▸ hw

theorem passes_advance (hc : c.Ended) (hk : c.kind ≠ .endOfFile) :
    c.Passes [c.here] c.advance := by
  obtain ⟨t, later⟩ := c
  cases later with
  | nil =>
    obtain ⟨u, hu, end_⟩ := hc
    obtain rfl := List.mem_singleton.1 hu
    exact absurd end_ hk
  | cons u us =>
    rw [advance_cons hk]
    exact ⟨rfl, List.forall_mem_singleton.2 hk⟩

theorem passes_skipStars (t : Token) (us : List Token) :
    ∃ ts, Passes ⟨t, us⟩ ts (skipStars t us).2 := by
  induction us generalizing t with
  | nil => exact ⟨[], passes_refl _⟩
  | cons u us ih =>
    rw [skipStars]
    split
    case isTrue star =>
      obtain ⟨ts, hts⟩ := ih u
      have ne : t.kind ≠ .endOfFile := by
        rw [star]
        simp
      have first : Passes ⟨t, u :: us⟩ [t] ⟨u, us⟩ := ⟨rfl, List.forall_mem_singleton.2 ne⟩
      exact ⟨_, first.trans hts⟩
    case isFalse => exact ⟨[], passes_refl _⟩

theorem ended_ofTokens (ts : List Token) : (ofTokens ts).Ended := by
  have closed : ∀ us : List Token, us.getLast?.map Token.kind = some .endOfFile →
      ∃ t us', us = t :: us' ∧ Ended ⟨t, us'⟩ := by
    intro us hl
    obtain ⟨u, hu, hk⟩ := Option.map_eq_some_iff.1 hl
    cases us with
    | nil => cases hu
    | cons t us' => exact ⟨t, us', rfl, u, List.mem_of_getLast? hu, hk⟩
  by_cases hl : ts.getLast?.map Token.kind = some .endOfFile
  · obtain ⟨t, us', rfl, he⟩ := closed ts hl
    rwa [ofTokens, if_pos hl]
  · have last : (ts ++ [closing ts.getLast?]).getLast?.map Token.kind = some .endOfFile := by
      rw [List.getLast?_concat]
      rfl
    obtain ⟨t, us', hts, he⟩ := closed _ last
    rwa [ofTokens, if_neg hl, hts]

namespace Behind

theorem here (hc : c.Ended) : Behind 0 c c := ⟨hc, [], passes_refl c, Nat.zero_le _⟩

theorem ended (h : Behind k c d) : d.Ended := h.2.elim fun _ hts => hts.1.ended h.1

theorem passes (h : Behind k c d) (h' : d.Passes us d') : Behind k c d' := by
  obtain ⟨hc, ts, hts, hk⟩ := h
  exact ⟨hc, ts ++ us, hts.trans h', by rw [List.length_append]; omega⟩

theorem trans (h : Behind k c d) (h' : Behind l d d') : Behind k c d' :=
  h'.2.elim fun _ hts => h.passes hts.1

theorem shorter (h : Behind 1 c d) : d.later.length < c.later.length := by
  obtain ⟨_, ts, hts, taken⟩ := h
  have same := hts.length
  omega

end Behind

end Cursor

/-! ## Ways of reading -/

namespace Parse

/-- From `c` on the readers do the same, which takes at least `n` tokens or stops at one. -/
def Alike {α : Type} (n : Nat) (x y : Parse α) (c : Cursor) : Prop := x c = y c ∧ c.Stops n (x c)

/-- The readers are alike from all cursors that are at least `k` tokens behind `c`. -/
def AlikeBehind {α : Type} (k : Nat) (c : Cursor) (n : Nat) (x y : Parse α) : Prop :=
  ∀ d, Cursor.Behind k c d → Alike n x y d

variable {α β : Type} {c d : Cursor} {ts : List Token} {k l m n : Nat} {x y : Parse α}
  {f g : α → Parse β}

theorem alike_pure {a : α} : Alike 0 (pure a) (pure a) c :=
  ⟨rfl, [], Cursor.passes_refl c, Nat.zero_le _⟩

/-- A fault of the next token. -/
theorem alike_fault {e : SyntaxCause} (h : e ≠ .tooDeep)
    (hx : x c = .error ⟨e, c.loc⟩) (hy : y c = .error ⟨e, c.loc⟩) : Alike n x y c := by
  refine ⟨hx.trans hy.symm, ?_⟩
  rw [hx]
  exact ⟨h, [], c, Cursor.passes_refl c, rfl⟩

theorem alike_refuse {w : Wanted} : Alike n (refuse w : Parse α) (refuse w) c :=
  alike_fault (by simp) rfl rfl

/-- A look at the tokens. -/
theorem alike_look {a : α} (hx : x c = .ok (a, c)) : Alike 0 x x c := by
  refine ⟨rfl, ?_⟩
  rw [hx]
  exact ⟨[], Cursor.passes_refl c, Nat.zero_le _⟩

/-- A step to the next token. -/
theorem alike_step {a : α} (hc : c.Ended) (hk : c.kind ≠ .endOfFile)
    (hx : x c = .ok (a, c.advance)) : Alike 1 x x c := by
  refine ⟨rfl, ?_⟩
  rw [hx]
  exact ⟨[c.here], Cursor.passes_advance hc hk, Nat.le_refl _⟩

/-- What follows a look at the tokens may depend on what is seen. -/
theorem alike_seen {a : α} (hx : x c = .ok (a, c)) (h : Alike n (f a) (g a) c) :
    Alike n (x >>= f) (x >>= g) c := by
  rwa [Alike, bind_of_ok hx f, bind_of_ok hx g]

theorem alike_advance (hc : c.Ended) (hk : c.kind ≠ .endOfFile) : Alike 1 advance advance c :=
  alike_step hc hk rfl

theorem alike_expect {w : TokenKind} (hc : c.Ended) (hk : w ≠ .endOfFile) :
    Alike 1 (expect w) (expect w) c := by
  by_cases next : c.kind = w
  · exact alike_step hc (by rwa [next]) (expect_of_kind next)
  · exact alike_fault (e := .unexpected (.kind w) c.here) (by simp)
      (if_neg next) (if_neg next)

theorem alike_accept {w : TokenKind} (hc : c.Ended) (hk : w ≠ .endOfFile) :
    Alike 0 (accept w) (accept w) c := by
  by_cases next : c.kind = w
  · refine ⟨rfl, ?_⟩
    rw [accept_of_kind next]
    exact ⟨[c.here], Cursor.passes_advance hc (by rwa [next]), Nat.zero_le _⟩
  · exact alike_look (accept_of_kind_ne next)

theorem alike_stars : Alike 0 stars stars c := by
  obtain ⟨ts, hts⟩ := Cursor.passes_skipStars c.here c.later
  exact ⟨rfl, ts, hts, Nat.zero_le _⟩

/-- One reader after the other. -/
theorem Alike.bind (hx : Alike m x y c)
    (hf : ∀ a d ts, c.Passes ts d → m ≤ ts.length → Alike n (f a) (g a) d) (hl : l ≤ m + n) :
    Alike l (x >>= f) (y >>= g) c := by
  obtain ⟨same, stops⟩ := hx
  cases hr : x c with
  | error e =>
    rw [hr] at stops
    refine ⟨(bind_of_error hr f).trans (bind_of_error (same ▸ hr) g).symm, ?_⟩
    rw [bind_of_error hr f]
    exact stops
  | ok r =>
    obtain ⟨a, d⟩ := r
    rw [hr] at stops
    obtain ⟨ts, hts, hm⟩ := stops
    obtain ⟨same', stops'⟩ := hf a d ts hts hm
    rw [Alike, bind_of_ok hr f, bind_of_ok (same ▸ hr) g]
    refine ⟨same', ?_⟩
    -- What the second reader comes to is counted from where the first one began.
    cases hr' : f a d with
    | error e =>
      rw [hr'] at stops'
      obtain ⟨deep, us, d', hus, loc⟩ := stops'
      exact ⟨deep, ts ++ us, d', hts.trans hus, loc⟩
    | ok r' =>
      rw [hr'] at stops'
      obtain ⟨us, hus, hn⟩ := stops'
      exact ⟨ts ++ us, hts.trans hus, by rw [List.length_append]; omega⟩

/-- What follows may take no token. -/
theorem Alike.next (hx : Alike n x y c)
    (hf : ∀ a d ts, c.Passes ts d → n ≤ ts.length → Alike 0 (f a) (g a) d) :
    Alike n (x >>= f) (y >>= g) c := hx.bind hf (Nat.le_refl _)

theorem Alike.discard (h : Alike n x y c) : Alike n (discard x) (discard y) c := by
  have hd : ∀ z : Parse α, Functor.discard z = z >>= fun _ => pure PUnit.unit := fun z =>
    map_eq_pure_bind (fun _ => PUnit.unit) z
  rw [hd, hd]
  exact h.next fun _ _ _ _ _ => alike_pure

theorem Alike.mono (h : Alike n x y c) (hl : l ≤ n) : Alike l x y c := by
  obtain ⟨same, stops⟩ := h
  refine ⟨same, ?_⟩
  cases hr : x c with
  | error e =>
    rw [hr] at stops
    exact stops
  | ok r =>
    rw [hr] at stops
    exact stops.imp fun ts hts => ⟨hts.1, Nat.le_trans hl hts.2⟩

/-- A reader that takes a token, and readers that are alike behind it. -/
theorem Alike.first (hx : Alike 1 x y c) (hc : c.Ended)
    (hf : ∀ a, AlikeBehind 1 c 0 (f a) (g a)) : Alike 1 (x >>= f) (y >>= g) c :=
  hx.next fun a d ts hts hm => hf a d ⟨hc, ts, hts, hm⟩

/-! A reader that begins with a given token. -/

theorem alike_opens {w : TokenKind} {f g : Unit → Parse β} (hc : c.Ended)
    (hk : w ≠ .endOfFile) (hf : AlikeBehind 1 c 0 (f ()) (g ())) :
    Alike 1 (discard (expect w) >>= f) (discard (expect w) >>= g) c :=
  (alike_expect hc hk).discard.first hc fun _ => hf

theorem alike_mark {p : Punct} {f g : Unit → Parse β} (hc : c.Ended)
    (hf : AlikeBehind 1 c 0 (f ()) (g ())) :
    Alike 1 (discard (expect (.punct p)) >>= f) (discard (expect (.punct p)) >>= g) c :=
  alike_opens hc (by nofun) hf

theorem alike_keyword {w : Keyword} {f g : Unit → Parse β} (hc : c.Ended)
    (hf : AlikeBehind 1 c 0 (f ()) (g ())) :
    Alike 1 (discard (expect (.keyword w)) >>= f) (discard (expect (.keyword w)) >>= g) c :=
  alike_opens hc (by nofun) hf

/-- A reader that takes the next token, which it has seen. -/
theorem alike_taken {f g : Unit → Parse β} (hc : c.Ended) (hk : c.kind ≠ .endOfFile)
    (hf : AlikeBehind 1 c 0 (f ()) (g ())) :
    Alike 1 (discard advance >>= f) (discard advance >>= g) c :=
  (alike_advance hc hk).discard.first hc fun _ => hf

/-! Behind a cursor, what follows a reader may start anywhere. -/

namespace AlikeBehind

theorem bind (hx : AlikeBehind k c n x y) (hf : ∀ a, AlikeBehind k c 0 (f a) (g a)) :
    AlikeBehind k c n (x >>= f) (y >>= g) := fun d hd =>
  (hx d hd).next fun a d' _ hts _ => hf a d' (hd.passes hts)

theorem ite {p : Prop} [Decidable p] {x' y' : Parse α} (h : AlikeBehind k c n x y)
    (h' : AlikeBehind k c n x' y') :
    AlikeBehind k c n (if p then x else x') (if p then y else y') := by
  by_cases hp : p
  · rwa [if_pos hp, if_pos hp]
  · rwa [if_neg hp, if_neg hp]

end AlikeBehind

theorem behind_pure (a : α) : AlikeBehind k c 0 (pure a) (pure a) := fun _ _ => alike_pure

theorem behind_peek : AlikeBehind k c 0 peek peek := fun _ _ => alike_look rfl

theorem behind_accept {w : TokenKind} (hk : w ≠ .endOfFile) :
    AlikeBehind k c 0 (accept w) (accept w) := fun _ hd => alike_accept hd.ended hk

theorem behind_skip {w : TokenKind} (hk : w ≠ .endOfFile) :
    AlikeBehind k c 0 (Functor.discard (expect w)) (Functor.discard (expect w)) :=
  fun _ hd => ((alike_expect hd.ended hk).mono (Nat.zero_le _)).discard

/-- A mark that may be next. -/
theorem AlikeBehind.accept {p : Punct} {f g : Bool → Parse β}
    (hf : ∀ b, AlikeBehind k c 0 (f b) (g b)) :
    AlikeBehind k c 0 (Parse.accept (.punct p) >>= f) (Parse.accept (.punct p) >>= g) :=
  (behind_accept (w := .punct p) nofun).bind hf

/-- A mark that has to be next. -/
theorem AlikeBehind.mark {p : Punct} {f g : Unit → Parse β}
    (hf : AlikeBehind k c 0 (f ()) (g ())) :
    AlikeBehind k c 0 (Functor.discard (expect (.punct p)) >>= f)
      (Functor.discard (expect (.punct p)) >>= g) :=
  (behind_skip (w := .punct p) nofun).bind fun _ => hf

theorem behind_stars : AlikeBehind k c 0 stars stars := fun _ _ => alike_stars

theorem alike_name (hc : c.Ended) : Alike 1 name name c :=
  (alike_expect (w := .identifier) hc nofun).first hc fun _ => behind_pure _

theorem behind_name : AlikeBehind k c 0 name name :=
  fun _ hd => (alike_name hd.ended).mono (Nat.zero_le _)

/-- Items until a token that ends them: each takes a token, so they run out of tokens before they
run out of fuel. -/
theorem AlikeBehind.itemsUntil {ends : TokenKind → Bool} (h : AlikeBehind k c 1 x y) (fuel : Nat)
    (d : Cursor) (hd : Cursor.Behind k c d) (room : d.later.length < fuel) :
    Alike 0 (Parse.itemsUntil ends x fuel) (Parse.itemsUntil ends y fuel) d := by
  induction fuel generalizing d with
  | zero => omega
  | succ fuel ih =>
    have rest : AlikeBehind 1 d 0 (Parse.itemsUntil ends x fuel) (Parse.itemsUntil ends y fuel) :=
      fun e he => ih e (hd.trans he) (Nat.lt_of_lt_of_le he.shorter (Nat.le_of_lt_succ room))
    refine alike_seen rfl ?_
    split
    · exact alike_pure
    · exact ((h d hd).first hd.ended fun _ => rest.bind fun _ => behind_pure _).mono (Nat.zero_le _)

theorem AlikeBehind.upTo {ends : TokenKind → Bool} (h : AlikeBehind k c 1 x y) :
    AlikeBehind k c 0 (Parse.upTo ends x) (Parse.upTo ends y) := fun d hd =>
  h.itemsUntil (d.later.length + 1) d hd (Nat.lt_succ_self _)

theorem AlikeBehind.separated (h : AlikeBehind k c 1 x y) (fuel : Nat) (d : Cursor)
    (hd : Cursor.Behind k c d) (room : d.later.length < fuel) :
    Alike 0 (Parse.separated x fuel) (Parse.separated y fuel) d := by
  induction fuel generalizing d with
  | zero => omega
  | succ fuel ih =>
    have rest : AlikeBehind 1 d 0 (Parse.separated x fuel) (Parse.separated y fuel) :=
      fun e he => ih e (hd.trans he) (Nat.lt_of_lt_of_le he.shorter (Nat.le_of_lt_succ room))
    refine ((h d hd).first hd.ended fun a => ?_).mono (Nat.zero_le _)
    exact .accept fun more => .ite (rest.bind fun _ => behind_pure _) (behind_pure _)

theorem AlikeBehind.commaList (h : AlikeBehind k c 1 x y) :
    AlikeBehind k c 0 (Parse.commaList x) (Parse.commaList y) := fun d hd =>
  h.separated (d.later.length + 1) d hd (Nat.lt_succ_self _)

end Parse

end MiniC
