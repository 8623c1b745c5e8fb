/-
  UTF-8 is read as it is written, and all else with U+FFFD in its place.

  `Utf8.Lossy` says what the lossy reading of bytes is, without an automaton: a whole character is
  read as itself, and what is broken, as far as it could still be the beginning of one character, as
  one U+FFFD.

  * `Utf8.Pending`: the bytes read so far begin the characters that a state of the automaton awaits;
    `Pending.last` and `Pending.next` say what the next byte makes of them.
  * `Utf8.decodeFrom_encodeChar`: a character is read as it is written, so none begins another.
  * `Utf8.Lossy.unique` and `Utf8.lossy_decodeFrom`: there is one lossy reading, and the automaton
    finds it.
  * `Utf8.decode_encode`: a text is read as it is written.
-/
import Mathlib.Data.List.Basic
import MiniC.Text.Utf8

namespace MiniC.Utf8

open String (utf8EncodeChar)

/-! ## The bytes of a character -/

/-- The first byte of a character of number `v`. -/
def lead (v : Nat) : Nat :=
  if v < 0x80 then v
  else if v < 0x800 then v / 64 + 0xC0
  else if v < 0x10000 then v / 4096 + 0xE0
  else v / 262144 + 0xF0

/-- How many bytes follow the first one of a character of number `v`. -/
def following (v : Nat) : Nat :=
  if v < 0x80 then 0 else if v < 0x800 then 1 else if v < 0x10000 then 2 else 3

/-- A number without its last `n` groups of six bits. -/
def upper : Nat → Nat → Nat
  | 0, v => v
  | n + 1, v => upper n v / 64

/-- The last `n` bytes of a character of number `v`, with six bits each. -/
def tail : Nat → Nat → List UInt8
  | 0, _ => []
  | n + 1, v => UInt8.ofNat (upper n v % 64 + 0x80) :: tail n v

theorem exists_upper (n k : Nat) : ∃ v, upper n v = k := by
  induction n generalizing k with
  | zero => exact ⟨k, rfl⟩
  | succ n ih =>
    obtain ⟨v, hv⟩ := ih (k * 64)
    exact ⟨v, by rw [upper, hv, Nat.mul_div_cancel _ (by decide)]⟩

/-- A character has one, two, three or four bytes, by its number. -/
theorem size_cases (v : Nat) :
    (v < 0x80 ∧ lead v = v ∧ following v = 0) ∨
    (0x80 ≤ v ∧ v < 0x800 ∧ lead v = v / 64 + 0xC0 ∧ following v = 1) ∨
    (0x800 ≤ v ∧ v < 0x10000 ∧ lead v = v / 4096 + 0xE0 ∧ following v = 2) ∨
    (0x10000 ≤ v ∧ lead v = v / 262144 + 0xF0 ∧ following v = 3) := by
  unfold lead following
  split_ifs <;> omega

theorem lead_lt {v : Nat} (h : v.isValidChar) : lead v < 256 := by
  unfold Nat.isValidChar at h
  have := size_cases v
  omega

/-- The bytes of a character are its first byte and those that follow. -/
theorem encodeChar_eq (c : Char) :
    utf8EncodeChar c = UInt8.ofNat (lead c.toNat) :: tail (following c.toNat) c.toNat := by
  have valid : c.toNat.isValidChar := c.valid
  unfold Nat.isValidChar at valid
  rw [utf8EncodeChar, show c.val.toNat = c.toNat from rfl]
  generalize c.toNat = v at valid
  have := size_cases v
  split_ifs with one two three
  · rw [show lead v = v by omega, show following v = 0 by omega]
    rfl
  · rw [show lead v = v / 64 + 0xC0 by omega, show following v = 1 by omega,
      Nat.mod_eq_of_lt (by omega)]
    rfl
  · rw [show lead v = v / 4096 + 0xE0 by omega, show following v = 2 by omega,
      Nat.mod_eq_of_lt (by omega)]
    rfl
  · rw [show lead v = v / 262144 + 0xF0 by omega, show following v = 3 by omega,
      Nat.mod_eq_of_lt (by omega)]
    simp only [tail, upper, Nat.div_div_eq_div_mul, Nat.reduceMul]

theorem tail_eq_cons {n v : Nat} {b : UInt8} {rest : List UInt8} :
    tail (n + 1) v = b :: rest ↔ upper n v % 64 + 0x80 = b.toNat ∧ tail n v = rest := by
  rw [tail, List.cons.injEq, ← UInt8.toNat_inj, UInt8.toNat_ofNat_of_lt' (by
    have := Nat.mod_lt (upper n v) (y := 64) (by decide)
    rw [UInt8.size]
    omega)]

theorem le_of_mem_tail {n v : Nat} {b : UInt8} (h : b ∈ tail n v) : 0x80 ≤ b.toNat := by
  induction n with
  | zero => cases h
  | succ n ih =>
    rcases List.mem_cons.1 h with hb | h
    · obtain ⟨here, -⟩ := tail_eq_cons.1 (congrArg (· :: tail n v) hb.symm)
      omega
    · exact ih h

theorem encodeChar_eq_cons {c : Char} {b : UInt8} {rest : List UInt8} :
    utf8EncodeChar c = b :: rest ↔
      lead c.toNat = b.toNat ∧ tail (following c.toNat) c.toNat = rest := by
  rw [encodeChar_eq, List.cons.injEq, ← UInt8.toNat_inj,
    UInt8.toNat_ofNat_of_lt' (lead_lt (v := c.toNat) c.valid)]

theorem toNat_ofNat {v : Nat} (h : v.isValidChar) : (Char.ofNat v).toNat = v := by
  rw [Char.ofNat, dif_pos h]
  rfl

/-- No byte but that of U+0000 is zero. -/
theorem zero_mem_encodeChar {c : Char} (h : 0 ∈ utf8EncodeChar c) : c = '\x00' := by
  obtain ⟨b, rest, hc⟩ := List.exists_cons_of_ne_nil (String.utf8EncodeChar_ne_nil (c := c))
  obtain ⟨leads, rfl⟩ := encodeChar_eq_cons.1 hc
  rw [hc, List.mem_cons] at h
  obtain rfl : 0 = b := h.resolve_right fun later => absurd (le_of_mem_tail later) (by decide)
  have := size_cases c.toNat
  rw [UInt8.toNat_zero] at leads
  exact Char.toNat_inj.1 (show c.toNat = 0 by omega)

theorem zero_not_mem_encode {text : String} (h : '\x00' ∉ text.toList) : 0 ∉ encode text := by
  rw [encode, List.mem_flatMap]
  rintro ⟨c, hc, zero⟩
  exact h (zero_mem_encodeChar zero ▸ hc)

/-! ## Characters begun -/

namespace Begun
variable {s : Begun}

/-- The number `v` is that of a character that goes on as `s` awaits. -/
@[mk_iff fits_iff]
structure Fits (s : Begun) (v : Nat) : Prop where
  bits : upper (s.more + 1) v = s.code
  low : s.low ≤ upper s.more v % 64 + 0x80
  high : upper s.more v % 64 + 0x80 ≤ s.high

/-- The bytes that may come next are among those that follow a first byte, there is such a byte, and
each leads to characters only. -/
structure Sensible (s : Begun) : Prop where
  low : 0x80 ≤ s.low
  range : s.low ≤ s.high
  high : s.high ≤ 0xBF
  valid : ∀ v, s.Fits v → v.isValidChar

/-- After one byte of the range and with more to follow, all bytes that follow a first byte are
awaited. -/
def after (s : Begun) (b more : Nat) : Begun := ⟨0x80, 0xBF, more, s.code * 64 + (b - 0x80)⟩

theorem Sensible.fits_zero (h : s.Sensible) {b v : Nat} (hs : s.more = 0) (low : s.low ≤ b)
    (high : b ≤ s.high) : s.Fits v ∧ v % 64 + 0x80 = b ↔ v = s.code * 64 + (b - 0x80) := by
  have := h.low
  have := h.high
  rw [fits_iff, hs, show upper (0 + 1) v = v / 64 from rfl, upper]
  omega

theorem Sensible.fits_succ (h : s.Sensible) {b v more : Nat} (hs : s.more = more + 1)
    (low : s.low ≤ b) (high : b ≤ s.high) :
    s.Fits v ∧ upper s.more v % 64 + 0x80 = b ↔ (s.after b more).Fits v := by
  have := h.low
  have := h.high
  have shorter : upper (s.more + 1) v = upper s.more v / 64 := rfl
  rw [fits_iff, fits_iff, shorter, hs]
  simp only [after]
  omega

theorem Sensible.after (h : s.Sensible) {b more : Nat} (hs : s.more = more + 1) (low : s.low ≤ b)
    (high : b ≤ s.high) : (s.after b more).Sensible where
  low := Nat.le_refl _
  range := show 0x80 ≤ 0xBF by decide
  high := Nat.le_refl _
  valid v hv := h.valid v ((h.fits_succ hs low high).2 hv).1

/-- Some character goes on as `s` awaits. -/
theorem Sensible.exists_fits (h : s.Sensible) : ∃ v, s.Fits v := by
  have := h.low
  have := h.high
  have := h.range
  obtain ⟨v, hv⟩ := exists_upper s.more (s.code * 64 + (s.low - 0x80))
  refine ⟨v, ?_, ?_, ?_⟩
  · rw [upper, hv]
    omega
  all_goals rw [hv]; omega

end Begun

/-! ## Beginnings of characters -/

/-- The bytes begin a character. -/
def Opens (p : List UInt8) : Prop := ∃ c rest, utf8EncodeChar c = p ++ rest

/-- The bytes `p` begin the characters that go on as `s` awaits, and no others. -/
structure Pending (p : List UInt8) (s : Begun) : Prop where
  sensible : s.Sensible
  rest : ∀ c bs, utf8EncodeChar c = p ++ bs ↔ s.Fits c.toNat ∧ tail (s.more + 1) c.toNat = bs

namespace Pending
variable {p : List UInt8} {s : Begun} {b : UInt8}

theorem opens (h : Pending p s) : Opens p := by
  obtain ⟨v, hv⟩ := h.sensible.exists_fits
  have valid := h.sensible.valid v hv
  exact ⟨Char.ofNat v, _, (h.rest ..).2 ⟨(toNat_ofNat valid).symm ▸ hv, rfl⟩⟩

/-- A character begun is not yet whole. -/
theorem ne_whole (h : Pending p s) (c : Char) : utf8EncodeChar c ≠ p := by
  intro whole
  obtain ⟨-, none⟩ := (h.rest c []).1 (by rw [whole, List.append_nil])
  cases none

theorem next_iff (h : Pending p s) (c : Char) (bs : List UInt8) :
    utf8EncodeChar c = p ++ [b] ++ bs ↔ (s.Fits c.toNat ∧
      upper s.more c.toNat % 64 + 0x80 = b.toNat) ∧ tail s.more c.toNat = bs := by
  rw [List.append_assoc, List.singleton_append, h.rest, tail_eq_cons, and_assoc]

/-- A byte out of the range goes on with no character begun. -/
theorem out_of_range (h : Pending p s) (hb : ¬ (s.low ≤ b.toNat ∧ b.toNat ≤ s.high)) :
    ¬ Opens (p ++ [b]) := by
  rintro ⟨c, bs, hc⟩
  obtain ⟨⟨fits, next⟩, -⟩ := (h.next_iff c bs).1 hc
  exact hb ⟨next ▸ fits.low, next ▸ fits.high⟩

/-- The last byte of a character completes it. -/
theorem last (h : Pending p s) (hs : s.more = 0) (low : s.low ≤ b.toNat) (high : b.toNat ≤ s.high)
    (c : Char) (bs : List UInt8) : utf8EncodeChar c = p ++ [b] ++ bs ↔
      c = Char.ofNat (s.code * 64 + (b.toNat - 0x80)) ∧ bs = [] := by
  have one := h.sensible.fits_zero hs low high (v := c.toNat)
  rw [h.next_iff, hs, upper, one, tail, eq_comm (a := [])]
  have valid := h.sensible.valid _ (((h.sensible.fits_zero hs low high).2 rfl).1)
  rw [← Char.toNat_inj, toNat_ofNat valid]

/-- A byte of the range goes on with the characters begun. -/
theorem next {more : Nat} (h : Pending p s) (hs : s.more = more + 1) (low : s.low ≤ b.toNat)
    (high : b.toNat ≤ s.high) : Pending (p ++ [b]) (s.after b.toNat more) where
  sensible := h.sensible.after hs low high
  rest c bs := by
    rw [h.next_iff, h.sensible.fits_succ hs low high, hs]
    rfl

end Pending

/-- A first byte begins the characters that go on as `s` awaits if their numbers say so. -/
theorem pending_first {b : UInt8} {s : Begun} (low : 0x80 ≤ s.low) (range : s.low ≤ s.high)
    (high : s.high ≤ 0xBF) (fits : ∀ v, s.Fits v ↔ v.isValidChar ∧ lead v = b.toNat)
    (more : ∀ v, s.Fits v → following v = s.more + 1) : Pending [b] s where
  sensible := ⟨low, range, high, fun v hv => ((fits v).1 hv).1⟩
  rest c bs := by
    have leads : lead c.toNat = b.toNat ↔ s.Fits c.toNat :=
      (fits _).trans (and_iff_right c.valid) |>.symm
    rw [List.singleton_append, encodeChar_eq_cons, leads]
    refine and_congr_right fun hf => ?_
    rw [more _ hf]

/-- What a first byte is: a character, the beginning of a longer one, or neither. -/
theorem first_cases (b : UInt8) :
    (∃ c, first b.toNat = ([c], none) ∧
      ∀ c' rest, utf8EncodeChar c' = b :: rest ↔ c' = c ∧ rest = []) ∨
    (first b.toNat = ([replacement], none) ∧ ¬ Opens [b]) ∨
    ∃ s, first b.toNat = ([], some s) ∧ Pending [b] s := by
  have hb := b.toNat_lt
  have none (h : ∀ v, v.isValidChar → lead v ≠ b.toNat) : ¬ Opens [b] := by
    rintro ⟨c, bs, hc⟩
    exact h c.toNat c.valid (encodeChar_eq_cons.1 hc).1
  fun_cases first b.toNat
  case case1 h =>
    have valid : b.toNat.isValidChar := .inl (by omega)
    refine .inl ⟨_, rfl, fun c rest => ?_⟩
    rw [encodeChar_eq_cons, ← Char.toNat_inj, toNat_ofNat valid]
    have := size_cases c.toNat
    constructor
    · rintro ⟨leads, rfl⟩
      rw [show following c.toNat = 0 by omega]
      exact ⟨by omega, rfl⟩
    · rintro ⟨same, rfl⟩
      rw [show following c.toNat = 0 by omega]
      exact ⟨by omega, rfl⟩
  case case2 =>
    refine .inr (.inl ⟨rfl, none fun v _ => ?_⟩)
    have := size_cases v
    omega
  case case10 =>
    refine .inr (.inl ⟨rfl, none fun v valid => ?_⟩)
    have := size_cases v
    unfold Nat.isValidChar at valid
    omega
  -- In each other case the numbers that fit the state are those of the characters led by `b`.
  all_goals
    refine .inr (.inr ⟨_, rfl, pending_first ?_ ?_ ?_ (fun v => ?_) (fun v hv => ?_)⟩)
    case refine_4 =>
      have := size_cases v
      rw [Begun.fits_iff]
      unfold Nat.isValidChar
      simp only [upper]
      omega
    case refine_5 =>
      have := size_cases v
      rw [Begun.fits_iff] at hv
      simp only [upper] at hv ⊢
      omega
    all_goals simp only; omega

/-! ## Reading what has been written -/

section
variable {p : List UInt8} {s : Begun} {b : UInt8}

theorem decodeFrom_first {out : List Char} {state : Option Begun} (h : first b.toNat = (out, state))
    (bs : List UInt8) : decodeFrom none (b :: bs) = out ++ decodeFrom state bs := by
  rw [decodeFrom, next, h]

/-- Where no character begun goes on, it is given up, and the byte is read as a first one. -/
theorem decodeFrom_out_of_range (hb : ¬ (s.low ≤ b.toNat ∧ b.toNat ≤ s.high)) (bs : List UInt8) :
    decodeFrom (some s) (b :: bs) = replacement :: decodeFrom none (b :: bs) := by
  rw [decodeFrom, decodeFrom, next, next]
  simp only [if_neg hb]
  rfl

theorem decodeFrom_last (hb : s.low ≤ b.toNat ∧ b.toNat ≤ s.high) (hs : s.more = 0)
    (bs : List UInt8) : decodeFrom (some s) (b :: bs) =
      Char.ofNat (s.code * 64 + (b.toNat - 0x80)) :: decodeFrom none bs := by
  rw [decodeFrom, next]
  simp only [if_pos hb, hs]
  rfl

theorem decodeFrom_next {more : Nat} (hb : s.low ≤ b.toNat ∧ b.toNat ≤ s.high)
    (hs : s.more = more + 1) (bs : List UInt8) :
    decodeFrom (some s) (b :: bs) = decodeFrom (some (s.after b.toNat more)) bs := by
  rw [decodeFrom, next]
  simp only [if_pos hb, hs]
  rfl

/-- A character begun is read to its end. -/
theorem Pending.decodeFrom_append (h : Pending p s) {c : Char} {rest : List UInt8}
    (hc : utf8EncodeChar c = p ++ rest) (bs : List UInt8) :
    decodeFrom (some s) (rest ++ bs) = c :: decodeFrom none bs := by
  induction rest generalizing p s with
  | nil => exact absurd (hc.trans (List.append_nil p)) (h.ne_whole c)
  | cons b rest ih =>
    have hc' : utf8EncodeChar c = p ++ [b] ++ rest := by
      rw [hc, List.append_assoc, List.singleton_append]
    have hb : s.low ≤ b.toNat ∧ b.toNat ≤ s.high := by
      by_contra out
      exact h.out_of_range out ⟨c, rest, hc'⟩
    rw [List.cons_append]
    cases hs : s.more with
    | zero =>
      obtain ⟨whole, ends⟩ := (h.last hs hb.1 hb.2 c rest).1 hc'
      rw [decodeFrom_last hb hs, whole, ends, List.nil_append]
    | succ more =>
      rw [decodeFrom_next hb hs]
      exact ih (h.next hs hb.1 hb.2) hc'

/-- **A character is read as it is written.** -/
theorem decodeFrom_encodeChar (c : Char) (bs : List UInt8) :
    decodeFrom none (utf8EncodeChar c ++ bs) = c :: decodeFrom none bs := by
  obtain ⟨b, rest, hc⟩ := List.exists_cons_of_ne_nil (String.utf8EncodeChar_ne_nil (c := c))
  rw [hc, List.cons_append]
  obtain ⟨c', hf, whole⟩ | ⟨-, none⟩ | ⟨s, hf, hs⟩ := first_cases b
  · obtain ⟨rfl, rfl⟩ := (whole c rest).1 hc
    rw [decodeFrom_first hf]
    rfl
  · exact absurd ⟨c, rest, hc⟩ none
  · rw [decodeFrom_first hf, List.nil_append]
    exact hs.decodeFrom_append hc bs

/-- No character's bytes begin with those of another one. -/
theorem encodeChar_prefix {c c' : Char} {bs bs' : List UInt8}
    (h : utf8EncodeChar c ++ bs = utf8EncodeChar c' ++ bs') : c = c' := by
  have same := congrArg (decodeFrom none) h
  rw [decodeFrom_encodeChar, decodeFrom_encodeChar] at same
  exact (List.cons.inj same).1

end

/-! ## Lossy reading -/

/-- The bytes `p` before `bs` are no character but as long as they can be: they begin one that
`bs` does not go on with, or they are a single byte that begins none. -/
structure Broken (p bs : List UInt8) : Prop where
  part : Opens p ∨ ∃ b, p = [b]
  nonempty : p ≠ []
  not_whole : ∀ c, utf8EncodeChar c ≠ p
  longest : ∀ b rest, bs = b :: rest → ¬ Opens (p ++ [b])

/-- The characters that bytes are read as: a whole character as itself, and each broken one as one
replacement character. -/
inductive Lossy : List UInt8 → List Char → Prop where
  | nil : Lossy [] []
  | char {bs cs} (c) : Lossy bs cs → Lossy (utf8EncodeChar c ++ bs) (c :: cs)
  | broken {p bs cs} : Broken p bs → Lossy bs cs → Lossy (p ++ bs) (replacement :: cs)

theorem Opens.of_append {p q : List UInt8} (h : Opens (p ++ q)) : Opens p := by
  obtain ⟨c, rest, hc⟩ := h
  exact ⟨c, q ++ rest, by rw [hc, List.append_assoc]⟩

namespace Broken
variable {p bs p' bs' : List UInt8}

/-- More than one byte of a broken character begins a character. -/
theorem opens {b : UInt8} {q : List UInt8} (h : Broken (p ++ b :: q) bs) (hp : p ≠ []) :
    Opens (p ++ b :: q) := by
  refine h.part.resolve_right ?_
  rintro ⟨b', single⟩
  have short := congrArg List.length single
  have := List.length_pos_of_ne_nil hp
  simp only [List.length_append, List.length_cons, List.length_nil] at short
  omega

/-- Where a broken character is, none is whole. -/
theorem ne_char (h : Broken p bs) (c : Char) (bs' : List UInt8) :
    p ++ bs ≠ utf8EncodeChar c ++ bs' := by
  intro same
  rcases List.append_eq_append_iff.1 same with ⟨q, hq, rest⟩ | ⟨q, rfl, -⟩
  · cases q with
    | nil => exact h.not_whole c (by rw [hq, List.append_nil])
    | cons b q =>
      refine h.longest b _ rest ⟨c, q, ?_⟩
      rw [hq, List.append_assoc, List.singleton_append]
  · cases q with
    | nil => exact h.not_whole c (List.append_nil _).symm
    | cons b q =>
      obtain ⟨c', s, hs⟩ := h.opens String.utf8EncodeChar_ne_nil
      rw [List.append_assoc, ← List.append_nil (utf8EncodeChar c')] at hs
      obtain rfl := encodeChar_prefix hs
      cases List.append_cancel_left hs

theorem not_longer {b : UInt8} {q : List UInt8} (h : Broken p (b :: q ++ bs))
    (h' : Broken (p ++ b :: q) bs) : False := by
  refine h.longest b _ (List.cons_append) (Opens.of_append (q := q) ?_)
  rw [List.append_assoc, List.singleton_append]
  exact h'.opens h.nonempty

/-- A broken character ends at one place. -/
theorem unique (h : Broken p bs) (h' : Broken p' bs') (same : p ++ bs = p' ++ bs') :
    p = p' ∧ bs = bs' := by
  rcases List.append_eq_append_iff.1 same with ⟨q, rfl, rfl⟩ | ⟨q, rfl, rfl⟩
  · cases q with
    | nil => exact ⟨(List.append_nil p).symm, rfl⟩
    | cons b q => exact (h.not_longer h').elim
  · cases q with
    | nil => exact ⟨List.append_nil p', rfl⟩
    | cons b q => exact (h'.not_longer h).elim

end Broken

/-- **Bytes have one lossy reading.** -/
theorem Lossy.unique {bs : List UInt8} {cs cs' : List Char} (h : Lossy bs cs) (h' : Lossy bs cs') :
    cs = cs' := by
  induction h generalizing cs' with
  | nil =>
    generalize hbs : ([] : List UInt8) = bs at h'
    cases h' with
    | nil => rfl
    | char c => exact absurd (List.append_eq_nil_iff.1 hbs.symm).1 String.utf8EncodeChar_ne_nil
    | broken hp => exact absurd (List.append_eq_nil_iff.1 hbs.symm).1 hp.nonempty
  | @char bs cs c _ ih =>
    generalize hbs : utf8EncodeChar c ++ bs = all at h'
    cases h' with
    | nil => exact absurd (List.append_eq_nil_iff.1 hbs).1 String.utf8EncodeChar_ne_nil
    | char c' h' =>
      obtain rfl := encodeChar_prefix hbs
      rw [ih (List.append_cancel_left hbs ▸ h')]
    | broken hp => exact absurd hbs.symm (hp.ne_char c _)
  | @broken p bs cs hp _ ih =>
    generalize hbs : p ++ bs = all at h'
    cases h' with
    | nil => exact absurd (List.append_eq_nil_iff.1 hbs).1 hp.nonempty
    | char c => exact absurd hbs (hp.ne_char c _)
    | broken hp' h' =>
      obtain ⟨-, rfl⟩ := hp.unique hp' hbs
      rw [ih h']

/-- A character begun is broken where nothing goes on with it. -/
theorem Pending.broken {p bs : List UInt8} {s : Begun} (h : Pending p s) (hp : p ≠ [])
    (longest : ∀ b rest, bs = b :: rest → ¬ Opens (p ++ [b])) : Broken p bs :=
  ⟨.inl h.opens, hp, h.ne_whole, longest⟩

/-- A byte that begins no character is broken alone. -/
theorem broken_single {b : UInt8} (h : ¬ Opens [b]) (bs : List UInt8) : Broken [b] bs where
  part := .inr ⟨b, rfl⟩
  nonempty := List.cons_ne_nil _ _
  not_whole c hc := h ⟨c, [], hc.trans (List.append_nil _).symm⟩
  longest _ _ _ hb := h hb.of_append

/-- **The automaton reads bytes lossily**, also when it has begun a character. -/
theorem lossy_decodeFrom (bs : List UInt8) : Lossy bs (decodeFrom none bs) ∧
    ∀ p s, p ≠ [] → Pending p s → Lossy (p ++ bs) (decodeFrom (some s) bs) := by
  induction bs with
  | nil =>
    refine ⟨.nil, fun p s hp hs => .broken (hs.broken hp ?_) .nil⟩
    rintro b rest ⟨⟩
  | cons b bs ih =>
    -- What breaks a character off is read as if no character had been begun.
    have afresh : Lossy (b :: bs) (decodeFrom none (b :: bs)) := by
      obtain ⟨c, hf, whole⟩ | ⟨hf, none⟩ | ⟨s, hf, hs⟩ := first_cases b
      · rw [decodeFrom_first hf]
        have hc : utf8EncodeChar c = [b] := (whole c []).2 ⟨rfl, rfl⟩
        exact List.singleton_append ▸ hc ▸ .char c ih.1
      · rw [decodeFrom_first hf]
        exact .broken (broken_single none bs) ih.1
      · rw [decodeFrom_first hf]
        exact ih.2 [b] s (List.cons_ne_nil _ _) hs
    refine ⟨afresh, fun p s hp hs => ?_⟩
    by_cases hb : s.low ≤ b.toNat ∧ b.toNat ≤ s.high
    · rw [List.append_cons]
      cases hm : s.more with
      | zero =>
        rw [decodeFrom_last hb hm]
        have hc := (hs.last hm hb.1 hb.2 _ []).2 ⟨rfl, rfl⟩
        rw [List.append_nil] at hc
        exact hc ▸ .char _ ih.1
      | succ more =>
        rw [decodeFrom_next hb hm]
        exact ih.2 _ _ (List.append_ne_nil_of_right_ne_nil _ (List.cons_ne_nil _ _))
          (hs.next hm hb.1 hb.2)
    · rw [decodeFrom_out_of_range hb]
      refine .broken (hs.broken hp ?_) afresh
      rintro b' rest ⟨⟩
      exact hs.out_of_range hb

/-- The reading of bytes is the lossy one. -/
theorem lossy_iff {bs : List UInt8} {cs : List Char} : Lossy bs cs ↔ decodeFrom none bs = cs :=
  ⟨fun h => (lossy_decodeFrom bs).1.unique h, fun h => h ▸ (lossy_decodeFrom bs).1⟩

/-- Two bytes that begin a character which no third one completes are read as one U+FFFD. -/
example : decode [0x61, 0xE2, 0x82, 0x62, 0xFF] = "a\uFFFDb\uFFFD" := by decide +kernel

theorem lossy_encode (text : String) : Lossy (encode text) text.toList := by
  rw [encode]
  induction text.toList with
  | nil => exact .nil
  | cons c cs ih => exact List.flatMap_cons ▸ .char c ih

/-- **A text is read as it is written.** -/
theorem decode_encode (text : String) : decode (encode text) = text := by
  rw [decode, lossy_iff.1 (lossy_encode text), String.ofList_toList]

end MiniC.Utf8
