/-
  The caret of a report.

  A report ends with a line of the source, behind a margin with its number, and a line with a caret.
  The margin is as wide as the number needs but not less than four digits, and the caret is placed as
  if it were always four digits wide; so the caret stands under the character at the position that is
  reported as long as the line number has no more digits, and to the left of it from then on.

  * `Report.CaretLeft`: how far the caret stands to the left of the character at an offset.
  * `Report.render_eq`: the report of a character that belongs to no line ending.
  * `caret_under_character`: the caret stands under the character in the lines up to number 9999.
-/
import Mathlib.Data.List.DropRight
import MiniC.Text.Report
import MiniC.Proofs.Positions

namespace MiniC.Report

/-! ## Lines of a source -/

/-- A text up to the end of its first line: a newline ends it, or a carriage return before one. -/
def untilLineEnd : List Char → List Char
  | [] => []
  | '\n' :: _ => []
  | '\r' :: '\n' :: _ => []
  | c :: cs => c :: untilLineEnd cs

/-- A text from the beginning of its last line on. -/
def sinceNewline (cs : List Char) : List Char := cs.rtakeWhile fun c => c ≠ '\n'

/-- The caret at the end of a report stands `k` columns to the left of the character at `offset`.  The
line above shows that character in its line of the source: with all that is before it in this line on its
left, behind a margin, and with the rest of the line on its right.  Every character takes one column. -/
def CaretLeft (source : String) (offset k : Nat) (report : String) : Prop :=
  ∃ (head left right indent : List Char) (c : Char),
    report.toList = head ++ '\n' :: (left ++ c :: right) ++ '\n' :: (indent ++ ['^']) ∧
    untilLineEnd (source.toList.drop offset) = c :: right ∧
    sinceNewline (source.toList.take offset) <:+ left ∧
    '\n' ∉ left ∧ '\n' ∉ indent ∧ '^' ∉ indent ∧ indent.length + k = left.length

variable {c : Char} {cs after before : List Char}

theorem newline_notMem_untilLineEnd (cs : List Char) : '\n' ∉ untilLineEnd cs := by
  fun_induction untilLineEnd cs with
  | case4 c cs hn _ ih =>
    rw [List.mem_cons, not_or]
    exact ⟨fun h => hn h.symm, ih⟩
  | _ => exact List.not_mem_nil

theorem newline_notMem_sinceNewline (cs : List Char) : '\n' ∉ sinceNewline cs := by
  intro h
  simpa using List.mem_rtakeWhile_imp h

/-- What no line ending begins stands in its line. -/
theorem untilLineEnd_cons (hc : c ≠ '\n') (hr : ¬ (c = '\r' ∧ cs.head? = some '\n')) :
    untilLineEnd (c :: cs) = c :: untilLineEnd cs := by
  rw [untilLineEnd.eq_def]
  split
  · rename_i h
    cases h
  · rename_i h
    cases h
    exact absurd rfl hc
  · rename_i h
    cases h
    exact absurd ⟨rfl, rfl⟩ hr
  · rename_i h
    cases h
    rfl

theorem splitLine_cons (hc : c ≠ '\n') :
    splitLine (c :: cs) = (c :: (splitLine cs).1, (splitLine cs).2) := by
  rw [splitLine, if_neg hc]

theorem dropReturn_cons (h : cs = [] → c ≠ '\r') : dropReturn (c :: cs) = c :: dropReturn cs := by
  unfold dropReturn
  cases cs with
  | nil => simp [h rfl]
  | cons d ds =>
    rw [List.getLast?_cons_cons, List.dropLast_cons_cons]
    split <;> rfl

/-- A text whose first line is empty is over or begins with a newline. -/
theorem head?_of_splitLine {rest : List Char} (h : splitLine cs = ([], some rest)) :
    cs.head? = some '\n' := by
  cases cs with
  | nil => cases h
  | cons d ds =>
    by_cases hd : d = '\n'
    · rw [hd]
      rfl
    · rw [splitLine_cons hd] at h
      cases h

/-- The first line of a text is shown up to its end. -/
theorem line_zero (cs : List Char) : line cs 0 = untilLineEnd cs := by
  fun_induction untilLineEnd cs with
  | case1 => rfl
  | case2 cs => rfl
  | case3 cs => rfl
  | case4 c cs hn hr ih =>
    rw [line] at ih ⊢
    rw [splitLine_cons hn, ← ih]
    rcases hs : splitLine cs with ⟨first, _ | rest⟩
    · rfl
    · refine dropReturn_cons ?_
      rintro rfl rfl
      obtain ⟨ds, rfl⟩ := List.head?_eq_some_iff.1 (head?_of_splitLine hs)
      exact hr ds rfl rfl

theorem line_newline (cs : List Char) (n : Nat) : line ('\n' :: cs) (n + 1) = line cs n := rfl

theorem line_cons (hc : c ≠ '\n') (n : Nat) : line (c :: cs) (n + 1) = line cs (n + 1) := by
  rw [line, line, splitLine_cons hc]
  rcases splitLine cs with ⟨first, _ | rest⟩ <;> rfl

theorem sinceNewline_of_notMem (h : '\n' ∉ cs) : sinceNewline cs = cs := by
  rw [sinceNewline, List.rtakeWhile_eq_self_iff]
  intro c hc
  simpa using fun he : c = '\n' => h (he ▸ hc)

/-- What is before a newline is not in the last line. -/
theorem sinceNewline_cons (h : '\n' ∈ c :: cs) : sinceNewline (c :: cs) = sinceNewline cs := by
  rw [sinceNewline, sinceNewline, List.rtakeWhile, List.rtakeWhile, List.reverse_cons]
  rw [List.takeWhile_append]
  split
  · -- Nothing ends the line behind `c`, so `c` is the newline.
    rename_i he
    have hw := (List.takeWhile_prefix _).eq_of_length he
    have hcs : '\n' ∉ cs := by
      intro hm
      simpa using List.takeWhile_eq_self_iff.1 hw '\n' (List.mem_reverse.2 hm)
    obtain rfl : '\n' = c := (List.mem_cons.1 h).resolve_right hcs
    rw [hw]
    simp
  · rfl

/-- The line of a place in a text has the number of newlines before that place. -/
theorem line_count (before cs : List Char) :
    line (before ++ cs) (before.count '\n') = untilLineEnd (sinceNewline before ++ cs) := by
  induction before with
  | nil => exact line_zero cs
  | cons c before ih =>
    by_cases hm : '\n' ∈ c :: before
    · rw [sinceNewline_cons hm, ← ih]
      by_cases hc : c = '\n'
      · rw [hc, List.count_cons_self, List.cons_append, line_newline]
      · have hpos : 0 < before.count '\n' := by
          rw [List.count_pos_iff]
          exact (List.mem_cons.1 hm).resolve_left (Ne.symm hc)
        obtain ⟨n, hn⟩ := Nat.exists_eq_add_of_lt hpos
        rw [List.count_cons_of_ne hc, List.cons_append, hn, line_cons hc]
    · rw [sinceNewline_of_notMem hm, List.count_eq_zero_of_not_mem hm, line_zero]

/-- Whatever is before a place in its line is shown. -/
theorem untilLineEnd_append {since : List Char} (hs : '\n' ∉ since) (hc : c ≠ '\n') :
    untilLineEnd (since ++ c :: cs) = since ++ untilLineEnd (c :: cs) := by
  induction since with
  | nil => rfl
  | cons d since ih =>
    rw [List.mem_cons, not_or] at hs
    have hnext : (since ++ c :: cs).head? ≠ some '\n' := by
      cases since with
      | nil => simpa using hc
      | cons e since => simpa using fun he : e = '\n' => hs.2 (he ▸ List.mem_cons_self)
    rw [List.cons_append, untilLineEnd_cons (Ne.symm hs.1) fun h => hnext h.2, ih hs.2,
      List.cons_append]

/-! ## The report -/

theorem length_gutter (n : Nat) : (gutter n).toList.length = 4 + ((toString n).length - 4) := by
  rw [gutter, String.toList_append, String.toList_ofList, List.length_append, List.length_replicate,
    String.length_toList]
  omega

theorem newline_notMem_gutter (n : Nat) : '\n' ∉ (gutter n).toList := by
  intro h
  rw [gutter, String.toList_append, String.toList_ofList, List.mem_append, List.mem_replicate,
    Nat.toString_eq_ofList_toDigits, String.toList_ofList] at h
  rcases h with ⟨-, h⟩ | h
  · cases h
  · have hd := Nat.isDigit_of_mem_toDigits (by decide) (by decide) h
    cases hd

theorem length_toString_le (n : Nat) : (toString n).length ≤ 4 ↔ n < 10000 := by
  rw [Nat.toString_eq_ofList_toDigits, ← String.length_toList, String.toList_ofList,
    Nat.length_toDigits_le_iff (by decide) (by decide)]

variable {source : String} {l : Location}

/-- **The report of a character that belongs to no line ending.** -/
theorem render_eq (message : String) (hl : l.In source)
    (hd : source.toList.drop l.offset = c :: after) (hc : c ≠ '\n') :
    (render source l message).toList =
      message.toList ++ '\n' ::
        ((gutter l.line).toList ++ [' ', '|', ' '] ++ sinceNewline (source.toList.take l.offset) ++
          untilLineEnd (source.toList.drop l.offset)) ++
      '\n' :: ([' ', ' ', ' ', ' ', ' ', '|', ' '] ++
        List.replicate (sinceNewline (source.toList.take l.offset)).length ' ' ++ ['^']) := by
  have hlt : l.offset < source.length := by
    have hlen := congrArg List.length hd
    rw [List.length_drop, List.length_cons, String.length_toList] at hlen
    omega
  have hcol : l.column - 1 = (sinceNewline (source.toList.take l.offset)).length := by
    rw [hl.column, Nat.add_sub_cancel_left, sinceNewline, List.rtakeWhile, List.length_reverse]
  have hline : line source.toList (l.line - 1) =
      sinceNewline (source.toList.take l.offset) ++ untilLineEnd (source.toList.drop l.offset) := by
    rw [hl.line, Nat.add_sub_cancel_left, hd, ← untilLineEnd_append (newline_notMem_sinceNewline _) hc,
      ← line_count, ← hd, List.take_append_drop]
  have hnumber : max l.line 1 = l.line := Nat.max_eq_left (by rw [hl.line]; omega)
  rw [render, if_neg fun h => absurd h.2 (by omega)]
  simp only [hnumber, hline, hcol, String.toList_append, String.toList_ofList, String.reduceToList,
    List.append_assoc, List.cons_append, List.nil_append]

/-! ## The caret -/

/-- The last newline of a text is in one place. -/
theorem append_newline_inj {a b x y : List Char} (hx : '\n' ∉ x) (hy : '\n' ∉ y)
    (h : a ++ '\n' :: x = b ++ '\n' :: y) : a = b ∧ x = y := by
  rcases List.append_eq_append_iff.1 h with ⟨d, hb, hd⟩ | ⟨d, ha, hd⟩
  · cases d with
    | nil =>
      cases hd
      exact ⟨by rw [hb, List.append_nil], rfl⟩
    | cons e d =>
      obtain ⟨-, rfl⟩ := List.cons.inj hd
      simp at hx
  · cases d with
    | nil =>
      cases hd
      exact ⟨by rw [ha, List.append_nil], rfl⟩
    | cons e d =>
      obtain ⟨-, rfl⟩ := List.cons.inj hd
      simp at hy

/-- The caret of a report stands in one column. -/
theorem CaretLeft.unique {offset k k' : Nat} {report : String} (h : CaretLeft source offset k report)
    (h' : CaretLeft source offset k' report) : k = k' := by
  obtain ⟨head, left, right, indent, c, htext, hright, -, hleft, hindent, -, hk⟩ := h
  obtain ⟨head', left', right', indent', c', htext', hright', -, hleft', hindent', -, hk'⟩ := h'
  have shown := newline_notMem_untilLineEnd (source.toList.drop offset)
  obtain ⟨habove, hcaret⟩ := append_newline_inj (by simpa using hindent) (by simpa using hindent')
    (htext.symm.trans htext')
  rw [← hright, ← hright'] at habove
  obtain ⟨-, hline⟩ := append_newline_inj (by simp [hleft, shown]) (by simp [hleft', shown]) habove
  obtain rfl := List.append_cancel_right hline
  obtain rfl := List.append_cancel_right hcaret
  omega

/-- The margin is as much wider than the caret line allows for as the line number is longer than four
digits. -/
theorem render_caretLeft (message : String) (hl : l.In source)
    (hd : source.toList.drop l.offset = c :: after) (hc : c ≠ '\n')
    (hr : ¬ (c = '\r' ∧ after.head? = some '\n')) :
    CaretLeft source l.offset ((toString l.line).length - 4) (render source l message) := by
  have hshown : untilLineEnd (source.toList.drop l.offset) = c :: untilLineEnd after := by
    rw [hd, untilLineEnd_cons hc hr]
  have htext := render_eq message hl hd hc
  rw [hshown] at htext
  refine ⟨_, _, _, _, c, htext, hshown, List.suffix_append _ _, ?_, ?_, ?_, ?_⟩
  · have hgutter := newline_notMem_gutter l.line
    have hsince := newline_notMem_sinceNewline (source.toList.take l.offset)
    simp [hgutter, hsince]
  · simp
  · simp
  · simp only [List.length_append, List.length_cons, List.length_nil, List.length_replicate,
      length_gutter]
    omega

end MiniC.Report

namespace MiniC

/-- **The caret of a report stands under the character at the location that is reported**, whenever that
is a location of the source and its character belongs to no line ending, as long as the line number has no
more than four digits.  From line 10000 on it stands to the left of the character, by one column for each
digit beyond the fourth. -/
theorem caret_under_character {source : String} {l : Location} {c : Char} {after : List Char}
    (hl : l.In source) (hd : source.toList.drop l.offset = c :: after) (hc : c ≠ '\n')
    (hr : ¬ (c = '\r' ∧ after.head? = some '\n')) (message : String) :
    (Report.CaretLeft source l.offset 0 (Report.render source l message) ↔ l.line < 10000) ∧
      Report.CaretLeft source l.offset ((toString l.line).length - 4)
        (Report.render source l message) := by
  have caret := Report.render_caretLeft message hl hd hc hr
  have digits := Report.length_toString_le l.line
  refine ⟨⟨fun h => ?_, fun h => ?_⟩, caret⟩
  · have hk := h.unique caret
    omega
  · rwa [Nat.sub_eq_zero_of_le (digits.2 h)] at caret

/-- In a second line, behind a carriage return and a newline and behind a character of two bytes. -/
theorem caret_under_character_accented : ∃ source l,
    source = "int main() \x7b\r\n  é = a[-1];\r\n" ∧ l = ⟨21, 2, 8⟩ ∧
      Report.render source l "negative size" =
        "negative size\n0002 |   é = a[-1];\n     |        ^" ∧
      l.In source ∧ source.toList.drop l.offset = '[' :: "-1];\r\n".toList ∧
      (Report.CaretLeft source l.offset 0 (Report.render source l "negative size") ↔ l.line < 10000) ∧
        Report.CaretLeft source l.offset ((toString l.line).length - 4)
          (Report.render source l "negative size") := by
  have place : Location.In "int main() \x7b\r\n  é = a[-1];\r\n" ⟨21, 2, 8⟩ :=
    ⟨by decide, by decide, by decide⟩
  have rest : "int main() \x7b\r\n  é = a[-1];\r\n".toList.drop 21 = '[' :: "-1];\r\n".toList := rfl
  exact ⟨_, _, rfl, rfl, rfl, place, rest, caret_under_character place rest (by decide) (by decide) _⟩

/-- The place behind so many newlines. -/
theorem Location.in_newlines (n : Nat) :
    Location.In (String.ofList (List.replicate n '\n' ++ ['x'])) ⟨n, n + 1, 1⟩ := by
  have before : (List.replicate n '\n' ++ ['x']).take n = List.replicate n '\n' :=
    List.take_left' (List.length_replicate)
  constructor <;> rw [String.toList_ofList]
  · simp
  · rw [before, List.count_replicate_self, Nat.add_comm]
  · rw [before, List.reverse_replicate]
    cases n with
    | zero => rfl
    | succ n => rfl

theorem drop_newlines (n : Nat) :
    (String.ofList (List.replicate n '\n' ++ ['x'])).toList.drop n = ['x'] := by
  rw [String.toList_ofList, List.drop_left' List.length_replicate]

/-- In line 10000 the caret does not stand under the character. -/
theorem caret_not_under_character :
    Location.In (String.ofList (List.replicate 9999 '\n' ++ ['x'])) ⟨9999, 10000, 1⟩ ∧
      (String.ofList (List.replicate 9999 '\n' ++ ['x'])).toList.drop 9999 = ['x'] ∧
      ∀ message, ¬ Report.CaretLeft (String.ofList (List.replicate 9999 '\n' ++ ['x'])) 9999 0
        (Report.render (String.ofList (List.replicate 9999 '\n' ++ ['x'])) ⟨9999, 10000, 1⟩ message) := by
  have place := Location.in_newlines 9999
  have rest := drop_newlines 9999
  refine ⟨place, rest, fun message h => ?_⟩
  have hk : 0 = (toString 10000).length - 4 :=
    h.unique (Report.render_caretLeft message place rest (by decide) (by decide))
  have digits := Report.length_toString_le 10000
  omega

end MiniC
