/-
  Sources by their characters.

  What is built from a source depends on its characters only.  To get them from a literal the kernel
  would build the bytes of the text and decode them, which takes longer than all that follows; but a
  literal is by definition `String.ofList` of its characters, so `String.ofList_eq` gives them at once.
  `tokenize_of_toList` and `Program.ofSource_of_toList` build from characters, and what they come to
  can be evaluated.
-/
import Mathlib.Data.String.Basic
import MiniC.Program.Build

namespace MiniC

/-- The characters of a text that is written in two parts. -/
theorem toList_append_of_eq {s t : String} {cs ds : List Char} (hs : cs = s.toList)
    (ht : ds = t.toList) : cs ++ ds = (s ++ t).toList := by
  rw [String.toList_append, hs, ht]

variable (source : String) {cs : List Char}

theorem tokenize_of_toList (h : cs = source.toList) :
    tokenize source = (Reader.mk cs .start).tokens cs.length := by
  rw [h]
  rfl

/-- The program of the source that has the characters `cs`. -/
def Program.ofChars (g : Grammar) (cs : List Char) : Except BuildError Program := do
  let tokens ← ((Reader.mk cs .start).tokens cs.length).mapError .lexical
  let (root, _) ← (parse g .program (.ofTokens tokens)).mapError .syntactic
  (lowerProgram g .initial root).mapError .compilation

theorem Program.ofSource_of_toList {g : Grammar} (h : cs = source.toList) :
    Program.ofSource g source = Program.ofChars g cs := by
  rw [Program.ofSource, Program.extend, Node.ofSource, tokenize_of_toList source h, Program.ofChars]
  cases (Reader.mk cs .start).tokens cs.length with
  | error e => rfl
  | ok tokens =>
    simp only [Except.mapError, bind, Except.bind]
    cases parse g .program (.ofTokens tokens) with
    | error e => rfl
    | ok parsed =>
      simp only
      cases lowerProgram g .initial parsed.1 <;> rfl

theorem Except.eq_ok_of_toOption {ε α : Type} {e : Except ε α} {a : α} (h : e.toOption = some a) :
    e = .ok a := by
  cases e with
  | ok b => exact congrArg _ (Option.some.inj h)
  | error _ => cases h

/-- What is found in a result was found because there is one. -/
theorem Except.exists_ok_of_map {ε α β : Type} {e : Except ε α} {f : α → β} {b : β}
    (h : e.toOption.map f = some b) : ∃ a, e = .ok a ∧ f a = b := by
  obtain ⟨a, ha, hb⟩ := Option.map_eq_some_iff.1 h
  exact ⟨a, Except.eq_ok_of_toOption ha, hb⟩

end MiniC
