/-
  Constant folding is exact arithmetic, and the running program does the same.

  Three accounts of an expression made of constants and operators are compared: `Expr.constant?`
  folds it when a program is built, the engine solves it when the program runs, and `Expr.Exact`
  evaluates it over the unbounded integers and lists every number met on the way, the result first.

  * `Expr.constant?_iff`: an expression folds to the exact result where no number on the way is out
    of the range of a word, and to nothing elsewhere.
  * `Expr.yields_of_constant`: what folds is solved to the same word without a look at the machine,
    even where an operand that is skipped could not be executed at all.
  * `Expr.Arithmetic.fails`: what does not fold stops the run, for a division by zero or an overflow.
-/
import MiniC.Proofs.Plain

namespace MiniC

open Run

/-! ## Exact arithmetic -/

/-- A word can hold the number. -/
def Word.Holds (x : Int) : Prop := -2147483648 ≤ x ∧ x ≤ 2147483647

/-- The exact result of an operator on one number. -/
def UnaryOp.result : UnaryOp → Int → Int
  | neg, x => -x
  | not, x => if x = 0 then 1 else 0

namespace BinaryOp

/-- The result that the left operand alone decides. -/
def decided : BinaryOp → Int → Option Int
  | and, x => if x = 0 then some 0 else none
  | or, x => if x = 0 then none else some 1
  | _, _ => none

/-- The exact result of an operator; quotients go toward zero. -/
def result : BinaryOp → Int → Int → Int
  | add, x, y => x + y
  | sub, x, y => x - y
  | mul, x, y => x * y
  | div, x, y => x.tdiv y
  | mod, x, y => x.tmod y
  | eq, x, y => if x = y then 1 else 0
  | ne, x, y => if x = y then 0 else 1
  | lt, x, y => if x < y then 1 else 0
  | le, x, y => if x ≤ y then 1 else 0
  | gt, x, y => if y < x then 1 else 0
  | ge, x, y => if y ≤ x then 1 else 0
  | and, x, y => if x ≠ 0 ∧ y ≠ 0 then 1 else 0
  | or, x, y => if x ≠ 0 ∨ y ≠ 0 then 1 else 0

/-- What is computed before the result: a remainder needs its quotient. -/
def before : BinaryOp → Int → Int → List Int
  | mod, x, y => [x.tdiv y]
  | _, _, _ => []

end BinaryOp

namespace Expr

/-- `Exact e x xs`: over the unbounded integers `e` comes to `x`, and `xs` are all numbers met on
the way.  Nothing is divided by zero, and an operand that is skipped is not evaluated. -/
inductive Exact : Expr → Int → List Int → Prop
  | const {w : Word} {ty : Ty} {loc : Location} : Exact (.mk (.const w) ty loc) w.toInt [w.toInt]
  | unary {op : UnaryOp} {e : Expr} {x : Int} {xs : List Int} {ty : Ty} {loc : Location}
      (operand : Exact e x xs) :
      Exact (.mk (.unary op e) ty loc) (op.result x) (op.result x :: xs)
  | skip {op : BinaryOp} {e e' : Expr} {x y : Int} {xs : List Int} {ty : Ty} {loc : Location}
      (left : Exact e x xs) (decided : op.decided x = some y) :
      Exact (.mk (.binary op e e') ty loc) y (y :: xs)
  | binary {op : BinaryOp} {e e' : Expr} {x y : Int} {xs ys : List Int} {ty : Ty} {loc : Location}
      (left : Exact e x xs) (undecided : op.decided x = none) (right : Exact e' y ys)
      (divisor : ¬ (op.divides = true ∧ y = 0)) :
      Exact (.mk (.binary op e e') ty loc) (op.result x y)
        (op.result x y :: (op.before x y ++ (xs ++ ys)))

/-- The expression is made of constants and operators only. -/
inductive Arithmetic : Expr → Prop
  | const (w : Word) (ty : Ty) (loc : Location) : Arithmetic (.mk (.const w) ty loc)
  | unary (op : UnaryOp) {e : Expr} (ty : Ty) (loc : Location) (operand : Arithmetic e) :
      Arithmetic (.mk (.unary op e) ty loc)
  | binary (op : BinaryOp) {e e' : Expr} (ty : Ty) (loc : Location) (left : Arithmetic e)
      (right : Arithmetic e') : Arithmetic (.mk (.binary op e e') ty loc)

end Expr

/-! ## Operators on words -/

namespace Word

theorem holds_toInt (w : Word) : Holds w.toInt := by
  have := w.le_toInt
  have := w.toInt_lt
  unfold Holds
  omega

theorem ofInt?_eq_some {x : Int} {w : Word} : ofInt? x = some w ↔ Holds x ∧ w.toInt = x := by
  unfold ofInt? Holds
  constructor
  · intro h
    split at h
    · cases h
      exact ⟨‹_›, Int32.toInt_ofInt_of_le (by omega) (by omega)⟩
    · cases h
  · rintro ⟨h, rfl⟩
    rw [if_pos h, Int32.ofInt_toInt]

theorem exists_of_holds {x : Int} (h : Holds x) : ∃ w : Word, w.toInt = x :=
  ⟨_, (ofInt?_eq_some.1 (if_pos h)).2⟩

theorem toInt_eq_zero {w : Word} : w.toInt = 0 ↔ w = 0 := by
  rw [← Int32.toInt_inj, Int32.toInt_zero]

theorem toInt_ofBool (b : Bool) : (ofBool b).toInt = if b then 1 else 0 := by
  cases b <;> rfl

theorem some_ofBool_eq {b : Bool} {w : Word} {x : Int} (hx : x = if b then 1 else 0) :
    some (ofBool b) = some w ↔ Holds x ∧ w.toInt = x := by
  rw [Option.some.injEq, ← Int32.toInt_inj, toInt_ofBool, ← hx]
  refine ⟨fun h => ⟨?_, h.symm⟩, fun h => h.2.symm⟩
  unfold Holds
  split at hx <;> omega

end Word

theorem UnaryOp.apply_eq_some {op : UnaryOp} {w v : Word} :
    op.apply w = some v ↔ Word.Holds (op.result w.toInt) ∧ v.toInt = op.result w.toInt := by
  cases op with
  | neg => exact Word.ofInt?_eq_some
  | not => exact Word.some_ofBool_eq (by simp [UnaryOp.result, Word.toInt_eq_zero])

namespace BinaryOp
variable {op : BinaryOp} {l r v : Word}

theorem shortcut_eq_some : op.shortcut l = some v ↔ op.decided l.toInt = some v.toInt := by
  cases op with
  | and =>
    simp only [shortcut, decided, Word.toInt_eq_zero]
    split
    · rw [Option.some.injEq, Option.some.injEq, ← Int32.toInt_inj, Int32.toInt_zero]
    · simp
  | or =>
    simp only [shortcut, decided, Word.toInt_eq_zero]
    split
    · simp
    · rw [Option.some.injEq, Option.some.injEq, ← Int32.toInt_inj, Int32.toInt_one]
  | _ => simp [shortcut, decided]

theorem shortcut_eq_none : op.shortcut l = none ↔ op.decided l.toInt = none := by
  cases op with
  | and | or =>
    simp only [shortcut, decided, Word.toInt_eq_zero]
    split <;> simp
  | _ => simp [shortcut, decided]

/-- An operator has a result on words where its exact result, and what it computes before, can be
held, and nothing is divided by zero. -/
theorem apply_eq_some : op.apply l r = some v ↔ ¬ (op.divides = true ∧ r.toInt = 0) ∧
    (∀ x ∈ op.before l.toInt r.toInt, Word.Holds x) ∧
    Word.Holds (op.result l.toInt r.toInt) ∧ v.toInt = op.result l.toInt r.toInt := by
  cases op with
  | add | sub | mul => simpa [apply, divides, before, result] using Word.ofInt?_eq_some
  | div =>
    by_cases hr : r = 0
    · simp [apply, divides, hr]
    · simpa [apply, divides, before, result, hr, Word.toInt_eq_zero] using Word.ofInt?_eq_some
  | mod =>
    by_cases hr : r = 0
    · simp [apply, divides, hr]
    · rw [apply, if_neg hr, Option.bind_eq_some_iff]
      simp only [Word.ofInt?_eq_some, Word.toInt_eq_zero, hr, and_false, not_false_eq_true,
        true_and, before, List.mem_singleton, forall_eq, result]
      constructor
      · rintro ⟨q, ⟨hq, -⟩, hv⟩
        exact ⟨hq, hv⟩
      · rintro ⟨hq, hv⟩
        obtain ⟨q, heq⟩ := Word.exists_of_holds hq
        exact ⟨q, ⟨hq, heq⟩, hv⟩
  | eq | ne | lt | le | gt | ge | and | or =>
    simp only [apply, divides, before, List.not_mem_nil, false_imp_iff, implies_true, true_and,
      reduceCtorEq, false_and, not_false_eq_true]
    refine Word.some_ofBool_eq ?_
    simp [result, Int32.toInt_inj, Word.toInt_eq_zero]

end BinaryOp

/-! ## Folding is exact -/

namespace Expr

theorem exact_of_constant {e : Expr} {v : Word} (h : e.constant? = some v) :
    ∃ xs, e.Exact v.toInt xs ∧ ∀ x ∈ xs, Word.Holds x := by
  induction e using Expr.constant?.induct generalizing v with
  | case1 w ty loc =>
    cases h
    exact ⟨_, .const, by simpa using w.holds_toInt⟩
  | case2 op operand ty loc ih =>
    obtain ⟨w, hw, ha⟩ := Option.bind_eq_some_iff.1 h
    obtain ⟨xs, hx, hr⟩ := ih hw
    obtain ⟨hholds, hv⟩ := UnaryOp.apply_eq_some.1 ha
    rw [hv]
    exact ⟨_, .unary hx, List.forall_mem_cons.2 ⟨hholds, hr⟩⟩
  | case3 op left right ty loc ihl ihr =>
    obtain ⟨l, hl, h⟩ := Option.bind_eq_some_iff.1 h
    obtain ⟨xs, hx, hrx⟩ := ihl hl
    split at h
    · -- The left operand decides, so the right one has no part in it.
      rename_i w hs
      cases h
      exact ⟨_, .skip hx (BinaryOp.shortcut_eq_some.1 hs),
        List.forall_mem_cons.2 ⟨v.holds_toInt, hrx⟩⟩
    · rename_i hs
      obtain ⟨r, hr, ha⟩ := Option.bind_eq_some_iff.1 h
      obtain ⟨ys, hy, hry⟩ := ihr hr
      obtain ⟨hd, hbefore, hholds, hv⟩ := BinaryOp.apply_eq_some.1 ha
      rw [hv]
      refine ⟨_, .binary hx (BinaryOp.shortcut_eq_none.1 hs) hy hd, ?_⟩
      simp only [List.forall_mem_cons, List.forall_mem_append]
      exact ⟨hholds, hbefore, hrx, hry⟩
  | case4 e h1 h2 h3 =>
    rw [constant?] at h
    · cases h
    · exact h1
    · exact h2
    · exact h3

theorem Exact.constant {e : Expr} {x : Int} {xs : List Int} (h : e.Exact x xs)
    (hr : ∀ y ∈ xs, Word.Holds y) : ∃ v, e.constant? = some v ∧ v.toInt = x := by
  induction h with
  | @const w => exact ⟨w, rfl, rfl⟩
  | unary operand ih =>
    rw [List.forall_mem_cons] at hr
    obtain ⟨w, hw, rfl⟩ := ih hr.2
    obtain ⟨v, hv⟩ : ∃ v : Word, v.toInt = _ := Word.exists_of_holds hr.1
    exact ⟨v, Option.bind_eq_some_iff.2 ⟨w, hw, UnaryOp.apply_eq_some.2 ⟨hr.1, hv⟩⟩, hv⟩
  | skip left decided ih =>
    rw [List.forall_mem_cons] at hr
    obtain ⟨l, hl, rfl⟩ := ih hr.2
    obtain ⟨v, rfl⟩ : ∃ v : Word, v.toInt = _ := Word.exists_of_holds hr.1
    have hs := BinaryOp.shortcut_eq_some.2 decided
    exact ⟨v, Option.bind_eq_some_iff.2 ⟨l, hl, by rw [hs]⟩, rfl⟩
  | binary left undecided right divisor ihl ihr =>
    simp only [List.forall_mem_cons, List.forall_mem_append] at hr
    obtain ⟨hholds, hbefore, hrx, hry⟩ := hr
    obtain ⟨l, hl, rfl⟩ := ihl hrx
    obtain ⟨r, hr, rfl⟩ := ihr hry
    obtain ⟨v, hv⟩ : ∃ v : Word, v.toInt = _ := Word.exists_of_holds hholds
    have hs := BinaryOp.shortcut_eq_none.2 undecided
    have ha := BinaryOp.apply_eq_some.2 ⟨divisor, hbefore, hholds, hv⟩
    refine ⟨v, Option.bind_eq_some_iff.2 ⟨l, hl, ?_⟩, hv⟩
    rw [hs]
    exact Option.bind_eq_some_iff.2 ⟨r, hr, ha⟩

/-- **Folding is exact arithmetic** within the range of a word. -/
theorem constant?_iff {e : Expr} {v : Word} : e.constant? = some v ↔
    ∃ xs, e.Exact v.toInt xs ∧ ∀ x ∈ xs, Word.Holds x := by
  constructor
  · exact exact_of_constant
  · rintro ⟨xs, hx, hr⟩
    obtain ⟨w, hw, heq⟩ := hx.constant hr
    rw [hw, Int32.toInt_inj.1 heq]

end Expr

/-! ## What the engine makes of an operator -/

namespace Engine
variable {engine : Engine} {op : BinaryOp} {left right : Expr} {loc : Location} {m : Machine}
  {v u : Value}

theorem binary_of_decided {w : Word} (hl : engine.solve left m = .ok v m)
    (hs : op.shortcut v.word = some w) : engine.binary op left right loc m = .ok w m := by
  refine (bind_of_ok hl).trans ?_
  simp only [hs]
  rfl

theorem binary_of_right_error {e : Stop} (hl : engine.solve left m = .ok v m)
    (hs : op.shortcut v.word = none) (hr : engine.solve right m = .error e m) :
    engine.binary op left right loc m = .error e m := by
  refine (bind_of_ok hl).trans ?_
  simp only [hs]
  exact bind_of_error hr

theorem binary_of_both (hl : engine.solve left m = .ok v m) (hs : op.shortcut v.word = none)
    (hr : engine.solve right m = .ok u m) : engine.binary op left right loc m =
      if op.divides = true ∧ u.word = 0 then .error (.fault (.divisionByZero loc)) m
      else require (op.apply v.word u.word) (.overflow op.symbol loc) m := by
  refine (bind_of_ok hl).trans ?_
  simp only [hs]
  refine (bind_of_ok hr).trans ?_
  by_cases hz : op.divides = true ∧ u.word = 0
  · rw [if_pos hz, if_pos hz]
    exact bind_of_error rfl
  · rw [if_neg hz, if_neg hz]

end Engine

/-! ## What the engine makes of an expression -/

namespace Expr

/-- With enough fuel the engine solves `e` to `r` on every machine and changes nothing, whatever is
bound there. -/
def Yields (e : Expr) (r : Except Fault Word) : Prop :=
  ∃ enough, ∀ fuel, enough ≤ fuel → ∀ env m, (engine env fuel).solve e m =
    conclude ((r.map (Value.mk e.ty)).mapError .fault) m

namespace Yields
variable {e left right : Expr} {op : BinaryOp} {x y : Except Fault Word} {ty : Ty} {loc : Location}

/-- What a rule comes to is what the engine with one more unit of fuel comes to. -/
theorem of_rule (enough : Nat) (h : ∀ fuel, enough ≤ fuel → ∀ env m,
    Engine.executeRule env (engine env fuel) e m =
      conclude ((x.map fun w => .value ⟨e.ty, w⟩).mapError .fault) m) : e.Yields x := by
  refine ⟨enough + 1, fun fuel hfuel env m => ?_⟩
  obtain ⟨fuel, rfl⟩ := Nat.exists_eq_add_of_le' (Nat.le_of_add_left_le hfuel)
  have hrule := h fuel (by omega) env m
  cases x with
  | ok w => exact bind_of_ok hrule
  | error f => exact bind_of_error hrule

theorem of_eq (h : e.Yields x) (hxy : x = y) : e.Yields y := hxy ▸ h

theorem const (w : Word) : Yields (.mk (.const w) ty loc) (.ok w) :=
  of_rule 0 fun _ _ _ _ => rfl

theorem unary {op : UnaryOp} (h : e.Yields x) :
    Yields (.mk (.unary op e) ty loc)
      (x.bind fun w => (op.apply w).elim (.error (.overflow "-" loc)) .ok) := by
  obtain ⟨enough, h⟩ := h
  refine of_rule enough fun fuel hfuel env m => ?_
  have hx := h fuel hfuel env m
  cases x with
  | error f => exact bind_of_error hx
  | ok w =>
    refine (bind_of_ok hx).trans ?_
    change (require (op.apply w) _ >>= _) m = _
    cases ha : op.apply w <;> simp only [Except.bind, ha] <;> rfl

/-- The right operand matters only where the left one does not decide. -/
theorem binary (hl : left.Yields x)
    (hr : ∀ l, x = .ok l → op.shortcut l = none → right.Yields y) :
    Yields (.mk (.binary op left right) ty loc) (x.bind fun l => (op.shortcut l).elim
      (y.bind fun r => if op.divides = true ∧ r = 0 then .error (.divisionByZero loc)
        else (op.apply l r).elim (.error (.overflow op.symbol loc)) .ok) .ok) := by
  obtain ⟨enough, hl⟩ := hl
  cases x with
  | error f =>
    exact of_rule enough fun fuel hfuel env m => bind_of_error (bind_of_error (hl fuel hfuel env m))
  | ok l =>
    simp only [Except.bind]
    cases hs : op.shortcut l with
    | some w =>
      exact of_rule enough fun fuel hfuel env m =>
        bind_of_ok (Engine.binary_of_decided (hl fuel hfuel env m) hs)
    | none =>
      obtain ⟨enough', hr⟩ := hr l rfl hs
      refine of_rule (max enough enough') fun fuel hfuel env m => ?_
      have hx := hl fuel (Nat.le_trans (Nat.le_max_left ..) hfuel) env m
      have hy := hr fuel (Nat.le_trans (Nat.le_max_right ..) hfuel) env m
      cases y with
      | error f => exact bind_of_error (Engine.binary_of_right_error hx hs hy)
      | ok r =>
        have hb : (engine env fuel).binary op left right loc m = _ :=
          Engine.binary_of_both hx hs hy
        simp only [Option.elim]
        by_cases hz : op.divides = true ∧ r = 0
        · rw [if_pos hz] at hb
          rw [if_pos hz]
          exact bind_of_error hb
        · rw [if_neg hz] at hb
          rw [if_neg hz]
          cases ha : op.apply l r <;> rw [ha] at hb
          · exact bind_of_error hb
          · exact bind_of_ok hb

end Yields

/-- What folds is solved to the same word, whatever could not be executed in a skipped operand. -/
theorem yields_of_constant {e : Expr} {v : Word} (h : e.constant? = some v) : e.Yields (.ok v) := by
  induction e using Expr.constant?.induct generalizing v with
  | case1 w ty loc =>
    cases h
    exact .const w
  | case2 op operand ty loc ih =>
    obtain ⟨w, hw, ha⟩ := Option.bind_eq_some_iff.1 h
    refine (Yields.unary (ih hw)).of_eq ?_
    simp only [Except.bind, ha, Option.elim]
  | case3 op left right ty loc ihl ihr =>
    obtain ⟨l, hl, h⟩ := Option.bind_eq_some_iff.1 h
    split at h
    · rename_i w hs
      cases h
      -- The right operand is not evaluated; any result will do for it.
      refine (Yields.binary (y := .ok 0) (ihl hl) ?_).of_eq ?_
      · rintro _ ⟨⟩ hnone
        rw [hs] at hnone
        cases hnone
      · simp only [Except.bind, hs, Option.elim]
    · rename_i hs
      obtain ⟨r, hr, ha⟩ := Option.bind_eq_some_iff.1 h
      have hz : ¬ (op.divides = true ∧ r = 0) := by
        rw [← Word.toInt_eq_zero]
        exact (BinaryOp.apply_eq_some.1 ha).1
      refine (Yields.binary (ihl hl) fun _ _ _ => ihr hr).of_eq ?_
      simp only [Except.bind, hs, Option.elim, if_neg hz, ha]
  | case4 e h1 h2 h3 =>
    rw [constant?] at h
    · cases h
    · exact h1
    · exact h2
    · exact h3

end Expr

/-- A division by zero or an overflow. -/
def Fault.IsArithmetic (f : Fault) : Prop :=
  (∃ loc, f = .divisionByZero loc) ∨ ∃ operator loc, f = .overflow operator loc

namespace Expr

theorem constant?_binary_eq_none {op : BinaryOp} {left right : Expr} {l : Word} {ty : Ty}
    {loc : Location} (hl : left.constant? = some l) :
    constant? (.mk (.binary op left right) ty loc) = none ↔ op.shortcut l = none ∧
      (right.constant? = none ∨ ∃ r, right.constant? = some r ∧ op.apply l r = none) := by
  rw [constant?, hl, Option.bind_some]
  cases hs : op.shortcut l with
  | some w => simp
  | none => cases hr : right.constant? <;> simp

/-- What is made of constants and operators and does not fold stops the run. -/
theorem Arithmetic.fails {e : Expr} (h : e.Arithmetic) (hc : e.constant? = none) :
    ∃ f : Fault, f.IsArithmetic ∧ e.Yields (.error f) := by
  induction h with
  | const w ty loc => cases hc
  | unary op ty loc operand ih =>
    rename_i e
    cases hv : e.constant? with
    | none =>
      obtain ⟨f, hf, hy⟩ := ih hv
      exact ⟨f, hf, hy.unary⟩
    | some w =>
      have ha : op.apply w = none := by
        rw [constant?, hv] at hc
        exact hc
      refine ⟨_, .inr ⟨"-", loc, rfl⟩, (Yields.unary (yields_of_constant hv)).of_eq ?_⟩
      simp only [Except.bind, ha, Option.elim]
  | binary op ty loc left right ihl ihr =>
    rename_i e e'
    cases hl : e.constant? with
    | none =>
      obtain ⟨f, hf, hy⟩ := ihl hl
      exact ⟨f, hf, Yields.binary (y := .ok 0) hy nofun⟩
    | some l =>
      have hx := yields_of_constant hl
      obtain ⟨hs, hr | ⟨r, hr, ha⟩⟩ := (constant?_binary_eq_none hl).1 hc
      · obtain ⟨f, hf, hy⟩ := ihr hr
        refine ⟨f, hf, (hx.binary fun _ _ _ => hy).of_eq ?_⟩
        simp only [Except.bind, hs, Option.elim]
      · have hy := yields_of_constant hr
        -- Both operands fold, so the operator itself has failed.
        by_cases hz : op.divides = true ∧ r = 0
        · refine ⟨_, .inl ⟨loc, rfl⟩, (hx.binary fun _ _ _ => hy).of_eq ?_⟩
          simp only [Except.bind, hs, Option.elim, if_pos hz]
        · refine ⟨_, .inr ⟨op.symbol, loc, rfl⟩, (hx.binary fun _ _ _ => hy).of_eq ?_⟩
          simp only [Except.bind, hs, Option.elim, if_neg hz, ha]

/-- **Folding, running and exact arithmetic agree.**  An expression made of constants and operators
is solved to a word, on every machine, exactly where it folds to this word, and otherwise stops for
a division by zero or an overflow; either way the machine stays as it is.  It folds exactly where no
number on the way of the exact evaluation is out of range.  Any expression that folds, whatever
stands in an operand that is skipped, is solved to its word without any effect. -/
theorem solve_iff_constant_iff_exact (e : Expr) :
    (e.Arithmetic → ∃ enough, ∀ fuel, enough ≤ fuel → ∀ env m,
      (∀ v m', (engine env fuel).solve e m = .ok v m' ↔
        e.constant? = some v.word ∧ v.ty = e.ty ∧ m' = m) ∧
      (e.constant? = none → ∃ f : Fault, f.IsArithmetic ∧
        (engine env fuel).solve e m = .error (.fault f) m)) ∧
    (∀ v, e.constant? = some v ↔ ∃ xs, e.Exact v.toInt xs ∧ ∀ x ∈ xs, Word.Holds x) ∧
    ∀ v, e.constant? = some v → ∃ enough, ∀ fuel, enough ≤ fuel → ∀ env m,
      (engine env fuel).solve e m = .ok ⟨e.ty, v⟩ m := by
  refine ⟨fun h => ?_, fun v => constant?_iff, fun v hv => yields_of_constant hv⟩
  cases hc : e.constant? with
  | some w =>
    obtain ⟨enough, hx⟩ := yields_of_constant hc
    refine ⟨enough, fun fuel hfuel env m => ⟨fun v m' => ?_, nofun⟩⟩
    rw [hx fuel hfuel env m]
    constructor
    · rintro ⟨⟩
      exact ⟨rfl, rfl, rfl⟩
    · rintro ⟨hw, ht, rfl⟩
      cases hw
      rw [← ht]
      rfl
  | none =>
    obtain ⟨f, hf, enough, hx⟩ := h.fails hc
    refine ⟨enough, fun fuel hfuel env m => ⟨fun v m' => ?_, fun _ => ⟨f, hf, hx fuel hfuel env m⟩⟩⟩
    rw [hx fuel hfuel env m]
    constructor
    · rintro ⟨⟩
    · rintro ⟨⟨⟩, -⟩

/-- The least word modulo -1: the remainder is 0, but the quotient is out of range. -/
def leastModuloMinusOne : Expr :=
  .mk (.binary .mod (.mk (.const (-2147483648)) Ty.int .nowhere)
    (.mk (.const (-1)) Ty.int .nowhere)) Ty.int .nowhere

/-- Zero and a variable: the variable is skipped. -/
def zeroAndVariable : Expr :=
  .mk (.binary .and (.mk (.const 0) Ty.int .nowhere) (.mk (.var 0) Ty.int .nowhere)) Ty.int .nowhere

/-- The one stops every run, the other is 0 even where no variable has a place. -/
theorem solve_iff_constant_iff_exact_corners :
    (leastModuloMinusOne.Arithmetic ∧ ∃ enough, ∀ fuel, enough ≤ fuel → ∀ env m,
      ∃ f : Fault, f.IsArithmetic ∧
        (engine env fuel).solve leastModuloMinusOne m = .error (.fault f) m) ∧
    zeroAndVariable.constant? = some 0 ∧ ∃ enough, ∀ fuel, enough ≤ fuel → ∀ env m,
      (engine env fuel).solve zeroAndVariable m = .ok ⟨Ty.int, 0⟩ m := by
  have harith : leastModuloMinusOne.Arithmetic := .binary _ _ _ (.const ..) (.const ..)
  obtain ⟨enough, h⟩ := (solve_iff_constant_iff_exact leastModuloMinusOne).1 harith
  refine ⟨⟨harith, enough, fun fuel hfuel env m => (h fuel hfuel env m).2 (by decide)⟩, rfl, ?_⟩
  exact (solve_iff_constant_iff_exact zeroAndVariable).2.2 0 rfl

end Expr

end MiniC
