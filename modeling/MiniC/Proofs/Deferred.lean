/-
  The code that a program holds, and the values of its array assignments.

  A program holds the expressions of its functions' bodies and of its arrays' lengths, their
  operands, and what the values of its array assignments are lowered to while it runs.  All of them
  are well typed (`Program.Holds.typed`), and the values come to what they were lowered to where the
  assignment stands (`deferred_agrees`).
-/
import MiniC.Proofs.LoweredProgram
import MiniC.Proofs.SourceText

namespace MiniC

/-! ## Parts of code -/

/-- The expressions that an operation is made from. -/
def Operation.operands : Operation → List Expr
  | const _ | str _ | var _ => []
  | member e .. | deref e | addressOf e | unary _ e | arrayAssign e .. => [e]
  | index l r _ | binary _ l r | pointerOffset l r .. | pointerDiff l r _ | assign l r => [l, r]
  | call _ args _ => args

/-- Whether an expression assigns values to an array. -/
def Expr.isArrayAssign (e : Expr) : Bool :=
  match e.op with
  | .arrayAssign .. => true
  | _ => false

/-- The expressions that an action is made from. -/
def Action.exprs : Action → List Expr
  | expr e | ifElse e .. | whileLoop e _ | doWhile _ e => [e]
  | forLoop i c n _ => i.toList ++ c.toList ++ n.toList
  | returns e => e.toList
  | block _ | breaks | continues | empty => []

/-- The statements that an action is made from. -/
def Action.stmts : Action → List Stmt
  | block body => body
  | ifElse _ t e => t :: e.toList
  | whileLoop _ b | doWhile b _ | forLoop _ _ _ b => [b]
  | expr _ | returns _ | breaks | continues | empty => []

/-- The statements of the functions of a program. -/
inductive Program.Performs (p : Program) (id : FunctionId) : Stmt → Prop
  | body {f s} : p.functions[id]? = some f → f.body = .compiled s → Performs p id s
  | part {s t} : Performs p id s → t ∈ s.action.stmts → Performs p id t

/-- The expressions of a program. -/
inductive Program.Holds (g : Grammar) (p : Program) : Expr → Prop
  | stmt {id s e} : p.Performs id s → e ∈ s.action.exprs → Holds g p e
  | length {i : Nat} {s spec} : p.symbols[i]? = some s → s.array = some spec →
    Holds g p spec.lengthExpr
  | operand {e e'} : Holds g p e → e' ∈ e.op.operands → Holds g p e'
  /-- What a value of an array assignment is lowered to while the program runs. -/
  | deferred {dst values scope ty loc v f e c} :
    Holds g p (.mk (.arrayAssign dst values scope) ty loc) → v ∈ values →
    lowerExpr g v (.frozenIn p f scope) = .ok (e, c) → Holds g p e

/-! ## All code is well typed -/

section
variable {d : Context} {k : Option FunctionId} {e e' : Expr}

theorem Expr.Typed.operand (h : e.Typed d k) (he : e' ∈ e.op.operands) : e'.Typed d k := by
  cases h <;> simp only [Expr.assign, Expr.arrayAssign, Expr.op_mk, Operation.operands,
    List.mem_cons, List.not_mem_nil, or_false] at he
  case call h1 _ _ => exact h1 e' he
  all_goals first
    | (subst he; assumption)
    | (rcases he with rfl | rfl <;> assumption)

theorem Expr.Typed.arrayAssigned {dst : Expr} {values : List Node} {scope : Scope} {ty : Ty}
    {loc : Location} (h : (Expr.mk (.arrayAssign dst values scope) ty loc).Typed d k) :
    ∃ es, d.assigned (.mk (.arrayAssign dst values scope) ty loc) es ∧ ∀ e ∈ es, e.Typed d k := by
  cases h with
  | arrayAssign _ _ _ _ ha ht _ => exact ⟨_, ha, ht⟩

theorem Stmt.Typed.part {s t : Stmt} {result : Option Ty} (h : s.Typed d k result)
    (ht : t ∈ s.action.stmts) : t.Typed d k result := by
  cases h <;> simp only [Stmt.action, Action.stmts, List.mem_cons, Option.mem_toList,
    List.not_mem_nil, or_false] at ht
  case block h => exact h t ht
  case ifElse h1 h2 =>
    rcases ht with rfl | ht
    · exact h1
    · exact h2 t ht
  all_goals subst ht; assumption

theorem Stmt.Typed.expr_of_mem {s : Stmt} {result : Option Ty} (h : s.Typed d k result)
    (he : e ∈ s.action.exprs) : e.Typed d k := by
  cases h <;> simp only [Stmt.action, Action.exprs, List.mem_append, List.mem_cons,
    Option.mem_toList, List.not_mem_nil, or_false] at he
  case forLoop h1 h2 h3 h4 =>
    rcases he with (he | he) | he
    · exact h1 e he
    · exact (h2 e he).1
    · exact h3 e he
  case returnsValue => obtain rfl := Option.some.inj he; assumption
  all_goals first
    | contradiction
    | (subst he; assumption)

end

variable {g : Grammar} {c : Context}

/-- The code of a function is well typed. -/
theorem Context.Finished.compiled (h : c.Finished g) {id : FunctionId} {f : Function} {body : Stmt}
    (hf : c.program.functions[id]? = some f) (hb : f.body = .compiled body) :
    body.Typed c (some id) (some f.result) := by
  have hsound := (h.tables.functions hf).body
  rwa [hb] at hsound

theorem Program.Performs.typed (h : c.Finished g) {id : FunctionId} {s : Stmt}
    (hs : c.program.Performs id s) : ∃ result, s.Typed c (some id) result := by
  induction hs with
  | body hf hb => exact ⟨_, h.compiled hf hb⟩
  | part _ ht ih =>
    obtain ⟨result, hs⟩ := ih
    exact ⟨result, hs.part ht⟩

/-- What a value of an array assignment is lowered to while the program runs is well typed. -/
theorem Expr.Typed.deferred (h : c.Finished g) {k : Option FunctionId} {dst : Expr}
    {values : List Node} {scope : Scope} {ty : Ty} {loc : Location} {v : Node} {f : FunctionId}
    {e : Expr} {c' : Context} (hk : (Expr.mk (.arrayAssign dst values scope) ty loc).Typed c k)
    (hv : v ∈ values) (hl : lowerExpr g v (.frozenIn c.program f scope) = .ok (e, c')) :
    e.Typed c k := by
  obtain ⟨es, ha, hes⟩ := hk.arrayAssigned
  -- The value comes to what it came to where the assignment stands.
  obtain ⟨e', he', hl'⟩ := Lower.forall₂_mem_left (h.replayed ha _ h.leads.completes f) hv
  obtain ⟨rfl, -⟩ := Prod.mk.inj (Except.ok.inj (hl'.symm.trans hl))
  exact hes e' he'

/-- **Every expression that a program holds is well typed.** -/
theorem Program.Holds.typed (h : c.Finished g) {e : Expr} (he : c.program.Holds g e) :
    ∃ k, e.Typed c k := by
  induction he with
  | stmt hs he =>
    obtain ⟨result, hs⟩ := hs.typed h
    exact ⟨_, hs.expr_of_mem he⟩
  | length hs ha => exact ((h.tables.symbols hs).array _ ha).2.2
  | operand _ hm ih =>
    obtain ⟨k, hk⟩ := ih
    exact ⟨k, hk.operand hm⟩
  | deferred _ hv hl ih =>
    obtain ⟨k, hk⟩ := ih
    exact ⟨k, hk.deferred h hv hl⟩

/-! ## Array assignments -/

theorem Program.ofSource_eq_ok {source : String} {p : Program}
    (h : Program.ofSource g source = .ok p) : ∃ root l c, Node.ofSource g .program source = .ok root ∧
      lower g root (.building .initial) = .ok (l, c) ∧ c.program = p := by
  simp only [Program.ofSource, Program.extend] at h
  split at h
  · cases h
  · rename_i root hr
    simp only [lowerProgram] at h
    cases hl : lower g root (.building .initial) with
    | error e => simp [hl] at h
    | ok r =>
      obtain ⟨l, c⟩ := r
      simp only [hl, Except.ok.injEq] at h
      exact ⟨root, l, c, hr, hl, h⟩

/-- **Values that are lowered while a program runs come to what they came to when it was built**:
lowering a source notes for each array assignment of the program what its values are lowered to, and
over the finished program, in any function and with the names that the assignment holds, each value
is lowered to exactly that. -/
theorem deferred_agrees {source : String} {p : Program} (h : Program.ofSource g source = .ok p) :
    ∃ root l c, Node.ofSource g .program source = .ok root ∧
      lower g root (.building .initial) = .ok (l, c) ∧ c.program = p ∧
      (∀ {e}, p.Holds g e → e.isArrayAssign = true → ∃ es, c.assigned e es) ∧
      ∀ {dst values scope ty loc es}, c.assigned (.mk (.arrayAssign dst values scope) ty loc) es →
        ∀ f, List.Forall₂ (fun v e =>
          lowerExpr g v (.frozenIn p f scope) = .ok (e, .frozenIn p f scope)) values es := by
  obtain ⟨root, l, c, hr, hl, rfl⟩ := Program.ofSource_eq_ok h
  have hc := lower_finished hr hl
  refine ⟨root, l, c, hr, hl, rfl, fun {e} he ha => ?_, fun ha f => ?_⟩
  · obtain ⟨k, hk⟩ := he.typed hc
    obtain ⟨op, ty, loc⟩ := e
    cases op <;> simp only [Expr.isArrayAssign, Expr.op_mk, Bool.false_eq_true] at ha
    obtain ⟨es, hes, -⟩ := hk.arrayAssigned
    exact ⟨es, hes⟩
  · exact hc.replayed ha _ hc.leads.completes f

/-- A function with an array whose values name a variable of an inner scope. -/
def shadowing : String :=
  "int k; int f(int i) \x7b int a[3]; \x7b int k; k = 7; a = \x7bk, i + k, sizeof(a)\x7d; \x7d "
    ++ "return a[1]; \x7d int late; struct s \x7b int x; \x7d; int main() \x7b return f(1); \x7d"

/-- The array assignment in the body of `shadowing`. -/
def Body.shadowed? : Body → Option (Expr × List Node × Scope × Ty × Location)
  | .compiled (.mk (.block [.mk (.block [_, .mk (.expr (.mk (.arrayAssign dst values scope) ty loc)) _])
      _, _]) _) => some (dst, values, scope, ty, loc)
  | _ => none

theorem Program.Holds.shadowed {p : Program} {id : FunctionId} {f : Function} {dst : Expr}
    {values : List Node} {scope : Scope} {ty : Ty} {loc : Location} (hf : p.functions[id]? = some f)
    (h : f.body.shadowed? = some (dst, values, scope, ty, loc)) :
    p.Holds g (.mk (.arrayAssign dst values scope) ty loc) := by
  unfold Body.shadowed? at h
  split at h
  · rename_i first _ _ _ _ _ place inner last outer hb
    cases h
    have inside : p.Performs id (.mk (.block [first, .mk (.expr (.mk (.arrayAssign dst values scope)
        ty loc)) place]) inner) := .part (.body hf hb) (by simp [Stmt.action, Action.stmts])
    have step : p.Performs id (.mk (.expr (.mk (.arrayAssign dst values scope) ty loc)) place) :=
      .part inside (by simp [Stmt.action, Action.stmts])
    exact .stmt step (by simp [Stmt.action, Action.exprs])
  · cases h

theorem deferred_agrees_shadowing : ∃ p dst values scope ty loc es,
    Program.ofSource .full shadowing = .ok p ∧
      p.Holds .full (.mk (.arrayAssign dst values scope) ty loc) ∧ values.length = 3 ∧
      ∀ f, List.Forall₂ (fun v e =>
        lowerExpr .full v (.frozenIn p f scope) = .ok (e, .frozenIn p f scope)) values es := by
  have run : (Program.ofSource .full shadowing).toOption.map (fun p =>
      (p.functions[4]?.bind fun f => f.body.shadowed?).map fun a => a.2.1.length) =
        some (some 3) := by
    rw [Program.ofSource_of_toList shadowing
      (toList_append_of_eq (String.ofList_eq.1 rfl) (String.ofList_eq.1 rfl))]
    decide +kernel
  obtain ⟨p, hp, found⟩ := Except.exists_ok_of_map run
  simp only [Option.map_eq_some_iff, Option.bind_eq_some_iff] at found
  obtain ⟨⟨dst, values, scope, ty, loc⟩, ⟨f, hf, ha⟩, hlen⟩ := found
  have held : p.Holds .full (.mk (.arrayAssign dst values scope) ty loc) := .shadowed hf ha
  obtain ⟨root, l, c, -, -, -, noted, agrees⟩ := deferred_agrees hp
  obtain ⟨es, hes⟩ := noted held rfl
  exact ⟨p, dst, values, scope, ty, loc, es, hp, held, hlen, agrees hes⟩

end MiniC
