/-
  Likeness of runs.

  A likeness is a property of families of runs, such as one run, two runs side by side or a run with
  every amount of fuel, that families of plain runs have and that is kept where runs follow each
  other.  All rules of execution keep it: where the parts that a rule asks an engine for are alike,
  and the calls are, what the rule makes of them is alike.  So what holds of the steps of a run holds
  of the run, and no property of runs needs the rules to be gone through again.
-/
import MiniC.Proofs.Plain
import MiniC.Proofs.TypeSoundness

namespace MiniC

/-- Run `x` and then, whether or not it stops, `y`. -/
def Run.lastly {α : Type} (x : Run α) (y : Run Unit) : Run α := do
  let outcome ← attempt x
  y
  conclude outcome

namespace Run
variable {α : Type}

/-- What runs last in any case, and never fails, does not change how `x` has ended. -/
theorem Plain.lastly_eq {y : Run Unit} (hy : y.Plain) (total : ∀ m, ∃ m', y m = .ok () m')
    (m : Machine) : ∃ m', Alike m m' ∧ ∀ control log seen, ∃ seen', Moment.Gains seen seen' ∧
      ∀ {x : Run α} {n r}, x n = conclude r (m.under control log seen) →
        lastly x y n = conclude r (m'.under control log seen') := by
  obtain ⟨q, m', hm, run⟩ := hy.run m
  refine ⟨m', hm, fun control log seen => ?_⟩
  obtain ⟨seen', hs, h⟩ := run control log seen
  refine ⟨seen', hs, fun {x n r} hx => ?_⟩
  obtain ⟨k, hk⟩ := total (m.under control log seen)
  cases q with
  | error f => rw [h] at hk; cases hk
  | ok u => rw [lastly, bind_of_ok (attempt_conclude hx), bind_of_ok h]

end Run

/-! ## Likenesses -/

/-- Whether an event tells what lies at an address: an array or a structure. -/
def Event.isShape : Event → Bool
  | array .. | struct .. => true
  | _ => false

theorem Event.isData_of_isShape {e : Event} (h : e.isShape = true) : e.isData = true := by
  cases e <;> first | rfl | cases h

/-- A property of families of runs that the ways of putting runs together keep. -/
structure Likeness (ι : Type) where
  Like : ∀ {α : Type}, (ι → Run α) → Prop
  plain : ∀ {α : Type} {x : Run α}, x.Plain → Like fun _ => x
  bind : ∀ {α β : Type} {x : ι → Run α} {f : ι → α → Run β},
    Like x → (∀ a, Like fun i => f i a) → Like fun i => x i >>= f i
  tell : ∀ {e : Event}, e.isData = true → e.isShape = false → Like fun _ => Run.emit e
  noted : ∀ {α : Type} {x : ι → Run α} (f : FunctionId), Like x → Like fun i => Run.noted f (x i)
  lastly : ∀ {α : Type} {x : ι → Run α} {y : Run Unit}, Like x → y.Plain →
    (∀ m, ∃ m', y m = .ok () m') → Like fun i => Run.lastly (x i) y

/-- A likeness that also holds where control is asked and where it is sent elsewhere. -/
structure Likeness.Paced {ι : Type} (S : Likeness ι) : Prop where
  checkpoint : ∀ loc : Location, S.Like fun _ => Run.checkpoint loc
  jump : ∀ {f : Machine → Machine},
    (∀ m control log seen, f (m.under control log seen) = (f m).under control log seen) →
    (∀ m, (f m).frames.names = m.frames.names) → (∀ m, (f m).memory = m.memory) →
    S.Like fun _ => (modify f : Run PUnit)

/-- A likeness that holds wherever an array or a structure is told of, whether or not it is there. -/
class Likeness.Shaped {ι : Type} (S : Likeness ι) : Prop where
  shape : ∀ {e : Event}, e.isShape = true → S.Like fun _ => Run.emit e

namespace Likeness
variable {ι : Type} (S : Likeness ι) {α β : Type}
open Run

theorem ite {p : Prop} [Decidable p] {x y : ι → Run α} (hx : S.Like x) (hy : S.Like y) :
    S.Like fun i => if p then x i else y i := by
  by_cases h : p
  · simpa only [if_pos h] using hx
  · simpa only [if_neg h] using hy

theorem pure (a : α) : S.Like fun _ => (Pure.pure a : Run α) := S.plain (plain_pure a)

theorem fault (f : Fault) : S.Like fun _ => (Run.fault f : Run α) := S.plain (plain_fault f)

theorem discard {x : ι → Run α} (h : S.Like x) : S.Like fun i => discard (x i) := by
  have hd : ∀ z : Run α, Functor.discard z = z >>= fun _ => Pure.pure PUnit.unit :=
    fun z => map_eq_pure_bind (fun _ => PUnit.unit) z
  simp only [hd]
  exact S.bind h fun _ => S.pure _

/-- A look at the machine that does not reach its control, its log and its moments. -/
theorem look {f : ι → Machine → Run α}
    (hf : ∀ i m control log seen, f i (m.under control log seen) = f i m)
    (h : ∀ m, S.Like fun i => f i m) : S.Like fun i => get >>= f i := by
  -- What is seen of a machine is what is seen of it under some one control.
  let bare : Machine → Machine := fun m => m.under .unlimited [] fun _ => False
  have seen : (get >>= fun m => Pure.pure (bare m) : Run Machine).Plain :=
    plain_get_bind (fun _ => plain_pure _) fun _ _ _ _ => rfl
  have hb : ∀ i, get >>= f i = (get >>= fun m => Pure.pure (bare m)) >>= f i := by
    intro i
    funext m
    exact (congrFun (hf i m ..) m).symm
  simp only [hb]
  exact S.bind (S.plain seen) h

theorem named {x : ι → Run α} (name : String) (h : S.Like x) :
    S.Like fun i => Engine.named name (x i) := by
  have enter : (modify fun m => { m with callStack := name :: m.callStack } : Run PUnit).Plain :=
    plain_modify (fun _ _ _ _ => rfl) fun _ => ⟨rfl, id, .refl _⟩
  have leave : (modify fun m => { m with callStack := m.callStack.tail } : Run PUnit).Plain :=
    plain_modify (fun _ _ _ _ => rfl) fun _ => ⟨rfl, id, .refl _⟩
  exact S.bind (S.plain enter) fun _ => S.lastly h leave fun m => ⟨_, rfl⟩

/-! ### Writing -/

theorem tellWrites (notices : List (Address × Word)) : S.Like fun _ => tellWrites notices := by
  induction notices with
  | nil => exact S.plain (plain_modify (fun _ _ _ _ => rfl) fun m => .refl m)
  | cons n ns ih => exact S.bind (S.tell (e := .wrote n.1 n.2) rfl rfl) fun _ => ih

theorem writeByte (a : Address) (b : UInt8) (loc : Location) : S.Like fun _ => writeByte a b loc := by
  rw [writeByte_eq]
  exact S.bind (S.plain (plain_changing _ _ _ .of_writeBytes)) fun _ => S.tellWrites _

theorem writeWord (a : Address) (w : Word) (loc : Location) : S.Like fun _ => writeWord a w loc := by
  rw [writeWord_eq]
  exact S.bind (S.plain (plain_changing _ _ _ .of_writeBytes)) fun _ => S.tellWrites _

theorem store (p : Place) (v : Value) (loc : Location) : S.Like fun _ => store p v loc :=
  S.ite (S.writeByte ..) (S.writeWord ..)

theorem writeBytes (base : Address) (e : MemoryError) (loc : Location) (bytes : List UInt8) :
    S.Like fun _ => writeBytes base e loc bytes := by
  have go : ∀ bs i, S.Like fun _ => writeBytes.go base e loc i bs := by
    intro bs
    induction bs with
    | nil => exact fun i => S.pure _
    | cons b bs ih =>
      exact fun i => S.bind (S.plain (plain_displaced ..)) fun _ =>
        S.bind (S.writeByte ..) fun _ => ih (i + 1)
  exact go bytes 0

theorem builtin (env : Env) (b : Builtin) (loc : Location) :
    S.Like fun _ => Engine.builtin env b loc := by
  have argument : ∀ id, S.Like fun _ => Engine.argument env id loc :=
    fun id => S.plain (Engine.plain_argument ..)
  cases b with
  | highlightIndex array index color =>
    refine S.bind (argument _) fun _ => S.bind (argument _) fun _ => S.bind (argument _) fun _ => ?_
    exact S.look (fun _ _ _ _ _ => rfl) fun _ => S.tell rfl rfl
  | clearHighlight array => exact S.bind (argument _) fun _ => S.tell rfl rfl
  | malloc size => exact S.bind (argument _) fun _ => S.plain (Engine.plain_malloc ..)
  | free pointer => exact S.bind (argument _) fun _ => S.plain (Engine.plain_free ..)

theorem bindParams (env : Env) (ids : List SymbolId) (vs : List Value) :
    S.Like fun _ => Engine.bindParams env ids vs := by
  induction ids generalizing vs with
  | nil => exact S.pure _
  | cons id ids ih =>
    cases vs with
    | nil => exact S.pure _
    | cons v vs =>
      exact S.bind (S.plain (Engine.plain_variablePlace ..)) fun _ => S.bind (S.store ..) fun _ => ih vs

theorem announceStruct [S.Shaped] (env : Env) (allocates : Option StructId) (returned : Option Value) :
    S.Like fun _ => Engine.announceStruct env allocates returned := by
  unfold Engine.announceStruct
  split
  · exact S.ite (Shaped.shape rfl) (S.pure _)
  · exact S.pure _

end Likeness

/-! ## Expressions -/

/-- The expressions that the rule of an expression asks the engine for. -/
inductive Expr.Asks (env : Env) : Expr → Expr → Prop
  | operand {e e'} : e' ∈ e.op.operands → Asks env e e'
  /-- What a value of an array assignment is lowered to. -/
  | deferred {dst values scope ty loc v f e c} : v ∈ values →
    lowerExpr env.grammar v (.frozenIn env.program f scope) = .ok (e, c) →
    Asks env (.mk (.arrayAssign dst values scope) ty loc) e

namespace Engine

/-- A call in an expression; a structure that it allocates is told of. -/
def callTold (env : Env) (engine : Engine) (id : FunctionId) (args : List Expr)
    (allocates : Option StructId) (loc : Location) : Run (Option Value) := do
  let returned ← engine.call env id args loc
  announceStruct env allocates returned
  return returned

theorem executeRule_call (env : Env) (engine : Engine) (id : FunctionId) (args : List Expr)
    (allocates : Option StructId) (ty : Ty) (loc : Location) :
    executeRule env engine (.mk (.call id args allocates) ty loc) =
      engine.callTold env id args allocates loc >>= fun returned =>
        pure (.value (returned.getD .void)) := by
  unfold callTold
  simp only [bind_assoc, pure_bind]
  rfl

end Engine

namespace Likeness
variable {ι : Type} {S : Likeness ι} {env : Env} {engine : ι → Engine}
open Run

theorem solve {e : Expr} (h : S.Like fun i => (engine i).execute e) :
    S.Like fun i => (engine i).solve e :=
  S.bind h fun _ => S.plain (plain_load ..)

theorem place {e : Expr} (h : S.Like fun i => (engine i).execute e) :
    S.Like fun i => (engine i).place e := by
  refine S.bind h fun r => ?_
  cases r with
  | value v => exact S.fault _
  | place p => exact S.pure _

theorem binary {op : BinaryOp} {left right : Expr} {loc : Location}
    (hl : S.Like fun i => (engine i).execute left) (hr : S.Like fun i => (engine i).execute right) :
    S.Like fun i => (engine i).binary op left right loc := by
  refine S.bind (solve hl) fun l => ?_
  simp only
  cases op.shortcut l.word with
  | some w => exact S.pure _
  | none => exact S.bind (solve hr) fun r => S.plain (plain_guard fun _ => plain_require ..)

theorem assign {dst src : Expr} {loc : Location} (hd : S.Like fun i => (engine i).execute dst)
    (hs : S.Like fun i => (engine i).execute src) :
    S.Like fun i => (engine i).assign env dst src loc := by
  refine S.ite ?_ ?_
  · refine S.bind (S.plain (plain_require ..)) fun _ => ?_
    exact S.bind (place hs) fun _ => S.bind (place hd) fun _ =>
      S.bind (S.plain (plain_readBytes ..)) fun _ => S.bind (S.writeBytes ..) fun _ => S.pure _
  · exact S.bind (solve hs) fun _ => S.bind (place hd) fun _ => S.bind (S.store ..) fun _ => S.pure _

theorem storeElements {f : FunctionId} {scope : Scope} {base : Address} {element : Ty}
    {nodes : List Node} (h : ∀ v ∈ nodes, ∀ {e c},
      lowerExpr env.grammar v (.frozenIn env.program f scope) = .ok (e, c) →
      S.Like fun i => (engine i).execute e) (n : Nat) :
    S.Like fun i => (engine i).storeElements env f scope base element n nodes := by
  induction nodes generalizing n with
  | nil => exact S.pure _
  | cons node nodes ih =>
    unfold Engine.storeElements
    cases hl : lowerExpr env.grammar node (.frozenIn env.program f scope) with
    | error e => exact S.fault _
    | ok r =>
      refine S.bind (solve (h node (by simp) hl)) fun _ => ?_
      refine S.bind (S.plain (plain_displaced ..)) fun _ => S.bind (S.store ..) fun _ => ?_
      exact ih (fun v hv => h v (by simp [hv])) (n + 1)

theorem arrayAssign {dst : Expr} {values : List Node} {scope : Scope} {loc : Location}
    (hd : S.Like fun i => (engine i).execute dst)
    (hv : ∀ f, ∀ v ∈ values, ∀ {e c},
      lowerExpr env.grammar v (.frozenIn env.program f scope) = .ok (e, c) →
      S.Like fun i => (engine i).execute e) :
    S.Like fun i => (engine i).arrayAssign env dst values scope loc := by
  refine S.bind hd fun r => ?_
  split
  · refine S.look (fun _ _ _ _ _ => rfl) fun m => ?_
    cases m.frames.current? with
    | none => exact S.fault _
    | some frame => exact S.bind (storeElements (hv _) 0) fun _ => S.pure _
  · exact S.fault _

theorem solveAll {es : List Expr} (h : ∀ e ∈ es, S.Like fun i => (engine i).execute e) :
    S.Like fun i => (engine i).solveAll es := by
  induction es with
  | nil => exact S.pure _
  | cons e es ih =>
    refine S.bind (solve (h e (by simp))) fun _ => ?_
    exact S.bind (ih fun e' h' => h e' (by simp [h'])) fun _ => S.pure _

/-- A call keeps a likeness of its arguments and of what is invoked. -/
theorem calls {id : FunctionId} {args : List Expr} {loc : Location}
    (h : ∀ e ∈ args, S.Like fun i => (engine i).execute e)
    (invoke : ∀ values, S.Like fun i => (engine i).invoke env id values loc) :
    S.Like fun i => (engine i).call env id args loc :=
  S.noted id (S.named _ (S.bind (solveAll h) fun _ => invoke _))

theorem callTold [S.Shaped] {id : FunctionId} {args : List Expr} {allocates : Option StructId}
    {loc : Location}
    (h : ∀ e ∈ args, S.Like fun i => (engine i).execute e)
    (invoke : ∀ values, S.Like fun i => (engine i).invoke env id values loc) :
    S.Like fun i => (engine i).callTold env id args allocates loc :=
  S.bind (calls h invoke) fun _ => S.bind (S.announceStruct ..) fun _ => S.pure _

/-- The rule of an expression keeps a likeness of the expressions that it asks for and of calls with
what they tell of. -/
theorem executeRule_of_told {e : Expr} (h : ∀ e', e.Asks env e' → S.Like fun i => (engine i).execute e')
    (call : ∀ id args allocates, e.op = .call id args allocates →
      S.Like fun i => (engine i).callTold env id args allocates e.loc) :
    S.Like fun i => Engine.executeRule env (engine i) e := by
  obtain ⟨op, ty, loc⟩ := e
  have part : ∀ e' ∈ op.operands, S.Like fun i => (engine i).execute e' :=
    fun e' he => h e' (.operand he)
  cases op with
  | const w => exact S.pure _
  | str id =>
    exact S.look (fun _ _ _ _ _ => rfl) fun _ => S.bind (S.plain (plain_require ..)) fun _ => S.pure _
  | var id => exact S.bind (S.plain (Engine.plain_variablePlace ..)) fun _ => S.pure _
  | member object offset array =>
    refine S.bind (place (part object (by simp [Operation.operands]))) fun _ => ?_
    exact S.bind (S.plain (plain_displaced ..)) fun _ => S.pure _
  | deref pointer =>
    refine S.bind (solve (part pointer (by simp [Operation.operands]))) fun _ => ?_
    exact S.plain (plain_guard fun _ => plain_pure _)
  | index base index scale =>
    refine S.bind (solve (part base (by simp [Operation.operands]))) fun _ => ?_
    refine S.bind (solve (part index (by simp [Operation.operands]))) fun _ => ?_
    exact S.plain (plain_guard fun _ => (plain_offsetAddress ..).bind fun _ => plain_pure _)
  | addressOf operand =>
    exact S.bind (place (part operand (by simp [Operation.operands]))) fun _ => S.pure _
  | unary op operand =>
    refine S.bind (solve (part operand (by simp [Operation.operands]))) fun _ => ?_
    exact S.bind (S.plain (plain_require ..)) fun _ => S.pure _
  | binary op left right =>
    have hl := part left (by simp [Operation.operands])
    exact S.bind (binary hl (part right (by simp [Operation.operands]))) fun _ => S.pure _
  | pointerOffset pointer offset scale subtract =>
    refine S.bind (solve (part pointer (by simp [Operation.operands]))) fun _ => ?_
    refine S.bind (solve (part offset (by simp [Operation.operands]))) fun _ => ?_
    exact S.bind (S.plain (plain_offsetAddress ..)) fun _ => S.pure _
  | pointerDiff left right scale =>
    refine S.bind (solve (part left (by simp [Operation.operands]))) fun _ => ?_
    refine S.bind (solve (part right (by simp [Operation.operands]))) fun _ => ?_
    exact S.bind (S.plain (plain_require ..)) fun _ => S.pure _
  | call id args allocates =>
    simp only [Engine.executeRule_call]
    exact S.bind (call id args allocates rfl) fun _ => S.pure _
  | assign dst src =>
    have hd := part dst (by simp [Operation.operands])
    exact assign hd (part src (by simp [Operation.operands]))
  | arrayAssign dst values scope =>
    have hd := part dst (by simp [Operation.operands])
    exact S.bind (arrayAssign hd fun _ _ hv _ _ hl => h _ (.deferred hv hl)) fun _ => S.pure _

/-- The rule of an expression keeps a likeness of the expressions that it asks for and of calls. -/
theorem executeRule [S.Shaped] {e : Expr}
    (h : ∀ e', e.Asks env e' → S.Like fun i => (engine i).execute e')
    (invoke : ∀ id args loc, S.Like fun i => (engine i).invoke env id args loc) :
    S.Like fun i => Engine.executeRule env (engine i) e := by
  refine executeRule_of_told h fun id args allocates ho => callTold (fun e' he => h e' ?_) fun _ => invoke ..
  exact .operand (by rw [ho]; exact he)

/-! ## Statements -/

theorem holds {condition : Option Expr}
    (h : ∀ e ∈ condition, S.Like fun i => (engine i).execute e) :
    S.Like fun i => (engine i).holds condition := by
  cases condition with
  | none => exact S.pure _
  | some e => exact S.bind (solve (h e rfl)) fun _ => S.pure _

theorem executeOption {e? : Option Expr} (h : ∀ e ∈ e?, S.Like fun i => (engine i).execute e) :
    S.Like fun i => (engine i).executeOption e? := by
  cases e? with
  | none => exact S.pure _
  | some e => exact S.discard (h e rfl)

theorem performAll {ss : List Stmt} (h : ∀ s ∈ ss, S.Like fun i => (engine i).perform s) :
    S.Like fun i => (engine i).performAll ss := by
  induction ss with
  | nil => exact S.pure _
  | cons s ss ih =>
    refine S.bind (h s (by simp)) fun _ => S.look (fun _ _ _ _ _ => rfl) fun _ => ?_
    exact S.ite (ih fun t ht => h t (by simp [ht])) (S.pure _)

namespace Paced
variable (paced : S.Paced)
include paced

theorem setFlow (flow : Flow) : S.Like fun _ => (modify fun m => { m with flow } : Run PUnit) :=
  paced.jump (fun _ _ _ _ => rfl) (fun _ => rfl) fun _ => rfl

theorem round {body : Stmt} (h : S.Like fun i => (engine i).perform body) :
    S.Like fun i => (engine i).round body := by
  refine S.bind h fun _ => S.look (fun _ _ _ _ _ => rfl) fun m => ?_
  have onward : ∀ b : Bool,
      S.Like fun _ => (do modify fun m => { m with flow := .normal }; return b : Run Bool) :=
    fun b => S.bind (paced.setFlow .normal) fun _ => S.pure b
  cases m.flow with
  | normal => exact S.pure _
  | breaks => exact onward false
  | continues => exact onward true
  | returns => exact S.pure _

theorem iterateRule {l : Loop} (hc : ∀ e ∈ l.condition, S.Like fun i => (engine i).execute e)
    (hn : ∀ e ∈ l.increment, S.Like fun i => (engine i).execute e)
    (hb : S.Like fun i => (engine i).perform l.body) (hl : S.Like fun i => (engine i).iterate l) :
    S.Like fun i => Engine.iterateRule (engine i) l := by
  refine S.bind (holds hc) fun _ => S.ite ?_ (S.pure _)
  refine S.bind (paced.round hb) fun _ => S.ite ?_ (S.pure _)
  exact S.bind (executeOption hn) fun _ => hl

end Paced

end Likeness

/-- The loop that an action goes on with. -/
def Action.loop? : Action → Option Loop
  | whileLoop c b | doWhile b c => some ⟨some c, none, b⟩
  | forLoop _ c n b => some ⟨c, n, b⟩
  | expr _ | block _ | ifElse .. | returns _ | breaks | continues | empty => none

namespace Likeness.Paced
variable {ι : Type} {S : Likeness ι} {engine : ι → Engine} (paced : S.Paced)
open Run
include paced

theorem act {a : Action} (he : ∀ e ∈ a.exprs, S.Like fun i => (engine i).execute e)
    (hs : ∀ s ∈ a.stmts, S.Like fun i => (engine i).perform s)
    (hl : ∀ l ∈ a.loop?, S.Like fun i => (engine i).iterate l) :
    S.Like fun i => (engine i).act a := by
  cases a with
  | expr e => exact S.discard (he e (by simp [Action.exprs]))
  | block body => exact performAll hs
  | ifElse condition thenBranch elseBranch =>
    refine S.bind (solve (he condition (by simp [Action.exprs]))) fun _ => ?_
    refine S.ite (hs thenBranch (by simp [Action.stmts])) ?_
    cases elseBranch with
    | none => exact S.pure _
    | some s => exact hs s (by simp [Action.stmts])
  | whileLoop condition body => exact hl _ rfl
  | doWhile body condition =>
    refine S.bind (paced.round (hs body (by simp [Action.stmts]))) fun _ => ?_
    exact S.ite (hl _ rfl) (S.pure _)
  | forLoop init condition increment body =>
    refine S.bind (executeOption fun e h => he e ?_) fun _ => hl _ rfl
    simp [Action.exprs, Option.mem_def.1 h]
  | returns value =>
    cases value with
    | none => exact paced.jump (fun _ _ _ _ => rfl) (fun _ => rfl) fun _ => rfl
    | some e =>
      refine S.bind (solve (he e (by simp [Action.exprs]))) fun _ => ?_
      exact paced.jump (fun _ _ _ _ => rfl) (fun _ => rfl) fun _ => rfl
  | breaks => exact paced.setFlow _
  | continues => exact paced.setFlow _
  | empty => exact S.pure _

theorem performRule {s : Stmt} (he : ∀ e ∈ s.action.exprs, S.Like fun i => (engine i).execute e)
    (hs : ∀ t ∈ s.action.stmts, S.Like fun i => (engine i).perform t)
    (hl : ∀ l ∈ s.action.loop?, S.Like fun i => (engine i).iterate l) :
    S.Like fun i => Engine.performRule (engine i) s := by
  have acts := paced.act he hs hl
  unfold Engine.performRule
  cases h : s.action with
  | block body =>
    rw [h] at hs
    exact performAll hs
  | _ =>
    rw [h] at acts
    exact S.bind (paced.checkpoint _) fun _ => acts

end Likeness.Paced

/-! ## Calls -/

/-- A likeness that also holds of calls: of telling of a frame, and of what runs in a frame. -/
structure Likeness.Framed {ι : Type} (S : Likeness ι) : Prop where
  announce : S.Like fun _ => Engine.announceFrame
  framed : ∀ {x : ι → Run Unit} (limit : Nat) (loc : Location) (id : FunctionId) (f : Function),
    S.Like x → S.Like fun i => Engine.framed limit loc id f (x i)

namespace Engine

/-- Bind a local variable to its region and, if it is an array, tell of it. -/
def giveLocal (env : Env) (engine : Engine) (id : SymbolId) (a : Address) : Run Unit := do
  bindLocal (env.program.symbol id) id a
  engine.registerArray (env.program.symbol id) a

/-- Bind a global to its region and, if it is an array, tell of it. -/
def giveGlobal (env : Env) (engine : Engine) (id : SymbolId) (a : Address) : Run Unit := do
  modify fun m => { m with frames := m.frames.bindGlobal id a (env.program.symbol id).size }
  engine.registerArray (env.program.symbol id) a

theorem allocateLocals_cons_eq (env : Env) (engine : Engine) (id : SymbolId) (ids : List SymbolId) :
    engine.allocateLocals env (id :: ids) = (do
      let a ← Run.allocate (env.program.symbol id).size (env.program.symbol id).declaredAt
      engine.giveLocal env id a
      engine.allocateLocals env ids) := by
  simp only [allocateLocals_cons, giveLocal, bind_assoc]

end Engine

namespace Likeness
variable {ι : Type} {S : Likeness ι} {env : Env} {engine : ι → Engine}
open Run

theorem registerArray [S.Shaped] {symbol : Symbol} (h : ∀ spec, symbol.array = some spec →
    S.Like fun i => (engine i).execute spec.lengthExpr) (a : Address) :
    S.Like fun i => (engine i).registerArray symbol a := by
  unfold Engine.registerArray
  split
  · rename_i spec element hspec helement
    exact S.bind (solve (h spec hspec)) fun _ => Shaped.shape rfl
  · exact S.pure _

theorem giveLocal [S.Shaped] {id : SymbolId} (h : ∀ spec,
    (env.program.symbol id).array = some spec → S.Like fun i => (engine i).execute spec.lengthExpr)
    (a : Address) : S.Like fun i => (engine i).giveLocal env id a :=
  S.bind (S.plain (Engine.plain_bindLocal ..)) fun _ => registerArray h a

theorem giveGlobal [S.Shaped] {id : SymbolId} (h : ∀ spec,
    (env.program.symbol id).array = some spec → S.Like fun i => (engine i).execute spec.lengthExpr)
    (a : Address) : S.Like fun i => (engine i).giveGlobal env id a := by
  have bound : (modify fun m =>
      { m with frames := m.frames.bindGlobal id a (env.program.symbol id).size } : Run PUnit).Plain :=
    plain_modify (fun _ _ _ _ => rfl) fun _ => ⟨rfl, fun h => h, .refl _⟩
  exact S.bind (S.plain bound) fun _ => registerArray h a

theorem allocateLocals_of_given {ids : List SymbolId}
    (h : ∀ id ∈ ids, ∀ a, S.Like fun i => (engine i).giveLocal env id a) :
    S.Like fun i => (engine i).allocateLocals env ids := by
  induction ids with
  | nil => exact S.pure _
  | cons id ids ih =>
    simp only [Engine.allocateLocals_cons_eq]
    refine S.bind (S.plain (plain_allocate ..)) fun a => ?_
    exact S.bind (h id (by simp) a) fun _ => ih fun id' h' => h id' (by simp [h'])

theorem allocateLocals [S.Shaped] {ids : List SymbolId}
    (h : ∀ id ∈ ids, ∀ spec, (env.program.symbol id).array = some spec →
      S.Like fun i => (engine i).execute spec.lengthExpr) :
    S.Like fun i => (engine i).allocateLocals env ids :=
  allocateLocals_of_given fun id hid a => giveLocal (h id hid) a

theorem runBody {f : Function} {loc : Location}
    (h : ∀ s, f.body = .compiled s → S.Like fun i => (engine i).perform s) :
    S.Like fun i => (engine i).runBody env f loc := by
  unfold Engine.runBody
  cases hb : f.body with
  | compiled s => exact h s hb
  | builtin b => exact S.builtin ..
  | declared => exact S.fault _

theorem Framed.invoke_of_given (framed : S.Framed) {id : FunctionId} {args : List Value} {loc : Location}
    (hl : ∀ local_ ∈ (env.program.function id).locals, ∀ a,
      S.Like fun i => (engine i).giveLocal env local_ a)
    (hb : ∀ s, (env.program.function id).body = .compiled s → S.Like fun i => (engine i).perform s) :
    S.Like fun i => (engine i).invoke env id args loc := by
  simp only [Engine.invoke_eq]
  refine framed.framed _ loc id _ (S.bind (S.bind (allocateLocals_of_given hl) fun _ => ?_) fun _ => runBody hb)
  exact S.bind (S.bindParams ..) fun _ => framed.announce

theorem Framed.invoke [S.Shaped] (framed : S.Framed) {id : FunctionId} {args : List Value}
    {loc : Location} (hl : ∀ local_ ∈ (env.program.function id).locals, ∀ spec,
      (env.program.symbol local_).array = some spec → S.Like fun i => (engine i).execute spec.lengthExpr)
    (hb : ∀ s, (env.program.function id).body = .compiled s → S.Like fun i => (engine i).perform s) :
    S.Like fun i => (engine i).invoke env id args loc :=
  framed.invoke_of_given (fun v hv a => giveLocal (hl v hv) a) hb

end Likeness

/-! ## Engines and runs -/

/-- Engines that are alike in all that they can be asked for. -/
structure Engine.Like {ι : Type} (S : Likeness ι) (engine : ι → Engine) : Prop where
  execute : ∀ e, S.Like fun i => (engine i).execute e
  perform : ∀ s, S.Like fun i => (engine i).perform s
  iterate : ∀ l, S.Like fun i => (engine i).iterate l

/-- The engine that the rules make of an engine. -/
def Engine.next (env : Env) (engine : Engine) : Engine :=
  ⟨executeRule env engine, performRule engine, iterateRule engine⟩

theorem Engine.Like.next {ι : Type} {S : Likeness ι} [S.Shaped] {engine : ι → Engine} {env : Env}
    (h : Engine.Like S engine) (paced : S.Paced)
    (invoke : ∀ id args loc, S.Like fun i => (engine i).invoke env id args loc) :
    Engine.Like S fun i => (engine i).next env where
  execute _ := Likeness.executeRule (fun e' _ => h.execute e') invoke
  perform _ := paced.performRule (fun e _ => h.execute e) (fun s _ => h.perform s) fun l _ => h.iterate l
  iterate l := paced.iterateRule (fun e _ => h.execute e) (fun e _ => h.execute e) (h.perform l.body)
    (h.iterate l)

namespace Run

theorem plain_finish : finish.Plain := by
  refine plain_get_bind (fun m => ?_) fun _ _ _ _ => rfl
  have globals : (modify fun m => { m with frames := m.frames.dropGlobals } : Run PUnit).Plain :=
    plain_modify (fun _ _ _ _ => rfl) fun _ => ⟨rfl, id, .refl _⟩
  have strings : (modify fun m => { m with strings := #[] } : Run PUnit).Plain :=
    plain_modify (fun _ _ _ _ => rfl) fun _ => ⟨rfl, id, .refl _⟩
  have rest : (modify fun m => { m with callStack := [], pending := none, flow := .normal } :
      Run PUnit).Plain := plain_modify (fun _ _ _ _ => rfl) fun _ => ⟨rfl, fun _ => rfl, .refl _⟩
  refine globals.bind fun _ => (plain_discard (plain_releaseAll _)).bind fun _ => ?_
  refine plain_get_bind (fun m => ?_) fun _ _ _ _ => rfl
  exact strings.bind fun _ => (plain_discard (plain_releaseAll _)).bind fun _ => rest

theorem allocateGlobals_cons (env : Env) (engine : Engine) (id : SymbolId) (ids : List SymbolId) :
    allocateGlobals env engine (id :: ids) = (do
      let a ← allocate (env.program.symbol id).size (env.program.symbol id).declaredAt
      engine.giveGlobal env id a
      allocateGlobals env engine ids) := by
  rw [allocateGlobals]
  simp only [Engine.giveGlobal, bind_assoc]

/-- What a run is between its set-up and its end: the call of a function as the first one. -/
def first (env : Env) (engine : Engine) (id : FunctionId) (args : List Word) : Run (Option Value) := do
  start env engine
  let f := env.program.function id
  let values := List.zipWith (fun p w => Value.mk (env.program.symbol p).ty w) f.params args
  noted id (Engine.named f.name (engine.invoke env id values f.definedAt))

theorem call_eq (env : Env) (fuel : Nat) (name : String) (args : List Word) :
    call env fuel name args = (do
      let id ← require (env.program.function? name) (.noEntryPoint name)
      if (env.program.function id).params.length ≠ args.length then
        fault (.argumentCount name (env.program.function id).params.length args.length)
      let returned ← lastly (first env (engine env fuel) id args) finish
      return returned.map Value.word) := by
  unfold call lastly first
  simp only [bind_assoc]

end Run

namespace Likeness
variable {ι : Type} {S : Likeness ι} {env : Env} {engine : ι → Engine}
open Run

theorem start_of_given (h : ∀ id ∈ env.program.globals, ∀ a, S.Like fun i => (engine i).giveGlobal env id a) :
    S.Like fun i => start env (engine i) := by
  have globals : ∀ ids, (∀ id ∈ ids, ∀ a, S.Like fun i => (engine i).giveGlobal env id a) →
      S.Like fun i => allocateGlobals env (engine i) ids := by
    intro ids hi
    induction ids with
    | nil => exact S.pure _
    | cons id ids ih =>
      simp only [allocateGlobals_cons]
      refine S.bind (S.plain (plain_allocate ..)) fun a => ?_
      exact S.bind (hi id (by simp) a) fun _ => ih fun id' h' => hi id' (by simp [h'])
  have strings : ∀ texts, S.Like fun _ => allocateStrings texts := by
    intro texts
    induction texts with
    | nil => exact S.pure _
    | cons text texts ih =>
      refine S.bind (S.plain (plain_allocate ..)) fun a => ?_
      have kept : (modify fun m => { m with strings := m.strings.push a } : Run PUnit).Plain :=
        plain_modify (fun _ _ _ _ => rfl) fun _ => ⟨rfl, id, .refl _⟩
      exact S.bind (S.plain kept) fun _ => S.bind (S.writeBytes ..) fun _ => ih
  exact S.bind (globals _ h) fun _ => strings _

theorem start [S.Shaped] (h : ∀ id ∈ env.program.globals, ∀ spec,
    (env.program.symbol id).array = some spec → S.Like fun i => (engine i).execute spec.lengthExpr) :
    S.Like fun i => start env (engine i) :=
  start_of_given fun id hid a => giveGlobal (h id hid) a

/-- A run is like what happens between its set-up and its end. -/
theorem call {fuel : ι → Nat} {name : String} {args : List Word}
    (h : ∀ id, env.program.function? name = some id →
      S.Like fun i => first env (MiniC.engine env (fuel i)) id args) :
    S.Like fun i => Run.call env (fuel i) name args := by
  simp only [call_eq]
  cases hn : env.program.function? name with
  | none => exact S.fault _
  | some id =>
    have ends := S.bind (S.lastly (h id hn) plain_finish finish_ok) fun r => S.pure (r.map Value.word)
    exact S.ite (S.bind (S.fault _) fun _ => ends) ends

end Likeness

namespace Session

/-- A session that has compiled a source runs what lowering has arrived at. -/
theorem runs_of_compile {s t : Session} {source : String} (h : s.compile source = .ok t) :
    ∃ c, t.env.Runs c := by
  obtain ⟨p, hp, rfl⟩ := compile_eq_ok.1 h
  obtain ⟨root, l, c, hroot, hlower, rfl⟩ := Program.ofSource_eq_ok hp
  exact ⟨c, lower_finished hroot hlower, rfl⟩

end Session

end MiniC
