/-
  Where faults are.

  Every fault of a run names a place that its code was given, and code is given the places of the
  tree that it is lowered from.  So where all places of a program satisfy `Q`, the faults of its runs
  do (`Run.Blames`), those of the trees that a run lowers included.

  * `Context.Step.placed`: each step of lowering keeps the places of the tables.
  * `engine_blames`: the rules of execution blame places of the code only.
  * `positions_real`: a source that does not compile has its error in the source, and a run of one
    that does has its faults in the source or nowhere.
-/
import MiniC.Proofs.LoweringSteps
import MiniC.Proofs.Likeness

namespace MiniC

variable {Q : Location → Prop}

/-! ## Places of programs -/

/-- The places of all variables, functions and bodies of a program satisfy `Q`. -/
structure Program.Placed (Q : Location → Prop) (p : Program) : Prop where
  symbols : ∀ {i : Nat} {s}, p.symbols[i]? = some s → Q s.declaredAt ∧ ArraySpec.Placed Q s.array
  functions : ∀ {i : Nat} {f}, p.functions[i]? = some f →
    Q f.definedAt ∧ ∀ body, f.body = .compiled body → body.Placed Q

theorem Program.initial_definedAt {i : Nat} {f : Function}
    (h : Program.initial.functions[i]? = some f) : f.definedAt = .nowhere := by
  have hmem : f ∈ Program.initial.functions.toList := Array.mem_def.1 (Array.mem_of_getElem? h)
  simp only [initial, installBuiltins, addBuiltin, addFunction, addParameter, addSymbol, empty] at hmem
  simp at hmem
  rcases hmem with rfl | rfl | rfl | rfl
  all_goals rfl

theorem Program.placed_initial (h : Q .nowhere) : Program.initial.Placed Q where
  symbols hs := by
    obtain ⟨array, -, declared⟩ := Program.initial_symbols hs
    rw [array, declared]
    exact ⟨h, fun _ hb => by cases hb⟩
  functions {i f} hf := by
    have hmem : f ∈ Program.initial.functions.toList := Array.mem_def.1 (Array.mem_of_getElem? hf)
    obtain ⟨-, -, -, -, b, hb, -⟩ := Program.initial_functions hmem
    refine ⟨Program.initial_definedAt hf ▸ h, fun body hbody => ?_⟩
    rw [hb] at hbody
    cases hbody

namespace Program.Placed
variable {p : Program}

theorem symbol (h : p.Placed Q) (hn : Q .nowhere) (id : SymbolId) :
    Q (p.symbol id).declaredAt ∧ ArraySpec.Placed Q (p.symbol id).array := by
  rcases p.symbol_cases id with hs | hs
  · exact h.symbols hs
  · rw [hs]
    exact ⟨hn, fun _ hb => by cases hb⟩

theorem function (h : p.Placed Q) (hn : Q .nowhere) (id : FunctionId) :
    Q (p.function id).definedAt ∧ ∀ body, (p.function id).body = .compiled body → body.Placed Q := by
  rcases p.function_cases id with hf | hf
  · exact h.functions hf
  · rw [hf]
    exact ⟨hn, fun _ hb => by cases hb⟩

theorem pushSymbol (h : p.Placed Q) {s : Symbol} (hd : Q s.declaredAt)
    (ha : ArraySpec.Placed Q s.array) : Placed Q { p with symbols := p.symbols.push s } where
  symbols ht := by
    rcases Program.getElem?_push_cases ht with ht | ⟨rfl, -⟩
    · exact h.symbols ht
    · exact ⟨hd, ha⟩
  functions := h.functions

theorem modifyFunction (h : p.Placed Q) (id : FunctionId) {change : Function → Function}
    (hd : ∀ f, (change f).definedAt = f.definedAt)
    (hb : ∀ f body, (change f).body = .compiled body → f.body = .compiled body ∨ body.Placed Q) :
    (p.modifyFunction id change).Placed Q where
  symbols := h.symbols
  functions {i f'} hf' := by
    rcases Context.functions_modify hf' with ⟨-, hf⟩ | ⟨-, f, hf, rfl⟩
    · exact h.functions hf
    · obtain ⟨defined, bodies⟩ := h.functions hf
      refine ⟨hd f ▸ defined, fun body hbody => ?_⟩
      rcases hb f body hbody with hbody | hbody
      · exact bodies body hbody
      · exact hbody

end Program.Placed

/-- **A step of lowering keeps the places of the tables.** -/
theorem Context.Step.placed {c c' : Context} (h : c.Step Q c') (hc : c.program.Placed Q) :
    c'.program.Placed Q := by
  cases h with
  | intern text =>
    obtain ⟨strings, stringIds, added⟩ := c.program.internString_strings text
    rw [added]
    exact ⟨hc.symbols, hc.functions⟩
  | assign a es =>
    rw [Context.noteAssigned]
    split <;> exact hc
  | scope | beginStruct | member => exact hc
  | finishStruct => exact ⟨hc.symbols, hc.functions⟩
  | beginFunction name result _ hl =>
    refine ⟨hc.symbols, fun {i f} hf => ?_⟩
    rcases Program.getElem?_push_cases hf with hf | ⟨rfl, -⟩
    · exact hc.functions hf
    · exact ⟨hl, fun _ hb => by cases hb⟩
  | finishFunction _ hb =>
    refine hc.modifyFunction _ (fun _ => rfl) fun f body hbody => .inr ?_
    cases hbody
    exact hb
  | global _ _ hd ha => exact ⟨(hc.pushSymbol hd ha).symbols, hc.functions⟩
  | variable_ _ _ hd ha =>
    exact (hc.pushSymbol hd ha).modifyFunction _ (fun _ => rfl) fun _ _ hb => .inl hb

/-! ## Blame -/

/-- A run that stops with a fault has it at a place that satisfies `Q`, if it has a place. -/
def Stop.At (Q : Location → Prop) : Stop → Prop
  | fault f => ∀ l, f.loc? = some l → Q l
  | aborted | exhausted => True

/-- The faults of `x` are at places that satisfy `Q`. -/
def Run.Blames {α : Type} (Q : Location → Prop) (x : Run α) : Prop :=
  ∀ m e m', x m = .error e m' → e.At Q

namespace Run
variable {α β : Type} {x : Run α}

theorem blames_of_total (h : ∀ m e m', ¬ x m = .error e m') : x.Blames Q :=
  fun m e m' hx => absurd hx (h m e m')

theorem blames_pure (a : α) : (pure a : Run α).Blames Q := blames_of_total fun _ _ _ => pure_ne_error

theorem blames_get : (get : Run Machine).Blames Q := blames_of_total fun _ _ _ => get_ne_error

theorem blames_set (n : Machine) : (set n : Run PUnit).Blames Q :=
  blames_of_total fun _ _ _ => set_ne_error

theorem blames_modify (f : Machine → Machine) : (modify f : Run PUnit).Blames Q :=
  blames_of_total fun _ _ _ => modify_ne_error

theorem blames_throw {e : Stop} (h : e.At Q) : (throw e : Run α).Blames Q := by
  intro m e' m' hx
  obtain ⟨rfl, -⟩ := throw_eq_error.1 hx
  exact h

theorem blames_fault {f : Fault} (h : ∀ l, f.loc? = some l → Q l) : (fault f : Run α).Blames Q :=
  blames_throw h

/-- A fault that has one place. -/
theorem blames_at {f : Fault} {loc : Location} (hf : f.loc? = some loc) (h : Q loc) :
    (fault f : Run α).Blames Q := by
  refine blames_fault fun l hl => ?_
  rw [hf] at hl
  cases hl
  exact h

theorem blames_require {o : Option α} {f : Fault} {loc : Location} (hf : f.loc? = some loc)
    (h : Q loc) : (require o f).Blames Q := by
  cases o with
  | none => exact blames_at hf h
  | some a => exact blames_pure a

theorem Blames.bind {f : α → Run β} (hx : x.Blames Q) (hf : ∀ a, (f a).Blames Q) :
    (x >>= f).Blames Q := by
  intro m e m' h
  rcases bind_eq_error.1 h with h | ⟨a, n, -, h⟩
  · exact hx m e m' h
  · exact hf a n e m' h

theorem Blames.discard (hx : x.Blames Q) : (discard x).Blames Q :=
  fun m e m' h => hx m e m' (discard_eq_error.1 h)

theorem Blames.noted (f : FunctionId) (hx : x.Blames Q) : (noted f x).Blames Q := by
  intro m e m' h
  obtain ⟨n, h, -⟩ := noted_eq_error.1 h
  exact hx m.afresh e n h

/-- What goes on after `x` has ended may stop as `x` did. -/
theorem Blames.attempt_bind {f : Except Stop α → Run β} (hx : x.Blames Q)
    (hf : ∀ r, (∀ e, r = .error e → e.At Q) → (f r).Blames Q) : (attempt x >>= f).Blames Q := by
  intro m e m' h
  rcases bind_eq_error.1 h with h | ⟨r, n, hr, h⟩
  · exact absurd h attempt_ne_error
  · refine hf r (fun e' he => ?_) n e m' h
    rcases attempt_eq_ok.1 hr with ⟨a, -, rfl⟩ | ⟨e'', hx', rfl⟩
    · cases he
    · cases he
      exact hx m e' n hx'

theorem blames_conclude {r : Except Stop α} (h : ∀ e, r = .error e → e.At Q) :
    (conclude r).Blames Q := by
  intro m e m' hx
  exact h e (conclude_eq_error.1 hx).1

theorem blames_ite {p : Prop} [Decidable p] {x y : Run α} (hx : x.Blames Q) (hy : y.Blames Q) :
    (if p then x else y).Blames Q := by
  by_cases h : p
  · rwa [if_pos h]
  · rwa [if_neg h]

/-- A check in front of `x`. -/
theorem blames_guard {p : Prop} [Decidable p] {f : Fault} {loc : Location} {x : PUnit → Run α}
    (hf : f.loc? = some loc) (hl : Q loc) (hx : ∀ u, (x u).Blames Q) :
    (if p then fault f >>= x else x ()).Blames Q :=
  blames_ite ((blames_at hf hl).bind hx) (hx ())

/-! ### Storage -/

variable {loc : Location} (hl : Q loc)

theorem blames_emit (e : Event) : (emit e).Blames Q := blames_modify _

theorem blames_checkpoint (loc : Location) : (checkpoint loc).Blames Q := by
  refine (blames_emit _).bind fun _ => blames_get.bind fun m => (blames_set _).bind fun _ => ?_
  split
  · exact blames_pure _
  · exact blames_throw trivial

theorem blames_release (a : Address) : (release a).Blames Q := by
  refine blames_get.bind fun m => ?_
  split
  · exact (blames_set _).bind fun _ => blames_pure _
  · exact (blames_set _).bind fun _ => blames_pure _

theorem blames_releaseAll (as : List Address) : (releaseAll as).Blames Q := by
  induction as with
  | nil => exact blames_pure _
  | cons a as ih => exact (blames_release a).bind fun _ => ih.bind fun _ => blames_pure _

include hl

theorem blames_allocate (size : Nat) : (allocate size loc).Blames Q := by
  refine blames_get.bind fun m => ?_
  split
  · exact (blames_set _).bind fun _ => blames_pure _
  · exact blames_at rfl hl

theorem blames_writeByte (a : Address) (b : UInt8) : (writeByte a b loc).Blames Q := by
  refine blames_get.bind fun m => ?_
  split
  · exact blames_modify _
  · exact blames_at rfl hl

theorem blames_writeWord (a : Address) (w : Word) : (writeWord a w loc).Blames Q := by
  refine blames_get.bind fun m => ?_
  split
  · exact blames_modify _
  · exact blames_at rfl hl

theorem blames_readByte (a : Address) : (readByte a loc).Blames Q := by
  refine blames_get.bind fun m => ?_
  split
  · exact blames_pure _
  · exact blames_at rfl hl

theorem blames_readWord (a : Address) : (readWord a loc).Blames Q := by
  refine blames_get.bind fun m => ?_
  split
  · exact blames_pure _
  · exact blames_at rfl hl

theorem blames_loadPlace (p : Place) : (loadPlace p loc).Blames Q := by
  refine blames_ite (blames_pure _) (blames_guard rfl hl fun _ => ?_)
  refine blames_ite ((blames_readByte hl _).bind fun _ => blames_pure _) ?_
  exact (blames_readWord hl _).bind fun _ => blames_pure _

theorem blames_load (r : Resolved) : (load r loc).Blames Q := by
  cases r with
  | value v => exact blames_pure v
  | place p => exact blames_loadPlace hl p

theorem blames_store (p : Place) (v : Value) : (store p v loc).Blames Q :=
  blames_ite (blames_writeByte hl _ _) (blames_writeWord hl _ _)

theorem blames_displaced (base : Address) (offset : Nat) (e : MemoryError) :
    (displaced base offset e loc).Blames Q :=
  blames_ite (blames_pure _) (blames_at rfl hl)

theorem blames_offsetAddress (base : Value) (index : Word) (scale : Nat) (subtract : Bool) :
    (offsetAddress base index scale subtract loc).Blames Q :=
  blames_require rfl hl

theorem blames_readBytes (base : Address) (size : Nat) : (readBytes base loc size).Blames Q := by
  have go : ∀ n i, (readBytes.go base loc i n).Blames Q := by
    intro n
    induction n with
    | zero => exact fun i => blames_pure _
    | succ n ih =>
      exact fun i => (blames_displaced hl _ _ _).bind fun _ => (blames_readByte hl _).bind fun _ =>
        (ih (i + 1)).bind fun _ => blames_pure _
  exact go size 0

theorem blames_writeBytes (base : Address) (e : MemoryError) (bytes : List UInt8) :
    (writeBytes base e loc bytes).Blames Q := by
  have go : ∀ bs i, (writeBytes.go base e loc i bs).Blames Q := by
    intro bs
    induction bs with
    | nil => exact fun i => blames_pure _
    | cons b bs ih =>
      exact fun i => (blames_displaced hl _ _ _).bind fun _ => (blames_writeByte hl _ _).bind fun _ =>
        ih (i + 1)
  exact go bytes 0

end Run

/-! ## The rules of execution -/

/-- The places of a loop satisfy `Q`. -/
structure Loop.Placed (Q : Location → Prop) (l : Loop) : Prop where
  condition : ∀ e ∈ l.condition, e.Placed Q
  increment : ∀ e ∈ l.increment, e.Placed Q
  body : l.body.Placed Q

/-- An engine whose faults are where the code is that it is given. -/
structure Engine.Blames (Q : Location → Prop) (engine : Engine) : Prop where
  execute : ∀ {e}, e.Placed Q → (engine.execute e).Blames Q
  perform : ∀ {s}, s.Placed Q → (engine.perform s).Blames Q
  iterate : ∀ {l}, l.Placed Q → (engine.iterate l).Blames Q

/-- A program whose places satisfy `Q`, as does the place of what is nowhere. -/
structure Env.Placed (Q : Location → Prop) (env : Env) : Prop where
  program : env.program.Placed Q
  nowhere : Q .nowhere

namespace Engine
open Run

variable {env : Env} {engine : Engine}

theorem blames_variablePlace {loc : Location} (hl : Q loc) (id : SymbolId) (ty : Ty) :
    (variablePlace env id ty loc).Blames Q :=
  blames_get.bind fun _ => (blames_require rfl hl).bind fun _ => blames_pure _

theorem blames_pointerDiff {loc : Location} (hl : Q loc) (left right : Value) (scale : Nat) :
    (pointerDiff left right scale loc).Blames Q :=
  blames_require rfl hl

theorem blames_argument {loc : Location} (hl : Q loc) (id : SymbolId) :
    (argument env id loc).Blames Q :=
  (blames_variablePlace hl _ _).bind fun _ => blames_loadPlace hl _

theorem blames_malloc {loc : Location} (hl : Q loc) (size : Word) : (malloc size loc).Blames Q := by
  unfold malloc
  refine blames_guard rfl hl fun _ => ?_
  exact (blames_allocate hl _).bind fun _ => blames_modify _

theorem blames_free {loc : Location} (hl : Q loc) (a : Address) : (free a loc).Blames Q := by
  refine blames_ite (blames_pure _) (blames_get.bind fun m => blames_guard rfl hl fun _ => ?_)
  refine (blames_modify _).bind fun _ => (blames_release a).bind fun r => ?_
  split
  · exact blames_pure _
  · exact blames_at rfl hl

theorem blames_builtin {loc : Location} (hl : Q loc) (b : Builtin) : (builtin env b loc).Blames Q := by
  cases b with
  | highlightIndex array index color =>
    refine (blames_argument hl _).bind fun _ => (blames_argument hl _).bind fun _ =>
      (blames_argument hl _).bind fun _ => blames_get.bind fun _ => blames_emit _
  | clearHighlight array => exact (blames_argument hl _).bind fun _ => blames_emit _
  | malloc size => exact (blames_argument hl _).bind fun _ => blames_malloc hl _
  | free pointer => exact (blames_argument hl _).bind fun _ => blames_free hl _

theorem blames_bindParams (he : env.Placed Q) (ids : List SymbolId) (vs : List Value) :
    (bindParams env ids vs).Blames Q := by
  induction ids generalizing vs with
  | nil => exact blames_pure _
  | cons id ids ih =>
    have hd := (he.program.symbol he.nowhere id).1
    cases vs with
    | nil => exact blames_pure _
    | cons v vs =>
      exact (blames_variablePlace hd _ _).bind fun _ => (blames_store hd _ _).bind fun _ => ih vs

theorem blames_announceFrame : announceFrame.Blames Q := by
  refine blames_get.bind fun m => ?_
  split
  · exact blames_pure _
  · exact blames_emit _

theorem blames_leaveFrame : leaveFrame.Blames Q := by
  refine blames_get.bind fun m => ?_
  split
  · exact blames_pure _
  · refine (blames_modify _).bind fun _ => (blames_releaseAll _).bind fun _ => ?_
    exact (blames_emit _).bind fun _ => blames_pure _

theorem blames_announceStruct (allocates : Option StructId) (returned : Option Value) :
    (announceStruct env allocates returned).Blames Q := by
  unfold announceStruct
  split
  · exact blames_ite (blames_emit _) (blames_pure _)
  · exact blames_pure _

theorem blames_callResult (f : Function) (returned : Option Value) :
    (callResult f returned).Blames Q := by
  refine blames_ite (blames_pure _) ?_
  split
  · exact blames_pure _
  · exact blames_fault nofun

theorem blames_named {α : Type} {x : Run α} (name : String) (hx : x.Blames Q) :
    (named name x).Blames Q :=
  (blames_modify _).bind fun _ => hx.attempt_bind fun _ hr => (blames_modify _).bind fun _ =>
    blames_conclude hr

namespace Blames
variable (h : engine.Blames Q)
include h

theorem solve {e : Expr} (he : e.Placed Q) : (engine.solve e).Blames Q :=
  (h.execute he).bind fun _ => blames_load he.loc _

theorem place {e : Expr} (he : e.Placed Q) : (engine.place e).Blames Q := by
  refine (h.execute he).bind fun r => ?_
  cases r with
  | value v => exact blames_at rfl he.loc
  | place p => exact blames_pure p

theorem registerArray {symbol : Symbol} (hs : ArraySpec.Placed Q symbol.array) (a : Address) :
    (engine.registerArray symbol a).Blames Q := by
  unfold Engine.registerArray
  split
  · rename_i spec element hspec _
    exact (h.solve (hs spec hspec)).bind fun _ => blames_emit _
  · exact blames_pure _

theorem binary {op : BinaryOp} {left right : Expr} {loc : Location} (hl : left.Placed Q)
    (hr : right.Placed Q) (hloc : Q loc) : (engine.binary op left right loc).Blames Q := by
  refine (h.solve hl).bind fun l => ?_
  simp only
  split
  · exact blames_pure _
  · refine (h.solve hr).bind fun r => blames_guard rfl hloc fun _ => blames_require rfl hloc

theorem assign {dst src : Expr} {loc : Location} (hd : dst.Placed Q) (hs : src.Placed Q)
    (hl : Q loc) : (engine.assign env dst src loc).Blames Q := by
  refine blames_ite ((blames_require rfl hl).bind fun size => ?_) ?_
  · exact (h.place hs).bind fun _ => (h.place hd).bind fun _ => (blames_readBytes hl _ _).bind fun _ =>
      (blames_writeBytes hl _ _ _).bind fun _ => blames_pure _
  · exact (h.solve hs).bind fun _ => (h.place hd).bind fun _ => (blames_store hl _ _).bind fun _ =>
      blames_pure _

/-- Values that are lowered while the program runs have their faults at their own places. -/
theorem storeElements (function : FunctionId) (scope : Scope) (base : Address) (element : Ty) (i : Nat)
    {nodes : List Node} (hn : ∀ n ∈ nodes, n.Placed Q) :
    (engine.storeElements env function scope base element i nodes).Blames Q := by
  induction nodes generalizing i with
  | nil => exact blames_pure _
  | cons n ns ih =>
    obtain ⟨hn, hns⟩ := List.forall_mem_cons.1 hn
    obtain ⟨good, bad⟩ := lowerExpr_traces env.grammar hn (.frozenIn env.program function scope)
    unfold Engine.storeElements
    split
    · rename_i e he
      exact blames_at rfl (bad e he)
    · rename_i e c he
      refine (h.solve (good e c he).2).bind fun _ => (blames_displaced hn.start _ _ _).bind fun _ => ?_
      exact (blames_store hn.start _ _).bind fun _ => ih (i + 1) hns

theorem arrayAssign {dst : Expr} {values : List Node} (scope : Scope) {loc : Location}
    (hd : dst.Placed Q) (hv : ∀ n ∈ values, n.Placed Q) (hl : Q loc) :
    (engine.arrayAssign env dst values scope loc).Blames Q := by
  refine (h.execute hd).bind fun r => ?_
  split
  · refine blames_get.bind fun m => ?_
    split
    · exact blames_at rfl hl
    · exact (h.storeElements _ _ _ _ _ hv).bind fun _ => blames_pure _
  · exact blames_at rfl hl

theorem solveAll {es : List Expr} (he : ∀ e ∈ es, e.Placed Q) : (engine.solveAll es).Blames Q := by
  induction es with
  | nil => exact blames_pure _
  | cons e es ih =>
    obtain ⟨he, hes⟩ := List.forall_mem_cons.1 he
    exact (h.solve he).bind fun _ => (ih hes).bind fun _ => blames_pure _

/-! ### Calls -/

variable (he : env.Placed Q)
include he

theorem allocateLocals (ids : List SymbolId) : (engine.allocateLocals env ids).Blames Q := by
  induction ids with
  | nil => exact blames_pure _
  | cons id ids ih =>
    obtain ⟨hd, ha⟩ := he.program.symbol he.nowhere id
    refine (blames_allocate hd _).bind fun a => blames_get.bind fun m => ?_
    split
    · exact (blames_release a).discard.bind fun _ => blames_at rfl hd
    · exact (blames_modify _).bind fun _ => (h.registerArray ha a).bind fun _ => ih

theorem invoke (id : FunctionId) (args : List Value) {loc : Location} (hl : Q loc) :
    (engine.invoke env id args loc).Blames Q := by
  obtain ⟨hd, hb⟩ := he.program.function he.nowhere id
  have entered : (engine.enterFrame env (env.program.function id) args).Blames Q :=
    (h.allocateLocals he _).bind fun _ => (blames_bindParams he _ _).bind fun _ =>
      blames_announceFrame
  have body : (engine.runBody env (env.program.function id) loc).Blames Q := by
    unfold Engine.runBody
    split
    · rename_i body hbody
      exact h.perform (hb body hbody)
    · exact blames_builtin hl _
    · exact blames_fault nofun
  refine blames_get.bind fun m => blames_guard rfl hl fun _ => (blames_modify _).bind fun _ => ?_
  refine (entered.bind fun _ => body).attempt_bind fun outcome ho => blames_leaveFrame.bind fun t => ?_
  refine (blames_get.bind fun _ => (blames_set _).bind fun _ => blames_pure _).bind fun returned => ?_
  refine (blames_conclude ho).bind fun _ => ?_
  split
  · exact blames_at rfl hd
  · exact blames_callResult _ _

theorem call (id : FunctionId) {args : List Expr} {loc : Location} (ha : ∀ e ∈ args, e.Placed Q)
    (hl : Q loc) : (engine.call env id args loc).Blames Q :=
  .noted id (blames_named _ ((h.solveAll ha).bind fun _ => h.invoke he id _ hl))

/-! ### Expressions and statements -/

theorem executeRule {e : Expr} (hp : e.Placed Q) : (executeRule env engine e).Blames Q := by
  obtain ⟨op, ty, loc⟩ := e
  have hl : Q loc := hp.loc
  have operand : ∀ e' ∈ op.operands, e'.Placed Q := fun e' h' => hp.operand h'
  cases op with
  | const w => exact blames_pure _
  | str id => exact blames_get.bind fun _ => (blames_require rfl hl).bind fun _ => blames_pure _
  | var id => exact (blames_variablePlace hl _ _).bind fun _ => blames_pure _
  | member object offset array =>
    refine (h.place (operand object (by simp [Operation.operands]))).bind fun _ => ?_
    exact (blames_displaced hl _ _ _).bind fun _ => blames_pure _
  | deref pointer =>
    refine (h.solve (operand pointer (by simp [Operation.operands]))).bind fun _ => ?_
    exact blames_guard rfl hl fun _ => blames_pure _
  | index base index scale =>
    refine (h.solve (operand base (by simp [Operation.operands]))).bind fun _ => ?_
    refine (h.solve (operand index (by simp [Operation.operands]))).bind fun _ => ?_
    exact blames_guard rfl hl fun _ => (blames_offsetAddress hl _ _ _ _).bind fun _ => blames_pure _
  | addressOf place =>
    exact (h.place (operand place (by simp [Operation.operands]))).bind fun _ => blames_pure _
  | unary op e =>
    refine (h.solve (operand e (by simp [Operation.operands]))).bind fun _ => ?_
    exact (blames_require rfl hl).bind fun _ => blames_pure _
  | binary op left right =>
    refine (h.binary (operand left ?_) (operand right ?_) hl).bind fun _ => blames_pure _
    all_goals simp [Operation.operands]
  | pointerOffset pointer offset scale subtract =>
    refine (h.solve (operand pointer (by simp [Operation.operands]))).bind fun _ => ?_
    refine (h.solve (operand offset (by simp [Operation.operands]))).bind fun _ => ?_
    exact (blames_offsetAddress hl _ _ _ _).bind fun _ => blames_pure _
  | pointerDiff left right scale =>
    refine (h.solve (operand left (by simp [Operation.operands]))).bind fun _ => ?_
    refine (h.solve (operand right (by simp [Operation.operands]))).bind fun _ => ?_
    exact (blames_pointerDiff hl _ _ _).bind fun _ => blames_pure _
  | call id args allocates =>
    refine (h.call he id operand hl).bind fun _ => ?_
    exact (blames_announceStruct _ _).bind fun _ => blames_pure _
  | assign dst src =>
    refine h.assign (operand dst ?_) (operand src ?_) hl
    all_goals simp [Operation.operands]
  | arrayAssign dst values scope =>
    refine (h.arrayAssign scope (operand dst (by simp [Operation.operands])) ?_ hl).bind fun _ =>
      blames_pure _
    exact fun n hn => hp.value hn

omit he

theorem performAll {ss : List Stmt} (hs : ∀ s ∈ ss, s.Placed Q) : (engine.performAll ss).Blames Q := by
  induction ss with
  | nil => exact blames_pure _
  | cons s ss ih =>
    obtain ⟨hs, hss⟩ := List.forall_mem_cons.1 hs
    exact (h.perform hs).bind fun _ => blames_get.bind fun _ => blames_ite (ih hss) (blames_pure _)

theorem round {body : Stmt} (hb : body.Placed Q) : (engine.round body).Blames Q := by
  refine (h.perform hb).bind fun _ => blames_get.bind fun m => ?_
  split
  · exact blames_pure _
  · exact (blames_modify _).bind fun _ => blames_pure _
  · exact (blames_modify _).bind fun _ => blames_pure _
  · exact blames_pure _

theorem holds {e? : Option Expr} (hp : ∀ e ∈ e?, e.Placed Q) : (engine.holds e?).Blames Q := by
  cases e? with
  | none => exact blames_pure _
  | some e => exact (h.solve (hp e rfl)).bind fun _ => blames_pure _

theorem executeOption {e? : Option Expr} (hp : ∀ e ∈ e?, e.Placed Q) :
    (engine.executeOption e?).Blames Q := by
  cases e? with
  | none => exact blames_pure _
  | some e => exact (h.execute (hp e rfl)).discard

theorem iterateRule {l : Loop} (hl : l.Placed Q) : (iterateRule engine l).Blames Q :=
  (h.holds hl.condition).bind fun _ => blames_ite
    ((h.round hl.body).bind fun _ => blames_ite
      ((h.executeOption hl.increment).bind fun _ => h.iterate hl) (blames_pure _))
    (blames_pure _)

theorem act {a : Action} (hx : ∀ e ∈ a.exprs, e.Placed Q) (hs : ∀ s ∈ a.stmts, s.Placed Q) :
    (engine.act a).Blames Q := by
  cases a with
  | expr e => exact (h.execute (hx e (by simp [Action.exprs]))).discard
  | block body => exact h.performAll hs
  | ifElse condition thenBranch elseBranch =>
    refine (h.solve (hx condition (by simp [Action.exprs]))).bind fun _ => blames_ite ?_ ?_
    · exact h.perform (hs thenBranch (by simp [Action.stmts]))
    · cases elseBranch with
      | none => exact blames_pure _
      | some s => exact h.perform (hs s (by simp [Action.stmts]))
  | whileLoop condition body =>
    refine h.iterate ⟨?_, by simp, hs body (by simp [Action.stmts])⟩
    simpa using hx condition (by simp [Action.exprs])
  | doWhile body condition =>
    have hb := hs body (by simp [Action.stmts])
    refine (h.round hb).bind fun _ => blames_ite (h.iterate ⟨?_, by simp, hb⟩) (blames_pure _)
    simpa using hx condition (by simp [Action.exprs])
  | forLoop init condition increment body =>
    have first : ∀ e ∈ init, e.Placed Q :=
      fun e he => hx e (by simp [Action.exprs, Option.mem_def.1 he])
    have tested : ∀ e ∈ condition, e.Placed Q :=
      fun e he => hx e (by simp [Action.exprs, Option.mem_def.1 he])
    have stepped : ∀ e ∈ increment, e.Placed Q :=
      fun e he => hx e (by simp [Action.exprs, Option.mem_def.1 he])
    refine (h.executeOption first).bind fun _ => h.iterate ⟨tested, stepped, ?_⟩
    exact hs body (by simp [Action.stmts])
  | returns value =>
    cases value with
    | none => exact blames_modify _
    | some e => exact (h.solve (hx e (by simp [Action.exprs]))).bind fun _ => blames_modify _
  | breaks => exact blames_modify _
  | continues => exact blames_modify _
  | empty => exact blames_pure _

theorem performRule {s : Stmt} (hs : s.Placed Q) : (performRule engine s).Blames Q := by
  have acts := h.act (fun e he => hs.expr he) (fun t ht => hs.part ht)
  unfold Engine.performRule
  cases ha : s.action with
  | block body => exact h.performAll fun t ht => hs.part (by rw [ha]; exact ht)
  | _ =>
    rw [ha] at acts
    exact (blames_checkpoint _).bind fun _ => acts

end Blames

end Engine

/-- **The faults of a run are where its code is.** -/
theorem engine_blames {env : Env} (he : env.Placed Q) (fuel : Nat) : (engine env fuel).Blames Q := by
  induction fuel with
  | zero =>
    exact ⟨fun _ => Run.blames_throw trivial, fun _ => Run.blames_throw trivial,
      fun _ => Run.blames_throw trivial⟩
  | succ n ih =>
    exact ⟨fun hp => ih.executeRule he hp, fun hs => ih.performRule hs, fun hl => ih.iterateRule hl⟩

namespace Run
variable {env : Env} {engine : Engine}

theorem blames_lastly {α : Type} {x : Run α} {y : Run Unit} (hx : x.Blames Q) (hy : y.Blames Q) :
    (lastly x y).Blames Q :=
  hx.attempt_bind fun _ hr => hy.bind fun _ => blames_conclude hr

theorem blames_finish : finish.Blames Q := by
  refine blames_of_total fun m e m' h => ?_
  obtain ⟨n, hn⟩ := finish_ok m
  rw [hn] at h
  cases h

theorem blames_allocateStrings (hn : Q .nowhere) (texts : List String) :
    (allocateStrings texts).Blames Q := by
  induction texts with
  | nil => exact blames_pure _
  | cons text texts ih =>
    refine (blames_allocate hn _).bind fun a => (blames_modify _).bind fun _ => ?_
    exact (blames_writeBytes hn a _ _).bind fun _ => ih

theorem blames_start (h : engine.Blames Q) (he : env.Placed Q) : (start env engine).Blames Q := by
  have globals : ∀ ids, (allocateGlobals env engine ids).Blames Q := by
    intro ids
    induction ids with
    | nil => exact blames_pure _
    | cons id ids ih =>
      obtain ⟨hd, ha⟩ := he.program.symbol he.nowhere id
      exact (blames_allocate hd _).bind fun a => (blames_modify _).bind fun _ =>
        (h.registerArray ha a).bind fun _ => ih
  exact (globals _).bind fun _ => blames_allocateStrings he.nowhere _

/-- **The faults of a run from start to finish are where the program is.** -/
theorem blames_call (he : env.Placed Q) (fuel : Nat) (name : String) (args : List Word) :
    (call env fuel name args).Blames Q := by
  have h := engine_blames he fuel
  have first : ∀ id, (first env (MiniC.engine env fuel) id args).Blames Q := fun id =>
    (blames_start h he).bind fun _ => .noted id (Engine.blames_named _
      (h.invoke he id _ (he.program.function he.nowhere id).1))
  rw [call_eq]
  refine Blames.bind ?_ fun id => ?_
  · cases env.program.function? name with
    | none => exact blames_fault nofun
    | some id => exact blames_pure id
  · have ends := (blames_lastly (first id) blames_finish).bind
      fun r => (blames_pure (r.map Value.word) : Run.Blames Q _)
    exact blames_ite ((blames_fault nofun).bind fun _ => ends) ends

end Run

/-! ## Sessions -/

/-- What lowering makes of a tree in a source is in the source, but for what is nowhere. -/
theorem Program.ofSource_placed {g : Grammar} {source : String} {p : Program}
    (h : Program.ofSource g source = .ok p) : p.Placed fun l => l.In source ∨ l = .nowhere := by
  obtain ⟨root, l, c, hr, hl, rfl⟩ := Program.ofSource_eq_ok h
  have placed := ((Node.ofSource_placed g .program source).1 root hr).mono
    (Q := fun l => l.In source ∨ l = .nowhere) fun _ => .inl
  obtain ⟨steps, -⟩ := (lower_traces g placed (.building .initial)).1 l c hl
  exact steps.keeps (fun hs => hs.placed) (Program.placed_initial (.inr rfl))

/-- The error of a source that has no program is in the source. -/
theorem Program.ofSource_error_in {g : Grammar} {source : String} {e : BuildError}
    (h : Program.ofSource g source = .error e) : e.loc.In source := by
  obtain ⟨good, bad⟩ := Node.ofSource_placed g .program source
  simp only [Program.ofSource, Program.extend, lowerProgram] at h
  cases hr : Node.ofSource g .program source with
  | error e' =>
    rw [hr] at h
    cases h
    exact bad e hr
  | ok root =>
    have traced := (lower_traces g (good root hr) (.building .initial)).2
    cases hl : lower g root (.building .initial) with
    | error e' =>
      simp only [hr, hl] at h
      cases h
      exact traced e' hl
    | ok r => simp [hr, hl] at h

namespace Session

/-- **Every position that is reported is real.**  The error of a source that does not compile is at
a position of the source.  So is every fault of a run of a source that does, whatever has run before,
unless it is nowhere or has no place at all. -/
theorem positions_real (s : Session) (source : String) :
    (∀ e, s.compile source = .error e → e.loc.In source) ∧
      ∀ t, s.compile source = .ok t → ∀ (u v : Session) (fuel : Nat) (name : String)
        (args : List Word) (f : Fault), u.env = t.env →
        u.callWithin fuel name args = (.error (.fault f), v) →
          ∀ l, f.loc? = some l → l.In source ∨ l = .nowhere := by
  refine ⟨fun e he => ?_, fun t ht u v fuel name args f same run l hl => ?_⟩
  · cases hp : Program.ofSource s.env.grammar source with
    | error e' =>
      simp only [compile, hp] at he
      cases he
      exact Program.ofSource_error_in hp
    | ok p => simp [compile, hp, bind, Except.bind, pure, Except.pure] at he
  · obtain ⟨p, hp, rfl⟩ := compile_eq_ok.1 ht
    have placed : u.env.Placed fun l => l.In source ∨ l = .nowhere :=
      ⟨same ▸ Program.ofSource_placed hp, .inr rfl⟩
    exact Run.blames_call placed fuel name args u.machine (.fault f) v.machine
      (callWithin_eq run) l hl

/-- A source that does not compile: its second line names a variable that there is none of. -/
def unnamed : String := "int main() \x7b\n  return n; \x7d"

/-- A function that fails, on its second line, if it is given zero. -/
def halving : String := "int half(int n) \x7b\n  return 10 / n; \x7d"

theorem positions_real_halving :
    (∃ e, (new .standard).compile unnamed = .error e ∧ e.loc = ⟨22, 2, 10⟩ ∧ e.loc.In unnamed) ∧
      ∃ t v, (new .standard).compile halving = .ok t ∧
        t.callWithin 100 "half" [0] = (.error (.fault (.divisionByZero ⟨27, 2, 10⟩)), v) ∧
        Location.In halving ⟨27, 2, 10⟩ := by
  constructor
  · have run : (((new .standard).compile unnamed).map fun _ => ()).mapError BuildError.loc =
        .error ⟨22, 2, 10⟩ := by
      rw [compile_of_toList unnamed (String.ofList_eq.1 rfl)]
      decide +kernel
    cases he : (new .standard).compile unnamed with
    | ok t => simp [he, Except.map, Except.mapError] at run
    | error e =>
      rw [he] at run
      exact ⟨e, rfl, Except.error.inj run, (positions_real (new .standard) unnamed).1 e he⟩
  · have run : ((new .standard).compile halving).toOption.map
        (fun t => (t.callWithin 100 "half" [0]).1) =
          some (.error (.fault (.divisionByZero ⟨27, 2, 10⟩))) := by
      rw [compile_of_toList halving (String.ofList_eq.1 rfl)]
      decide +kernel
    obtain ⟨t, ht, fails⟩ := Except.exists_ok_of_map run
    have failed : t.callWithin 100 "half" [0] = (.error (.fault (.divisionByZero ⟨27, 2, 10⟩)), _) :=
      Prod.ext fails rfl
    refine ⟨t, _, ht, failed, ?_⟩
    have real := (positions_real (new .standard) halving).2 t ht t _ 100 "half" [0] _ rfl failed _ rfl
    exact real.resolve_right (by decide)

end Session

end MiniC
