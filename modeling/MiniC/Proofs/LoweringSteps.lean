/-
  What lowering does to its context, step by step.

  A context changes in few ways: a string literal becomes known, an array assignment is noted, a
  scope or a loop opens or closes, a structure or a function begins or is finished, a name is
  declared (`Context.Step`).  Lowering any tree takes such steps, whether or not it succeeds; its
  faults are at places of the tree, and so is all code that it makes (`lower_traces`).  What every
  step keeps holds of all that lowering arrives at (`Context.Steps.keeps`), so an invariant of
  contexts needs a case for each kind of step and none for the rules.
-/
import Mathlib.Logic.Relation
import MiniC.Proofs.Deferred
import MiniC.Proofs.Positions

namespace MiniC

variable {P : Location → Prop}

/-! ## Places of code -/

/-- The trees that an operation holds. -/
def Operation.values : Operation → List Node
  | arrayAssign _ values _ => values
  | _ => []

/-- The places of an expression, of its operands and of the trees that it holds satisfy `P`. -/
inductive Expr.Placed (P : Location → Prop) : Expr → Prop
  | mk {e : Expr} : P e.loc → (∀ e' ∈ e.op.operands, e'.Placed P) → (∀ n ∈ e.op.values, n.Placed P) →
    e.Placed P

/-- The places of a statement and of all that it is made from satisfy `P`. -/
inductive Stmt.Placed (P : Location → Prop) : Stmt → Prop
  | mk {s : Stmt} : P s.loc → (∀ e ∈ s.action.exprs, e.Placed P) →
    (∀ t ∈ s.action.stmts, t.Placed P) → s.Placed P

/-- What a tree is lowered to is placed. -/
def Lowered.Placed (P : Location → Prop) : Lowered → Prop
  | expr e => e.Placed P
  | stmt s => s.Placed P
  | declared => True

namespace Expr.Placed
variable {e e' : Expr}

theorem loc (h : e.Placed P) : P e.loc := by cases h; assumption

theorem operand (h : e.Placed P) (he : e' ∈ e.op.operands) : e'.Placed P := by
  cases h with
  | mk _ ho _ => exact ho e' he

theorem value {n : Node} (h : e.Placed P) (hn : n ∈ e.op.values) : n.Placed P := by
  cases h with
  | mk _ _ hv => exact hv n hn

end Expr.Placed

namespace Stmt.Placed
variable {s t : Stmt} {e : Expr}

theorem loc (h : s.Placed P) : P s.loc := by cases h; assumption

theorem expr (h : s.Placed P) (he : e ∈ s.action.exprs) : e.Placed P := by
  cases h with
  | mk _ hx _ => exact hx e he

theorem part (h : s.Placed P) (ht : t ∈ s.action.stmts) : t.Placed P := by
  cases h with
  | mk _ _ hs => exact hs t ht

end Stmt.Placed

/-! ## Steps -/

/-- The storage of a variable or a member: that of its type, or of all elements of an array of the
given length. -/
def Program.Measures (p : Program) (ty : Ty) (size : Nat) : Option Nat → Prop
  | none => p.sizeOf? ty = some size
  | some length => ∃ element n, ty = element.pointer ∧ p.sizeOf? element = some n ∧ 0 < length ∧
    size = length * n ∧ size < 4294967296

/-- The expressions for the lengths of arrays are placed. -/
def ArraySpec.Placed (P : Location → Prop) (array : Option ArraySpec) : Prop :=
  ∀ spec ∈ array, spec.lengthExpr.Placed P

/-- The variables of the builtin functions are no arrays, have the storage of their types and are
declared nowhere. -/
theorem Program.initial_symbols {i : Nat} {s : Symbol} (h : Program.initial.symbols[i]? = some s) :
    s.array = none ∧ Program.initial.sizeOf? s.ty = some s.size ∧ s.declaredAt = .nowhere := by
  have hmem : s ∈ Program.initial.symbols.toList := Array.mem_def.1 (Array.mem_of_getElem? h)
  simp only [initial, installBuiltins, addBuiltin, addFunction, addParameter, addSymbol, empty] at hmem
  simp at hmem
  rcases hmem with rfl | rfl | rfl | rfl | rfl | rfl
  all_goals exact ⟨rfl, rfl, rfl⟩

namespace Context

/-- One step of lowering, with places that satisfy `P`. -/
inductive Step (P : Location → Prop) : Context → Context → Prop
  | intern {c : Context} (text : String) :
    Step P c { c with program := (c.program.internString text).2 }
  | assign {c : Context} (a : Expr) (es : List Expr) : Step P c (c.noteAssigned a es)
  | scope {c : Context} {f : FunctionContext → FunctionContext} : (∀ k, (f k).id = k.id) →
    Step P c { c with function := c.function.map f }
  | beginStruct {c : Context} (name : String) : c.program.struct? name = none →
    Step P c { c with struct := some ⟨name, [], 0⟩ }
  | finishStruct {c : Context} {s : StructContext} : c.struct = some s →
    Step P c
      { c with program := (c.program.addStruct ⟨s.name, s.members, s.nextOffset⟩).2, struct := none }
  | beginFunction {c : Context} (name : String) (result : Ty) {loc : Location} :
    c.program.function? name = none → P loc →
    Step P c
      { c with
        program := (c.program.addFunction ⟨name, result, [], [], .declared, loc⟩).2
        function := some ⟨c.program.functions.size, result, [[]], 0⟩ }
  | finishFunction {c : Context} {f : FunctionContext} {body : Stmt} : c.function = some f →
    body.Placed P →
    Step P c
      { c with
        program := c.program.modifyFunction f.id fun g => { g with body := .compiled body }
        function := none }
  | member {c : Context} {s : StructContext} {name : String} {ty : Ty} {size : Nat}
      {array : Option ArraySpec} : c.struct = some s → (∀ m ∈ s.members, m.name ≠ name) →
    c.program.Measures ty size (array.map ArraySpec.length) →
    Step P c (c.addMember s name ty size array)
  | global {c : Context} {s : Symbol} : c.program.global? s.name = none →
    c.program.Measures s.ty s.size (s.array.map ArraySpec.length) → P s.declaredAt →
    ArraySpec.Placed P s.array → Step P c (c.addGlobal s)
  | variable_ {c : Context} {f : FunctionContext} {s : Symbol} {isParam : Bool} :
    c.function = some f → c.program.Measures s.ty s.size (s.array.map ArraySpec.length) →
    P s.declaredAt → ArraySpec.Placed P s.array → (isParam = true → s.array = none) →
    Step P c (c.addLocal f s isParam)

/-- Steps one after the other. -/
abbrev Steps (P : Location → Prop) : Context → Context → Prop := Relation.ReflTransGen (Step P)

/-- What every step keeps, steps keep. -/
theorem Steps.keeps {I : Context → Prop} {c c' : Context} (h : Steps P c c')
    (step : ∀ {c c'}, Step P c c' → I c → I c') (hc : I c) : I c' := by
  induction h with
  | refl => exact hc
  | tail _ hs ih => exact step hs ih

/-- **A step of lowering keeps the maps beside the tables.** -/
theorem Step.mapped {c c' : Context} (h : c.Step P c') (hc : c.Mapped) : c'.Mapped := by
  cases h with
  | intern text =>
    have maps := hc.maps.internString text
    obtain ⟨strings, stringIds, added⟩ := c.program.internString_strings text
    rw [added] at maps ⊢
    exact ⟨maps, hc.fresh⟩
  | assign a es =>
    rw [noteAssigned]
    split
    · exact hc
    · exact ⟨hc.maps, hc.fresh⟩
  | scope => exact ⟨hc.maps, hc.fresh⟩
  | beginStruct name hn => exact ⟨hc.maps, by rintro _ ⟨⟩; exact hn⟩
  | finishStruct hs => exact ⟨hc.maps.addStruct (hc.fresh hs), by rintro _ ⟨⟩⟩
  | beginFunction name result hn => exact ⟨hc.maps.addFunction hn, hc.fresh⟩
  | finishFunction hf => exact ⟨hc.maps.modifyFunction _ fun _ => rfl, hc.fresh⟩
  | member hs => exact ⟨hc.maps, by rintro _ ⟨⟩; exact (hc.fresh hs :)⟩
  | global hn => exact ⟨hc.maps.addGlobal hn, hc.fresh⟩
  | variable_ hf => exact ⟨(hc.maps.addSymbol _).modifyFunction _ fun _ => rfl, hc.fresh⟩

/-- What every step keeps where the maps are right, steps keep. -/
theorem Steps.keeps_of_mapped {I : Context → Prop} {c c' : Context} (h : Steps P c c')
    (step : ∀ {c c'}, Step P c c' → c.Mapped → I c → I c') (hm : c.Mapped) (hc : I c) : I c' :=
  (h.keeps (I := fun c => c.Mapped ∧ I c) (fun hs hc => ⟨hs.mapped hc.1, step hs hc.1 hc.2⟩)
    ⟨hm, hc⟩).2

end Context

/-! ## Following the steps -/

/-- In the context `c`, `x` takes steps to a result that satisfies `R`, or has a fault at `P`. -/
def Lower.Traces {α : Type} (P : Location → Prop) (c : Context) (x : Lower α)
    (R : α → Context → Prop) : Prop :=
  (∀ a c', x c = .ok (a, c') → c.Steps P c' ∧ R a c') ∧ ∀ e, x c = .error e → P e.loc

namespace Lower
variable {α β : Type} {c : Context} {R : α → Context → Prop} {Q : β → Context → Prop}

theorem traces_pure {a : α} (h : R a c) : Traces P c (pure a) R := by
  refine ⟨fun b c' hx => ?_, fun e he => by cases he⟩
  obtain ⟨rfl, rfl⟩ := pure_eq_ok.1 hx
  exact ⟨.refl, h⟩

theorem traces_fail {cause : CompileCause} {loc : Location} (h : P loc) :
    Traces P c (fail cause loc : Lower α) R := by
  refine ⟨nofun, ?_⟩
  rintro e ⟨⟩
  exact h

/-- What the context says is known before the rest. -/
theorem traces_ask_bind {f : Context → β} {k : β → Lower α} (h : Traces P c (k (f c)) R) :
    Traces P c (ask f >>= k) R := h

theorem traces_change {f : Context → Context} {R : Unit → Context → Prop} (h : c.Step P (f c))
    (hR : R () (f c)) : Traces P c (change f) R := by
  refine ⟨fun a c' hx => ?_, fun e he => by cases he⟩
  obtain rfl := change_eq_ok.1 hx
  exact ⟨.single h, hR⟩

theorem traces_require {o : Option α} {cause : CompileCause} {loc : Location} (hl : P loc)
    (h : ∀ a, o = some a → R a c) : Traces P c (require o cause loc) R := by
  cases o with
  | none => exact traces_fail hl
  | some a => exact traces_pure (h a rfl)

theorem Traces.bind {x : Lower β} {f : β → Lower α} (hx : Traces P c x Q)
    (hf : ∀ b c', Q b c' → Traces P c' (f b) R) : Traces P c (x >>= f) R := by
  refine ⟨fun a c'' h => ?_, fun e h => ?_⟩
  · obtain ⟨b, c', h1, h2⟩ := bind_eq_ok.1 h
    obtain ⟨s1, hQ⟩ := hx.1 b c' h1
    obtain ⟨s2, hR⟩ := (hf b c' hQ).1 a c'' h2
    exact ⟨s1.trans s2, hR⟩
  · change Except.bind (x c) (fun p => f p.1 p.2) = .error e at h
    cases hb : x c with
    | error e' =>
      rw [hb] at h
      cases h
      exact hx.2 e hb
    | ok p =>
      rw [hb] at h
      exact (hf p.1 p.2 (hx.1 _ _ hb).2).2 e h

theorem Traces.mono {x : Lower α} {R' : α → Context → Prop} (hx : Traces P c x R)
    (h : ∀ a c', R a c' → R' a c') : Traces P c x R' :=
  ⟨fun a c' ha => ⟨(hx.1 a c' ha).1, h a c' (hx.1 a c' ha).2⟩, hx.2⟩

theorem Traces.discard {x : Lower β} (hx : Traces P c x Q) :
    Traces P c (discard x) fun _ _ => True := by
  have hd : Functor.discard x = x >>= fun _ => pure PUnit.unit :=
    map_eq_pure_bind (fun _ => PUnit.unit) x
  rw [hd]
  exact hx.bind fun _ _ _ => traces_pure trivial

theorem traces_ite {p : Prop} [Decidable p] {x y : Lower α} (hx : p → Traces P c x R)
    (hy : ¬ p → Traces P c y R) : Traces P c (if p then x else y) R := by
  by_cases h : p
  · rw [if_pos h]
    exact hx h
  · rw [if_neg h]
    exact hy h

/-- A check in front of `x`. -/
theorem traces_guard {p : Prop} [Decidable p] {cause : CompileCause} {loc : Location}
    {x : PUnit → Lower α} (hl : P loc) (hx : ¬ p → Traces P c (x ()) R) :
    Traces P c (if p then fail cause loc >>= x else x ()) R := by
  rw [fail_bind]
  exact traces_ite (fun _ => traces_fail hl) hx

/-- What the context says, or a fault. -/
theorem traces_found {f : Context → Option β} {k : β → Lower α} {cause : CompileCause}
    {loc : Location} (hl : P loc) (h : ∀ b, f c = some b → Traces P c (k b) R) :
    Traces P c (do let b ← require (← ask f) cause loc; k b) R := by
  refine traces_ask_bind ?_
  cases hf : f c with
  | none => exact traces_fail hl
  | some b => exact h b hf

/-- A step that is not taken over a frozen program. -/
theorem traces_building {k : Unit → Lower α} {loc : Location} (hl : P loc)
    (h : Traces P c (k ()) R) : Traces P c (requireBuilding loc >>= k) R := by
  have building : Traces P c (requireBuilding loc) fun _ c' => c' = c :=
    traces_ask_bind (traces_ite (fun _ => traces_fail hl) fun _ => traces_pure rfl)
  refine building.bind ?_
  rintro u _ rfl
  exact h

/-! ## The operations on contexts -/

variable {loc : Location}

theorem traces_resolveType (base : Base) (stars : Nat) (hl : P loc) :
    Traces P c (resolveType base stars loc) fun _ _ => True := by
  unfold resolveType
  cases base with
  | struct name =>
    refine traces_ask_bind (traces_ask_bind (traces_ite (fun _ => traces_fail hl) fun _ => ?_))
    exact traces_ite (fun _ => traces_fail hl) fun _ => traces_pure trivial
  | int | char | void => exact traces_pure trivial

theorem traces_sizeOf (ty : Ty) (hl : P loc) :
    Traces P c (sizeOf ty loc) fun size c' => c'.program.sizeOf? ty = some size :=
  traces_ask_bind (traces_require hl fun _ h => h)

theorem traces_beginStruct (name : String) (hl : P loc) :
    Traces P c (beginStruct name loc) fun _ _ => True := by
  refine traces_ask_bind ?_
  refine traces_guard hl fun hfresh => ?_
  exact traces_change (.beginStruct name (by simpa using hfresh)) trivial

theorem traces_finishStruct (hl : P loc) : Traces P c (finishStruct loc) fun _ _ => True :=
  traces_found hl fun _ hs => traces_building hl <| traces_ask_bind <|
    (traces_change (.finishStruct hs) trivial).bind (Q := fun _ _ => True) fun _ _ _ =>
      traces_pure trivial

theorem traces_beginFunction (name : String) (result : Ty) (hl : P loc) :
    Traces P c (beginFunction name result loc) fun _ _ => True := by
  refine traces_ask_bind ?_
  refine traces_guard hl fun hfresh => ?_
  refine traces_building hl (traces_ask_bind ?_)
  exact (traces_change (.beginFunction name result (by simpa using hfresh) hl) trivial).bind
    (Q := fun _ _ => True) fun _ _ _ => traces_pure trivial

theorem traces_finishFunction {body : Stmt} (hb : body.Placed P) :
    Traces P c (finishFunction body) fun _ _ => True :=
  traces_found hb.loc fun _ hf => traces_building hb.loc <|
    traces_change (.finishFunction hf hb) trivial

theorem traces_changeFunction {f : FunctionContext → FunctionContext} (hf : ∀ k, (f k).id = k.id) :
    Traces P c (changeFunction f) fun _ _ => True :=
  traces_change (.scope hf) trivial

theorem traces_enterScope : Traces P c enterScope fun _ _ => True :=
  traces_changeFunction fun _ => rfl

theorem traces_enterLoop : Traces P c enterLoop fun _ _ => True :=
  traces_changeFunction fun _ => rfl

theorem traces_exitLoop : Traces P c exitLoop fun _ _ => True :=
  traces_changeFunction fun _ => rfl

theorem traces_exitScope : Traces P c exitScope fun _ _ => True := by
  refine traces_changeFunction fun k => ?_
  split <;> rfl

theorem traces_declare {name : String} {ty : Ty} {size : Nat} {array : Option ArraySpec}
    {isParam : Bool} (hl : P loc)
    (hm : c.program.Measures ty size (array.map ArraySpec.length)) (ha : ArraySpec.Placed P array)
    (hp : isParam = true → array = none) :
    Traces P c (declare name ty size array isParam loc) fun _ _ => True := by
  refine traces_ask_bind ?_
  cases hs : c.struct with
  | some s =>
    change Traces P c (declareMember s name ty size array loc) _
    unfold declareMember
    refine traces_guard hl fun hn => traces_guard hl fun _ => ?_
    refine traces_change (.member hs (fun m hm he => hn ?_) hm) trivial
    exact List.any_eq_true.2 ⟨m, hm, by simpa using he⟩
  | none =>
    refine traces_ask_bind ?_
    cases hf : c.function with
    | none =>
      refine traces_ask_bind ?_
      refine traces_guard hl fun hfresh => ?_
      exact traces_building hl (traces_change (.global (by simpa using hfresh) hm hl ha) trivial)
    | some f =>
      change Traces P c (declareLocal f _ isParam loc) _
      unfold declareLocal
      refine traces_guard hl fun _ => ?_
      exact traces_building hl (traces_change (.variable_ hf hm hl ha hp) trivial)

theorem traces_lookup (name : String) (hl : P loc) : Traces P c (lookup name loc) fun _ _ => True :=
  traces_ask_bind (traces_require hl fun _ _ => trivial)

theorem traces_internString (text : String) (hl : P loc) :
    Traces P c (internString text loc) fun _ _ => True := by
  refine traces_ask_bind (traces_ite (fun _ => ?_) fun _ => ?_)
  · exact traces_ask_bind (traces_require hl fun _ _ => trivial)
  · exact traces_ask_bind <| (traces_change (.intern text) trivial).bind (Q := fun _ _ => True)
      fun _ _ _ => traces_pure trivial

/-! ## The rules -/

section
variable {node : Node}

theorem traces_malformed (hn : node.Placed P) : Traces P c (malformed node : Lower α) R :=
  traces_fail hn.start

theorem traces_expression {op : Operation} {ty : Ty} (hn : node.Placed P)
    (ho : ∀ e ∈ op.operands, e.Placed P) (hv : ∀ m ∈ op.values, m.Placed P) :
    Traces P c (expression op ty node) fun l _ => l.Placed P :=
  traces_pure (.mk hn.start ho hv)

theorem traces_action {a : Action} (hn : node.Placed P) (he : ∀ e ∈ a.exprs, e.Placed P)
    (hs : ∀ s ∈ a.stmts, s.Placed P) : Traces P c (action a node) fun l _ => l.Placed P :=
  traces_pure (.mk hn.start he hs)

variable {low : Lowering}
  (H : ∀ {n : Node}, n.Placed P → ∀ c, Traces P c (low n) fun l _ => l.Placed P)
include H

theorem traces_expr (hn : node.Placed P) : Traces P c (expr low node) fun e _ => e.Placed P := by
  refine (H hn c).bind fun l c' hl => ?_
  cases l with
  | expr e => exact traces_pure hl
  | stmt s => exact traces_fail hn.start
  | declared => exact traces_fail hn.start

theorem traces_value (hn : node.Placed P) : Traces P c (value low node) fun e _ => e.Placed P :=
  (traces_expr H hn).bind fun _ _ he => traces_guard hn.start fun _ => traces_pure he

theorem traces_condition (hn : node.Placed P) :
    Traces P c (condition low node) fun e _ => e.Placed P :=
  (traces_value H hn).bind fun _ _ he => traces_guard hn.start fun _ => traces_pure he

theorem traces_stmt (hn : node.Placed P) : Traces P c (stmt low node) fun s _ => s.Placed P := by
  refine (H hn c).bind fun l c' hl => ?_
  cases l with
  | expr e =>
    refine traces_pure (.mk hn.start (List.forall_mem_singleton.2 hl) ?_)
    simp [Stmt.action, Action.stmts]
  | stmt s => exact traces_pure hl
  | declared =>
    refine traces_pure (.mk hn.start ?_ ?_)
    · simp [Stmt.action, Action.exprs]
    · simp [Stmt.action, Action.stmts]

omit H in
theorem traces_optional {f : Node → Lower α} {A : α → Prop} {o : Option Node}
    (hf : ∀ n ∈ o, ∀ c, Traces P c (f n) fun a _ => A a) :
    Traces P c (optional f o) fun o' _ => ∀ a ∈ o', A a := by
  cases o with
  | none => exact traces_pure (by simp)
  | some n => exact (hf n rfl c).bind fun a _ ha => traces_pure (by simpa using ha)

/-! ### Assignments -/

theorem traces_checkValues (element : Ty) {nodes : List Node} (hn : ∀ n ∈ nodes, n.Placed P) :
    Traces P c (checkValues low element nodes) fun _ _ => True := by
  induction nodes generalizing c with
  | nil => exact traces_pure trivial
  | cons n ns ih =>
    obtain ⟨hn, hns⟩ := List.forall_mem_cons.1 hn
    refine (traces_value H hn).bind fun e _ _ => traces_guard hn.start fun _ => ?_
    exact (ih hns).bind fun _ _ _ => traces_pure trivial

theorem traces_arrayAssign {dst : Expr} (length : Nat) {values : List Node} {init : Node}
    (hd : dst.Placed P) (hi : init.Placed P) (hv : ∀ n ∈ values, n.Placed P) :
    Traces P c (arrayAssign low dst length values init) fun e _ => e.Placed P := by
  unfold arrayAssign
  refine traces_guard hi.start fun _ => ?_
  split
  · exact traces_malformed hi
  · refine traces_guard hi.start fun _ => (traces_checkValues H _ hv).bind fun es c' _ => ?_
    refine traces_ask_bind ((traces_change (.assign _ es) trivial).bind (Q := fun _ _ => True) ?_)
    exact fun _ _ _ => traces_pure (.mk hd.loc (List.forall_mem_singleton.2 hd) hv)

theorem traces_scalarAssign {dst : Expr} {left right : Node} (hd : dst.Placed P)
    (hl : left.Placed P) (hr : right.Placed P) (hn : node.Placed P) :
    Traces P c (scalarAssign low dst left right node) fun e _ => e.Placed P := by
  unfold scalarAssign
  refine traces_guard hl.start fun _ => traces_ask_bind ?_
  refine traces_guard hl.start fun _ => ?_
  refine (traces_value H hr).bind fun src _ hs => traces_guard hn.start fun _ => traces_pure ?_
  refine .mk hd.loc ?_ ?_
  · simpa [Expr.assign, Operation.operands] using ⟨hd, hs⟩
  · simp [Expr.assign, Operation.values]

theorem traces_assignment (hn : node.Placed P) :
    Traces P c (assignment low node) fun l _ => l.Placed P := by
  unfold assignment
  split
  · rename_i left right hs
    have hl : left.Placed P := hn.part (by simp [hs, Shape.parts])
    have hr : right.Placed P := hn.part (by simp [hs, Shape.parts])
    refine (traces_expr H hl).bind fun dst _ hd => traces_ask_bind ?_
    split
    · rename_i values length hi _
      have hv : ∀ n ∈ values, n.Placed P := fun n hv => hr.part (by rw [hi]; exact hv)
      exact (traces_arrayAssign H length hd hr hv).bind fun _ _ he => traces_pure he
    · exact (traces_scalarAssign H hd hl hr hn).bind fun _ _ he => traces_pure he
  · exact traces_malformed hn

/-! ### Operators -/

omit H in
theorem traces_pointerOffset {pointer offset : Expr} (subtract : Bool) (hp : pointer.Placed P)
    (ho : offset.Placed P) (hn : node.Placed P) :
    Traces P c (pointerOffset pointer offset subtract node) fun l _ => l.Placed P := by
  unfold pointerOffset
  split
  · exact traces_malformed hn
  · refine traces_guard hn.start fun _ => (traces_sizeOf _ hn.start).bind fun _ _ _ => ?_
    refine traces_expression hn ?_ (by simp [Operation.values])
    simpa [Operation.operands] using ⟨hp, ho⟩

omit H in
theorem traces_pointerDiff {left right : Expr} (hl : left.Placed P) (hr : right.Placed P)
    (hn : node.Placed P) : Traces P c (pointerDiff left right node) fun l _ => l.Placed P := by
  unfold pointerDiff
  split
  · exact traces_malformed hn
  · refine (traces_sizeOf _ hn.start).bind fun _ _ _ => ?_
    refine traces_expression hn ?_ (by simp [Operation.values])
    simpa [Operation.operands] using ⟨hl, hr⟩

omit H in
theorem traces_combine (op : BinaryOp) {left right : Expr} (hl : left.Placed P)
    (hr : right.Placed P) (hn : node.Placed P) :
    Traces P c (combine op left right node) fun l _ => l.Placed P := by
  have plain : Traces P c (expression (.binary op left right) Ty.int node) fun l _ => l.Placed P :=
    traces_expression hn (by simpa [Operation.operands] using ⟨hl, hr⟩) (by simp [Operation.values])
  have refuse : Traces P c (fail (.operands op left.ty right.ty) node.start : Lower Lowered)
      fun l _ => l.Placed P := traces_fail hn.start
  cases op with
  | add =>
    refine traces_ite (fun _ => plain) fun _ => traces_ite (fun _ => ?_) fun _ => ?_
    · exact traces_pointerOffset false hl hr hn
    · exact traces_ite (fun _ => traces_pointerOffset false hr hl hn) fun _ => refuse
  | sub =>
    refine traces_ite (fun _ => plain) fun _ => traces_ite (fun _ => ?_) fun _ => ?_
    · exact traces_pointerOffset true hl hr hn
    · exact traces_ite (fun _ => traces_pointerDiff hl hr hn) fun _ => refuse
  | mul | div | mod | eq | ne | lt | le | gt | ge | and | or =>
    exact traces_ite (fun _ => plain) fun _ => refuse

theorem traces_binary (hn : node.Placed P) : Traces P c (binary low node) fun l _ => l.Placed P := by
  unfold binary
  split
  · rename_i op left right hs
    refine (traces_value H (hn.part (by simp [hs, Shape.parts]))).bind fun l _ hl => ?_
    refine (traces_value H (hn.part (by simp [hs, Shape.parts]))).bind fun r _ hr => ?_
    exact traces_combine op hl hr hn
  · exact traces_malformed hn

theorem traces_sizeofExpr {operand : Node} (ho : operand.Placed P) (hn : node.Placed P) :
    Traces P c (sizeofExpr low operand node) fun _ _ => True := by
  refine (traces_expr H ho).bind fun e c' he => traces_ask_bind ?_
  split
  · split
    · exact traces_malformed hn
    · exact (traces_sizeOf _ hn.start).bind fun _ _ _ => traces_pure trivial
  · exact (traces_sizeOf _ hn.start).mono fun _ _ _ => trivial

theorem traces_unary (hn : node.Placed P) : Traces P c (unary low node) fun l _ => l.Placed P := by
  have one : ∀ {op : Operation} {e : Expr}, op.operands = [e] → op.values = [] → e.Placed P →
      ∀ {ty c}, Traces P c (expression op ty node) fun l _ => l.Placed P := by
    intro op e ho hv he ty c
    exact traces_expression hn (by simpa [ho] using he) (by simp [hv])
  have const : ∀ {w ty c}, Traces P c (expression (.const w) ty node) fun l _ => l.Placed P :=
    traces_expression hn (by simp [Operation.operands]) (by simp [Operation.values])
  have operand : ∀ {shape operand}, node.shape = shape → shape.parts = [operand] →
      operand.Placed P := fun hs hp => hn.part (by rw [hs, hp]; exact List.mem_singleton_self _)
  unfold unary
  split
  · rename_i op part hs
    refine (traces_value H (operand hs rfl)).bind fun e _ he => ?_
    exact traces_guard hn.start fun _ => one rfl rfl he
  · rename_i part hs
    refine (traces_value H (operand hs rfl)).bind fun e _ he => ?_
    exact (traces_require hn.start fun _ _ => trivial).bind (Q := fun _ _ => True) fun _ _ _ =>
      one rfl rfl he
  · rename_i part hs
    refine (traces_expr H (operand hs rfl)).bind fun e _ he => traces_guard hn.start fun _ => ?_
    exact traces_ask_bind (one rfl rfl he)
  · refine (traces_resolveType _ _ hn.start).bind fun _ _ _ => ?_
    exact (traces_sizeOf _ hn.start).bind fun _ _ _ => const
  · rename_i part hs
    exact (traces_sizeofExpr H (operand hs rfl) hn).bind fun _ _ _ => const
  · exact traces_malformed hn

/-! ### Subscripts and members -/

omit H in
theorem traces_subscript {left right : Expr} (hl : left.Placed P) (hr : right.Placed P)
    (hn : node.Placed P) : Traces P c (subscript left right node) fun l _ => l.Placed P := by
  unfold subscript
  simp only
  refine traces_guard hn.start fun _ => ?_
  split
  · exact traces_malformed hn
  · refine traces_guard hn.start fun _ => (traces_sizeOf _ hn.start).bind fun _ _ _ => ?_
    refine traces_expression hn ?_ (by simp [Operation.values])
    simp only [Operation.operands, List.forall_mem_cons]
    refine ⟨?_, ?_, List.forall_mem_nil _⟩
    · split <;> assumption
    · split <;> assumption

omit H in
theorem traces_member {object : Expr} (field : String) (ho : object.Placed P) (hn : node.Placed P) :
    Traces P c (member object field node) fun l _ => l.Placed P := by
  refine (traces_require hn.start fun _ _ => trivial).bind (Q := fun _ _ => True) fun name _ _ => ?_
  refine traces_found hn.start fun layout _ => ?_
  refine (traces_require hn.start fun _ _ => trivial).bind (Q := fun _ _ => True) fun m _ _ => ?_
  exact traces_expression hn (by simpa [Operation.operands] using ho) (by simp [Operation.values])

theorem traces_suffix (hn : node.Placed P) : Traces P c (suffix low node) fun l _ => l.Placed P := by
  unfold suffix
  split
  · rename_i base index hs
    refine (traces_value H (hn.part (by simp [hs, Shape.parts]))).bind fun l _ hl => ?_
    refine (traces_value H (hn.part (by simp [hs, Shape.parts]))).bind fun r _ hr => ?_
    exact traces_subscript hl hr hn
  · rename_i object field hs
    refine (traces_expr H (hn.part (by simp [hs, Shape.parts]))).bind fun e _ he => ?_
    exact traces_member field he hn
  · rename_i pointer field hs
    refine (traces_value H (hn.part (by simp [hs, Shape.parts]))).bind fun p _ hp => ?_
    split
    · refine traces_ite (fun _ => traces_member field ?_ hn) fun _ => traces_fail hn.start
      exact .mk hn.start (by simpa [Operation.operands] using hp) (by simp [Operation.values])
    · exact traces_fail hn.start
  · exact traces_malformed hn

/-! ### Calls and atoms -/

theorem traces_arguments (name : String) (number : Nat) {args : List Node} (params : List Ty)
    (ha : ∀ n ∈ args, n.Placed P) :
    Traces P c (arguments low name number args params) fun es _ => ∀ e ∈ es, e.Placed P := by
  induction args generalizing c number params with
  | nil => exact traces_pure (by simp)
  | cons n ns ih =>
    obtain ⟨hn, hns⟩ := List.forall_mem_cons.1 ha
    cases params with
    | nil => exact traces_pure (by simp)
    | cons ty tys =>
      refine (traces_value H hn).bind fun e _ he => traces_guard hn.start fun _ => ?_
      refine (ih (number + 1) tys hns).bind fun es _ hes => traces_pure ?_
      exact List.forall_mem_cons.2 ⟨he, hes⟩

theorem traces_call (hn : node.Placed P) : Traces P c (call low node) fun l _ => l.Placed P := by
  unfold call
  split
  · rename_i name args hs
    have ha : ∀ n ∈ args, n.Placed P := fun n h => hn.part (by rw [hs]; exact h)
    refine traces_found hn.start fun id _ => traces_ask_bind ?_
    refine traces_guard hn.start fun _ => ?_
    refine traces_guard hn.start fun _ => traces_ask_bind ?_
    refine (traces_arguments H name 1 _ ha).bind fun es _ hes => traces_ask_bind ?_
    exact traces_expression hn hes (by simp [Operation.values])
  · exact traces_malformed hn

omit H in
theorem traces_identifier (hn : node.Placed P) :
    Traces P c (identifier node) fun l _ => l.Placed P := by
  unfold identifier
  split
  · refine (traces_lookup _ hn.start).bind fun id _ _ => traces_ask_bind ?_
    exact traces_expression hn (by simp [Operation.operands]) (by simp [Operation.values])
  · exact traces_malformed hn

omit H in
theorem traces_literal (hn : node.Placed P) : Traces P c (literal node) fun l _ => l.Placed P := by
  unfold literal
  split
  · exact traces_expression hn (by simp [Operation.operands]) (by simp [Operation.values])
  · exact traces_expression hn (by simp [Operation.operands]) (by simp [Operation.values])
  · refine (traces_internString _ hn.start).bind fun id _ _ => ?_
    exact traces_expression hn (by simp [Operation.operands]) (by simp [Operation.values])
  · exact traces_expression hn (by simp [Operation.operands]) (by simp [Operation.values])
  · exact traces_malformed hn

/-! ### Statements -/

theorem traces_statements {nodes : List Node} (hn : ∀ n ∈ nodes, n.Placed P) :
    Traces P c (statements low nodes) fun ss _ => ∀ s ∈ ss, s.Placed P := by
  induction nodes generalizing c with
  | nil => exact traces_pure (by simp)
  | cons n ns ih =>
    obtain ⟨hn, hns⟩ := List.forall_mem_cons.1 hn
    refine (H hn c).bind fun first c' hfirst => (ih hns).bind fun rest _ hrest => ?_
    cases first with
    | stmt s => exact traces_pure (List.forall_mem_cons.2 ⟨hfirst, hrest⟩)
    | expr e =>
      refine traces_pure (List.forall_mem_cons.2 ⟨.mk hn.start ?_ (List.forall_mem_nil _), hrest⟩)
      exact List.forall_mem_singleton.2 hfirst
    | declared => exact traces_pure hrest

theorem traces_loopBody (hn : node.Placed P) :
    Traces P c (loopBody low node) fun s _ => s.Placed P :=
  traces_enterLoop.bind fun _ _ _ => (traces_stmt H hn).bind fun _ _ hs =>
    traces_exitLoop.bind fun _ _ _ => traces_pure hs

theorem traces_block (hn : node.Placed P) : Traces P c (block low node) fun l _ => l.Placed P := by
  unfold block
  split
  · rename_i nodes hs
    refine traces_enterScope.bind fun _ _ _ => ?_
    refine (traces_statements H fun n h => hn.part (by rw [hs]; exact h)).bind fun ss _ hss => ?_
    exact traces_exitScope.bind fun _ _ _ => traces_action hn (by simp [Action.exprs]) hss
  · exact traces_malformed hn

theorem traces_ifElse (hn : node.Placed P) : Traces P c (ifElse low node) fun l _ => l.Placed P := by
  unfold ifElse
  split
  · rename_i test thenBranch elseBranch hs
    refine (traces_condition H (hn.part (by simp [hs, Shape.parts]))).bind fun e _ he => ?_
    refine (traces_stmt H (hn.part (by simp [hs, Shape.parts]))).bind fun t _ ht => ?_
    have branch : ∀ n ∈ elseBranch, ∀ c, Traces P c (stmt low n) fun s _ => s.Placed P :=
      fun n hm c => traces_stmt H (hn.part (by simp [hs, Shape.parts, Option.mem_def.1 hm]))
    refine (traces_optional branch).bind fun o _ ho => traces_action hn ?_ ?_
    · simpa [Action.exprs] using he
    · simpa [Action.stmts] using ⟨ht, ho⟩
  · exact traces_malformed hn

theorem traces_whileLoop (hn : node.Placed P) :
    Traces P c (whileLoop low node) fun l _ => l.Placed P := by
  unfold whileLoop
  split
  · rename_i test body hs
    refine (traces_condition H (hn.part (by simp [hs, Shape.parts]))).bind fun e _ he => ?_
    refine (traces_loopBody H (hn.part (by simp [hs, Shape.parts]))).bind fun b _ hb => ?_
    exact traces_action hn (List.forall_mem_singleton.2 he) (List.forall_mem_singleton.2 hb)
  · exact traces_malformed hn

theorem traces_doWhile (hn : node.Placed P) :
    Traces P c (doWhile low node) fun l _ => l.Placed P := by
  unfold doWhile
  split
  · rename_i body test hs
    refine (traces_loopBody H (hn.part (by simp [hs, Shape.parts]))).bind fun b _ hb => ?_
    refine (traces_condition H (hn.part (by simp [hs, Shape.parts]))).bind fun e _ he => ?_
    exact traces_action hn (List.forall_mem_singleton.2 he) (List.forall_mem_singleton.2 hb)
  · exact traces_malformed hn

theorem traces_forLoop (hn : node.Placed P) :
    Traces P c (forLoop low node) fun l _ => l.Placed P := by
  unfold forLoop
  split
  · rename_i init test increment body hs
    have head : ∀ {o}, o = init ∨ o = test ∨ o = increment → ∀ n ∈ o, n.Placed P := by
      rintro o (rfl | rfl | rfl) n hm <;>
        exact hn.part (by simp [hs, Shape.parts, Option.mem_def.1 hm])
    refine (traces_optional fun n hm c => traces_expr H (head (.inl rfl) n hm)).bind fun i _ hi => ?_
    refine (traces_optional fun n hm c =>
      traces_condition H (head (.inr (.inl rfl)) n hm)).bind fun t _ ht => ?_
    refine (traces_optional fun n hm c =>
      traces_expr H (head (.inr (.inr rfl)) n hm)).bind fun k _ hk => ?_
    refine (traces_loopBody H (hn.part (by simp [hs, Shape.parts]))).bind fun b _ hb => ?_
    refine traces_action hn (fun e he => ?_) (List.forall_mem_singleton.2 hb)
    simp only [Action.exprs, List.mem_append, Option.mem_toList] at he
    rcases he with (he | he) | he
    · exact hi e he
    · exact ht e he
    · exact hk e he
  · exact traces_malformed hn

theorem traces_returns (hn : node.Placed P) :
    Traces P c (returns low node) fun l _ => l.Placed P := by
  unfold returns
  split
  · rename_i value? hs
    refine traces_found hn.start fun expected _ => ?_
    cases value? with
    | none =>
      refine traces_guard hn.start fun _ => ?_
      exact traces_action hn (by simp [Action.exprs]) (by simp [Action.stmts])
    | some part =>
      have hp : part.Placed P := hn.part (by simp [hs, Shape.parts])
      refine traces_guard hn.start fun _ => (traces_value H hp).bind fun e _ he => ?_
      refine traces_guard hp.start fun _ => ?_
      exact traces_action hn (by simpa [Action.exprs] using he) (by simp [Action.stmts])
  · exact traces_malformed hn

omit H in
theorem traces_jump (hn : node.Placed P) : Traces P c (jump node) fun l _ => l.Placed P := by
  unfold jump
  split
  · refine traces_ask_bind ?_
    refine traces_guard hn.start fun _ => ?_
    exact traces_action hn (by simp [Action.exprs]) (by simp [Action.stmts])
  · refine traces_ask_bind ?_
    refine traces_guard hn.start fun _ => ?_
    exact traces_action hn (by simp [Action.exprs]) (by simp [Action.stmts])
  · exact traces_malformed hn

theorem traces_exprStatement (hn : node.Placed P) :
    Traces P c (exprStatement low node) fun l _ => l.Placed P := by
  unfold exprStatement
  split
  · rename_i part hs
    refine (traces_expr H (hn.part (by simp [hs, Shape.parts]))).bind fun e _ he => ?_
    exact traces_action hn (List.forall_mem_singleton.2 he) (by simp [Action.stmts])
  · exact traces_malformed hn

/-! ### Declarations -/

theorem traces_all {nodes : List Node} (hn : ∀ n ∈ nodes, n.Placed P) :
    Traces P c (all low nodes) fun _ _ => True := by
  induction nodes generalizing c with
  | nil => exact traces_pure trivial
  | cons n ns ih =>
    obtain ⟨hn, hns⟩ := List.forall_mem_cons.1 hn
    exact (H hn c).discard.bind fun _ _ _ => ih hns

theorem traces_program (hn : node.Placed P) :
    Traces P c (program low node) fun l _ => l.Placed P := by
  unfold program
  split
  · rename_i items hs
    exact (traces_all H fun n h => hn.part (by rw [hs]; exact h)).bind fun _ _ _ => traces_pure trivial
  · exact traces_malformed hn

theorem traces_structDef (hn : node.Placed P) :
    Traces P c (structDef low node) fun l _ => l.Placed P := by
  unfold structDef
  split
  · rename_i name members hs
    refine traces_guard hn.start fun _ => (traces_beginStruct name hn.start).bind fun _ _ _ => ?_
    refine (traces_all H fun n h => hn.part (by rw [hs]; exact h)).bind fun _ _ _ => ?_
    exact (traces_finishStruct hn.start).discard.bind fun _ _ _ => traces_pure trivial
  · exact traces_malformed hn

theorem traces_functionDef (hn : node.Placed P) :
    Traces P c (functionDef low node) fun l _ => l.Placed P := by
  unfold functionDef
  split
  · rename_i base stars name params body hs
    have hp : ∀ n ∈ params, n.Placed P := fun n h => hn.part (by simp [hs, Shape.parts, h])
    refine (traces_resolveType _ _ hn.start).bind fun _ _ _ => traces_guard hn.start fun _ => ?_
    refine (traces_beginFunction name _ hn.start).discard.bind fun _ _ _ => ?_
    refine (traces_all H hp).bind fun _ _ _ => ?_
    refine (traces_stmt H (hn.part (by simp [hs, Shape.parts]))).bind fun b _ hb => ?_
    exact (traces_finishFunction hb).bind fun _ _ _ => traces_pure trivial
  · exact traces_malformed hn

omit H in
theorem traces_declareParam (base : Base) (stars : Nat) (name : String) {loc : Location}
    (hl : P loc) : Traces P c (declareParam base stars name loc) fun l _ => l.Placed P := by
  refine (traces_resolveType _ _ hl).bind fun ty _ _ => ?_
  refine traces_guard hl fun _ => ?_
  refine traces_guard hl fun _ => (traces_sizeOf ty hl).bind fun size c hm => ?_
  have hm : c.program.Measures ty size (none.map ArraySpec.length) := hm
  exact (traces_declare hl hm (by simp [ArraySpec.Placed]) fun _ => rfl).bind fun _ _ _ =>
    traces_pure trivial

omit H in
theorem traces_param (hn : node.Placed P) : Traces P c (param node) fun l _ => l.Placed P := by
  unfold param
  split
  · rename_i base item hs
    have hi : item.Placed P := hn.part (by simp [hs, Shape.parts])
    split
    · exact traces_declareParam _ _ _ hi.start
    · exact traces_declareParam _ _ _ hi.start
    · exact traces_malformed hi
  · exact traces_malformed hn

omit H in
theorem traces_variableType (base : Base) (stars : Nat) (name : String) {loc : Location}
    (hl : P loc) : Traces P c (variableType base stars name loc) fun _ _ => True :=
  (traces_resolveType _ _ hl).bind fun _ _ _ => traces_guard hl fun _ => traces_pure trivial

theorem traces_arrayLength (name : String) {size : Node} {loc : Location} (hl : P loc)
    (hs : size.Placed P) :
    Traces P c (arrayLength low name size loc) fun spec _ =>
      spec.lengthExpr.Placed P ∧ 0 < spec.length := by
  refine (traces_expr H hs).bind fun e _ he => traces_guard hl fun _ => ?_
  refine (traces_require hl fun _ _ => trivial).bind (Q := fun _ _ => True) fun length _ _ => ?_
  exact traces_guard hl fun hpos => traces_pure ⟨he, by simp only; omega⟩

theorem traces_variableItem (base : Base) {item : Node} (hi : item.Placed P) :
    Traces P c (variableItem low base item) fun _ _ => True := by
  unfold variableItem
  simp only
  split
  · refine (traces_variableType _ _ _ hi.start).bind fun ty _ _ => ?_
    refine (traces_sizeOf ty hi.start).bind fun size c hm => ?_
    have hm : c.program.Measures ty size (none.map ArraySpec.length) := hm
    exact traces_declare hi.start hm (by simp [ArraySpec.Placed]) nofun
  · rename_i stars name size? hs
    refine (traces_variableType _ _ _ hi.start).bind fun ty _ _ => ?_
    cases size? with
    | none => exact traces_fail hi.start
    | some part =>
      have hp : part.Placed P := hi.part (by simp [hs, Shape.parts])
      refine (traces_arrayLength H name hi.start hp).bind fun spec _ hspec => ?_
      refine (traces_sizeOf ty hi.start).bind fun element _ hm => traces_guard hi.start fun hlt => ?_
      exact traces_declare hi.start ⟨ty, element, rfl, hm, hspec.2, rfl, Nat.lt_of_not_le hlt⟩
        (by simpa [ArraySpec.Placed] using hspec.1) nofun
  · exact traces_malformed hi

theorem traces_variableItems (base : Base) {items : List Node} (hi : ∀ n ∈ items, n.Placed P) :
    Traces P c (variableItems low base items) fun _ _ => True := by
  induction items generalizing c with
  | nil => exact traces_pure trivial
  | cons n ns ih =>
    obtain ⟨hn, hns⟩ := List.forall_mem_cons.1 hi
    exact (traces_variableItem H base hn).bind fun _ _ _ => ih hns

theorem traces_varDec (hn : node.Placed P) :
    Traces P c (varDec low node) fun l _ => l.Placed P := by
  unfold varDec
  split
  · rename_i base items hs
    refine (traces_variableItems H base fun n h => hn.part (by rw [hs]; exact h)).bind ?_
    exact fun _ _ _ => traces_pure trivial
  · exact traces_malformed hn

/-- **Each rule takes steps**, and its code and its faults are at places of the tree. -/
theorem traces_rule (hn : node.Placed P) (c : Context) :
    Traces P c (rule low node) fun l _ => l.Placed P := by
  unfold rule
  split
  · exact traces_program H hn
  · exact traces_structDef H hn
  · exact traces_functionDef H hn
  · exact traces_param hn
  · exact traces_varDec H hn
  · exact traces_block H hn
  · exact traces_ifElse H hn
  · exact traces_whileLoop H hn
  · exact traces_doWhile H hn
  · exact traces_forLoop H hn
  · exact traces_returns H hn
  · exact traces_jump hn
  · exact traces_jump hn
  · exact traces_action hn (by simp [Action.exprs]) (by simp [Action.stmts])
  · exact traces_exprStatement H hn
  · exact traces_assignment H hn
  · exact traces_fail hn.start
  iterate 6
    exact traces_binary H hn
  · exact traces_unary H hn
  · exact traces_suffix H hn
  · exact traces_call H hn
  · exact traces_identifier hn
  · exact traces_literal hn
  all_goals exact traces_fail hn.start

end

end Lower

/-- **Lowering takes steps**, and its code and its faults are at places of the tree. -/
theorem lower_traces (g : Grammar) {n : Node} (hn : n.Placed P) (c : Context) :
    Lower.Traces P c (lower g n) fun l _ => l.Placed P := by
  have within : ∀ height {n : Node}, n.Placed P → ∀ c,
      Lower.Traces P c (lowerWithin g height n) fun l _ => l.Placed P := by
    intro height
    induction height with
    | zero => exact fun hn c => Lower.traces_malformed hn
    | succ height ih =>
      intro n hn c
      change Lower.Traces P c (lowerStep g (lowerWithin g height) n) _
      unfold lowerStep
      split
      · exact Lower.traces_fail hn.start
      · exact Lower.traces_ite (fun _ => Lower.traces_rule ih hn c) fun _ =>
          Lower.traces_fail hn.start
  exact within n.height hn c

theorem lowerExpr_traces (g : Grammar) {n : Node} (hn : n.Placed P) (c : Context) :
    Lower.Traces P c (lowerExpr g n) fun e _ => e.Placed P :=
  Lower.traces_expr (fun hm => lower_traces g hm) hn

end MiniC
