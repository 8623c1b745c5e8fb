/-
  Type soundness.

  On a machine that is ready for it, well-typed code meets no internal fault, and each call makes the
  machine ready for the function that it calls (`engine_safe`).  So a program that has been built from
  a source never meets one, and its expressions come to values of their own types (`type_soundness`).
-/
import MiniC.Proofs.Plain
import MiniC.Proofs.Safety
import MiniC.Proofs.Storage

namespace MiniC

open Machine Run

/-- The environment of the finished context `c`. -/
structure Env.Runs (env : Env) (c : Context) : Prop where
  finished : c.Finished env.grammar
  program : env.program = c.program

namespace Ty
variable {dst src : Ty}

theorem isScalar_of_assignable (h : dst.assignable src = true) (hd : dst.isScalar = true) :
    src.isScalar = true := by
  simp only [assignable, Bool.or_eq_true, Bool.and_eq_true, decide_eq_true_eq] at h
  rcases h with (rfl | h) | h
  · exact hd
  · exact isScalar_of_isArithmetic h.2
  · exact isScalar_of_isPointer h.1.2

theorem eq_of_assignable (h : dst.assignable src = true) (hd : dst.isScalar = false) : src = dst := by
  simp only [isScalar, Bool.or_eq_false_iff] at hd
  simp only [assignable, hd.1, hd.2, Bool.false_and, Bool.or_false, decide_eq_true_eq] at h
  exact h.symm

end Ty

/-- A structure that is known has a size. -/
theorem Program.sizeOf?_of_known {p : Program} {t : Ty} (hs : t.structName?.isSome) (hk : t.Known p) :
    (p.sizeOf? t).isSome := by
  obtain ⟨base, stars⟩ := t
  cases stars with
  | succ n => simp [Ty.structName?] at hs
  | zero =>
    cases base with
    | struct name => simpa [sizeOf?, Ty.fixedSize?, layout?] using hk name rfl
    | int | char | void => simp [Ty.structName?] at hs

namespace Engine

/-! ## Constants -/

/-- An engine that executes constant expressions to their values, unless its fuel is spent. -/
structure Folds (engine : Engine) : Prop where
  execute : ∀ {e w}, e.constant? = some w → ∀ m,
    engine.execute e m = .error .exhausted m ∨ ∃ ty, engine.execute e m = .ok (.value ⟨ty, w⟩) m

variable {env : Env} {c : Context} {engine : Engine}

theorem Folds.solve (h : engine.Folds) {e : Expr} {w : Word} (he : e.constant? = some w) (m : Machine) :
    engine.solve e m = .error .exhausted m ∨ ∃ ty, engine.solve e m = .ok ⟨ty, w⟩ m := by
  rcases h.execute he m with hx | ⟨ty, hx⟩
  · exact .inl (bind_eq_error.2 (.inl hx))
  · exact .inr ⟨ty, bind_eq_ok.2 ⟨_, _, hx, rfl⟩⟩

theorem Folds.binary (h : engine.Folds) {op : BinaryOp} {left right : Expr} {l w : Word}
    {loc : Location} (hl : left.constant? = some l)
    (hw : (match op.shortcut l with
      | some w => some w
      | none => right.constant?.bind fun r => op.apply l r) = some w) (m : Machine) :
    engine.binary op left right loc m = .error .exhausted m ∨
      engine.binary op left right loc m = .ok w m := by
  rcases h.solve hl m with hx | ⟨ty, hx⟩
  · exact .inl (bind_eq_error.2 (.inl hx))
  · unfold Engine.binary
    cases hs : op.shortcut l with
    | some w' =>
      rw [hs] at hw
      cases hw
      exact .inr (bind_eq_ok.2 ⟨_, _, hx, by simp [hs]⟩)
    | none =>
      rw [hs] at hw
      obtain ⟨r, hr, ha⟩ := Option.bind_eq_some_iff.1 hw
      rcases h.solve hr m with hy | ⟨ty', hy⟩
      · exact .inl (bind_eq_error.2 (.inr ⟨_, _, hx, by simp [hs, hy]⟩))
      · have hzero : ¬ (op.divides = true ∧ r = 0) := by
          rintro ⟨hd, rfl⟩
          cases op <;> simp_all [BinaryOp.divides, BinaryOp.apply]
        exact .inr (bind_eq_ok.2 ⟨_, _, hx, by simp [hs, hy, hzero, ha]⟩)

theorem folds_executeRule (h : engine.Folds) {e : Expr} {w : Word} (he : e.constant? = some w)
    (m : Machine) : executeRule env engine e m = .error .exhausted m ∨
      ∃ ty, executeRule env engine e m = .ok (.value ⟨ty, w⟩) m := by
  obtain ⟨op, ty, loc⟩ := e
  cases op with
  | const v =>
    cases he
    exact .inr ⟨ty, rfl⟩
  | unary op operand =>
    obtain ⟨v, hv, ha⟩ := Option.bind_eq_some_iff.1 he
    rcases h.solve hv m with hx | ⟨t, hx⟩
    · exact .inl (bind_eq_error.2 (.inl hx))
    · exact .inr ⟨ty, bind_eq_ok.2 ⟨_, _, hx, by simp [ha]⟩⟩
  | binary op left right =>
    obtain ⟨l, hl, hw⟩ := Option.bind_eq_some_iff.1 he
    rcases h.binary hl hw m with hx | hx
    · exact .inl (bind_eq_error.2 (.inl hx))
    · exact .inr ⟨ty, bind_eq_ok.2 ⟨_, _, hx, rfl⟩⟩
  | _ => cases he

end Engine

/-- Constant expressions are executed to their values. -/
theorem engine_folds (env : Env) (fuel : Nat) : (engine env fuel).Folds := by
  induction fuel with
  | zero => exact ⟨fun _ m => .inl rfl⟩
  | succ n ih => exact ⟨fun he m => Engine.folds_executeRule ih he m⟩

/-- A loop made of well-typed code. -/
structure Loop.Typed (c : Context) (k : FunctionId) (result : Option Ty) (l : Loop) : Prop where
  condition : ∀ e ∈ l.condition, e.Typed c (some k) ∧ e.ty.isScalar = true
  increment : ∀ e ∈ l.increment, e.Typed c (some k)
  body : l.body.Typed c (some k) result

namespace Engine

/-- An engine on which well-typed code meets no internal fault. -/
structure Safe (c : Context) (engine : Engine) : Prop where
  calm : engine.Calm
  folds : engine.Folds
  execute : ∀ {k e}, Expr.Typed c (some k) e →
    (engine.execute e).Safe (Ready c k) (Resolved.Fits c e)
  perform : ∀ {k result s}, Stmt.Typed c (some k) result s →
    (engine.perform s).Safe (Ready c k) fun _ => True
  iterate : ∀ {k result l}, Loop.Typed c k result l →
    (engine.iterate l).Safe (Ready c k) fun _ => True

namespace Safe
variable {env : Env} {c : Context} {k : FunctionId} {engine : Engine} {loc : Location}

/-! ## Values and places -/

section
variable (h : engine.Safe c)
include h

theorem solve {e : Expr} (he : e.Typed c (some k)) (ht : e.ty.isScalar = true) :
    (engine.solve e).Safe (Ready c k) fun _ => True := by
  refine (h.execute he).bind fun r hr => ?_
  cases hr with
  | value _ _ _ => exact safe_pure trivial
  | place hty _ => exact safe_loadPlace (.inr (by rwa [hty]))

theorem place {e : Expr} (he : e.Typed c (some k)) (hp : e.isPlace = true ∨ e.ty.structName?.isSome) :
    (engine.place e).Safe (Ready c k) fun p =>
      p.ty = e.ty ∧ p.isArray = (c.arrayLength? e).isSome := by
  refine (h.execute he).bind fun r hr => ?_
  cases hr with
  | value _ hplace hstruct => simp [hplace, hstruct] at hp
  | place hty ha => exact safe_pure ⟨hty, ha⟩

theorem solveAll {es : List Expr} (he : ∀ e ∈ es, e.Typed c (some k) ∧ e.ty.isScalar = true) :
    (engine.solveAll es).Safe (Ready c k) fun _ => True := by
  induction es with
  | nil => exact safe_pure trivial
  | cons e es ih =>
    obtain ⟨ht, hs⟩ := he e (by simp)
    refine (h.solve ht hs).bind fun _ _ => ?_
    exact (ih fun e' h' => he e' (by simp [h'])).bind fun _ _ => safe_pure trivial

theorem binary {op : BinaryOp} {left right : Expr} (hl : left.Typed c (some k))
    (hr : right.Typed c (some k)) (hls : left.ty.isScalar = true) (hrs : right.ty.isScalar = true) :
    (engine.binary op left right loc).Safe (Ready c k) fun _ => True := by
  refine (h.solve hl hls).bind fun l _ => ?_
  simp only
  split
  · exact safe_pure trivial
  · exact (h.solve hr hrs).bind fun r _ => safe_guard (fun _ => rfl) fun _ => safe_require rfl

end

theorem variablePlace (hr : env.Runs c) {id : SymbolId} {ty : Ty} (hs : c.Sees (some k) id) :
    (variablePlace env id ty loc).Safe (Ready c k) fun p =>
      p.ty = ty ∧ p.isArray = (c.program.symbol id).isArray := by
  refine safe_get_bind fun m hm => (safe_require_some (hm.address hs)).bind fun a _ => safe_pure ?_
  rw [hr.program]
  exact ⟨rfl, rfl⟩

theorem registerArray {P : Machine → Prop} (hP : Stable P) (h : engine.Safe c) {s : Symbol}
    (hs : s.Sound c) (a : Address) : (engine.registerArray s a).Safe P fun _ => True := by
  unfold Engine.registerArray
  split
  · rename_i spec element hspec helement
    obtain ⟨w, hw⟩ := Option.isSome_iff_exists.1 (hs.array spec hspec).2.1
    have length : (engine.solve spec.lengthExpr).Safe P fun _ => True := by
      refine safe_of_calm hP (h.calm.solve _) (gives_any _) fun {m f m'} _ hx => ?_
      rcases h.folds.solve hw m with hy | ⟨ty, hy⟩ <;> simp [hy] at hx
    exact length.bind fun _ _ => safe_emit hP _
  · exact safe_pure trivial

/-! ## Assignments -/

theorem assign (hr : env.Runs c) (h : engine.Safe c) {dst src : Expr} (hd : dst.Typed c (some k))
    (hs : src.Typed c (some k)) (hp : dst.isPlace = true) (hv : src.ty.isVoid = false)
    (ha : dst.ty.assignable src.ty = true) :
    (engine.assign env dst src loc).Safe (Ready c k) fun _ => True := by
  refine safe_ite (fun hstruct => ?_) fun hstruct => ?_
  · -- A structure: the source is a place of the same type, whose size is in the tables.
    have hscalar : dst.ty.isScalar = false := by
      cases hsc : dst.ty.isScalar with
      | false => rfl
      | true => simp [Ty.structName?_of_isScalar hsc] at hstruct
    have hsrc : src.ty.structName?.isSome := by rwa [Ty.eq_of_assignable ha hscalar]
    refine (safe_require_some ?_).bind fun size _ => ?_
    · rw [hr.program]
      exact Program.sizeOf?_of_known hstruct (hr.finished.known hd)
    · refine (h.place hs (.inr hsrc)).bind fun source _ => (h.place hd (.inl hp)).bind fun target _ => ?_
      refine (safe_readBytes ..).bind fun bytes _ => ?_
      refine (safe_writeBytes (stable_ready c k) _ ?_ ..).bind fun _ _ => safe_pure trivial
      nofun
  · have hdst : dst.ty.isScalar = true := by
      cases hsc : dst.ty.isScalar with
      | true => rfl
      | false =>
        rw [Ty.eq_of_assignable ha hsc] at hv
        rw [Ty.isScalar_of_structName? hv (by simpa using hstruct)] at hsc
        cases hsc
    refine (h.solve hs (Ty.isScalar_of_assignable ha hdst)).bind fun v _ => ?_
    refine (h.place hd (.inl hp)).bind fun p _ => ?_
    exact (safe_store (stable_ready c k) ..).bind fun _ _ => safe_pure trivial

theorem storeElements (h : engine.Safe c) {f : FunctionId} {scope : Scope} {base : Address}
    {element : Ty} (hsc : element.isScalar = true) {values : List Node} {es : List Expr}
    (hl : List.Forall₂ (fun v e => lowerExpr env.grammar v (.frozenIn env.program f scope) =
      .ok (e, .frozenIn env.program f scope)) values es)
    (ht : ∀ e ∈ es, e.Typed c (some k)) (ha : ∀ e ∈ es, element.assignable e.ty = true) (i : Nat) :
    (engine.storeElements env f scope base element i values).Safe (Ready c k) fun _ => True := by
  induction hl generalizing i with
  | nil => exact safe_pure trivial
  | @cons v e values es hv _ ih =>
    unfold Engine.storeElements
    rw [hv]
    have hscalar := Ty.isScalar_of_assignable (ha e (by simp)) hsc
    refine (h.solve (ht e (by simp)) hscalar).bind fun w _ => ?_
    refine (safe_displaced _ _ (e := .overflow "add") (by simp) _).bind fun _ _ => ?_
    refine (safe_store (stable_ready c k) ..).bind fun _ _ => ?_
    exact ih (fun e' h' => ht e' (by simp [h'])) (fun e' h' => ha e' (by simp [h'])) (i + 1)

theorem arrayAssign (hr : env.Runs c) (h : engine.Safe c) {dst : Expr} {values : List Node}
    {scope : Scope} {element : Ty} {es : List Expr} (hd : dst.Typed c (some k))
    (hlen : ∃ length, c.arrayLength? dst = some length ∧ values.length ≤ length)
    (hpt : dst.ty.pointee = some element) (hsc : element.isScalar = true)
    (hes : c.assigned (.arrayAssign dst values scope) es) (ht : ∀ e ∈ es, e.Typed c (some k))
    (ha : ∀ e ∈ es, element.assignable e.ty = true) :
    (engine.arrayAssign env dst values scope loc).Safe (Ready c k) fun _ => True := by
  obtain ⟨length, hlen, -⟩ := hlen
  refine (h.execute hd).bind fun r hfit => ?_
  obtain ⟨base, rfl⟩ := hfit.array hlen
  refine safe_get_bind fun m hm => ?_
  obtain ⟨frame, hframe, -⟩ := hm.frame
  simp only [hframe, hpt, Option.getD_some]
  refine (storeElements h hsc ?_ ht ha 0).bind fun _ _ => safe_pure trivial
  rw [hr.program]
  exact hr.finished.replayed hes _ hr.finished.leads.completes frame.function

/-! ## Builtin functions -/

theorem argument (hr : env.Runs c) {id : SymbolId} (hl : id ∈ (c.program.function k).locals)
    (hs : (c.program.symbol id).ty.isScalar = true) :
    (argument env id loc).Safe (Ready c k) fun _ => True := by
  refine (variablePlace hr (.inr ⟨k, rfl, hl⟩)).bind fun p hp => safe_loadPlace (.inr ?_)
  rw [hp.1, hr.program]
  exact hs

theorem malloc (size : Word) : (malloc size loc).Safe (Ready c k) fun _ => True := by
  unfold Engine.malloc
  refine safe_guard (fun _ => rfl) fun hpos => ?_
  have stored : 0 < size.toInt.toNat := by omega
  refine (safe_allocate (stable_ready c k) stored loc).bind fun a _ => ?_
  exact safe_modify (stable_ready c k) (fun _ => rfl) fun _ => rfl

theorem free (a : Address) : (free a loc).Safe (Ready c k) fun _ => True := by
  refine safe_ite (fun _ => safe_pure trivial) fun _ => safe_get_bind fun m _ => ?_
  refine safe_guard (fun _ => rfl) fun _ => ?_
  refine safe_modify_then (stable_ready c k) (fun _ => rfl) (fun _ => rfl) ?_
  refine (safe_release (stable_ready c k) a).bind fun o ho => ?_
  cases o with
  | none => exact safe_pure trivial
  | some e => exact safe_fault (Fault.isExcluded_memory (ho e rfl))

theorem builtin (hr : env.Runs c) {f : Function} (hf : c.program.functions[k]? = some f) {b : Builtin}
    (hb : f.body = .builtin b) : (builtin env b loc).Safe (Ready c k) fun _ => True := by
  have hsound := hr.finished.tables.functions hf
  have reads : ∀ p ∈ b.reads, (Engine.argument env p loc).Safe (Ready c k) fun _ => True := by
    intro p hp
    have hbody := hsound.body
    rw [hb] at hbody
    obtain ⟨hl, hs⟩ := hsound.params p (hbody p hp)
    exact argument hr (by rwa [Program.function_eq hf]) hs
  have emits : ∀ e, (emit e).Safe (Ready c k) fun _ => True := safe_emit (stable_ready c k)
  cases b with
  | highlightIndex array index color =>
    refine (reads array (by simp [Builtin.reads])).bind fun _ _ => ?_
    refine (reads index (by simp [Builtin.reads])).bind fun _ _ => ?_
    refine (reads color (by simp [Builtin.reads])).bind fun _ _ => ?_
    exact safe_get_bind fun m _ => emits _
  | clearHighlight array => exact (reads array (by simp [Builtin.reads])).bind fun _ _ => emits _
  | malloc size => exact (reads size (by simp [Builtin.reads])).bind fun _ _ => malloc _
  | free pointer => exact (reads pointer (by simp [Builtin.reads])).bind fun _ _ => free _

/-! ## Calls -/

theorem bindParams (hr : env.Runs c) {ids : List SymbolId} {vs : List Value}
    (h : ∀ id ∈ ids, id ∈ (c.program.function k).locals) :
    (bindParams env ids vs).Safe (Ready c k) fun _ => True := by
  induction ids generalizing vs with
  | nil => exact safe_pure trivial
  | cons id ids ih =>
    cases vs with
    | nil => exact safe_pure trivial
    | cons v vs =>
      refine (variablePlace hr (.inr ⟨k, rfl, h id (by simp)⟩)).bind fun p _ => ?_
      refine (safe_store (stable_ready c k) ..).bind fun _ _ => ?_
      exact ih fun id' h' => h id' (by simp [h'])

theorem announceFrame : announceFrame.Safe (Ready c k) fun _ => True := by
  refine safe_get_bind fun m _ => ?_
  split
  · exact safe_pure trivial
  · exact safe_emit (stable_ready c k) _

theorem runBody (hr : env.Runs c) (h : engine.Safe c) {f : Function}
    (hf : c.program.functions[k]? = some f) :
    (engine.runBody env f loc).Safe (Ready c k) fun _ => True := by
  have hbody := (hr.finished.tables.functions hf).body
  unfold Engine.runBody
  split <;> rename_i hb
  · rw [hb] at hbody
    exact h.perform hbody
  · exact builtin hr hf hb
  · rw [hb] at hbody
    cases hbody

/-- A frame that binds one more variable still binds all others. -/
theorem address?_bind (frame : Frame) (b : Binding) (s : SymbolId) :
    (b.symbol = s ∨ (frame.address? s).isSome) →
      (Frame.address? { frame with latest := b :: frame.latest } s).isSome := by
  intro h
  rw [Frame.address?, List.find?_cons]
  by_cases hb : b.symbol = s
  · simp [hb]
  · have hrest := h.resolve_left hb
    rw [Frame.address?] at hrest
    simpa [hb] using hrest

/-- That a frame has been opened is kept by what keeps the frames. -/
theorem stable_opened (c : Context) (frame : Frame) (calls : List Frame) :
    Stable fun m : Machine => m.Supplied c ∧ m.frames.calls = frame :: calls :=
  fun m m' hf hs hm => ⟨stable_supplied c m m' hf hs hm.1, by rw [hf, hm.2]⟩

/-- Where a frame has been opened, a local variable can be bound in it. -/
theorem bindLocal_opened {m : Machine} {frame : Frame} {calls : List Frame} (hm : m.Supplied c)
    (hc : m.frames.calls = frame :: calls) (symbol : Symbol) (id : SymbolId) (a : Address) :
    ∃ n, bindLocal symbol id a m = .ok () n ∧ n.Supplied c ∧
      n.frames.calls = { frame with latest := ⟨id, a, symbol.size⟩ :: frame.latest } :: calls := by
  refine ⟨{ m with frames := { m.frames with
    calls := { frame with latest := ⟨id, a, symbol.size⟩ :: frame.latest } :: calls } },
    bind_eq_ok.2 ⟨m, m, rfl, ?_⟩, ⟨hm.globals, hm.strings⟩, rfl⟩
  rw [Frames.bind?, hc]
  rfl

/-- Where a frame has been opened, the variables that are given storage come to have some. -/
theorem allocateLocals (hr : env.Runs c) (h : engine.Safe c) {ids : List SymbolId} {m : Machine}
    {frame : Frame} {calls : List Frame} (hs : ∀ id ∈ ids, c.Sees (some k) id) (hm : m.Supplied c)
    (hc : m.frames.calls = frame :: calls) :
    (∀ {u m'}, engine.allocateLocals env ids m = .ok u m' → m'.Supplied c ∧
      ∃ frame', m'.frames.current? = some frame' ∧
        (∀ id, (frame.address? id).isSome → (frame'.address? id).isSome) ∧
        ∀ id ∈ ids, (frame'.address? id).isSome) ∧
    ∀ {f m'}, engine.allocateLocals env ids m = .error (.fault f) m' → f.isExcluded = false := by
  induction ids generalizing m frame with
  | nil =>
    refine ⟨fun {u m'} hx => ?_, fun hx => absurd hx pure_ne_error⟩
    obtain ⟨-, rfl⟩ := pure_eq_ok.1 hx
    exact ⟨hm, frame, by rw [Frames.current?, hc]; rfl, fun _ hs => hs, by simp⟩
  | cons id ids ih =>
    have hsym : (env.program.symbol id).Sound c := by
      rw [hr.program]
      exact hr.finished.symbol (hs id (by simp))
    have rest : ∀ id ∈ ids, c.Sees (some k) id := fun id' h' => hs id' (by simp [h'])
    have allocated := safe_allocate (stable_opened c frame calls) hsym.stored
      (env.program.symbol id).declaredAt
    have registered := fun a frame => registerArray (stable_opened c frame calls) h hsym a
    rw [allocateLocals_cons]
    constructor
    · intro u m' hx
      obtain ⟨a, n, hn, hx⟩ := bind_eq_ok.1 hx
      obtain ⟨⟨hm, hc⟩, -⟩ := allocated.ok ⟨hm, hc⟩ hn
      obtain ⟨n, hn, hm, hc⟩ := bindLocal_opened hm hc (env.program.symbol id) id a
      rw [bind_of_ok hn] at hx
      obtain ⟨_, n, hn, hx⟩ := bind_eq_ok.1 hx
      obtain ⟨⟨hm, hc⟩, -⟩ := (registered a _).ok ⟨hm, hc⟩ hn
      -- Giving storage to the others takes none away.
      obtain ⟨hm, frame', hframe', keeps, binds⟩ := (ih rest hm hc).1 hx
      refine ⟨hm, frame', hframe', fun s hsome => keeps s (address?_bind _ _ _ (.inr hsome)), ?_⟩
      intro s hmem
      rcases List.mem_cons.1 hmem with rfl | hmem
      · exact keeps s (address?_bind _ _ _ (.inl rfl))
      · exact binds s hmem
    · intro f m' hx
      rcases bind_eq_error.1 hx with hx | ⟨a, n, hn, hx⟩
      · exact allocated.error ⟨hm, hc⟩ hx
      obtain ⟨⟨hm, hc⟩, -⟩ := allocated.ok ⟨hm, hc⟩ hn
      obtain ⟨n, hn, hm, hc⟩ := bindLocal_opened hm hc (env.program.symbol id) id a
      rw [bind_of_ok hn] at hx
      rcases bind_eq_error.1 hx with hx | ⟨_, n, hn, hx⟩
      · exact (registered a _).error ⟨hm, hc⟩ hx
      · obtain ⟨⟨hm, hc⟩, -⟩ := (registered a _).ok ⟨hm, hc⟩ hn
        exact (ih rest hm hc).2 hx

/-- A call makes the machine ready for the function that it calls. -/
theorem enterFrame (hr : env.Runs c) (h : engine.Safe c) {f : Function} (args : List Value)
    (name : String) (hf : c.program.functions[k]? = some f) {m : Machine} (hm : m.Supplied c) :
    (∀ {u m'}, engine.enterFrame env f args { m with frames := m.frames.push k name } = .ok u m' →
      m'.Ready c k) ∧
    ∀ {e m'}, engine.enterFrame env f args { m with frames := m.frames.push k name } =
      .error (.fault e) m' → e.isExcluded = false := by
  have hfun := Program.function_eq hf
  have hpush : Supplied c { m with frames := m.frames.push k name } := ⟨hm.globals, hm.strings⟩
  have sees : ∀ id ∈ f.locals, c.Sees (some k) id := fun id hid => .inr ⟨k, rfl, by rwa [hfun]⟩
  obtain ⟨hok, herror⟩ := allocateLocals hr h sees hpush rfl
  have rest : (do Engine.bindParams env f.params args; Engine.announceFrame : Run Unit).Safe
      (Ready c k) fun _ => True := by
    refine (bindParams hr fun id hid => ?_).bind fun _ _ => announceFrame
    rw [hfun]
    exact ((hr.finished.tables.functions hf).params id hid).1
  have ready : ∀ {u n}, engine.allocateLocals env f.locals
      { m with frames := m.frames.push k name } = .ok u n → n.Ready c k := by
    intro u n hn
    obtain ⟨hsup, frame, hframe, -, binds⟩ := hok hn
    exact ⟨hsup, frame, hframe, by rwa [hfun]⟩
  constructor
  · intro u m' hx
    obtain ⟨_, n, hn, hx⟩ := bind_eq_ok.1 hx
    exact (rest.ok (ready hn) hx).1
  · intro e m' hx
    rcases bind_eq_error.1 hx with hx | ⟨_, n, hn, hx⟩
    · exact herror hx
    · exact rest.error (ready hn) hx

theorem callOutcome_error {f : Function} {t : Option MemoryError} {returned : Option Value} {e : Fault}
    (ht : ∀ x ∈ t, x ≠ .zeroSize)
    (hx : (callOutcome f t returned).mapError Stop.fault = .error (.fault e)) :
    e.isExcluded = false := by
  cases t with
  | some x =>
    cases hx
    exact Fault.isExcluded_memory (ht x rfl)
  | none =>
    cases returned with
    | some v => cases hx
    | none =>
      by_cases hv : f.returnsValue = true
      · rw [callOutcome, if_pos hv] at hx
        cases hx
        rfl
      · rw [callOutcome, if_neg hv] at hx
        cases hx

/-- **A call meets no internal fault.** -/
theorem invoke {P : Machine → Prop} (hP : Stable P) (hs : ∀ m, P m → m.Supplied c)
    (hr : env.Runs c) (h : engine.Safe c) {id : FunctionId} {f : Function} {args : List Value}
    (hf : c.program.functions[id]? = some f) :
    (engine.invoke env id args loc).Safe P fun _ => True := by
  refine safe_of_calm hP (h.calm.invoke id args loc) (gives_any _) fun {m e m'} hm hx => ?_
  have hfun : env.program.function id = f := by rw [hr.program, Program.function_eq hf]
  obtain ⟨entered, failed⟩ := enterFrame hr h args f.name hf (hs m hm)
  rw [invoke_eq, hfun] at hx
  by_cases deep : env.config.maxDepth ≤ m.frames.depth
  · rw [framed_of_le deep] at hx
    cases hx
    rfl
  rw [framed_of_lt (Nat.not_le.1 deep)] at hx
  obtain ⟨r, n, ended⟩ := exists_conclude (do engine.enterFrame env f args; engine.runBody env f loc)
    { m with frames := m.frames.push id f.name }
  obtain ⟨t, k, left⟩ := leaveFrame_ok n
  rw [closing_of_leave ended left] at hx
  obtain ⟨stopped, -⟩ := conclude_eq_error.1 hx
  cases r with
  | ok u => exact callOutcome_error (gives_leaveFrame _ _ _ left) stopped
  | error stop =>
    -- The body has failed, or the frame could not be set up.
    cases stopped
    rcases bind_eq_error.1 (show _ = EStateM.Result.error (.fault e) n from ended) with hn | ⟨_, k, hk, hn⟩
    · exact failed hn
    · exact (runBody hr h hf).error (entered hk) hn

theorem named {α : Type} {P : Machine → Prop} {R : α → Prop} {x : Run α} (hP : Stable P)
    (name : String) (hx : x.Safe P R) : (named name x).Safe P R where
  ok {m _ _} hm h := by
    obtain ⟨n, hn, rfl⟩ := named_eq_ok.1 h
    have hpush : P { m with callStack := name :: m.callStack } := hP m _ rfl rfl hm
    obtain ⟨hn', ha⟩ := hx.ok hpush hn
    exact ⟨hP n _ rfl rfl hn', ha⟩
  error {m _ _} hm h := by
    obtain ⟨n, hn, rfl⟩ := named_eq_error.1 h
    have hpush : P { m with callStack := name :: m.callStack } := hP m _ rfl rfl hm
    exact hx.error hpush hn

theorem noted {α : Type} {P : Machine → Prop} {R : α → Prop} {x : Run α} (hP : Stable P)
    (f : FunctionId) (hx : x.Safe P R) : (Run.noted f x).Safe P R where
  ok {m _ _} hm h := by
    obtain ⟨n, hn, rfl⟩ := noted_eq_ok.1 h
    obtain ⟨hn', ha⟩ := hx.ok (hP m m.afresh rfl rfl hm) hn
    exact ⟨hP n _ rfl rfl hn', ha⟩
  error {m _ _} hm h := by
    obtain ⟨n, hn, rfl⟩ := noted_eq_error.1 h
    exact hx.error (hP m m.afresh rfl rfl hm) hn

theorem call (hr : env.Runs c) (h : engine.Safe c) {id : FunctionId} {f : Function} {args : List Expr}
    (hf : c.program.functions[id]? = some f) (ht : ∀ a ∈ args, a.Typed c (some k))
    (ha : List.Forall₂ (fun a p => (c.program.symbol p).ty.assignable a.ty = true) args f.params) :
    (engine.call env id args loc).Safe (Ready c k) fun _ => True := by
  have scalar : ∀ a ∈ args, a.Typed c (some k) ∧ a.ty.isScalar = true := by
    intro a hmem
    obtain ⟨p, hp, hassign⟩ := Lower.forall₂_mem_left ha hmem
    have hps := ((hr.finished.tables.functions hf).params p hp).2
    exact ⟨ht a hmem, Ty.isScalar_of_assignable hassign hps⟩
  have stable := stable_ready c k
  refine noted stable id (named stable _ ((solveAll h scalar).bind fun values _ => ?_))
  exact invoke stable (fun m hm => hm.toSupplied) hr h hf

theorem announceStruct (allocates : Option StructId) (returned : Option Value) :
    (announceStruct env allocates returned).Safe (Ready c k) fun _ => True := by
  unfold Engine.announceStruct
  split
  · exact safe_ite (fun _ => safe_emit (stable_ready c k) _) fun _ => safe_pure trivial
  · exact safe_pure trivial

/-! ## Expressions -/

/-- The rule of every well-typed expression meets no internal fault. -/
theorem executeRule (hr : env.Runs c) (h : engine.Safe c) {e : Expr} (he : e.Typed c (some k)) :
    (executeRule env engine e).Safe (Ready c k) fun _ => True := by
  cases he with
  | const _ _ _ => exact safe_pure trivial
  | @str id loc hid =>
    refine safe_get_bind fun m hm => (safe_require_some ?_).bind fun _ _ => safe_pure trivial
    have hlt : id < m.strings.size := Nat.lt_of_lt_of_le hid hm.strings
    simp [hlt]
  | var hs => exact (variablePlace hr hs).bind fun _ _ => safe_pure trivial
  | member ho hn _ _ =>
    refine (h.place ho (.inr (by rw [hn]; rfl))).bind fun _ _ => ?_
    refine (safe_displaced _ _ ?_ _).bind fun _ _ => safe_pure trivial
    nofun
  | deref hp ht =>
    have hscalar := Ty.isScalar_of_isPointer (Ty.isPointer_of_pointee ht)
    exact (h.solve hp hscalar).bind fun _ _ => safe_guard (fun _ => rfl) fun _ => safe_pure trivial
  | index hb hi ht ha =>
    have hscalar := Ty.isScalar_of_isPointer (Ty.isPointer_of_pointee ht)
    refine (h.solve hb hscalar).bind fun _ _ => ?_
    refine (h.solve hi (Ty.isScalar_of_isArithmetic ha)).bind fun _ _ => ?_
    refine safe_guard (fun _ => rfl) fun _ => ?_
    exact (safe_require rfl).bind fun _ _ => safe_pure trivial
  | addressOf hp hplace _ _ => exact (h.place hp (.inl hplace)).bind fun _ _ => safe_pure trivial
  | unary ho hs =>
    exact (h.solve ho hs).bind fun _ _ => (safe_require rfl).bind fun _ _ => safe_pure trivial
  | binary hl hr' hls hrs => exact (h.binary hl hr' hls hrs).bind fun _ _ => safe_pure trivial
  | pointerOffset hp ho ht ha =>
    refine (h.solve hp (Ty.isScalar_of_isPointer ht)).bind fun _ _ => ?_
    refine (h.solve ho (Ty.isScalar_of_isArithmetic ha)).bind fun _ _ => ?_
    exact (safe_require rfl).bind fun _ _ => safe_pure trivial
  | pointerDiff hl hr' hlt hrt =>
    refine (h.solve hl (Ty.isScalar_of_isPointer hlt)).bind fun _ _ => ?_
    refine (h.solve hr' (Ty.isScalar_of_isPointer hrt)).bind fun _ _ => ?_
    exact (safe_require rfl).bind fun _ _ => safe_pure trivial
  | call hf ht ha _ =>
    refine (call hr h hf ht ha).bind fun _ _ => (announceStruct ..).bind fun _ _ => safe_pure trivial
  | assign hd hs hp _ hv ha => exact assign hr h hd hs hp hv ha
  | arrayAssign hd hlen hpt hsc hes ht ha =>
    exact (arrayAssign hr h hd hlen hpt hsc hes ht ha).bind fun _ _ => safe_pure trivial

/-! ## Statements -/

section
variable (h : engine.Safe c) {result : Option Ty}
include h

theorem performAll {ss : List Stmt} (hs : ∀ s ∈ ss, s.Typed c (some k) result) :
    (engine.performAll ss).Safe (Ready c k) fun _ => True := by
  induction ss with
  | nil => exact safe_pure trivial
  | cons s ss ih =>
    refine (h.perform (hs s (by simp))).bind fun _ _ => safe_get_bind fun m _ => ?_
    refine safe_ite (fun _ => ?_) fun _ => safe_pure trivial
    exact ih fun t ht => hs t (by simp [ht])

theorem round {s : Stmt} (hs : s.Typed c (some k) result) :
    (engine.round s).Safe (Ready c k) fun _ => True := by
  refine (h.perform hs).bind fun _ _ => safe_get_bind fun m _ => ?_
  have onward : ∀ b : Bool, (do modify fun m => { m with flow := .normal }; return b : Run Bool).Safe
      (Ready c k) fun _ => True := fun b =>
    safe_modify_then (stable_ready c k) (fun _ => rfl) (fun _ => rfl) (safe_pure trivial)
  cases m.flow with
  | normal => exact safe_pure trivial
  | breaks => exact onward false
  | continues => exact onward true
  | returns => exact safe_pure trivial

theorem holds {o : Option Expr} (ho : ∀ e ∈ o, e.Typed c (some k) ∧ e.ty.isScalar = true) :
    (engine.holds o).Safe (Ready c k) fun _ => True := by
  cases o with
  | none => exact safe_pure trivial
  | some e =>
    obtain ⟨he, hs⟩ := ho e rfl
    exact (h.solve he hs).bind fun _ _ => safe_pure trivial

theorem executeOption {o : Option Expr} (ho : ∀ e ∈ o, e.Typed c (some k)) :
    (engine.executeOption o).Safe (Ready c k) fun _ => True := by
  cases o with
  | none => exact safe_pure trivial
  | some e => exact safe_discard (h.execute (ho e rfl))

theorem iterateRule {l : Loop} (hl : l.Typed c k result) :
    (iterateRule engine l).Safe (Ready c k) fun _ => True := by
  refine (h.holds hl.condition).bind fun _ _ => safe_ite (fun _ => ?_) fun _ => safe_pure trivial
  refine (h.round hl.body).bind fun _ _ => safe_ite (fun _ => ?_) fun _ => safe_pure trivial
  exact (h.executeOption hl.increment).bind fun _ _ => h.iterate hl

theorem performRule {s : Stmt} (hs : s.Typed c (some k) result) :
    (performRule engine s).Safe (Ready c k) fun _ => True := by
  have check := safe_checkpoint (stable_ready c k) s.loc
  have jump : ∀ pending flow, (modify fun m : Machine => { m with pending, flow } : Run PUnit).Safe
      (Ready c k) fun _ => True := fun _ _ =>
    safe_modify (stable_ready c k) (fun _ => rfl) fun _ => rfl
  have leave : ∀ flow, (modify fun m : Machine => { m with flow } : Run PUnit).Safe (Ready c k)
      fun _ => True := fun _ => safe_modify (stable_ready c k) (fun _ => rfl) fun _ => rfl
  cases hs with
  | expr he => exact check.bind fun _ _ => safe_discard (h.execute he)
  | block hb => exact h.performAll hb
  | ifElse hc hcs ht he =>
    refine check.bind fun _ _ => (h.solve hc hcs).bind fun v _ => ?_
    refine safe_ite (fun _ => h.perform ht) fun _ => ?_
    split
    · exact h.perform (he _ rfl)
    · exact safe_pure trivial
  | whileLoop hc hcs hb =>
    refine check.bind fun _ _ => h.iterate ⟨?_, nofun, hb⟩
    rintro _ ⟨⟩
    exact ⟨hc, hcs⟩
  | doWhile hc hcs hb =>
    refine check.bind fun _ _ => (h.round hb).bind fun _ _ => ?_
    refine safe_ite (fun _ => h.iterate ⟨?_, nofun, hb⟩) fun _ => safe_pure trivial
    rintro _ ⟨⟩
    exact ⟨hc, hcs⟩
  | forLoop hi hc hn hb =>
    exact check.bind fun _ _ => (h.executeOption hi).bind fun _ _ => h.iterate ⟨hc, hn, hb⟩
  | returns _ _ => exact check.bind fun _ _ => jump none .returns
  | returnsValue _ hs he ha =>
    have hscalar := Ty.isScalar_of_assignable ha hs
    exact check.bind fun _ _ => (h.solve he hscalar).bind fun v _ => jump (some v) .returns
  | breaks => exact check.bind fun _ _ => leave .breaks
  | continues => exact check.bind fun _ _ => leave .continues
  | empty => exact check.bind fun _ _ => safe_pure trivial

end

end Safe

end Engine

/-- **Well-typed code meets no internal fault** on a machine that is ready for it. -/
theorem engine_safe {env : Env} {c : Context} (hr : env.Runs c) (fuel : Nat) :
    (engine env fuel).Safe c := by
  induction fuel with
  | zero =>
    have exhausted : ∀ {α : Type} {P : Machine → Prop} {R : α → Prop},
        (throw .exhausted : Run α).Safe P R := by
      intro α P R
      refine ⟨fun _ hx => absurd hx throw_ne_ok, fun _ hx => ?_⟩
      cases (throw_eq_error.1 hx).1
    exact ⟨engine_calm env 0, engine_folds env 0, fun _ => exhausted, fun _ => exhausted,
      fun _ => exhausted⟩
  | succ n ih =>
    refine ⟨engine_calm env (n + 1), engine_folds env (n + 1), fun he => ?_, fun hs => ?_, fun hl => ?_⟩
    · exact (Engine.Safe.executeRule hr ih he).gives
        (Engine.gives_executeRule hr.finished hr.program (engine_fits hr.finished hr.program n) he)
    · exact ih.performRule hs
    · exact ih.iterateRule hl

/-! ## Runs -/

namespace Run
variable {env : Env} {c : Context} {engine : Engine}

/-- The globals come to have storage. -/
theorem allocateGlobals_supplies (hr : env.Runs c) (h : engine.Safe c) {ids : List SymbolId}
    {m : Machine} (hg : ∀ id ∈ ids, id ∈ c.program.globals) :
    (∀ {u m'}, allocateGlobals env engine ids m = .ok u m' → m'.strings = m.strings ∧
      (∀ id, (m.frames.globalAddress? id).isSome → (m'.frames.globalAddress? id).isSome) ∧
      ∀ id ∈ ids, (m'.frames.globalAddress? id).isSome) ∧
    ∀ {f m'}, allocateGlobals env engine ids m = .error (.fault f) m' → f.isExcluded = false := by
  induction ids generalizing m with
  | nil =>
    refine ⟨fun {u m'} hx => ?_, fun hx => absurd hx pure_ne_error⟩
    obtain ⟨-, rfl⟩ := pure_eq_ok.1 hx
    exact ⟨rfl, fun _ hs => hs, by simp⟩
  | cons id ids ih =>
    have any : Stable fun _ => True := fun _ _ _ _ _ => trivial
    have rest : ∀ id ∈ ids, id ∈ c.program.globals := fun id' h' => hg id' (by simp [h'])
    have hsym : (env.program.symbol id).Sound c := by
      rw [hr.program]
      exact hr.finished.symbol (k := none) (.inl (hg id (by simp)))
    constructor
    · intro u m' hx
      simp only [allocateGlobals, bind_eq_ok, modify_eq_ok] at hx
      obtain ⟨a, n, ha, _, _, rfl, _, n', hn', hx⟩ := hx
      obtain ⟨memory, -, rfl⟩ := allocate_eq_ok.1 ha
      have kept := (h.calm.registerArray ..).ok hn'
      obtain ⟨hstrings, keeps, binds⟩ := (ih rest).1 hx
      -- What is done for the globals behind this one takes no storage away.
      have bound : ∀ s, s = id ∨ (m.frames.globalAddress? s).isSome →
          (m'.frames.globalAddress? s).isSome := by
        intro s hs
        refine keeps s ?_
        rw [kept.frames]
        simp only [Frames.globalAddress?, Frames.bindGlobal, List.find?_append, Option.isSome_map,
          Option.isSome_or, Bool.or_eq_true]
        rcases hs with rfl | hs
        · exact .inr (by simp)
        · exact .inl (by simpa [Frames.globalAddress?] using hs)
      refine ⟨hstrings.trans kept.strings, fun s hs => bound s (.inr hs), fun s hs => ?_⟩
      rcases List.mem_cons.1 hs with rfl | hs
      · exact bound s (.inl rfl)
      · exact binds s hs
    · intro f m' hx
      simp only [allocateGlobals, bind_eq_error, modify_eq_ok, modify_ne_error, false_or] at hx
      rcases hx with hx | ⟨a, n, ha, _, _, rfl, hx | ⟨_, n', hn', hx⟩⟩
      · exact (safe_allocate any hsym.stored _).error trivial hx
      · exact (Engine.Safe.registerArray any h hsym a).error trivial hx
      · exact (ih rest).2 hx

/-- The string literals come to have storage. -/
theorem allocateStrings_supplies {texts : List String} {m : Machine} :
    (∀ {u m'}, allocateStrings texts m = .ok u m' → m'.frames = m.frames ∧
      m'.strings.size = m.strings.size + texts.length) ∧
    ∀ {f m'}, allocateStrings texts m = .error (.fault f) m' → f.isExcluded = false := by
  induction texts generalizing m with
  | nil =>
    refine ⟨fun {u m'} hx => ?_, fun hx => absurd hx pure_ne_error⟩
    obtain ⟨-, rfl⟩ := pure_eq_ok.1 hx
    exact ⟨rfl, rfl⟩
  | cons text texts ih =>
    have any : Stable fun _ => True := fun _ _ _ _ _ => trivial
    constructor
    · intro u m' hx
      simp only [allocateStrings, bind_eq_ok, modify_eq_ok] at hx
      obtain ⟨a, n, ha, _, _, rfl, _, n', hn', hx⟩ := hx
      obtain ⟨memory, -, rfl⟩ := allocate_eq_ok.1 ha
      have kept := (calm_writeBytes ..).ok hn'
      obtain ⟨hframes, hsize⟩ := ih.1 hx
      refine ⟨hframes.trans kept.frames, ?_⟩
      rw [hsize, kept.strings]
      simp only [Array.size_push, List.length_cons]
      omega
    · intro f m' hx
      simp only [allocateStrings, bind_eq_error, modify_eq_ok, modify_ne_error, false_or] at hx
      rcases hx with hx | ⟨a, n, ha, _, _, rfl, hx | ⟨_, n', hn', hx⟩⟩
      · exact (safe_allocate any (by simp) _).error trivial hx
      · exact (safe_writeBytes any a (e := .overflow "add") (by simp) ..).error trivial hx
      · exact ih.2 hx

/-- The set-up of a run gives storage to all that every call needs. -/
theorem start_supplies (hr : env.Runs c) (h : engine.Safe c) {m : Machine} :
    (∀ {u m'}, start env engine m = .ok u m' → m'.Supplied c) ∧
    ∀ {f m'}, start env engine m = .error (.fault f) m' → f.isExcluded = false := by
  have hglobals : ∀ id ∈ env.program.globals, id ∈ c.program.globals := by
    rw [hr.program]
    exact fun _ hid => hid
  obtain ⟨gok, gerror⟩ := allocateGlobals_supplies (m := m) hr h hglobals
  constructor
  · intro u m' hx
    obtain ⟨_, n, hn, hx⟩ := bind_eq_ok.1 hx
    obtain ⟨-, -, binds⟩ := gok hn
    obtain ⟨hframes, hsize⟩ := allocateStrings_supplies.1 hx
    refine ⟨fun id hid => ?_, ?_⟩
    · rw [hframes]
      exact binds id (by rwa [hr.program])
    · rw [hsize, Array.length_toList, hr.program]
      omega
  · intro f m' hx
    rcases bind_eq_error.1 hx with hx | ⟨_, n, hn, hx⟩
    · exact gerror hx
    · exact allocateStrings_supplies.2 hx

theorem finish_ok (m : Machine) : ∃ m', finish m = .ok () m' := by
  obtain ⟨t, memory, seen, h⟩ := releaseAll_frame (m.frames.globals.reverse.map Binding.address)
    { m with frames := m.frames.dropGlobals }
  obtain ⟨t', memory', seen', h'⟩ := releaseAll_frame m.strings.toList
    { m with frames := m.frames.dropGlobals, memory, seen, strings := #[] }
  simp only [finish, bind_eq_ok, get_eq_ok, modify_eq_ok, discard_eq_ok]
  exact ⟨_, _, _, ⟨rfl, rfl⟩, (), _, rfl, (), _, ⟨t, h⟩, _, _, ⟨rfl, rfl⟩, (), _, rfl, (), _, ⟨t', h'⟩,
    rfl⟩

/-- **A run meets no excluded fault**, whatever the machine that it begins on. -/
theorem call_excludes (hr : env.Runs c) {fuel : Nat} {name : String} {args : List Word} {m m' : Machine}
    {f : Fault} (hx : call env fuel name args m = .error (.fault f) m') : f.isExcluded = false := by
  have h := engine_safe hr fuel
  rcases bind_eq_error.1 hx with hx | ⟨id, _, hid, hx⟩
  · obtain ⟨-, hf, -⟩ := require_eq_error.1 hx
    cases hf
    rfl
  obtain ⟨found, rfl⟩ := require_eq_ok.1 hid
  rw [hr.program] at found
  have hfun := (hr.finished.ranged.maps.function found).1
  split at hx
  · rcases bind_eq_error.1 hx with hx | ⟨_, _, hx, -⟩
    · cases (fault_eq_error.1 hx).1
      rfl
    · exact absurd hx fault_ne_ok
  rcases bind_eq_error.1 hx with hx | ⟨r, n, hattempt, hx⟩
  · exact absurd hx attempt_ne_error
  obtain ⟨n', hfinish⟩ := finish_ok n
  simp only [bind_eq_error, hfinish, reduceCtorEq, false_or, EStateM.Result.ok.injEq, conclude_eq_error,
    pure_ne_error, and_false, exists_false, or_false] at hx
  obtain ⟨_, _, ⟨-, rfl⟩, rfl, -⟩ := hx
  rcases attempt_eq_ok.1 hattempt with ⟨_, -, hr'⟩ | ⟨_, hrun, hr'⟩
  · cases hr'
  · cases hr'
    obtain ⟨supplied, failed⟩ := start_supplies (m := m) hr h
    rcases bind_eq_error.1 hrun with hrun | ⟨_, k, hk, hrun⟩
    · exact failed hrun
    · have stable := stable_supplied c
      have safe : ∀ values loc, ((engine env fuel).invoke env id values loc).Safe (Supplied c)
          fun _ => True := fun _ _ => Engine.Safe.invoke stable (fun _ hm => hm) hr h hfun
      exact (Engine.Safe.noted stable id (Engine.Safe.named stable _ (safe _ _))).error (supplied hk) hrun

/-- **A run meets no internal fault.** -/
theorem call_safe (hr : env.Runs c) {fuel : Nat} {name : String} {args : List Word} {m m' : Machine}
    {f : Fault} (hx : call env fuel name args m = .error (.fault f) m') : f.isInternal = false :=
  Fault.isInternal_of_isExcluded (call_excludes hr hx)

end Run

/-- The expression that a body consists in returning. -/
def Body.returned? : Body → Option Expr
  | .compiled (.mk (.block [.mk (.returns (some e)) _]) _) => some e
  | _ => none

theorem Program.Holds.returned {g : Grammar} {p : Program} {id : FunctionId} {f : Function} {e : Expr}
    (hf : p.functions[id]? = some f) (h : f.body.returned? = some e) : p.Holds g e := by
  unfold Body.returned? at h
  split at h
  · rename_i hb
    cases h
    exact .stmt (.part (.body hf hb) (List.mem_singleton.2 rfl)) (List.mem_singleton.2 rfl)
  · cases h

namespace Session

/-- **Type soundness.**  Whatever session has compiled a source and whatever has become of its machine
since, no run of the program meets an internal fault, however long it is and however it ends, and each
expression that the program holds comes to a value of its own type, to one of a single byte if it is a
character. -/
theorem type_soundness {s t : Session} {source : String} (h : s.compile source = .ok t) :
    (∀ u : Session, u.env = t.env → ∀ fuel name args f,
      (u.callWithin fuel name args).1 = .error (.fault f) → f.isInternal = false) ∧
    ∀ e, t.env.program.Holds t.env.grammar e → ∀ fuel m v m',
      (engine t.env fuel).solve e m = .ok v m' →
        v.ty = e.ty ∧ (e.ty = Ty.char → -128 ≤ v.word.toInt ∧ v.word.toInt ≤ 127) := by
  obtain ⟨p, hp, rfl⟩ := compile_eq_ok.1 h
  obtain ⟨root, l, c, hroot, hlower, rfl⟩ := Program.ofSource_eq_ok hp
  have hc := lower_finished hroot hlower
  have hr : Env.Runs { s.env with program := c.program } c := ⟨hc, rfl⟩
  refine ⟨fun u hu fuel name args f hf => ?_, fun e he fuel m v m' hv => ?_⟩
  · unfold callWithin at hf
    rw [hu] at hf
    split at hf
    · cases hf
    · rename_i stop machine hx
      cases hf
      exact call_safe hr hx
  · obtain ⟨k, hk⟩ := he.typed hc
    have has := Engine.gives_solve hc (engine_fits hc hr.program fuel) hk _ _ _ hv
    exact ⟨has.ty, has.char⟩

/-- A program that divides by what is left of a number in a character. -/
def narrowing : String :=
  "char narrow(char x) \x7b return x; \x7d int main() \x7b return 1 / (narrow(300) - 44); \x7d"

theorem type_soundness_narrowing : ∃ t f e, (new .standard).compile narrowing = .ok t ∧
    (t.callWithin 100 "main" []).1 = .error (.fault f) ∧ f.isInternal = false ∧
    t.env.program.Holds t.env.grammar e ∧ e.ty = Ty.char ∧
    ∀ fuel m v m', (engine t.env fuel).solve e m = .ok v m' → v.word.toInt ≤ 127 := by
  have run : ((new .standard).compile narrowing).toOption.map (fun t =>
      ((t.env.program.functions[4]?.bind fun f => f.body.returned?).map Expr.ty,
        match (t.callWithin 100 "main" []).1 with
        | .error (.fault f) => some f.isInternal
        | _ => none)) = some (some Ty.char, some false) := by
    rw [compile_of_toList narrowing (String.ofList_eq.1 rfl)]
    decide +kernel
  obtain ⟨t, ht, found⟩ := Except.exists_ok_of_map run
  simp only [Prod.mk.injEq, Option.map_eq_some_iff, Option.bind_eq_some_iff] at found
  obtain ⟨⟨e, ⟨f, hf, he⟩, hty⟩, hrun⟩ := found
  obtain ⟨safe, typed⟩ := type_soundness ht
  have held : t.env.program.Holds t.env.grammar e := .returned hf he
  split at hrun
  · rename_i fault hfault
    refine ⟨t, fault, e, ht, hfault, safe t rfl _ _ _ _ hfault, held, hty, ?_⟩
    intro fuel m v m' hv
    exact ((typed e held fuel m v m' hv).2 hty).2
  · cases hrun

end Session

end MiniC
