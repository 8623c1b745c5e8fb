/-
  What well-typed expressions come to.

  Whatever the machine is like, an expression that comes to a value comes to one of its own type, and
  one that comes to a place to a place of its type (`engine_fits`).
-/
import MiniC.Proofs.Calls
import MiniC.Proofs.Deferred

namespace MiniC

/-- A value of the type `t`; a character fits a byte. -/
structure Value.Has (v : Value) (t : Ty) : Prop where
  ty : v.ty = t
  char : t = Ty.char → -128 ≤ v.word.toInt ∧ v.word.toInt ≤ 127

/-- What the expression `e` may come to. -/
inductive Resolved.Fits (c : Context) (e : Expr) : Resolved → Prop
  | value {v} : v.Has e.ty → e.isPlace = false → e.ty.structName? = none → Fits c e (.value v)
  | place {p} : p.ty = e.ty → p.isArray = (c.arrayLength? e).isSome → Fits c e (.place p)

/-- What has been declared as an array comes to a place, which says so. -/
theorem Resolved.Fits.array {c : Context} {e : Expr} {r : Resolved} (h : Fits c e r) {length : Nat}
    (ha : c.arrayLength? e = some length) : ∃ base, r = .place ⟨base, e.ty, true⟩ := by
  cases h with
  | value _ hplace _ =>
    obtain ⟨op, ty, loc⟩ := e
    cases op <;> simp [Context.arrayLength?, Expr.isPlace] at ha hplace
  | @place p hty harray =>
    obtain ⟨base, _, _⟩ := p
    rw [ha] at harray
    cases hty
    cases harray
    exact ⟨base, rfl⟩

namespace Value

theorem has_convert (v : Value) (t : Ty) : (v.convert t).Has t where
  ty := rfl
  char h := by
    simp only [convert, h, Ty.isChar, decide_true, if_true]
    exact Rule.signedLowByte_range _

/-- A value of a type that is not `char`. -/
theorem has_of_ne {t : Ty} {w : Word} (h : t ≠ Ty.char) : Value.Has ⟨t, w⟩ t := ⟨rfl, fun h' => absurd h' h⟩

end Value

theorem Ty.ne_char_of_isPointer {t : Ty} (h : t.isPointer = true) : t ≠ Ty.char := by
  rintro rfl
  cases h

theorem Ty.structName?_of_isScalar {t : Ty} (h : t.isScalar = true) : t.structName? = none := by
  obtain ⟨base, stars⟩ := t
  cases stars <;> cases base <;> simp_all [structName?, isScalar, isPointer, isArithmetic, int, char]

theorem Ty.base_of_pointee {t u : Ty} (h : t.pointee = some u) : u.base = t.base := by
  unfold Ty.pointee at h
  split at h
  · cases h
  · cases h
    rfl

theorem Ty.Known.of_base {t u : Ty} {p : Program} (h : t.Known p) (hu : u.base = t.base) :
    u.Known p := fun name hn => h name (hu ▸ hn)

/-! ## Types of expressions -/

namespace Context
variable {g : Grammar} {c : Context} {k : Option FunctionId}

theorem Sees.hasSymbol (hr : c.Ranged) {id : SymbolId} (h : c.Sees k id) : c.program.HasSymbol id := by
  rcases h with h | ⟨f, -, h⟩
  · exact hr.maps.known id h
  · rcases c.program.function_cases f with hf | hf
    · exact (hr.locals hf).1 id h
    · rw [hf] at h
      cases h

namespace Finished
variable (h : c.Finished g)
include h

theorem symbol {id : SymbolId} (hs : c.Sees k id) : (c.program.symbol id).Sound c := by
  have hsym := Array.getElem?_eq_getElem (hs.hasSymbol h.ranged)
  rw [Program.symbol_eq hsym]
  exact h.tables.symbols hsym

theorem member {name field : String} {layout : Layout} {m : Member}
    (hl : c.program.layout? name = some layout) (hm : layout.member? field = some m) : m.Sound c := by
  obtain ⟨id, hid, rfl⟩ := Option.map_eq_some_iff.1 hl
  exact (h.tables.structs (h.ranged.maps.layout hid).1).members m (List.mem_of_find?_eq_some hm)

/-- The expression of an array has the type of a pointer. -/
theorem isPointer_of_array {e : Expr} (he : e.Typed c k) (ha : (c.arrayLength? e).isSome) :
    e.ty.isPointer = true := by
  cases he <;> simp only [arrayLength?, Expr.assign, Expr.arrayAssign, Expr.op_mk, Option.isSome_none,
    Option.isSome_map, Bool.false_eq_true] at ha
  case var id _ hs =>
    obtain ⟨spec, hspec⟩ := Option.isSome_iff_exists.1 ha
    exact ((h.symbol hs).array spec hspec).1
  case member hl hm => exact (h.member hl hm).array ha

/-- The structure of a well-typed expression's type is in the tables. -/
theorem known {e : Expr} (he : e.Typed c k) : e.ty.Known c.program := by
  induction he with
  | const _ hk _ => exact hk
  | str _ => exact nofun
  | var hs => exact (h.symbol hs).known
  | member _ _ hl hm _ => exact (h.member hl hm).known
  | deref _ hp ih | index _ _ hp _ _ ih _ => exact ih.of_base (Ty.base_of_pointee hp)
  | addressOf _ _ _ hb ih => exact ih.of_base hb
  | unary | binary | pointerDiff => exact nofun
  | pointerOffset _ _ _ _ _ ih _ => exact ih
  | call hf _ _ _ _ => exact (h.tables.functions hf).known
  | assign _ _ _ _ _ _ ih _ => exact ih
  | arrayAssign _ _ _ _ _ _ _ ih _ => exact ih

end Finished

end Context

/-! ## Results -/

namespace Run
variable {α β : Type} {R : α → Prop}

/-- Whatever `x` comes to satisfies `R`. -/
def Gives (x : Run α) (R : α → Prop) : Prop := ∀ m a m', x m = .ok a m' → R a

theorem gives_any (x : Run α) : x.Gives fun _ => True := fun _ _ _ _ => trivial

theorem gives_pure {a : α} (h : R a) : (pure a : Run α).Gives R := fun _ _ _ hx => (pure_eq_ok.1 hx).1 ▸ h

theorem gives_fault {f : Fault} : (fault f : Run α).Gives R := fun _ _ _ hx => absurd hx fault_ne_ok

theorem Gives.bind {P : β → Prop} {x : Run β} {f : β → Run α} (hx : x.Gives P)
    (hf : ∀ b, P b → (f b).Gives R) : (x >>= f).Gives R := by
  intro m a m' h
  obtain ⟨b, n, h1, h2⟩ := bind_eq_ok.1 h
  exact hf b (hx _ _ _ h1) _ _ _ h2

/-- What comes first does not matter to what comes out. -/
theorem gives_after {x : Run β} {f : β → Run α} (hf : ∀ b, (f b).Gives R) : (x >>= f).Gives R :=
  (gives_any x).bind fun b _ => hf b

theorem gives_ite {p : Prop} [Decidable p] {x y : Run α} (hx : p → x.Gives R) (hy : ¬ p → y.Gives R) :
    (if p then x else y).Gives R := by
  by_cases h : p
  · rw [if_pos h]
    exact hx h
  · rw [if_neg h]
    exact hy h

/-- A check in front of `x`. -/
theorem gives_guard {p : Prop} [Decidable p] {f : Fault} {x : PUnit → Run α}
    (hx : ∀ u, (x u).Gives R) : (if p then fault f >>= x else x ()).Gives R :=
  gives_ite (fun _ => gives_after hx) fun _ => hx ()

theorem gives_noted {x : Run α} (f : FunctionId) (hx : x.Gives R) : (noted f x).Gives R := by
  intro m a m' h
  obtain ⟨n, hn, -⟩ := noted_eq_ok.1 h
  exact hx _ _ _ hn

/-- A place of the type `t` gives a value of this type, or its address if it is an array. -/
theorem gives_loadPlace {p : Place} {loc : Location} (ha : p.isArray = true → p.ty ≠ Ty.char) :
    (loadPlace p loc).Gives fun v => v.Has p.ty := by
  unfold loadPlace
  refine gives_ite (fun hi => gives_pure (Value.has_of_ne (ha hi))) fun _ => gives_guard fun _ => ?_
  refine gives_ite (fun hc => gives_after fun b => gives_pure ⟨rfl, fun _ => ?_⟩) fun hc => ?_
  · rw [Word.ofSignedByte, Int8.toInt_toInt32]
    exact ⟨Int8.le_toInt _, Int8.toInt_le _⟩
  · refine gives_after fun w => gives_pure (Value.has_of_ne ?_)
    simpa [Ty.isChar] using hc

end Run

namespace Engine
variable {g : Grammar} {c : Context} {env : Env} {engine : Engine} {k : Option FunctionId}
open Run

/-- An engine that executes well-typed expressions to what they may come to. -/
structure Fits (c : Context) (engine : Engine) : Prop where
  execute : ∀ {k e}, Expr.Typed c k e → (engine.execute e).Gives (Resolved.Fits c e)

theorem gives_solve (h : c.Finished g) (hf : engine.Fits c) {e : Expr} (he : e.Typed c k) :
    (engine.solve e).Gives fun v => v.Has e.ty := by
  refine (hf.execute he).bind fun r hr => ?_
  cases hr with
  | value hv _ _ => exact gives_pure hv
  | place ht ha =>
    rw [← ht]
    refine gives_loadPlace fun harray => ?_
    rw [ht]
    exact Ty.ne_char_of_isPointer (h.isPointer_of_array he (by rwa [← ha]))

theorem gives_place (hf : engine.Fits c) {e : Expr} (he : e.Typed c k) :
    (engine.place e).Gives fun p => p.ty = e.ty ∧ p.isArray = (c.arrayLength? e).isSome := by
  refine (hf.execute he).bind fun r hr => ?_
  cases hr with
  | value _ _ _ => exact gives_fault
  | place ht ha => exact gives_pure ⟨ht, ha⟩

/-! ## Calls -/

theorem gives_callResult (f : Function) (returned : Option Value) :
    (callResult f returned).Gives fun r => (r.getD .void).Has f.result := by
  unfold callResult
  refine gives_ite (fun hv => gives_pure ?_) fun _ => ?_
  · have hresult : f.result = Ty.void := by simpa [Function.returnsValue, Ty.isVoid] using hv
    rw [hresult]
    exact Value.has_of_ne (by decide)
  · cases returned with
    | none => exact gives_fault
    | some v => exact gives_pure (Value.has_convert v _)

theorem gives_invoke (id : FunctionId) (args : List Value) (loc : Location) :
    (engine.invoke env id args loc).Gives fun r =>
      (r.getD .void).Has (env.program.function id).result := by
  refine gives_after fun m => gives_guard fun _ => gives_after fun _ => gives_after fun _ => ?_
  refine gives_after fun trouble => gives_after fun returned => gives_after fun _ => ?_
  cases trouble with
  | some e => exact gives_fault
  | none => exact gives_callResult _ _

theorem gives_named {α : Type} {x : Run α} {R : α → Prop} (name : String) (hx : x.Gives R) :
    (named name x).Gives R := by
  intro m a m' h
  simp only [named, bind_eq_ok, modify_eq_ok, attempt_eq_ok, conclude_eq_ok] at h
  obtain ⟨_, _, -, r, n, hr, _, _, -, rfl, -⟩ := h
  simp only [Except.ok.injEq, exists_eq_right', reduceCtorEq, and_false, exists_false, or_false] at hr
  exact hx _ _ _ hr

theorem gives_call (id : FunctionId) (args : List Expr) (loc : Location) :
    (engine.call env id args loc).Gives fun r =>
      (r.getD .void).Has (env.program.function id).result :=
  gives_noted id (gives_named _ (gives_after fun _ => gives_invoke _ _ _))

/-! ## Expressions -/

theorem gives_variablePlace (id : SymbolId) (ty : Ty) (loc : Location) :
    (variablePlace env id ty loc).Gives fun p =>
      p.ty = ty ∧ p.isArray = (env.program.symbol id).isArray :=
  gives_after fun _ => gives_after fun _ => gives_pure ⟨rfl, rfl⟩

theorem gives_assign (hf : engine.Fits c) {dst src : Expr} {loc : Location}
    (hd : dst.Typed c k) (ha : c.arrayLength? dst = none) :
    (engine.assign env dst src loc).Gives (Resolved.Fits c (.assign dst src)) := by
  unfold assign
  refine gives_ite (fun _ => gives_after fun size => gives_after fun _ => ?_) fun hs => ?_
  · refine (gives_place hf hd).bind fun p hp => gives_after fun _ => gives_after fun _ => ?_
    exact gives_pure (.place hp.1 (by rw [hp.2, ha]; rfl))
  · refine gives_after fun v => (gives_place hf hd).bind fun p hp => gives_after fun _ => ?_
    have hstruct : dst.ty.structName? = none := by simpa using hs
    refine gives_pure (.value ?_ rfl hstruct)
    rw [hp.1]
    exact Value.has_convert v _

/-- The rule of every well-typed expression comes to what the expression may come to. -/
theorem gives_executeRule (h : c.Finished g) (hp : env.program = c.program) (hf : engine.Fits c)
    {e : Expr} (he : e.Typed c k) : (executeRule env engine e).Gives (Resolved.Fits c e) := by
  have int : ∀ {op loc w}, (Expr.mk op Ty.int loc).isPlace = false →
      Resolved.Fits c (.mk op Ty.int loc) (.value ⟨Ty.int, w⟩) := fun ho =>
    .value (Value.has_of_ne (by decide)) ho rfl
  have pointer : ∀ {op ty loc a}, ty.isPointer = true → (Expr.mk op ty loc).isPlace = false →
      Resolved.Fits c (.mk op ty loc) (.value (.pointer ty a)) := fun ht ho =>
    .value (Value.has_of_ne (Ty.ne_char_of_isPointer ht)) ho (Ty.structName?_of_isScalar
      (Ty.isScalar_of_isPointer ht))
  cases he with
  | const hs _ hc => exact gives_pure (.value ⟨rfl, hc⟩ rfl (Ty.structName?_of_isScalar hs))
  | str _ => exact gives_after fun _ => gives_after fun _ => gives_pure (pointer rfl rfl)
  | @var id loc _ =>
    refine (gives_variablePlace id _ loc).bind fun p ha => gives_pure (.place ha.1 ?_)
    rw [ha.2, hp]
    simp [Context.arrayLength?, Symbol.isArray]
  | member _ _ _ _ => exact gives_after fun _ => gives_after fun _ => gives_pure (.place rfl rfl)
  | deref _ _ => exact gives_after fun _ => gives_guard fun _ => gives_pure (.place rfl rfl)
  | index _ _ _ _ =>
    exact gives_after fun _ => gives_after fun _ => gives_guard fun _ => gives_after fun _ =>
      gives_pure (.place rfl rfl)
  | addressOf _ _ ht _ => exact gives_after fun _ => gives_pure (pointer ht rfl)
  | unary _ _ => exact gives_after fun _ => gives_after fun _ => gives_pure (int rfl)
  | binary _ _ _ _ => exact gives_after fun _ => gives_pure (int rfl)
  | pointerOffset _ _ ht _ =>
    exact gives_after fun _ => gives_after fun _ => gives_after fun _ => gives_pure (pointer ht rfl)
  | pointerDiff _ _ _ _ =>
    exact gives_after fun _ => gives_after fun _ => gives_after fun _ => gives_pure (int rfl)
  | @call id f args allocates loc hfun _ _ _ =>
    refine (gives_call id args loc).bind fun r hr => gives_after fun _ => gives_pure ?_
    rw [hp, Program.function_eq hfun] at hr
    exact .value hr rfl (h.tables.functions hfun).result
  | assign hd _ _ ha _ _ => exact gives_assign hf hd ha
  | arrayAssign _ _ ht _ _ _ _ =>
    exact gives_after fun _ => gives_pure (pointer (Ty.isPointer_of_pointee ht) rfl)

end Engine

/-- **Whatever is executed comes to what it may come to.** -/
theorem engine_fits {g : Grammar} {c : Context} {env : Env} (h : c.Finished g)
    (hp : env.program = c.program) (fuel : Nat) : (engine env fuel).Fits c := by
  induction fuel with
  | zero => exact ⟨fun _ _ _ _ hx => absurd hx Run.throw_ne_ok⟩
  | succ n ih => exact ⟨fun he => Engine.gives_executeRule h hp ih he⟩

end MiniC
