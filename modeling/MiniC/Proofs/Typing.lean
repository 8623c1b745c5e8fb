/-
  Well-typed code.

  `Expr.Typed d k` and `Stmt.Typed d k` say that code of the function `k` is well typed against what
  lowering has arrived at, the context `d`: all it names is in the tables, at the type that it is
  used at.  The values of an array assignment are well typed as what they were lowered to.
  `Context.Sound` is the invariant of lowering: whatever it arrives at, all that the tables hold so
  far is well typed, and the values of the array assignments so far can be lowered again.
-/
import Mathlib.Data.List.Forall2
import MiniC.Proofs.Growth

namespace MiniC

/-- A type whose structure, if it has one, is in the tables. -/
def Ty.Known (p : Program) (t : Ty) : Prop := ∀ name, t.base = .struct name → (p.struct? name).isSome

namespace Ty

theorem isPointer_of_pointee {t u : Ty} (h : t.pointee = some u) : t.isPointer = true := by
  unfold pointee at h
  split at h
  · cases h
  · simp [isPointer, *]

theorem isScalar_of_isPointer {t : Ty} (h : t.isPointer = true) : t.isScalar = true := by
  simp [isScalar, h]

theorem isScalar_of_isArithmetic {t : Ty} (h : t.isArithmetic = true) : t.isScalar = true := by
  simp [isScalar, h]

theorem isVoid_of_isScalar {t : Ty} (h : t.isScalar = true) : t.isVoid = false := by
  obtain ⟨base, stars⟩ := t
  cases stars <;> cases base <;> simp_all [isVoid, void, isScalar, isPointer, isArithmetic, int, char]

/-- The types of values that are there and of no structure are scalar. -/
theorem isScalar_of_structName? {t : Ty} (hv : t.isVoid = false) (hs : t.structName? = none) :
    t.isScalar = true := by
  obtain ⟨base, stars⟩ := t
  cases stars <;> cases base <;> simp_all [isVoid, void, structName?, isScalar, isPointer,
    isArithmetic, int, char]

theorem fixedSize?_pos {t : Ty} {n : Nat} (h : t.fixedSize? = some n) : 0 < n := by
  unfold fixedSize? at h
  split at h <;> cases h <;> decide

theorem Known.extends_ {p q : Program} {t : Ty} (h : t.Known p) (he : p.Extends q) : t.Known q :=
  fun name hn => he.struct?_isSome (h name hn)

end Ty

/-! ## Expressions and statements -/

/-- The variables that code can name: the globals and those of the function `k`. -/
def Context.Sees (d : Context) (k : Option FunctionId) (id : SymbolId) : Prop :=
  id ∈ d.program.globals ∨ ∃ f, k = some f ∧ id ∈ (d.program.function f).locals

/-- The bytes from one element to the next behind a pointer of type `t`. -/
def Program.Strides (p : Program) (t : Ty) (n : Nat) : Prop :=
  ∃ pointee, t.pointee = some pointee ∧ p.sizeOf? pointee = some n

/-- What makes a call of `f` one that allocates the structure `id`: `f` is the builtin function `malloc`
and is given the size of the structure. -/
structure Program.Allocates (p : Program) (f : Function) (args : List Expr) (id : StructId) : Prop where
  builtin : f.isBuiltin = true
  name : f.name = "malloc"
  struct : p.struct? (p.layout id).name = some id
  size : ∃ loc, args.head? = some (.mk (.const (Int32.ofNat (p.layout id).size)) Ty.int loc)

/-- Well-typed expressions. -/
inductive Expr.Typed (d : Context) (k : Option FunctionId) : Expr → Prop
  | const {w ty loc} : ty.isScalar = true → ty.Known d.program →
    (ty = Ty.char → -128 ≤ w.toInt ∧ w.toInt ≤ 127) → Typed d k (.mk (.const w) ty loc)
  | str {id loc} : id < d.program.strings.size → Typed d k (.mk (.str id) Ty.char.pointer loc)
  | var {id loc} : d.Sees k id → Typed d k (.mk (.var id) (d.program.symbol id).ty loc)
  | member {object name layout field m loc} : Typed d k object →
    object.ty.structName? = some name → d.program.layout? name = some layout →
    layout.member? field = some m →
    Typed d k (.mk (.member object m.offset m.arrayLength) m.ty loc)
  | deref {pointer ty loc} : Typed d k pointer → pointer.ty.pointee = some ty →
    Typed d k (.mk (.deref pointer) ty loc)
  | index {base number scale ty loc} : Typed d k base → Typed d k number →
    base.ty.pointee = some ty → number.ty.isArithmetic = true → d.program.Strides base.ty scale →
    Typed d k (.mk (.index base number scale) ty loc)
  | addressOf {place ty loc} : Typed d k place → place.isPlace = true → ty.isPointer = true →
    ty.base = place.ty.base → Typed d k (.mk (.addressOf place) ty loc)
  | unary {op operand loc} : Typed d k operand → operand.ty.isScalar = true →
    Typed d k (.mk (.unary op operand) Ty.int loc)
  | binary {op left right loc} : Typed d k left → Typed d k right → left.ty.isScalar = true →
    right.ty.isScalar = true → Typed d k (.mk (.binary op left right) Ty.int loc)
  | pointerOffset {pointer offset scale subtract loc} : Typed d k pointer → Typed d k offset →
    pointer.ty.isPointer = true → offset.ty.isArithmetic = true → d.program.Strides pointer.ty scale →
    Typed d k (.mk (.pointerOffset pointer offset scale subtract) pointer.ty loc)
  | pointerDiff {left right scale loc} : Typed d k left → Typed d k right →
    left.ty.isPointer = true → right.ty.isPointer = true → d.program.Strides left.ty scale →
    Typed d k (.mk (.pointerDiff left right scale) Ty.int loc)
  | call {id f args allocates loc} : d.program.functions[id]? = some f → (∀ a ∈ args, Typed d k a) →
    List.Forall₂ (fun a p => (d.program.symbol p).ty.assignable a.ty = true) args f.params →
    (∀ s ∈ allocates, d.program.Allocates f args s) →
    Typed d k (.mk (.call id args allocates) f.result loc)
  | assign {dst src} : Typed d k dst → Typed d k src → dst.isPlace = true →
    d.arrayLength? dst = none → src.ty.isVoid = false → dst.ty.assignable src.ty = true →
    Typed d k (.assign dst src)
  | arrayAssign {dst values scope element es} : Typed d k dst →
    (∃ length, d.arrayLength? dst = some length ∧ values.length ≤ length) →
    dst.ty.pointee = some element → element.isScalar = true →
    d.assigned (.arrayAssign dst values scope) es → (∀ e ∈ es, Typed d k e) →
    (∀ e ∈ es, element.assignable e.ty = true) → Typed d k (.arrayAssign dst values scope)

/-- Well-typed statements of a function with the given result. -/
inductive Stmt.Typed (d : Context) (k : Option FunctionId) (result : Option Ty) : Stmt → Prop
  | expr {e loc} : e.Typed d k → Typed d k result (.mk (.expr e) loc)
  | block {body loc} : (∀ s ∈ body, Typed d k result s) → Typed d k result (.mk (.block body) loc)
  | ifElse {c t e loc} : c.Typed d k → c.ty.isScalar = true → Typed d k result t →
    (∀ s ∈ e, Typed d k result s) → Typed d k result (.mk (.ifElse c t e) loc)
  | whileLoop {c b loc} : c.Typed d k → c.ty.isScalar = true → Typed d k result b →
    Typed d k result (.mk (.whileLoop c b) loc)
  | doWhile {c b loc} : c.Typed d k → c.ty.isScalar = true → Typed d k result b →
    Typed d k result (.mk (.doWhile b c) loc)
  | forLoop {i c n b loc} : (∀ e ∈ i, e.Typed d k) → (∀ e ∈ c, e.Typed d k ∧ e.ty.isScalar = true) →
    (∀ e ∈ n, e.Typed d k) → Typed d k result b → Typed d k result (.mk (.forLoop i c n b) loc)
  | returns {t loc} : result = some t → t.isVoid = true → Typed d k result (.mk (.returns none) loc)
  | returnsValue {t e loc} : result = some t → t.isScalar = true → e.Typed d k →
    t.assignable e.ty = true → Typed d k result (.mk (.returns (some e)) loc)
  | breaks {loc} : Typed d k result (.mk .breaks loc)
  | continues {loc} : Typed d k result (.mk .continues loc)
  | empty {loc} : Typed d k result (.mk .empty loc)

/-! ## Tables -/

/-- What lies in an array: a positive number of elements, as many as its length expression folds to,
and they take all of its storage. -/
structure ArraySpec.Measures (p : Program) (spec : ArraySpec) (s : Symbol) : Prop where
  positive : 0 < spec.length
  constant : ∃ w, spec.lengthExpr.constant? = some w ∧ w.toInt = spec.length
  storage : ∃ element n, s.ty.pointee = some element ∧ p.sizeOf? element = some n ∧
    s.size = spec.length * n

/-- A well-typed variable; the length of an array is a constant. -/
structure Symbol.Sound (d : Context) (s : Symbol) : Prop where
  known : s.ty.Known d.program
  notVoid : s.ty.isVoid = false
  array : ∀ spec, s.array = some spec → s.ty.isPointer = true ∧
    spec.lengthExpr.constant?.isSome ∧ ∃ k, spec.lengthExpr.Typed d k
  measures : ∀ spec, s.array = some spec → spec.Measures d.program s
  stored : 0 < s.size

/-- A well-typed member. -/
structure Member.Sound (d : Context) (m : Member) : Prop where
  known : m.ty.Known d.program
  notVoid : m.ty.isVoid = false
  array : m.arrayLength.isSome → m.ty.isPointer = true

/-- A well-typed structure. -/
structure Layout.Sound (d : Context) (l : Layout) : Prop where
  members : ∀ m ∈ l.members, m.Sound d
  stored : 0 < l.size

/-- The variables that a builtin function reads. -/
def Builtin.reads : Builtin → List SymbolId
  | highlightIndex array index color => [array, index, color]
  | clearHighlight array => [array]
  | malloc size => [size]
  | free pointer => [pointer]

/-- A body that can be run; `started` says whether it may still be missing. -/
def Body.Sound (d : Context) (started : Prop) (id : FunctionId) (f : Function) : Body → Prop
  | declared => started
  | compiled s => s.Typed d (some id) (some f.result)
  | builtin b => ∀ p ∈ b.reads, p ∈ f.params

/-- A function that allocates as many bytes as the number says that it is called with. -/
def Function.IsAllocator (p : Program) (f : Function) : Prop :=
  ∃ size, f.body = .builtin (.malloc size) ∧ f.params = [size] ∧ f.locals = [size] ∧
    f.result = Ty.voidPointer ∧ (p.symbol size).ty = Ty.int ∧ (p.symbol size).array = none

/-- A well-typed function. -/
structure Function.Sound (d : Context) (started : Prop) (id : FunctionId) (f : Function) : Prop where
  result : f.result.structName? = none
  known : f.result.Known d.program
  params : ∀ p ∈ f.params, p ∈ f.locals ∧ (d.program.symbol p).ty.isScalar = true
  body : f.body.Sound d started id f
  malloc : f.isBuiltin = true → f.name = "malloc" → f.IsAllocator d.program

theorem Function.Sound.mono {d : Context} {started started' : Prop} {id : FunctionId} {f : Function}
    (h : f.Sound d started id) (hs : started → started') : f.Sound d started' id := by
  refine ⟨h.result, h.known, h.params, ?_, h.malloc⟩
  have hb := h.body
  unfold Body.Sound at hb ⊢
  split at hb
  · exact hs hb
  · exact hb
  · exact hb

/-- Tables all of whose entries are well typed against `d`; only the body of `current` may be
missing. -/
structure Program.Sound (p : Program) (d : Context) (current : Option FunctionId) : Prop where
  symbols : ∀ {i : Nat} {s}, p.symbols[i]? = some s → s.Sound d
  structs : ∀ {i : Nat} {l}, p.structs[i]? = some l → l.Sound d
  functions : ∀ {i : Nat} {f}, p.functions[i]? = some f → f.Sound d (current = some i) i

/-! ## Contexts -/

namespace Context

/-- Lowering could arrive at `d` from `c`. -/
structure Leads (c d : Context) : Prop where
  completes : c.Completes d.program
  assigned : ∀ {a es}, c.assigned a es → d.assigned a es

/-- The numbers that a context holds are numbers of its tables, and no builtin function is being
defined. -/
structure Ranged (c : Context) : Prop extends c.Mapped where
  locals : ∀ {i : Nat} {f}, c.program.functions[i]? = some f →
    (∀ id ∈ f.locals, c.program.HasSymbol id) ∧ ∀ id ∈ f.params, c.program.HasSymbol id
  function : ∀ {f}, c.function = some f → f.id < c.program.functions.size ∧
    f.result = (c.program.function f.id).result ∧
    ∀ scope ∈ f.scopes, ∀ entry ∈ scope, entry.2 ∈ (c.program.function f.id).locals
  own : ∀ {f}, c.function = some f → (c.program.function f.id).isBuiltin = false

/-- The values of the array assignments so far can be lowered again, in any function, and come to
what they came to. -/
def Replayed (g : Grammar) (c : Context) : Prop :=
  ∀ {dst values scope ty loc es}, c.assigned (.mk (.arrayAssign dst values scope) ty loc) es →
    ∀ q, c.Completes q → ∀ f, List.Forall₂ (fun v e =>
      lowerExpr g v (.frozenIn q f scope) = .ok (e, .frozenIn q f scope)) values es

/-- The invariant of lowering. -/
structure Sound (g : Grammar) (c : Context) : Prop where
  building : c.frozen = false
  ranged : c.Ranged
  program : ∀ {d}, c.Leads d → c.program.Sound d c.currentFunction?
  members : ∀ {s}, c.struct = some s → ∀ {d}, c.Leads d → ∀ m ∈ s.members, m.Sound d
  filled : ∀ {s}, c.struct = some s → s.members ≠ [] → 0 < s.nextOffset
  replayed : c.Replayed g

/-- An expression is well typed whatever lowering arrives at. -/
def Types (c : Context) (e : Expr) : Prop := ∀ {d}, c.Leads d → e.Typed d c.currentFunction?

/-- A statement is well typed whatever lowering arrives at. -/
def TypesStmt (c : Context) (s : Stmt) : Prop :=
  ∀ {d}, c.Leads d → s.Typed d c.currentFunction? c.result?

end Context

end MiniC
