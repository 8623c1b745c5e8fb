/-
  Names and what they stand for.

  `Names` is what a reader of a source keeps in mind: the globals so far, and inside of a function
  its parameters and the blocks around with the variables declared in each.  A name stands for the
  variable of the innermost block that has one of this name, else for the global (`Names.resolve`);
  a block, a list of parameters or the globals have each name once (`Names.declare`).  Variables are
  numbered in the order of their declarations.

  The judgements say how trees become code under names, one clause for each form and without looking
  at how lowering keeps its tables:

  * `Γ.Reads ok n e`: the tree `n` becomes the expression `e`, and each variable that `n` names,
    also where no code is left of it, is `ok`;
  * `Γ.Lowers ok n l Γ'`: the statement `n` becomes `l` and leaves the names `Γ'`;
  * `p.Defines Γ items Γ'`: the definitions `items` are those of the program `p`.

  Contexts of lowering show names (`Context.Shows`): one that does finds for each name what the
  names say (`Context.Shows.find?`), and declaring a name in it does what `Names.declare` does.
-/
import Mathlib.Data.List.Find
import MiniC.Proofs.LoweringSteps

namespace MiniC

/-- A variable: its number and what its declaration says. -/
structure Variable where
  id : SymbolId
  name : String
  ty : Ty
  declaredAt : Location

namespace Variable

/-- The first variable of a name. -/
def find? (vs : List Variable) (name : String) : Option Variable := vs.find? fun v => v.name = name

/-- Variables as the entries of a scope. -/
def scope (vs : List Variable) : Scope := vs.map fun v => (v.name, v.id)

end Variable

/-- The variables that are declared before a place in a source. -/
structure Names where
  /-- The number of the next variable. -/
  next : SymbolId
  globals : List Variable
  /-- The parameters of the function around. -/
  params : List Variable
  /-- All variables of the function around, also those of blocks that have ended. -/
  locals : List Variable
  /-- The variables of the blocks around, the innermost block first and in each block the latest
  variable first.  The outermost block has the parameters; outside of functions there are none. -/
  blocks : List (List Variable)

namespace Names

/-- The names before the first definition; the builtin functions have six parameters. -/
def initial : Names := ⟨6, [], [], [], []⟩

/-- The variable of the innermost block that has one of this name. -/
def local? (Γ : Names) (name : String) : Option Variable :=
  Γ.blocks.findSome? fun vs => Variable.find? vs name

/-- What a name stands for: the variable of the innermost block that has one, else the global. -/
def resolve (Γ : Names) (name : String) : Option Variable :=
  (Γ.local? name).or (Variable.find? Γ.globals name)

/-- The names with one more global. -/
def addGlobal (Γ : Names) (v : Variable) : Names :=
  { Γ with next := Γ.next + 1, globals := Γ.globals ++ [v] }

/-- The names with one more variable in the innermost block. -/
def addLocal (Γ : Names) (isParam : Bool) (v : Variable) : Names :=
  { Γ with
    next := Γ.next + 1
    params := if isParam then Γ.params ++ [v] else Γ.params
    locals := Γ.locals ++ [v]
    blocks := (v :: Γ.blocks.headD []) :: Γ.blocks.tail }

/-- The names after a declaration in the innermost block or, outside of functions, among the
globals; these must not have the name already. -/
def declare (Γ : Names) (isParam : Bool) (name : String) (ty : Ty) (loc : Location) :
    Option Names :=
  match Γ.blocks with
  | [] =>
    if (Variable.find? Γ.globals name).isSome then none
    else some (Γ.addGlobal ⟨Γ.next, name, ty, loc⟩)
  | block :: _ =>
    if (Variable.find? block name).isSome then none
    else some (Γ.addLocal isParam ⟨Γ.next, name, ty, loc⟩)

/-- The names at the start of a block. -/
def enter (Γ : Names) : Names := { Γ with blocks := [] :: Γ.blocks }

/-- The names after the innermost block. -/
def leave (Γ : Names) : Names := { Γ with blocks := Γ.blocks.tail }

/-- The names at the start of a function. -/
def enterFunction (Γ : Names) : Names := { Γ with params := [], locals := [], blocks := [[]] }

/-- The names after a function. -/
def leaveFunction (Γ : Names) : Names := { Γ with params := [], locals := [], blocks := [] }

end Names

/-! ## Trees under names -/

/-- Whether the code of an expression is an operation on the code of its parts. -/
def Shape.operates : Shape → Bool
  | assign .. | binary .. | unary .. | deref _ | addressOf _ | sizeofType .. | index .. | member ..
  | call .. | intLiteral _ | charLiteral _ | stringLiteral _ | null => true
  | _ => false

/-- The name and the type that an item of a declaration declares; an array is used as a pointer. -/
def Shape.declared? (base : Base) : Shape → Option (String × Ty)
  | varItem stars name => some (name, ⟨base, stars⟩)
  | arrayItem stars name _ => some (name, ⟨base, stars + 1⟩)
  | _ => none

/-- The statement of what a tree is lowered to, where a statement has to stand. -/
def Lowered.standing (l : Lowered) (loc : Location) : Stmt :=
  match l with
  | .stmt s => s
  | .expr e => .mk (.expr e) loc
  | .declared => .mk .empty loc

/-- The statements of what a tree is lowered to, inside a block. -/
def Lowered.listed (l : Lowered) (loc : Location) : List Stmt :=
  match l with
  | .stmt s => [s]
  | .expr e => [.mk (.expr e) loc]
  | .declared => []

namespace Names

/-- Under the names `Γ` a tree becomes an expression; all variables that it names are `ok`. -/
inductive Reads (ok : Variable → Prop) (Γ : Names) : Node → Expr → Prop
  /-- A variable is the one that its name stands for. -/
  | identifier {n name v} : n.shape = .identifier name → Γ.resolve name = some v → ok v →
    Reads ok Γ n (.mk (.var v.id) v.ty n.start)
  | operation {n : Node} {es : List Expr} {e : Expr} : n.shape.operates = true →
    List.Forall₂ (Reads ok Γ) n.shape.parts es → e.op.operands.Perm es → (∀ id, e.op ≠ .var id) →
    Reads ok Γ n e
  | pointerMember {n : Node} {pointer field p ty loc offset array ty' loc'} :
    n.shape = .pointerMember pointer field → Reads ok Γ pointer p →
    Reads ok Γ n (.mk (.member (.mk (.deref p) ty loc) offset array) ty' loc')
  /-- The operand is read for its type only. -/
  | sizeofExpr {n : Node} {operand e size loc} : n.shape = .sizeofExpr operand →
    Reads ok Γ operand e → Reads ok Γ n (.mk (.const size) Ty.int loc)
  /-- The values stay trees, with a scope that has the variables of the blocks around. -/
  | arrayAssign {n left right : Node} {values dst es} {scope : Scope} :
    n.shape = .assign left right → right.shape = .arrayInit values →
    Reads ok Γ left dst → List.Forall₂ (Reads ok Γ) values es →
    (∀ name, scope.find? name = (Γ.local? name).map Variable.id) →
    Reads ok Γ n (.arrayAssign dst values scope)

/-- The variables of a declaration, one after the other; the length of an array is read under the
names before it. -/
inductive Declares (ok : Variable → Prop) (base : Base) : Names → List Node → Names → Prop
  | nil {Γ} : Declares ok base Γ [] Γ
  | cons {Γ Γ₁ Γ' : Names} {item : Node} {items name ty es} :
    item.shape.declared? base = some (name, ty) → List.Forall₂ (Γ.Reads ok) item.shape.parts es →
    Γ.declare false name ty item.start = some Γ₁ → Declares ok base Γ₁ items Γ' →
    Declares ok base Γ (item :: items) Γ'

/-- The parameters of a function, one after the other. -/
inductive Receives : Names → List Node → Names → Prop
  | nil {Γ} : Receives Γ [] Γ
  | cons {Γ Γ₁ Γ' : Names} {n item : Node} {ns base name ty} : n.shape = .param base item →
    item.shape.declared? base = some (name, ty) → Γ.declare true name ty item.start = some Γ₁ →
    Receives Γ₁ ns Γ' → Receives Γ (n :: ns) Γ'

mutual

/-- Under the names `Γ` a tree becomes an expression, a statement or a declaration, and the names
after it are `Γ'`.  Only a block ends the declarations inside of it: one that is a branch or the
body of a loop goes on in the block around. -/
inductive Lowers (ok : Variable → Prop) : Names → Node → Lowered → Names → Prop
  | expr {Γ n e} : Reads ok Γ n e → Lowers ok Γ n (.expr e) Γ
  | exprStatement {Γ n part e} : n.shape = .exprStatement part → Reads ok Γ part e →
    Lowers ok Γ n (.stmt (.mk (.expr e) n.start)) Γ
  | varDec {Γ Γ' n base items} : n.shape = .varDec base items → Declares ok base Γ items Γ' →
    Lowers ok Γ n .declared Γ'
  | block {Γ Γ' n nodes ss} : n.shape = .block nodes → LowersAll ok Γ.enter nodes ss Γ' →
    Lowers ok Γ n (.stmt (.mk (.block ss) n.start)) Γ'.leave
  | ifThen {Γ Γ' n test t e l} : n.shape = .ifElse test t none → Reads ok Γ test e →
    Lowers ok Γ t l Γ' →
    Lowers ok Γ n (.stmt (.mk (.ifElse e (l.standing t.start) none) n.start)) Γ'
  | ifElse {Γ Γ₁ Γ' n test t t' e l l'} : n.shape = .ifElse test t (some t') → Reads ok Γ test e →
    Lowers ok Γ t l Γ₁ → Lowers ok Γ₁ t' l' Γ' →
    Lowers ok Γ n
      (.stmt (.mk (.ifElse e (l.standing t.start) (some (l'.standing t'.start))) n.start)) Γ'
  | whileLoop {Γ Γ' n test body e l} : n.shape = .whileLoop test body → Reads ok Γ test e →
    Lowers ok Γ body l Γ' →
    Lowers ok Γ n (.stmt (.mk (.whileLoop e (l.standing body.start)) n.start)) Γ'
  | doWhile {Γ Γ' n test body e l} : n.shape = .doWhile body test → Lowers ok Γ body l Γ' →
    Reads ok Γ' test e →
    Lowers ok Γ n (.stmt (.mk (.doWhile (l.standing body.start) e) n.start)) Γ'
  | forLoop {Γ Γ' n init test increment body i t k l} :
    n.shape = .forLoop init test increment body → Option.Rel (Reads ok Γ) init i →
    Option.Rel (Reads ok Γ) test t → Option.Rel (Reads ok Γ) increment k →
    Lowers ok Γ body l Γ' →
    Lowers ok Γ n (.stmt (.mk (.forLoop i t k (l.standing body.start)) n.start)) Γ'
  | returns {Γ n value e} : n.shape = .returns value → Option.Rel (Reads ok Γ) value e →
    Lowers ok Γ n (.stmt (.mk (.returns e) n.start)) Γ
  | breaks {Γ n} : n.shape = .breaks → Lowers ok Γ n (.stmt (.mk .breaks n.start)) Γ
  | continues {Γ n} : n.shape = .continues → Lowers ok Γ n (.stmt (.mk .continues n.start)) Γ
  | empty {Γ n} : n.shape = .empty → Lowers ok Γ n (.stmt (.mk .empty n.start)) Γ

/-- The statements of a block, each under the names after the one before. -/
inductive LowersAll (ok : Variable → Prop) : Names → List Node → List Stmt → Names → Prop
  | nil {Γ} : LowersAll ok Γ [] [] Γ
  | cons {Γ Γ₁ Γ' n ns l ss} : Lowers ok Γ n l Γ₁ → LowersAll ok Γ₁ ns ss Γ' →
    LowersAll ok Γ (n :: ns) (l.listed n.start ++ ss) Γ'

end

end Names

namespace Program
variable (p : Program)

/-- The table has a variable with what its declaration says. -/
def Records (v : Variable) : Prop :=
  ∃ s, p.symbols[v.id]? = some s ∧ s.name = v.name ∧ s.ty = v.ty ∧ s.declaredAt = v.declaredAt

/-- A variable is a global of the program. -/
def HasGlobal (v : Variable) : Prop := p.Records v ∧ v.id ∈ p.globals

/-- A variable is one of the function `k` or a global. -/
def HasVariable (k : FunctionId) (v : Variable) : Prop :=
  p.Records v ∧ (v.id ∈ (p.function k).locals ∨ v.id ∈ p.globals)

/-- The definitions of a source, one after the other, are those of the program. -/
inductive Defines : Names → List Node → Names → Prop
  | nil {Γ} : Defines Γ [] Γ
  | structDef {Γ Γ' n ns name members} : n.shape = .structDef name members → Defines Γ ns Γ' →
    Defines Γ (n :: ns) Γ'
  | varDec {Γ Γ₁ Γ' n ns base items} : n.shape = .varDec base items →
    Names.Declares p.HasGlobal base Γ items Γ₁ → Defines Γ₁ ns Γ' → Defines Γ (n :: ns) Γ'
  | functionDef {Γ Γ₁ Γ₂ Γ' : Names} {n body : Node} {ns base stars name params l k} :
    n.shape = .functionDef base stars name params body → Γ.enterFunction.Receives params Γ₁ →
    Γ₁.Lowers (p.HasVariable k) body l Γ₂ → p.function? name = some k →
    (p.function k).body = .compiled (l.standing body.start) →
    (p.function k).params = Γ₁.params.map Variable.id →
    (p.function k).locals = Γ₂.locals.map Variable.id → Defines Γ₂.leaveFunction ns Γ' →
    Defines Γ (n :: ns) Γ'

end Program

/-! ## Contexts that show names -/

namespace Names

/-- All variables that are known satisfy `ok`. -/
def All (ok : Variable → Prop) (Γ : Names) : Prop :=
  (∀ v ∈ Γ.globals, ok v) ∧ ∀ v ∈ Γ.locals, ok v

/-- Names further on in the same function or among the globals. -/
structure Grows (Γ Γ' : Names) : Prop where
  globals : Γ.globals ⊆ Γ'.globals
  locals : Γ.locals ⊆ Γ'.locals
  params : Γ'.params = Γ.params
  depth : Γ'.blocks.length = Γ.blocks.length

variable {Γ Γ' Γ'' : Names} {ok : Variable → Prop}

theorem Grows.refl (Γ : Names) : Γ.Grows Γ :=
  ⟨List.Subset.refl _, List.Subset.refl _, rfl, rfl⟩

theorem Grows.trans (h : Γ.Grows Γ') (h' : Γ'.Grows Γ'') : Γ.Grows Γ'' :=
  ⟨List.Subset.trans h.globals h'.globals, List.Subset.trans h.locals h'.locals,
    h'.params.trans h.params, h'.depth.trans h.depth⟩

theorem Grows.all (h : Γ.Grows Γ') (ha : Γ'.All ok) : Γ.All ok :=
  ⟨fun v hv => ha.1 v (h.globals hv), fun v hv => ha.2 v (h.locals hv)⟩

theorem Grows.of_declare {name : String} {ty : Ty} {loc : Location}
    (h : Γ.declare false name ty loc = some Γ') : Γ.Grows Γ' := by
  unfold declare at h
  split at h
  · split at h
    · cases h
    · cases h
      exact ⟨List.subset_append_left .., List.Subset.refl _, rfl, rfl⟩
  · rename_i hb
    split at h
    · cases h
    · cases h
      exact ⟨List.Subset.refl _, List.subset_append_left .., rfl, by simp [addLocal, hb]⟩

end Names

/-- Where in a source lowering stands. -/
inductive Site where
  | outside
  | struct
  /-- In the function with this number, which began as `head`. -/
  | function (k : FunctionId) (head : Function)

namespace Context

/-- What is being defined, and in a function its variables and its blocks. -/
def Stands (c : Context) (Γ : Names) : Site → Prop
  | .outside => c.struct = none ∧ c.function = none ∧ Γ.blocks = [] ∧ Γ.locals = []
  | .struct => c.struct.isSome ∧ c.function = none ∧ Γ.blocks = [] ∧ Γ.locals = []
  | .function k head => c.struct = none ∧ Γ.blocks ≠ [] ∧
    (∃ f, c.function = some f ∧ f.id = k ∧ f.scopes = Γ.blocks.map Variable.scope) ∧
    c.program.functions[k]? = some
      { head with params := Γ.params.map Variable.id, locals := Γ.locals.map Variable.id }

/-- The context has the variables of the names, and no others are in sight. -/
structure Shows (s : Site) (Γ : Names) (c : Context) : Prop where
  next : c.program.symbols.size = Γ.next
  globals : c.program.globals = Γ.globals.map Variable.id
  global? : ∀ name, c.program.global? name = (Variable.find? Γ.globals name).map Variable.id
  records : Γ.All c.program.Records
  blocks : ∀ vs ∈ Γ.blocks, ∀ v ∈ vs, v ∈ Γ.locals
  stands : c.Stands Γ s

end Context

namespace Variable

theorem find?_scope (vs : List Variable) (name : String) :
    (scope vs).find? name = (find? vs name).map id := by
  induction vs with
  | nil => rfl
  | cons v vs ih =>
    rw [Scope.find?, scope, List.map_cons, List.lookup_cons, find?, List.find?_cons]
    by_cases hv : v.name = name
    · simp [hv]
    · have hne : (name == v.name) = false := by simpa using fun h => hv h.symm
      simpa [hv, hne, Scope.find?, scope, find?] using ih

theorem mem_of_find? {vs : List Variable} {name : String} {v : Variable}
    (h : find? vs name = some v) : v ∈ vs := List.mem_of_find?_eq_some h

end Variable

namespace Context
variable {s : Site} {Γ Γ' : Names} {c c' : Context} {name : String}

/-- The flat list of visible names gives for each name the variable of the innermost scope. -/
theorem find?_visibleNames (c : Context) (name : String) :
    c.visibleNames.find? name = c.local? name := by
  rw [visibleNames, local?, Scope.find?]
  cases c.function with
  | none => rfl
  | some f => rw [lookup_distinct, lookup_flatten, Option.bind_some]

namespace Shows

theorem local? (h : c.Shows s Γ) (name : String) :
    c.local? name = (Γ.local? name).map Variable.id := by
  have stands := h.stands
  cases s with
  | outside => simp [Context.local?, Names.local?, stands.2.1, stands.2.2.1]
  | struct => simp [Context.local?, Names.local?, stands.2.1, stands.2.2.1]
  | function k head =>
    obtain ⟨-, -, ⟨f, hf, -, hs⟩, -⟩ := stands
    rw [Context.local?, hf, Option.bind_some, hs, Names.local?, List.findSome?_map,
      List.map_findSome?]
    congr 1
    funext vs
    exact Variable.find?_scope vs name

/-- **A context finds for each name what the names say that it stands for.** -/
theorem find? (h : c.Shows s Γ) (name : String) :
    c.find? name = (Γ.resolve name).map Variable.id := by
  rw [find?_eq, h.local?, h.global?, Names.resolve, Option.map_or]

/-- What a name stands for is a variable of the function or a global. -/
theorem of_resolve (h : c.Shows s Γ) {v : Variable} (hv : Γ.resolve name = some v) :
    v ∈ Γ.globals ∨ v ∈ Γ.locals := by
  rw [Names.resolve, Option.or_eq_some_iff] at hv
  rcases hv with hv | ⟨-, hv⟩
  · obtain ⟨vs, hvs, hv⟩ := List.exists_of_findSome?_eq_some hv
    exact .inr (h.blocks vs hvs v (Variable.mem_of_find? hv))
  · exact .inl (Variable.mem_of_find? hv)

theorem ok_of_resolve (h : c.Shows s Γ) {ok : Variable → Prop} (ha : Γ.All ok) {v : Variable}
    (hv : Γ.resolve name = some v) : ok v :=
  (h.of_resolve hv).elim (ha.1 v) (ha.2 v)

/-- What does not touch variables, functions and what is being defined keeps the names. -/
theorem congr (h : c.Shows s Γ) (hs : c'.program.symbols = c.program.symbols)
    (hg : c'.program.globals = c.program.globals)
    (hn : c'.program.globalNames = c.program.globalNames)
    (hf : c'.program.functions = c.program.functions) (hfun : c'.function = c.function)
    (hstruct : c'.struct = c.struct) : c'.Shows s Γ := by
  refine ⟨by rw [hs, h.next], by rw [hg, h.globals], fun name => ?_, ?_, h.blocks, ?_⟩
  · rw [Program.global?, hn]
    exact h.global? name
  · have same : c'.program.Records = c.program.Records := by
      funext v
      rw [Program.Records, Program.Records, hs]
    rw [same]
    exact h.records
  · have stands := h.stands
    cases s <;> simpa only [Stands, hf, hfun, hstruct] using stands

/-! ### Declarations -/

/-- A variable that is pushed onto the table is there, and so are those before it. -/
theorem records_push (h : c.Shows s Γ) {t : Symbol} {p : Program}
    (hp : p.symbols = c.program.symbols.push t) :
    Γ.All p.Records ∧ p.Records ⟨Γ.next, t.name, t.ty, t.declaredAt⟩ := by
  have old : ∀ v, c.program.Records v → p.Records v := by
    rintro v ⟨s, hs, hr⟩
    exact ⟨s, by rw [hp]; exact Program.getElem?_push_of_some hs, hr⟩
  refine ⟨⟨fun v hv => old v (h.records.1 v hv), fun v hv => old v (h.records.2 v hv)⟩, t, ?_, rfl,
    rfl, rfl⟩
  rw [hp, ← h.next]
  exact Array.getElem?_push_size

theorem addGlobal (h : c.Shows .outside Γ) {t : Symbol} (hn : Variable.find? Γ.globals t.name = none) :
    (c.addGlobal t).Shows .outside (Γ.addGlobal ⟨Γ.next, t.name, t.ty, t.declaredAt⟩) := by
  obtain ⟨old, new⟩ := h.records_push (p := c.program.addGlobal t) rfl
  refine ⟨?_, ?_, fun name => ?_, ⟨fun v hv => ?_, old.2⟩, h.blocks, h.stands⟩
  · simp [Context.addGlobal, Program.addGlobal, Program.addSymbol, Names.addGlobal, h.next]
  · simp [Context.addGlobal, Program.addGlobal, Program.addSymbol, Names.addGlobal, h.next,
      h.globals]
  · -- The name is new, so the globals before it are found as before.
    change (c.program.globalNames.insert t.name c.program.symbols.size).find? name = _
    rw [NameMap.find?_insert, Names.addGlobal, Variable.find?, List.find?_append, List.find?_singleton]
    split
    case isTrue he =>
      rw [he, ← Variable.find?, hn]
      simp [h.next]
    case isFalse he =>
      rw [← Variable.find?, show c.program.globalNames.find? name = _ from h.global? name]
      cases Variable.find? Γ.globals name <;> simp [Ne.symm he]
  · rcases List.mem_append.1 hv with hv | hv
    · exact old.1 v hv
    · exact List.mem_singleton.1 hv ▸ new

theorem addLocal {k : FunctionId} {head : Function} (h : c.Shows (.function k head) Γ)
    {f : FunctionContext} (t : Symbol) (isParam : Bool) (hf : c.function = some f) :
    (c.addLocal f t isParam).Shows (.function k head)
      (Γ.addLocal isParam ⟨Γ.next, t.name, t.ty, t.declaredAt⟩) := by
  obtain ⟨hstruct, hb, ⟨f', hf', rfl, hs⟩, hfun⟩ := h.stands
  cases hf.symm.trans hf'
  obtain ⟨block, outer, hb⟩ := List.exists_cons_of_ne_nil hb
  obtain ⟨old, new⟩ := h.records_push (p := (c.addLocal f t isParam).program) rfl
  refine ⟨?_, h.globals, h.global?, ⟨old.1, fun v hv => ?_⟩, fun vs hvs v hv => ?_, hstruct,
    by simp [Names.addLocal], ⟨_, rfl, rfl, ?_⟩, ?_⟩
  · simp [Context.addLocal, Program.addSymbol, Program.modifyFunction, Names.addLocal, h.next]
  · rcases List.mem_append.1 hv with hv | hv
    · exact old.2 v hv
    · exact List.mem_singleton.1 hv ▸ new
  · simp only [Names.addLocal, hb, List.headD_cons, List.tail_cons] at hvs
    rcases List.mem_cons.1 hvs with rfl | hvs
    · rcases List.mem_cons.1 hv with rfl | hv
      · exact List.mem_append_right _ (List.mem_singleton_self _)
      · exact List.mem_append_left _ (h.blocks block (by simp [hb]) v hv)
    · exact List.mem_append_left _ (h.blocks vs (by simp [hb, hvs]) v hv)
  · simp [Names.addLocal, hs, hb, Variable.scope, h.next]
  · cases isParam <;>
      simp [Context.addLocal, Program.addSymbol, Program.modifyFunction, Array.getElem?_modify,
        Names.addLocal, hfun, h.next]

/-- The blocks of the function being defined change with its scopes. -/
theorem reblock {k : FunctionId} {head : Function} (h : c.Shows (.function k head) Γ)
    {f : FunctionContext → FunctionContext} {b : List (List Variable)} (hid : ∀ j, (f j).id = j.id)
    (hscopes : ∀ j, j.scopes = Γ.blocks.map Variable.scope → (f j).scopes = b.map Variable.scope)
    (hne : b ≠ []) (hsub : ∀ vs ∈ b, vs = [] ∨ vs ∈ Γ.blocks) :
    Shows (.function k head) { Γ with blocks := b } { c with function := c.function.map f } := by
  obtain ⟨hstruct, -, ⟨j, hj, hk, hs⟩, hfun⟩ := h.stands
  refine ⟨h.next, h.globals, h.global?, h.records, fun vs hvs v hv => ?_, hstruct, hne,
    ⟨f j, by simp [hj], by rw [hid, hk], hscopes j hs⟩, hfun⟩
  rcases hsub vs hvs with rfl | hvs
  · cases hv
  · exact h.blocks vs hvs v hv

end Shows

end Context

namespace Lower
variable {s : Site} {Γ : Names} {c c' : Context} {name : String} {ty : Ty} {size : Nat}
  {array : Option ArraySpec} {isParam : Bool} {loc : Location} {u : Unit}
open Context

/-- A variable of a function is declared only where its block does not have the name. -/
theorem declareLocal_fresh (h : declare name ty size array isParam loc c = .ok (u, c'))
    (hs : c.struct = none) {f : FunctionContext} (hf : c.function = some f) :
    (f.scopes.headD []).find? name = none := by
  simp only [declare, bind_eq_ok, ask_eq_ok] at h
  obtain ⟨_, _, ⟨rfl, rfl⟩, h⟩ := h
  simp only [hs, bind_eq_ok, ask_eq_ok] at h
  obtain ⟨_, _, ⟨rfl, rfl⟩, h⟩ := h
  simp only [hf, declareLocal] at h
  simpa using (guard_eq_ok.1 h).1

/-- **Declaring a variable does what the names say**, and a structure's members are no variables. -/
theorem declare_shows (h : c.Shows s Γ)
    (hx : declare name ty size array isParam loc c = .ok (u, c')) :
    (s = .struct ∧ c'.Shows s Γ) ∨
      s ≠ .struct ∧ ∃ Γ', Γ.declare isParam name ty loc = some Γ' ∧ c'.Shows s Γ' := by
  cases s with
  | struct =>
    obtain ⟨hs, rest⟩ := h.stands
    rcases declare_cases hx with ⟨t, ht, rfl⟩ | ⟨hn, -⟩ | ⟨hn, -⟩
    · exact .inl ⟨rfl, h.next, h.globals, h.global?, h.records, h.blocks, rfl, rest⟩
    · simp [hn] at hs
    · simp [hn] at hs
  | outside =>
    obtain ⟨hs, hf, hb, -⟩ := h.stands
    rcases declare_cases hx with ⟨t, ht, -⟩ | ⟨-, -, fresh, rfl⟩ | ⟨-, f, hf', -⟩
    · cases hs.symm.trans ht
    · rw [h.global?, Option.map_eq_none_iff] at fresh
      exact .inr ⟨nofun, _, by simp [Names.declare, hb, fresh], h.addGlobal fresh⟩
    · cases hf.symm.trans hf'
  | function k head =>
    obtain ⟨hs, hb, ⟨f, hf, -, hscopes⟩, -⟩ := h.stands
    obtain ⟨block, outer, hb⟩ := List.exists_cons_of_ne_nil hb
    have fresh := declareLocal_fresh hx hs hf
    rw [hscopes, hb, List.map_cons, List.headD_cons, Variable.find?_scope,
      Option.map_eq_none_iff] at fresh
    rcases declare_cases hx with ⟨t, ht, -⟩ | ⟨-, hf', -⟩ | ⟨-, f', hf', rfl⟩
    · cases hs.symm.trans ht
    · cases hf.symm.trans hf'
    · exact .inr ⟨nofun, _, by simp [Names.declare, hb, fresh], h.addLocal _ isParam hf'⟩

end Lower

end MiniC
