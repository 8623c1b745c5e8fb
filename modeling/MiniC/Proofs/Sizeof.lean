/-
  What `sizeof` comes to.

  `sizeof` is lowered to a constant (`Lower.lower_sizeofType`, `Lower.lower_sizeofExpr`): the number of
  bytes of storage that its operand takes, as a word of 32 bits with a sign.

  - `Program.Occupies`: the storage of an expression is that of the variable or the member that it is,
    or that of its type;
  - `Program.Lowers.measured`: this is what `sizeof` measures;
  - `Word.requests_ofNat`: below half of the address space the word says the size, and `malloc` asks
    for so many bytes;
  - `Word.wraps_ofNat`: from there on, up to all of the address space, the word is negative, and `malloc`
    refuses it.
-/
import MiniC.Proofs.Cells
import MiniC.Proofs.Sizes

namespace MiniC

namespace Program

/-- The bytes of a type, or of an array of the given length that is used at the type of a pointer. -/
def Amounts (p : Program) (ty : Ty) (size : Nat) : Option Nat → Prop
  | none => p.sizeOf? ty = some size
  | some length => ∃ n, p.Strides ty n ∧ size = length * n

theorem Amounts.mono {p q : Program} {ty : Ty} {size : Nat} {length : Option Nat}
    (h : p.Amounts ty size length) (he : p.Extends q) : q.Amounts ty size length := by
  cases length with
  | none => exact he.sizeOf? h
  | some length =>
    obtain ⟨n, ⟨element, ht, hn⟩, rfl⟩ := h
    exact ⟨n, ⟨element, ht, he.sizeOf? hn⟩, rfl⟩

/-- What has storage has as much as its type and length say. -/
theorem Measures.eq_of_amounts {p : Program} {ty : Ty} {n size : Nat} {length : Option Nat}
    (h : p.Measures ty n length) (ha : p.Amounts ty size length) : n = size := by
  cases length with
  | none => exact Option.some.inj (h.symm.trans ha)
  | some length =>
    obtain ⟨element, k, rfl, hk, -, rfl, -⟩ := h
    obtain ⟨k', ⟨element', ht, hk'⟩, rfl⟩ := ha
    rw [Ty.pointee_pointer] at ht
    cases ht
    cases hk.symm.trans hk'
    rfl

end Program

namespace Lower
variable {g : Grammar} {c c' : Context} {n operand : Node} {e : Expr}

theorem unary_of_lower (hn : n.production = .unary) {r : Lowered × Context}
    (h : lower g n c = .ok r) : unary (lower g) n c = .ok r := by
  rw [lower_eq] at h
  cases hf : g.find? .unary with
  | none => simp [lowerStep, hn, hf, fail] at h
  | some entry =>
    cases hl : entry.lowers with
    | false => simp [lowerStep, hn, hf, hl, fail] at h
    | true => simpa [lowerStep, hn, hf, hl, rule] using h

theorem resolveType_eq {base : Base} {stars : Nat} {loc : Location} {ty : Ty}
    (h : resolveType base stars loc c = .ok (ty, c')) : ty = ⟨base, stars⟩ ∧ c' = c := by
  cases base with
  | struct name =>
    obtain ⟨rfl, rfl, -⟩ := resolveType_eq_ok.1 h
    exact ⟨rfl, rfl⟩
  | int | char | void =>
    obtain ⟨rfl, rfl⟩ := pure_eq_ok.1 h
    exact ⟨rfl, rfl⟩

/-- `sizeof` of a type is the storage of the type. -/
theorem lower_sizeofType (hn : n.production = .unary) {base : Base} {stars : Nat}
    (hs : n.shape = .sizeofType base stars) (h : lower g n c = .ok (.expr e, c')) :
    ∃ size, c'.program.sizeOf? ⟨base, stars⟩ = some size ∧
      e = .mk (.const (.ofNat size)) Ty.int n.start := by
  have h := unary_of_lower hn h
  simp only [unary, hs, sizeOf, bind_eq_ok, ask_eq_ok, require_eq_ok, expression, pure_eq_ok,
    Lowered.expr.injEq] at h
  obtain ⟨ty, c₁, hty, size, _, ⟨_, _, ⟨rfl, rfl⟩, hsize, rfl⟩, rfl, rfl⟩ := h
  obtain ⟨rfl, rfl⟩ := resolveType_eq hty
  exact ⟨size, hsize, rfl⟩

/-- `sizeof` of an array is the storage of all elements, and that of another expression the storage of
its type. -/
theorem lower_sizeofExpr (hn : n.production = .unary) (hs : n.shape = .sizeofExpr operand)
    (h : lower g n c = .ok (.expr e, c')) : ∃ o size, lower g operand c = .ok (.expr o, c') ∧
      c'.program.Amounts o.ty size (c'.arrayLength? o) ∧
      e = .mk (.const (.ofNat size)) Ty.int n.start := by
  have h := unary_of_lower hn h
  simp only [unary, hs, sizeofExpr, bind_eq_ok, ask_eq_ok, expression, pure_eq_ok,
    Lowered.expr.injEq] at h
  obtain ⟨size, c₂, ⟨o, c₁, ho, length?, _, ⟨rfl, rfl⟩, hsize⟩, rfl, rfl⟩ := h
  have lowered : lower g operand c = .ok (.expr o, c₁) := by
    obtain ⟨l, k, hl, hx⟩ := bind_eq_ok.1 ho
    cases l with
    | expr o' =>
      obtain ⟨rfl, rfl⟩ := pure_eq_ok.1 hx
      exact hl
    | stmt _ => cases hx
    | declared => cases hx
  -- Only a variable or a member that is an array has a length.
  cases ha : c₁.arrayLength? o with
  | none =>
    simp only [ha, sizeOf, bind_eq_ok, ask_eq_ok, require_eq_ok] at hsize
    obtain ⟨_, _, ⟨rfl, rfl⟩, hsize, rfl⟩ := hsize
    exact ⟨o, size, lowered, by rwa [ha], rfl⟩
  | some length =>
    simp only [ha] at hsize
    cases he : o.ty.pointee with
    | none => simp [he, malformed] at hsize
    | some element =>
      simp only [he, sizeOf, bind_eq_ok, ask_eq_ok, require_eq_ok, pure_eq_ok] at hsize
      obtain ⟨k, _, ⟨_, _, ⟨rfl, rfl⟩, hk, rfl⟩, rfl, rfl⟩ := hsize
      refine ⟨o, _, lowered, ?_, rfl⟩
      rw [ha]
      exact ⟨k, ⟨element, he, hk⟩, rfl⟩

end Lower

/-! ## What is measured -/

namespace Program

/-- On the way to the program `p` the tree `n` is lowered to the expression `e`. -/
def Lowers (g : Grammar) (p : Program) (n : Node) (e : Expr) : Prop :=
  ∃ c c' d : Context, c.Sound g ∧ lower g n c = .ok (.expr e, c') ∧ c'.Leads d ∧ d.Finished g ∧
    d.program = p

/-- The bytes of storage that an expression stands for: those of a variable, those of a member, or
those of its type. -/
inductive Occupies (p : Program) : Expr → Nat → Prop
  | var {id : SymbolId} {ty : Ty} {loc : Location} :
    p.Takes ty ((p.symbol id).array.map ArraySpec.length) (p.symbol id).size →
    Occupies p (.mk (.var id) ty loc) (p.symbol id).size
  | member {object : Expr} {name field : String} {l : Layout} {m : Member} {loc : Location} :
    object.ty.structName? = some name → p.layout? name = some l → l.member? field = some m →
    p.Takes m.ty m.arrayLength m.size →
    Occupies p (.mk (.member object m.offset m.arrayLength) m.ty loc) m.size
  | value {op : Operation} {ty : Ty} {size : Nat} {loc : Location} :
    (∀ id, op ≠ .var id) → (∀ object offset array, op ≠ .member object offset array) →
    p.sizeOf? ty = some size → p.Takes ty none size → Occupies p (.mk op ty loc) size

/-- The bytes that a tree asks for with `sizeof`. -/
inductive Measured (g : Grammar) (p : Program) (n : Node) (size : Nat) : Prop
  | type {base : Base} {stars : Nat} : n.shape = .sizeofType base stars →
    p.sizeOf? ⟨base, stars⟩ = some size → p.Takes ⟨base, stars⟩ none size → Measured g p n size
  | expr {operand : Node} {e : Expr} : n.shape = .sizeofExpr operand → p.Lowers g operand e →
    p.Occupies e size → Measured g p n size

end Program

/-- **A well-typed expression has the storage that its type and length say**, and never none. -/
theorem Expr.Typed.occupies {g : Grammar} {d : Context} (hd : d.Finished g) {k : Option FunctionId}
    {e : Expr} (h : e.Typed d k) (hp : d.program.LaidOut) (ht : d.program.Tidy) {size : Nat}
    (ha : d.program.Amounts e.ty size (d.arrayLength? e)) : d.program.Occupies e size ∧ 0 < size := by
  cases h with
  | @var id loc hs =>
    have hsym := Array.getElem?_eq_getElem (hs.hasSymbol hd.ranged)
    have measured := hp.symbols hsym
    rw [← Program.symbol_eq hsym] at measured
    cases measured.eq_of_amounts ha
    exact ⟨.var (ht.takes hp measured), hd.measures_pos measured⟩
  | @member object name l field m loc _ hn hl hm =>
    obtain ⟨i, hi, rfl⟩ := Option.map_eq_some_iff.1 hl
    have measured := (hp.structs (hp.maps.layout hi).1).measures (List.mem_of_find?_eq_some hm)
    cases measured.eq_of_amounts ha
    exact ⟨.member hn hl hm (ht.takes hp measured), hd.measures_pos measured⟩
  | const | str | deref | index | addressOf | unary | binary | pointerOffset | pointerDiff | call
  | assign | arrayAssign =>
    have measured : d.program.Measures _ size none := ha
    exact ⟨.value nofun nofun ha (ht.takes hp measured), hd.measures_pos measured⟩

/-- Whether a tree asks for the size of something. -/
def Shape.isSizeof : Shape → Bool
  | sizeofType .. | sizeofExpr _ => true
  | _ => false

/-- **What `sizeof` is lowered to**: the word for the number of bytes that the operand takes. -/
theorem Program.Lowers.measured {g : Grammar} {p : Program} (hp : p.LaidOut) (ht : p.Tidy) {n : Node}
    {e : Expr} (h : p.Lowers g n e) (hn : n.Regular) (hu : n.production = .unary)
    (hs : n.shape.isSizeof = true) : ∃ size, p.Measured g n size ∧ 0 < size ∧
      e = .mk (.const (.ofNat size)) Ty.int n.start := by
  obtain ⟨c, c', d, hc, hl, hd, finished, rfl⟩ := h
  have grows := hd.completes.extends_
  unfold Shape.isSizeof at hs
  split at hs
  · rename_i base stars shape
    obtain ⟨size, hsize, rfl⟩ := Lower.lower_sizeofType hu shape hl
    have measured : d.program.Measures _ size none := grows.sizeOf? hsize
    exact ⟨size, .type shape measured (ht.takes hp measured), finished.measures_pos measured, rfl⟩
  · rename_i operand shape
    obtain ⟨o, size, ho, amounts, rfl⟩ := Lower.lower_sizeofExpr hu shape hl
    have regular : operand.Regular := hn.part (by rw [shape]; exact List.mem_singleton_self _)
    have lowered : lowerExpr g operand c = .ok (o, c') := Lower.bind_eq_ok.2 ⟨.expr o, c', ho, rfl⟩
    obtain ⟨-, -, admits⟩ :=
      (faithful_lowerExpr g operand regular).follows hc (fun _ _ => trivial) lowered
    have admits := admits.here
    have amounts := amounts.mono grows
    rw [← Context.arrayLength?_eq grows admits.reads] at amounts
    obtain ⟨occupies, positive⟩ := (admits.types hd).occupies finished hp ht amounts
    exact ⟨size, .expr shape ⟨c, c', d, hc, ho, hd, finished, rfl⟩ occupies, positive, rfl⟩
  · cases hs

/-! ## Sizes as words -/

namespace Word
variable {size : Nat}

/-- The word `w` says `size`, and `malloc` takes it as a request for so many bytes. -/
structure Requests (w : Word) (size : Nat) : Prop where
  value : w.toInt = size
  malloc : ∀ loc m, Engine.malloc w loc m = match m.memory.allocate size with
    | .ok (a, memory) => .ok () { m.note (.changed (.granted a size)) with
        memory
        heap := if a ∈ m.heap then m.heap else a :: m.heap
        pending := some (.pointer Ty.voidPointer a) }
    | .error e => .error (.fault (.memory e loc)) m

/-- The word `w` is negative instead of `size`, and `malloc` refuses it. -/
structure Wraps (w : Word) (size : Nat) : Prop where
  value : w.toInt = size - 4294967296
  malloc : ∀ loc m, Engine.malloc w loc m = .error (.fault (.invalidSize w loc)) m

theorem requests_ofNat (pos : 0 < size) (small : size < 2147483648) :
    Requests (Int32.ofNat size) size := by
  have value : (Int32.ofNat size).toInt = size := Int32.toInt_ofNat_of_lt small
  refine ⟨value, fun loc m => ?_⟩
  have positive : ¬ (Int32.ofNat size).toInt ≤ 0 := by omega
  have natural : (Int32.ofNat size).toInt.toNat = size := by omega
  simp only [Engine.malloc, positive, if_false, natural]
  cases ha : m.memory.allocate size with
  | error e =>
    refine Run.bind_eq_error.2 (.inl ?_)
    simp [Run.allocate, ha]
  | ok r =>
    obtain ⟨a, memory⟩ := r
    exact Run.bind_eq_ok.2 ⟨a, { m with memory }, Run.allocate_eq_ok.2 ⟨memory, ha, rfl⟩, rfl⟩

theorem wraps_ofNat (large : 2147483648 ≤ size) (small : size < 4294967296) :
    Wraps (Int32.ofNat size) size := by
  have value : (Int32.ofNat size).toInt = size - 4294967296 := by
    rw [Int32.toInt_ofNat']
    simp only [Int.bmod, Int32.size]
    split <;> omega
  refine ⟨value, fun loc m => ?_⟩
  have negative : (Int32.ofNat size).toInt ≤ 0 := by omega
  simp only [Engine.malloc, negative, if_true]
  rfl

end Word

/-! ## Where sizes are used -/

/-- The type that an operation goes over, and the bytes from one element to the next. -/
def Operation.stride? : Operation → Option (Ty × Nat)
  | index pointer _ scale | pointerOffset pointer _ scale _ | pointerDiff pointer _ scale =>
    pointer.ty.pointee.map fun element => (element, scale)
  | _ => none

/-- Pointers go over what `sizeof` says of the type that they point to. -/
theorem Expr.Typed.stride {d : Context} {k : Option FunctionId} {e : Expr} (h : e.Typed d k) {ty : Ty}
    {n : Nat} (hs : e.op.stride? = some (ty, n)) : d.program.sizeOf? ty = some n := by
  have agrees : ∀ {pointer : Ty} {scale : Nat}, d.program.Strides pointer scale →
      pointer.pointee.map (fun element => (element, scale)) = some (ty, n) →
      d.program.sizeOf? ty = some n := by
    rintro pointer scale ⟨element, he, hn⟩ hs
    rw [he] at hs
    cases hs
    exact hn
  cases h with
  | index _ _ _ _ strides => exact agrees strides hs
  | pointerOffset _ _ _ _ strides => exact agrees strides hs
  | pointerDiff _ _ _ _ strides => exact agrees strides hs
  | const | str | var | member | deref | addressOf | unary | binary | call | assign | arrayAssign =>
    cases hs

/-- A variable has a region that is as large as the variable. -/
theorem Machine.Inside.region {c : Context} {k : Option FunctionId} {m : Machine} (h : m.Inside c k)
    {id : SymbolId} {a : Address} (ha : m.frames.address? id = some a) :
    (a, (c.program.symbol id).size) ∈ m.memory.slots := by
  obtain ⟨b, hb⟩ := binds_of_address ha
  have slot := h.lawful.owned.sized b hb.mem
  rw [h.sized b hb.mem, hb.symbol] at slot
  cases ha.symm.trans hb.address
  exact slot

namespace Session

/-- **`sizeof` is exact below half of the address space.**  In a program that has been compiled,
`sizeof` is lowered to the word for the number of bytes that its operand takes, which is never none.
A variable has a region of so many bytes, and pointers go over so many bytes from one element to the
next.  If the operand takes less than half of the address space, then the word says this number,
and `malloc` asks for so many bytes.  If it takes half of the address space or more, but not all of it
(less than 2^32 bytes), then the word is too small by 2^32, thus negative, and no call of `malloc` with
it succeeds.  This holds whatever the capacity of memory. -/
theorem sizeof_exact_below_half {s t : Session} {source : String} (h : s.compile source = .ok t) :
    (∀ {n : Node} {e : Expr}, n.Regular → n.production = .unary → n.shape.isSizeof = true →
      t.env.program.Lowers t.env.grammar n e → ∃ size, t.env.program.Measured t.env.grammar n size ∧
        0 < size ∧ e = .mk (.const (.ofNat size)) Ty.int n.start ∧
        (size < 2147483648 → Word.Requests (.ofNat size) size) ∧
        (2147483648 ≤ size → size < 4294967296 → Word.Wraps (.ofNat size) size)) ∧
    (∀ {e : Expr} {ty : Ty} {stride : Nat}, t.env.program.Holds t.env.grammar e →
      e.op.stride? = some (ty, stride) → t.env.program.sizeOf? ty = some stride) ∧
    ∀ {config : Config} {u : Session} {k : Option FunctionId} {m : Machine},
      u.Reachable config → u.env = t.env → u.Running k m →
      (∀ {id a}, m.frames.address? id = some a →
        (a, (t.env.program.symbol id).size) ∈ m.memory.slots) ∧
      ∀ {size fuel id f at_ loc q m'}, size < 4294967296 → t.env.program.functions[id]? = some f →
        f.isBuiltin = true → f.name = "malloc" →
        (engine t.env fuel).call t.env id [.mk (.const (.ofNat size)) Ty.int at_] loc m =
          .ok (some q) m' →
        size < 2147483648 ∧ q.address ∈ m'.heap ∧ (q.address, size) ∈ m'.memory.slots := by
  obtain ⟨p, hp, rfl⟩ := compile_eq_ok.1 h
  have laid := Program.ofSource_laidOut hp
  have tidy := Program.ofSource_tidy hp
  obtain ⟨c, hr⟩ := runs_of_compile h
  refine ⟨fun hn hu hs hl => ?_, fun he hs => ?_, fun hreach henv hrun => ?_⟩
  · obtain ⟨size, measured, pos, rfl⟩ := hl.measured laid tidy hn hu hs
    exact ⟨size, measured, pos, rfl, Word.requests_ofNat pos, Word.wraps_ofNat⟩
  · rw [hr.program] at he ⊢
    obtain ⟨k, typed⟩ := he.typed hr.finished
    exact typed.stride hs
  · have inside := Running.inside (henv ▸ hr) hreach.rested hrun
    refine ⟨fun ha => ?_, fun {size fuel id f at_ loc q m'} hlt hf hb hm hx => ?_⟩
    · rw [hr.program]
      exact inside.region ha
    · have allocator : (c.program.function id).IsAllocator c.program := by
        rw [hr.program] at hf
        rw [Program.function_eq hf]
        exact (hr.finished.tables.functions hf).malloc hb hm
      rw [← hr.program] at allocator
      obtain ⟨pos, heap, slot⟩ :=
        (engine_folds _ fuel).call_allocator allocator inside.lawful.owned.apart hx
      rw [Word.toNat_ofNat_of_pos hlt pos] at slot
      refine ⟨?_, heap, slot⟩
      -- A size in the upper half is a negative number, and such a request is refused.
      by_contra large
      have negative := (Word.wraps_ofNat (Nat.not_lt.1 large) hlt).value
      omega

/-- An array of structures, and `sizeof` of it as a tree. -/
def tables : String :=
  "struct Pair \x7b char tag; int cells[3]; \x7d; struct Pair table[3]; "
    ++ "int main() \x7b return sizeof table; \x7d"

def sizeofTable : Node :=
  .mk ⟨.unary, .nowhere⟩ (.sizeofExpr (.mk ⟨.identifier, .nowhere⟩ (.identifier "table")))

theorem sizeofTable_lowers {p : Program} (hp : Program.ofSource .full tables = .ok p) :
    p.Lowers .full sizeofTable (.mk (.const 39) Ty.int .nowhere) := by
  have run : (Program.ofSource .full tables).toOption.map (fun p => (p.global? "table",
      (p.symbol 6).ty, (p.symbol 6).array.map ArraySpec.length, p.sizeOf? ⟨.struct "Pair", 0⟩)) =
        some (some 6, ⟨.struct "Pair", 1⟩, some 3, some 13) := by
    rw [Program.ofSource_of_toList tables
      (toList_append_of_eq (String.ofList_eq.1 rfl) (String.ofList_eq.1 rfl))]
    decide +kernel
  obtain ⟨q, hq, facts⟩ := Except.exists_ok_of_map run
  obtain rfl := Except.ok.inj (hp.symm.trans hq)
  simp only [Prod.mk.injEq] at facts
  obtain ⟨found, ty, length, size⟩ := facts
  obtain ⟨root, l, c, hr, hl, rfl⟩ := Program.ofSource_eq_ok hp
  have finished := lower_finished hr hl
  have seen : c.find? "table" = some 6 := by
    rw [Context.find?, finished.function]
    exact found
  have table : lower .full (.mk ⟨.identifier, .nowhere⟩ (.identifier "table")) c =
      .ok (.expr (.mk (.var 6) ⟨.struct "Pair", 1⟩ .nowhere), c) := by
    rw [lower_eq]
    refine Lower.bind_eq_ok.2 ⟨6, c, Lower.bind_eq_ok.2 ⟨_, c, rfl, ?_⟩, ?_⟩
    · exact Lower.require_eq_ok.2 ⟨seen, rfl⟩
    · exact Lower.bind_eq_ok.2 ⟨_, c, Lower.ask_eq_ok.2 ⟨ty, rfl⟩, rfl⟩
  refine ⟨c, c, c, finished.toSound, ?_, finished.leads, finished, rfl⟩
  rw [lower_eq]
  have operand : lowerExpr .full (.mk ⟨.identifier, .nowhere⟩ (.identifier "table")) c = _ :=
    Lower.bind_eq_ok.2 ⟨_, c, table, rfl⟩
  refine Lower.bind_eq_ok.2 ⟨39, c, Lower.bind_eq_ok.2 ⟨_, c, operand, ?_⟩, rfl⟩
  refine Lower.bind_eq_ok.2 ⟨some 3, c, Lower.ask_eq_ok.2 ⟨length, rfl⟩, ?_⟩
  refine Lower.bind_eq_ok.2 ⟨13, c, Lower.bind_eq_ok.2 ⟨_, c, rfl, ?_⟩, rfl⟩
  exact Lower.require_eq_ok.2 ⟨size, rfl⟩

/-- The array of `tables` takes 39 bytes. -/
theorem sizeof_exact_below_half_tables : ∃ t, (new .standard).compile tables = .ok t ∧
    t.env.program.Lowers .full sizeofTable (.mk (.const 39) Ty.int .nowhere) ∧
    ∃ size, t.env.program.Measured .full sizeofTable size ∧ 0 < size ∧
      (39 : Word) = Int32.ofNat size ∧ (size < 2147483648 → Word.Requests 39 size) := by
  have run : ((new .standard).compile tables).toOption.isSome = true := by
    rw [compile_of_toList tables
      (toList_append_of_eq (String.ofList_eq.1 rfl) (String.ofList_eq.1 rfl))]
    decide +kernel
  obtain ⟨t, ht⟩ := Option.isSome_iff_exists.1 run
  replace ht := Except.eq_ok_of_toOption ht
  obtain ⟨p, hp, rfl⟩ := compile_eq_ok.1 ht
  have lowers := sizeofTable_lowers hp
  have regular : sizeofTable.Regular := .mk trivial fun m hm => by
    obtain rfl := List.mem_singleton.1 hm
    exact .mk trivial fun _ hm => by cases hm
  obtain ⟨size, measured, pos, word, requests, -⟩ :=
    (sizeof_exact_below_half ht).1 regular rfl rfl lowers
  have word : (39 : Word) = Int32.ofNat size := Operation.const.inj (Expr.mk.inj word).1
  exact ⟨_, ht, lowers, size, measured, pos, word, word ▸ requests⟩

/-- A structure that takes more than half of the address space. -/
def huge : String :=
  "struct Huge \x7b int cells[1000000000]; \x7d; int size() \x7b return sizeof(struct Huge); \x7d "
    ++ "int main() \x7b struct Huge *p; p = malloc(sizeof(struct Huge)); return 0; \x7d"

/-- **`sizeof` can be negative**: a structure of four thousand million bytes has the size -294967296,
which `malloc` refuses. -/
theorem sizeof_negative_huge : ∃ t, (new .standard).compile huge = .ok t ∧
    (t.env.program.layout? "Huge").map Layout.size = some 4000000000 ∧
    (t.callWithin 100 "size" []).1 = .ok (some (-294967296)) ∧
    ∃ loc, (t.callWithin 100 "main" []).1 = .error (.fault (.invalidSize (-294967296) loc)) := by
  have run : ((new .standard).compile huge).toOption.map (fun t =>
      ((t.env.program.layout? "Huge").map Layout.size, (t.callWithin 100 "size" []).1.toOption,
        match (t.callWithin 100 "main" []).1 with
        | .error (.fault (.invalidSize w _)) => some w
        | _ => none)) =
      some (some 4000000000, some (some (-294967296)), some (-294967296)) := by
    rw [compile_of_toList huge
      (toList_append_of_eq (String.ofList_eq.1 rfl) (String.ofList_eq.1 rfl))]
    decide +kernel
  obtain ⟨t, compiled, answers⟩ := Except.exists_ok_of_map run
  simp only [Prod.mk.injEq] at answers
  obtain ⟨size, negative, refused⟩ := answers
  refine ⟨t, compiled, size, Except.eq_ok_of_toOption negative, ?_⟩
  · split at refused
    · rename_i w loc hx
      cases refused
      exact ⟨loc, hx⟩
    · cases refused

end Session

end MiniC
