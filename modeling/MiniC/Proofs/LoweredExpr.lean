/-
  What expressions are lowered to.

  Each rule of lowering that makes an expression makes a well-typed one, and can be applied again
  over a frozen program with the same result (`faithful_lowerExpr`).
-/
import MiniC.Proofs.Faithful
import MiniC.Proofs.Regular

namespace MiniC

namespace Context
variable {c c' d : Context}

/-- What is known of the expression `e` that the node `n` has been lowered to. -/
structure Admits (c : Context) (n : Node) (e : Expr) : Prop where
  types : c.Types e
  reads : ∀ id, e.op = .var id → c.program.HasSymbol id
  array : (c.arrayLength? e).isSome → e.ty.isPointer = true
  measures : ∀ name, n.shape = .sizeofType (.struct name) 0 → ∃ l, c.program.layout? name = some l ∧
    l.name = name ∧ e = .mk (.const (Int32.ofNat l.size)) Ty.int n.start

theorem arrayLength?_eq {e : Expr} (h : c.program.Extends d.program)
    (hr : ∀ id, e.op = .var id → c.program.HasSymbol id) : d.arrayLength? e = c.arrayLength? e := by
  unfold arrayLength?
  split
  · rename_i id ho
    rw [h.symbol (hr id ho)]
  · rfl
  · rfl

theorem Leads.sees_of_local {f : FunctionContext} {id : SymbolId} (h : c.Leads d) (hc : c.Ranged)
    (hf : c.function = some f) (hid : id ∈ (c.program.function f.id).locals) :
    d.Sees c.currentFunction? id := by
  have hcont := h.completes.extends_.function (hc.function hf).1
  refine .inr ⟨f.id, by rw [currentFunction?, hf]; rfl, hcont.locals.subset hid⟩

theorem local?_spec (hc : c.Ranged) {name : String} {id : SymbolId} (h : c.local? name = some id) :
    ∃ f, c.function = some f ∧ id ∈ (c.program.function f.id).locals := by
  obtain ⟨f, hf, hs⟩ := Option.bind_eq_some_iff.1 h
  obtain ⟨scope, hmem, hl⟩ := List.exists_of_findSome?_eq_some hs
  refine ⟨f, hf, (hc.function hf).2.2 scope hmem (name, id) ?_⟩
  obtain ⟨l₁, l₂, rfl, -⟩ := List.lookup_eq_some_iff.1 hl
  simp

/-- There is something that lowering could arrive at: the program with the structure under way. -/
theorem Mapped.exists_leads (hc : c.Mapped) : ∃ d, c.Leads d := by
  cases hs : c.struct with
  | none => exact ⟨c, ⟨⟨.refl _, fun s h => by simp [hs] at h⟩, id⟩⟩
  | some s =>
    refine ⟨{ c with program := (c.program.addStruct ⟨s.name, s.members, s.nextOffset⟩).2 },
      ⟨⟨Program.extends_addStruct hc.maps (hc.fresh hs), fun s' hs' => ?_⟩, id⟩⟩
    cases hs.symm.trans hs'
    exact Option.isSome_of_mem (Program.struct?_addStruct ..)

/-- An array is used at the type of a pointer. -/
theorem Sound.isPointer_of_isArray {g : Grammar} (hc : c.Sound g) {id : SymbolId}
    (hid : c.program.HasSymbol id) (ha : (c.program.symbol id).isArray = true) :
    (c.program.symbol id).ty.isPointer = true := by
  obtain ⟨d, hd⟩ := hc.ranged.exists_leads
  have hsym := Array.getElem?_eq_getElem hid
  rw [Program.symbol_eq hsym] at ha ⊢
  obtain ⟨spec, hspec⟩ := Option.isSome_iff_exists.1 ha
  exact (((hc.program hd).symbols hsym).array spec hspec).1

/-- The symbol of a name is in the tables and can be named whatever lowering arrives at. -/
theorem find?_spec (hc : c.Ranged) {name : String} {id : SymbolId} (h : c.find? name = some id) :
    c.program.HasSymbol id ∧ ∀ {d}, c.Leads d → d.Sees c.currentFunction? id := by
  rw [find?_eq, Option.or_eq_some_iff] at h
  rcases h with h | ⟨-, h⟩
  · obtain ⟨f, hf, hid⟩ := local?_spec hc h
    have hfun := Array.getElem?_eq_getElem (hc.function hf).1
    refine ⟨(hc.locals hfun).1 id ?_, fun hd => hd.sees_of_local hc hf hid⟩
    rwa [Program.function_eq hfun] at hid
  · have hmem := hc.maps.global h
    exact ⟨hc.maps.known id hmem, fun hd => .inl (hd.completes.extends_.globals.subset hmem)⟩

theorem find?_agrees (hd : c.Agrees d) {name : String} {id : SymbolId}
    (h : c.find? name = some id) : d.find? name = some id := by
  rw [find?_eq, Option.or_eq_some_iff] at h ⊢
  rw [hd.local_]
  exact h.imp_right fun ⟨hl, hg⟩ => ⟨hl, hd.completes.extends_.global? hg⟩

/-- The invariant is kept where only string literals and array assignments are new. -/
theorem Sound.interns {g : Grammar} (h : c.Sound g) (hi : c.Interns c')
    (hs : c'.program.symbols = c.program.symbols)
    (hl : c'.program.structs = c.program.structs)
    (hn : c'.program.structNames = c.program.structNames) (hm : c'.program.Indexed)
    (hr : c'.Replayed g) : c'.Sound g where
  building := hi.frozen.trans h.building
  ranged := by
    have range : ∀ {id}, c.program.HasSymbol id → c'.program.HasSymbol id := by
      intro id hid
      rwa [Program.HasSymbol, hs]
    refine ⟨⟨hm, fun {s} hsc => ?_⟩, fun {i f} hfun => ?_, fun {f} hfc => ?_, fun {f} hfc => ?_⟩
    · rw [Program.struct?, hn]
      exact h.ranged.fresh (hi.struct ▸ hsc)
    · rw [hi.functions] at hfun
      exact ⟨fun id hid => range ((h.ranged.locals hfun).1 id hid),
        fun id hid => range ((h.ranged.locals hfun).2 id hid)⟩
    · rw [hi.function] at hfc
      rw [Program.function, hi.functions]
      exact h.ranged.function hfc
    · rw [hi.function] at hfc
      rw [Program.function, hi.functions]
      exact h.ranged.own hfc
  program hd := by
    have hp := h.program (hi.reaches.leads hd)
    rw [hi.current]
    exact ⟨fun hx => hp.symbols (hs ▸ hx), fun hx => hp.structs (hl ▸ hx),
      fun hx => hp.functions (hi.functions ▸ hx)⟩
  members hm _ hd := h.members (hi.struct ▸ hm) (hi.reaches.leads hd)
  filled hm := h.filled (hi.struct ▸ hm)
  replayed := hr

/-- What a type takes is never nothing. -/
theorem Sound.sizeOf?_pos {g : Grammar} (h : c.Sound g) {t : Ty} {n : Nat}
    (hn : c.program.sizeOf? t = some n) : 0 < n := by
  unfold Program.sizeOf? at hn
  split at hn
  · rename_i size hsize
    cases hn
    exact Ty.fixedSize?_pos hsize
  · split at hn
    · obtain ⟨l, hl, rfl⟩ := Option.map_eq_some_iff.1 hn
      obtain ⟨id, hid, rfl⟩ := Option.map_eq_some_iff.1 hl
      obtain ⟨d, hd⟩ := h.ranged.exists_leads
      exact ((h.program hd).structs (h.ranged.maps.layout hid).1).stored
    · cases hn

end Context

namespace Lower
variable {g : Grammar} {H : Context → Prop} {low : Lowering} {n : Node}
open Context

/-- What is known of what the node `n` has been lowered to. -/
def Yields (n : Node) (c : Context) (l : Lowered) : Prop := ∃ e, l = .expr e ∧ c.Admits n e

/-- The lowering of the expression `n` is faithful. -/
abbrev ExprFaithful (g : Grammar) (low : Lowering) (n : Node) : Prop :=
  Faithful g (fun _ => True) (expr low n) fun c e => c.Admits n e

theorem faithful_expr (h : ExprFaithful g low n) : Faithful g H (expr low n) fun c e => c.Admits n e :=
  h.mono (fun _ _ => trivial) fun _ _ h => h

theorem faithful_value (h : ExprFaithful g low n) :
    Faithful g H (value low n) fun c e => c.Admits n e ∧ e.ty.isVoid = false ∧
      ∀ {d}, c.Agrees d → expr low n d = .ok (e, d) := by
  refine (faithful_expr h).replayed.bind fun e => faithful_guard fun hv => faithful_pure fun c hc => ?_
  exact ⟨hc.2.1, by simpa using hv, hc.2.2⟩

/-- The expression of an operation that stands for no array, at a node that measures no type. -/
theorem faithful_expression {op : Operation} {ty : Ty} {s : Shape} (hs : n.shape = s)
    (hm : ∀ name, s ≠ .sizeofType (.struct name) 0)
    (ho : (∀ id, op ≠ .var id) ∧ ∀ object offset array, op ≠ .member object offset array)
    (h : ∀ c, H c → c.Types (.mk op ty n.start)) : Faithful g H (expression op ty n) (Yields n) := by
  refine faithful_pure fun c hc => ⟨_, rfl, h c hc, fun id he => absurd he (ho.1 id), fun ha => ?_,
    fun name he => absurd (hs.symm.trans he) (hm name)⟩
  cases op <;> simp_all [arrayLength?]

theorem faithful_malformed {R : Context → Lowered → Prop} : Faithful g H (malformed n) R :=
  faithful_fail

/-- The size of a type that has been found; that of a structure is of the layout with its name. -/
theorem faithful_sizeOf {ty : Ty} {loc : Location} :
    Faithful g H (sizeOf ty loc) fun c n => c.program.sizeOf? ty = some n ∧ 0 < n ∧
      ∀ name, ty = ⟨.struct name, 0⟩ →
        ∃ l, c.program.layout? name = some l ∧ l.name = name ∧ l.size = n := by
  refine faithful_found (fun hc _ hi hf => ⟨hi.extends_.sizeOf? hf, hc.sizeOf?_pos hf, ?_⟩)
    fun _ _ hd hf => hd.completes.extends_.sizeOf? hf
  rintro name rfl
  obtain ⟨l, hl, hsize⟩ := Option.map_eq_some_iff.1 hf
  obtain ⟨id, hid, rfl⟩ := Option.map_eq_some_iff.1 hl
  exact ⟨_, hi.extends_.layout? hl, (hc.ranged.maps.layout hid).2, hsize⟩

theorem faithful_arrayLength {e : Expr}
    (hH : ∀ {c}, H c → ∀ id, e.op = .var id → c.program.HasSymbol id) :
    Faithful g H (ask fun c => c.arrayLength? e) fun c o => c.arrayLength? e = o :=
  faithful_ask (fun _ hc hi => arrayLength?_eq hi.extends_ (hH hc))
    fun _ hc hd => arrayLength?_eq hd.completes.extends_ (hH hc)

/-! ## Literals and variables -/

theorem internString_of_frozen {c : Context} (hf : c.frozen = true) (text : String) (loc : Location) :
    internString text loc c = require (c.program.string? text) (.uncompiledString text) loc c := by
  change (if c.frozen = true then _ else _ : Lower StringId) c = _
  rw [if_pos hf]
  rfl

theorem internString_of_building {c : Context} (hf : c.frozen = false) (text : String)
    (loc : Location) : internString text loc c = .ok ((c.program.internString text).1,
      { c with program := (c.program.internString text).2 }) := by
  change (if c.frozen = true then _ else _ : Lower StringId) c = _
  rw [if_neg (by simp [hf])]
  rfl

/-- One more string literal does not reach the other tables. -/
theorem interns_internString {c : Context} (hc : c.Sound g) (text : String) :
    c.Interns { c with program := (c.program.internString text).2 } ∧
      Sound g { c with program := (c.program.internString text).2 } := by
  have grows := c.program.extends_internString text
  have maps := hc.ranged.maps.internString text
  obtain ⟨strings, stringIds, added⟩ := c.program.internString_strings text
  rw [added] at grows maps ⊢
  have hi : c.Interns { c with program := { c.program with strings, stringIds } } :=
    ⟨grows, rfl, rfl, rfl, rfl, id⟩
  exact ⟨hi, hc.interns hi rfl rfl rfl maps fun ha q hq =>
    hc.replayed ha q (hi.reaches.precedes q hq)⟩

theorem faithful_internString {text : String} {loc : Location} :
    Faithful g H (internString text loc) fun c id => ∀ {d}, c.Leads d → id < d.program.strings.size := by
  constructor
  · constructor
    intro c id c' hc hH hx
    rw [internString_of_building hc.building] at hx
    cases hx
    obtain ⟨hi, sound⟩ := interns_internString hc text
    refine ⟨hi, sound, fun k hk d hd => ?_⟩
    have grows := hk.extends_.trans hd.completes.extends_
    have there := grows.strings (sound.ranged.maps.string?_eq_some_iff.1 (Program.string?_internString ..))
    exact (Array.getElem?_eq_some_iff.1 there).1
  · intro c id c' hc hH hx d hd
    rw [internString_of_building hc.building] at hx
    cases hx
    rw [internString_of_frozen hd.frozen]
    have found := hd.completes.extends_.string? (Program.string?_internString c.program text)
    exact require_eq_ok.2 ⟨found, rfl⟩

theorem faithful_literal (hn : n.Regular) : Faithful g H (literal n) (Yields n) := by
  have fits := hn.fits
  unfold literal
  split
  · rename_i value hs
    exact faithful_expression hs (by simp) (by simp) fun c _ d _ => .const rfl nofun nofun
  · rename_i value hs
    rw [hs] at fits
    exact faithful_expression hs (by simp) (by simp) fun c _ d _ => .const rfl nofun fun _ => fits
  · rename_i text hs
    refine faithful_internString.bind fun id => ?_
    exact faithful_expression hs (by simp) (by simp) fun c hc d hd => .str (hc.2 hd)
  · rename_i hs
    exact faithful_expression hs (by simp) (by simp) fun c _ d _ => .const rfl nofun nofun
  · exact faithful_malformed

/-- What a name stands for can be named from there on. -/
theorem faithful_lookup {name : String} {loc : Location} :
    Faithful g H (lookup name loc) fun c id => c.program.HasSymbol id ∧
      (∀ {d}, c.Leads d → d.Sees c.currentFunction? id) ∧
      ((c.program.symbol id).isArray = true → (c.program.symbol id).ty.isPointer = true) := by
  refine faithful_found ?_ fun _ _ hd hf => find?_agrees hd hf
  intro c c' id hc _ hi hf
  obtain ⟨h1, h2⟩ := find?_spec hc.ranged hf
  refine ⟨hi.extends_.hasSymbol h1, fun hd => ?_, fun ha => ?_⟩
  · rw [hi.current]
    exact h2 (hi.reaches.leads hd)
  · rw [hi.extends_.symbol h1] at ha ⊢
    exact hc.isPointer_of_isArray h1 ha

theorem faithful_symbolType {id : SymbolId} (hH : ∀ {c}, H c → c.program.HasSymbol id) :
    Faithful g H (ask fun c => (c.program.symbol id).ty) fun c ty => (c.program.symbol id).ty = ty :=
  faithful_ask (fun _ hc hi => by rw [hi.extends_.symbol (hH hc)])
    fun _ hc hd => by rw [hd.completes.extends_.symbol (hH hc)]

theorem faithful_identifier : Faithful g H (identifier n) (Yields n) := by
  unfold identifier
  split
  · rename_i name hs
    refine faithful_lookup.bind fun id => (faithful_symbolType fun hc => hc.2.1).bind fun ty => ?_
    refine faithful_pure fun c hc => ?_
    obtain ⟨⟨-, hid, sees, array⟩, rfl⟩ := hc
    refine ⟨_, rfl, fun {d} hd => ?_, ?_, fun ha => array ?_, by simp [hs]⟩
    · rw [← hd.completes.extends_.symbol hid]
      exact .var (sees hd)
    · rintro _ ⟨⟩
      exact hid
    · simpa [arrayLength?, Symbol.isArray] using ha
  · exact faithful_malformed

/-! ## Operators -/

section
variable {s : Shape} (hs : n.shape = s) (hm : ∀ name, s ≠ .sizeofType (.struct name) 0)
include hs hm

theorem faithful_pointerOffset {pointer offset : Expr} {subtract : Bool}
    (hp : ∀ {c}, H c → c.Types pointer) (ho : ∀ {c}, H c → c.Types offset)
    (ha : offset.ty.isArithmetic = true) :
    Faithful g H (pointerOffset pointer offset subtract n) (Yields n) := by
  unfold pointerOffset
  split
  · exact faithful_malformed
  · rename_i pointee hpt
    refine faithful_guard fun _ => faithful_sizeOf.bind fun scale => ?_
    refine faithful_expression hs hm (by simp) fun c hc d hd => ?_
    exact .pointerOffset (hp hc.1 hd) (ho hc.1 hd) (Ty.isPointer_of_pointee hpt) ha
      ⟨pointee, hpt, hd.completes.extends_.sizeOf? hc.2.1⟩

theorem faithful_pointerDiff {left right : Expr} (hl : ∀ {c}, H c → c.Types left)
    (hr : ∀ {c}, H c → c.Types right) (he : left.ty = right.ty) :
    Faithful g H (pointerDiff left right n) (Yields n) := by
  unfold pointerDiff
  split
  · exact faithful_malformed
  · rename_i pointee hpt
    have hpl := Ty.isPointer_of_pointee hpt
    refine faithful_sizeOf.bind fun scale => ?_
    refine faithful_expression hs hm (by simp) fun c hc d hd => ?_
    exact .pointerDiff (hl hc.1 hd) (hr hc.1 hd) hpl (he ▸ hpl)
      ⟨pointee, hpt, hd.completes.extends_.sizeOf? hc.2.1⟩

theorem faithful_combine {op : BinaryOp} {left right : Expr} (hl : ∀ {c}, H c → c.Types left)
    (hr : ∀ {c}, H c → c.Types right) : Faithful g H (combine op left right n) (Yields n) := by
  have plain : left.ty.isScalar = true → right.ty.isScalar = true →
      Faithful g H (expression (.binary op left right) Ty.int n) (Yields n) := fun h h' =>
    faithful_expression hs hm (by simp) fun c hc d hd => .binary (hl hc hd) (hr hc hd) h h'
  have arithmetic : left.ty.isArithmetic = true ∧ right.ty.isArithmetic = true →
      Faithful g H (expression (.binary op left right) Ty.int n) (Yields n) := fun h =>
    plain (Ty.isScalar_of_isArithmetic h.1) (Ty.isScalar_of_isArithmetic h.2)
  unfold combine
  cases op with
  | add =>
    refine faithful_ite arithmetic fun _ => faithful_ite (fun h => ?_) fun _ =>
      faithful_ite (fun h => ?_) fun _ => faithful_fail
    · exact faithful_pointerOffset hs hm hl hr h.2
    · exact faithful_pointerOffset hs hm hr hl h.1
  | sub =>
    refine faithful_ite arithmetic fun _ => faithful_ite (fun h => ?_) fun _ =>
      faithful_ite (fun h => ?_) fun _ => faithful_fail
    · exact faithful_pointerOffset hs hm hl hr h.2
    · exact faithful_pointerDiff hs hm hl hr h.2
  | mul | div | mod => exact faithful_ite arithmetic fun _ => faithful_fail
  | eq | ne | lt | le | gt | ge | and | or =>
    exact faithful_ite (fun h => plain h.1 h.2) fun _ => faithful_fail

end

theorem faithful_binary (hp : ∀ m ∈ n.shape.parts, ExprFaithful g low m) :
    Faithful g H (binary low n) (Yields n) := by
  unfold binary
  split
  · rename_i op left right hs
    rw [hs] at hp
    refine (faithful_value (hp left (by simp [Shape.parts]))).bind fun l => ?_
    refine (faithful_value (hp right (by simp [Shape.parts]))).bind fun r => ?_
    exact faithful_combine hs (by simp) (fun hc => hc.1.2.1.types) fun hc => hc.2.1.types
  · exact faithful_malformed

theorem faithful_unaryOp {op : UnaryOp} {operand : Node} (hs : n.shape = .unary op operand)
    (hp : ExprFaithful g low operand) : Faithful g H (unaryOp low op operand n) (Yields n) := by
  refine (faithful_value hp).bind fun e => faithful_guard fun ha => ?_
  refine faithful_expression hs (by simp) (by simp) fun c hc d hd => .unary (hc.2.1.types hd) ?_
  cases op with
  | neg => exact Ty.isScalar_of_isArithmetic (by simpa using ha)
  | not => simpa using ha

theorem faithful_deref {operand : Node} (hs : n.shape = .deref operand)
    (hp : ExprFaithful g low operand) : Faithful g H (deref low operand n) (Yields n) := by
  refine (faithful_value hp).bind fun e => faithful_require_bind fun pointee he => ?_
  exact faithful_expression hs (by simp) (by simp) fun c hc d hd => .deref (hc.2.1.types hd) he

theorem resolveType_eq_ok {name : String} {stars : Nat} {loc : Location} {c c' : Context} {t : Ty} :
    resolveType (.struct name) stars loc c = .ok (t, c') ↔ ⟨.struct name, stars⟩ = t ∧ c = c' ∧
      if c.struct.any fun s => s.name = name then stars ≠ 0 else (c.program.struct? name).isSome := by
  simp only [resolveType, bind_eq_ok, ask_eq_ok]
  constructor
  · rintro ⟨b, _, ⟨hb, rfl⟩, k, _, ⟨hk, rfl⟩, h⟩
    by_cases hz : stars = 0 <;> cases b <;> cases k <;> simp [hz] at h <;>
      obtain ⟨rfl, rfl⟩ := h <;> simp [hb, hk, hz]
  · rintro ⟨rfl, rfl, h⟩
    refine ⟨_, _, ⟨rfl, rfl⟩, _, _, ⟨rfl, rfl⟩, ?_⟩
    cases hb : c.struct.any fun s => s.name = name <;> simp_all

/-- A type that has been resolved is known whatever lowering arrives at. -/
theorem faithful_resolveType {base : Base} {stars : Nat} {loc : Location} :
    Faithful g H (resolveType base stars loc) fun c t => t = ⟨base, stars⟩ ∧
      ∀ {q}, c.Completes q → t.Known q := by
  cases base with
  | int | char | void => exact faithful_pure fun _ _ => ⟨rfl, fun _ => nofun⟩
  | struct name =>
    have complete : ∀ {c t c' q}, resolveType (.struct name) stars loc c = .ok (t, c') →
        c.Completes q → (q.struct? name).isSome := by
      intro c t c' q hx hq
      obtain ⟨-, -, h⟩ := resolveType_eq_ok.1 hx
      split at h
      · rename_i hb
        obtain ⟨s, hs, hn⟩ := (Option.any_eq_true ..).1 hb
        simp only [decide_eq_true_eq] at hn
        exact hn ▸ hq.struct s hs
      · exact hq.extends_.struct?_isSome h
    constructor
    · constructor
      intro c t c' hc hH hx
      obtain ⟨rfl, rfl, -⟩ := resolveType_eq_ok.1 hx
      refine ⟨refl c, hc, fun k hk => ⟨rfl, fun {q} hq other ho => ?_⟩⟩
      cases ho
      exact complete hx (hk.reaches.precedes q hq)
    · intro c t c' hc hH hx d hd
      obtain ⟨rfl, rfl, -⟩ := resolveType_eq_ok.1 hx
      refine resolveType_eq_ok.2 ⟨rfl, rfl, ?_⟩
      rw [hd.struct]
      exact complete hx hd.completes

theorem faithful_sizeofExpr {operand : Node} (hp : ExprFaithful g low operand) :
    Faithful g H (sizeofExpr low operand n) fun _ _ => True := by
  refine (faithful_expr hp).bind fun e => ?_
  refine (faithful_arrayLength fun hc => hc.2.reads).bind fun o => ?_
  split
  · split
    · exact faithful_fail
    · exact faithful_sizeOf.bind fun _ => faithful_pure fun _ _ => trivial
  · exact faithful_sizeOf.mono (fun _ h => h) fun _ _ _ => trivial

theorem faithful_addressOf {operand : Node} (hs : n.shape = .addressOf operand)
    (hp : ExprFaithful g low operand) : Faithful g H (addressOf low operand n) (Yields n) := by
  refine (faithful_expr hp).bind fun e => faithful_guard fun hplace => ?_
  refine (faithful_arrayLength fun hc => hc.2.reads).bind fun o => ?_
  refine faithful_expression hs (by simp) (by simp) fun c hc d hd => ?_
  obtain ⟨⟨-, he⟩, rfl⟩ := hc
  refine .addressOf (he.types hd) (by simpa using hplace) ?_ ?_ <;> split
  · exact he.array ‹_›
  · exact Ty.isPointer_pointer _
  · rfl
  · rfl

theorem faithful_unary (hp : ∀ m ∈ n.shape.parts, ExprFaithful g low m) :
    Faithful g H (unary low n) (Yields n) := by
  have constant : ∀ (size : Nat) {d : Context} {k : Option FunctionId},
      (Expr.mk (.const (.ofNat size)) .int n.start).Typed d k :=
    fun _ => .const rfl (by rintro _ ⟨⟩) (by rintro ⟨⟩)
  unfold unary
  split <;> rename_i hs <;> simp only [hs, Shape.parts, List.mem_singleton, forall_eq] at hp
  · exact faithful_unaryOp hs hp
  · exact faithful_deref hs hp
  · exact faithful_addressOf hs hp
  · rename_i base stars
    refine faithful_resolveType.bind fun ty => faithful_sizeOf.bind fun size => ?_
    refine faithful_pure fun c hc => ⟨_, rfl, fun _ => constant size, by rintro _ ⟨⟩, by rintro ⟨⟩,
      fun name he => ?_⟩
    obtain ⟨⟨-, rfl, -⟩, -, -, measured⟩ := hc
    rw [hs] at he
    cases he
    obtain ⟨l, hl, hname, rfl⟩ := measured name rfl
    exact ⟨l, hl, hname, rfl⟩
  · refine (faithful_sizeofExpr hp).bind fun size => ?_
    exact faithful_expression hs (by simp) (by simp) fun _ _ _ _ => constant size
  · exact faithful_malformed

/-! ## Subscripts and members -/

theorem faithful_subscript {left right : Expr} {b i : Node} (hs : n.shape = .index b i)
    (hl : ∀ {c}, H c → c.Types left) (hr : ∀ {c}, H c → c.Types right) :
    Faithful g H (subscript left right n) (Yields n) := by
  unfold subscript
  extract_lets swapped base index checked
  -- Whichever side of the bracket they come from, the array and the number are well typed.
  have hb : ∀ {c}, H c → c.Types base := by
    intro c hc
    unfold base
    split
    · exact hr hc
    · exact hl hc
  have hi : ∀ {c}, H c → c.Types index := by
    intro c hc
    unfold index
    split
    · exact hl hc
    · exact hr hc
  refine faithful_guard fun hc => ?_
  unfold checked
  split
  · exact faithful_malformed
  · rename_i element he
    refine faithful_guard fun _ => faithful_sizeOf.bind fun scale => ?_
    refine faithful_expression hs (by simp) (by simp) fun c hc' d hd => ?_
    exact .index (hb hc'.1 hd) (hi hc'.1 hd) he (by simpa using (not_or.1 hc).2)
      ⟨element, he, hd.completes.extends_.sizeOf? hc'.2.1⟩

theorem faithful_member {object : Expr} {field : String} {s : Shape} (hs : n.shape = s)
    (hm : ∀ name, s ≠ .sizeofType (.struct name) 0) (ho : ∀ {c}, H c → c.Types object) :
    Faithful g H (member object field n) (Yields n) := by
  refine faithful_require_bind fun name hname => ?_
  refine faithful_found_bind (P := fun c layout => c.program.layout? name = some layout ∧
    ∀ m ∈ layout.members, m.arrayLength.isSome → m.ty.isPointer = true) ?_ ?_ fun layout => ?_
  · intro c c' layout hc _ hi hl
    refine ⟨hi.extends_.layout? hl, fun m hmem => ?_⟩
    obtain ⟨d, hd⟩ := hc.ranged.exists_leads
    obtain ⟨id, hid, rfl⟩ := Option.map_eq_some_iff.1 hl
    exact (((hc.program hd).structs (hc.ranged.maps.layout hid).1).members m hmem).array
  · exact fun _ _ hd hl => hd.completes.extends_.layout? hl
  · refine faithful_require_bind fun m hmem => faithful_pure fun c hc => ?_
    obtain ⟨hc, hl, array⟩ := hc
    refine ⟨_, rfl, fun {d} hd => ?_, nofun, array m (List.mem_of_find?_eq_some hmem),
      fun name he => absurd (hs.symm.trans he) (hm name)⟩
    exact .member (ho hc hd) hname (hd.completes.extends_.layout? hl) hmem

theorem faithful_suffix (hp : ∀ m ∈ n.shape.parts, ExprFaithful g low m) :
    Faithful g H (suffix low n) (Yields n) := by
  unfold suffix
  split
  · rename_i base index hs
    rw [hs] at hp
    refine (faithful_value (hp base (by simp [Shape.parts]))).bind fun l => ?_
    refine (faithful_value (hp index (by simp [Shape.parts]))).bind fun r => ?_
    exact faithful_subscript hs (fun hc => hc.1.2.1.types) fun hc => hc.2.1.types
  · rename_i object field hs
    rw [hs] at hp
    refine (faithful_expr (hp object (by simp [Shape.parts]))).bind fun e => ?_
    exact faithful_member hs (by simp) fun hc => hc.2.types
  · rename_i pointer field hs
    rw [hs] at hp
    refine (faithful_value (hp pointer (by simp [Shape.parts]))).bind fun p => ?_
    split
    · rename_i pointee hpt
      refine faithful_ite (fun _ => ?_) fun _ => faithful_fail
      exact faithful_member hs (by simp) fun hc _ hd => .deref (hc.2.1.types hd) hpt
    · exact faithful_fail
  · exact faithful_malformed

/-! ## Calls -/

theorem forall₂_mem_left {α β : Type} {r : α → β → Prop} {as : List α} {bs : List β}
    (h : List.Forall₂ r as bs) {a : α} (ha : a ∈ as) : ∃ b ∈ bs, r a b := by
  induction h with
  | nil => simp at ha
  | cons hr _ ih =>
    rcases List.mem_cons.1 ha with rfl | ha
    · exact ⟨_, by simp, hr⟩
    · obtain ⟨b, hb, hab⟩ := ih ha
      exact ⟨b, by simp [hb], hab⟩

theorem forall₂_mem_right {α β : Type} {r : α → β → Prop} {as : List α} {bs : List β}
    (h : List.Forall₂ r as bs) {b : β} (hb : b ∈ bs) : ∃ a ∈ as, r a b :=
  forall₂_mem_left h.flip hb

/-- Arguments that have been checked against the types of parameters. -/
structure Checked (c : Context) (args : List Node) (es : List Expr) (types : List Ty) : Prop where
  admits : List.Forall₂ (fun n e => c.Admits n e) args es
  assignable : List.Forall₂ (fun (e : Expr) (t : Ty) => t.assignable e.ty = true) es types

theorem faithful_arguments {name : String} : ∀ {args : List Node} {types : List Ty} {i : Nat}
    {H : Context → Prop}, args.length = types.length → (∀ m ∈ args, ExprFaithful g low m) →
    Faithful g H (arguments low name i args types) fun c es => Checked c args es types
  | [], [], _, _, _, _ => by
    unfold arguments
    exact faithful_pure fun _ _ => ⟨.nil, .nil⟩
  | arg :: args, t :: types, i, H, hlen, hp => by
    unfold arguments
    refine (faithful_value (hp arg (by simp))).bind fun e => faithful_guard fun ha => ?_
    refine (faithful_arguments (by simpa using hlen) fun m hm => hp m (by simp [hm])).bind fun es => ?_
    refine faithful_pure fun c hc => ?_
    exact ⟨.cons hc.1.2.1 hc.2.admits, .cons (by simpa using ha) hc.2.assignable⟩

/-- What a call sees of the function that it calls. -/
theorem faithful_ask_bind {α β : Type} {f : Context → β} {k : β → Lower α} {P : Context → β → Prop}
    {R : Context → α → Prop} (onward : ∀ {c c'}, c.Sound g → H c → c.Interns c' → P c' (f c))
    (same : ∀ {c d}, c.Sound g → H c → c.Agrees d → k (f d) = k (f c))
    (hk : ∀ b, Faithful g (fun c => H c ∧ P c b) (k b) R) :
    Faithful g H (do let b ← ask f; k b) R where
  follows {c a c'} hc hH hx := by
    simp only [bind_eq_ok, ask_eq_ok] at hx
    obtain ⟨_, _, ⟨rfl, rfl⟩, hx⟩ := hx
    exact (hk _).follows hc (fun k hk => ⟨hH k hk, onward hc hH.here hk⟩) hx
  replays {c a c'} hc hH hx d hd := by
    simp only [bind_eq_ok, ask_eq_ok] at hx ⊢
    obtain ⟨_, _, ⟨rfl, rfl⟩, hx⟩ := hx
    have hH' : c.From Interns fun k => H k ∧ P k (f c) := fun k hk => ⟨hH k hk, onward hc hH.here hk⟩
    obtain ⟨hi, -, -⟩ := (hk _).follows hc hH' hx
    refine ⟨_, _, ⟨rfl, rfl⟩, ?_⟩
    rw [same hc hH.here (hi.agrees hd)]
    exact (hk _).replays hc hH' hx hd

theorem allocated?_congr {p q : Program} {f f' : Function} {args : List Node}
    (hb : f'.isBuiltin = f.isBuiltin) (hn : f'.name = f.name)
    (hs : ∀ n ∈ args, ∀ name, n.shape = .sizeofType (.struct name) 0 →
      q.struct? name = p.struct? name) : allocated? q f' args = allocated? p f args := by
  unfold allocated?
  cases args with
  | nil => rfl
  | cons n ns =>
    simp only [List.head?_cons, Option.map_some]
    split
    · rename_i name he
      rw [hb, hn, hs n (by simp) name (Option.some.inj he)]
    · rfl

/-- A call allocates a structure if it calls `malloc` and its first argument measures the structure. -/
theorem allocated?_eq_some {p : Program} {f : Function} {args : List Node} {s : StructId}
    (h : allocated? p f args = some s) : (f.isBuiltin = true ∧ f.name = "malloc") ∧
      ∃ n ns name, args = n :: ns ∧ n.shape = .sizeofType (.struct name) 0 ∧ p.struct? name = some s := by
  unfold allocated? at h
  split at h
  · rename_i name he
    split at h
    · obtain ⟨n, hn, hshape⟩ := Option.map_eq_some_iff.1 he
      obtain ⟨ns, rfl⟩ := List.head?_eq_some_iff.1 hn
      exact ⟨‹_›, n, ns, name, rfl, hshape, h⟩
    · cases h
  · cases h

/-- The function `f` under the number `id`, further on, with parameters that are in the tables. -/
structure Callable (id : FunctionId) (c : Context) (f : Function) : Prop where
  found : ∃ f', c.program.functions[id]? = some f' ∧ f.Continues f'
  params : ∀ p ∈ f.params, c.program.HasSymbol p

theorem faithful_parameterTypes {id : FunctionId} {f : Function} (hH : ∀ {c}, H c → Callable id c f) :
    Faithful g H (ask fun c => f.params.map fun p => (c.program.symbol p).ty) fun c types =>
      (f.params.map fun p => (c.program.symbol p).ty) = types :=
  faithful_ask
    (fun _ hc hi => List.map_congr_left fun p hp => by rw [hi.extends_.symbol ((hH hc).params p hp)])
    fun _ hc hd => List.map_congr_left fun p hp => by
      rw [hd.completes.extends_.symbol ((hH hc).params p hp)]

/-- What a call of `malloc` is given that allocates a structure. -/
theorem Checked.allocates {c d : Context} {f f' : Function} {args : List Node} {es : List Expr}
    {types : List Ty} (hes : Checked c args es types) (hf : f.Continues f') (hd : c.Leads d)
    {s : StructId} (h : allocated? c.program f args = some s) : d.program.Allocates f' es s := by
  obtain ⟨⟨hb, hn⟩, n, ns, name, rfl, hshape, hs⟩ := allocated?_eq_some h
  obtain ⟨e, es, he, -, rfl⟩ := List.forall₂_cons_left_iff.1 hes.admits
  obtain ⟨l, hl, hlname, rfl⟩ := he.measures name hshape
  have hlayout : d.program.layout s = l := by
    rw [Program.layout?, hs] at hl
    rw [hd.completes.extends_.layout hs]
    exact Option.some.inj hl
  refine ⟨hf.builtin.trans hb, hf.name.trans hn, ?_, n.start, ?_⟩ <;> rw [hlayout]
  · rw [hlname, hd.completes.extends_.struct? hs]
  · rfl

theorem Callable.typed {id : FunctionId} {c d : Context} {f : Function} {args : List Node}
    {es : List Expr} {allocates : Option StructId} {loc : Location} (h : Callable id c f)
    (hes : Checked c args es (f.params.map fun p => (c.program.symbol p).ty))
    (ha : allocated? c.program f args = allocates) (hd : c.Leads d) :
    (Expr.mk (.call id es allocates) f.result loc).Typed d c.currentFunction? := by
  obtain ⟨f', hf', hcont⟩ := h.found
  obtain ⟨f'', hf'', hcont'⟩ := hd.completes.extends_.functions hf'
  have hall := hcont.trans hcont'
  rw [← hall.result]
  refine .call hf'' (fun a ha => ?_) ?_ fun s hs => hes.allocates hall hd (ha.trans hs)
  · obtain ⟨m, -, hm⟩ := forall₂_mem_right hes.admits ha
    exact hm.types hd
  · have same : (f.params.map fun p => (d.program.symbol p).ty) =
        f.params.map fun p => (c.program.symbol p).ty :=
      List.map_congr_left fun p hp => by rw [hd.completes.extends_.symbol (h.params p hp)]
    rw [hall.params]
    exact List.forall₂_map_right_iff.1 (same ▸ hes.assignable)

theorem faithful_call (hp : ∀ m ∈ n.shape.parts, ExprFaithful g low m) :
    Faithful g H (call low n) (Yields n) := by
  unfold call
  split
  · rename_i name args hs
    rw [hs] at hp
    refine faithful_found_bind (P := fun c id => id < c.program.functions.size) ?_ ?_ fun id => ?_
    · intro c c' id hc _ hi hf
      obtain ⟨f', hf', -⟩ := hi.extends_.functions (hc.ranged.maps.function hf).1
      exact (Array.getElem?_eq_some_iff.1 hf').1
    · exact fun _ _ hd hf => hd.completes.extends_.function? hf
    refine faithful_ask_bind (P := Callable id) ?_ ?_ fun f => ?_
    · intro c c' hc hid hi
      have hfun := Array.getElem?_eq_getElem hid.2
      rw [Program.function_eq hfun]
      exact ⟨hi.extends_.functions hfun,
        fun p hpar => hi.extends_.hasSymbol ((hc.ranged.locals hfun).2 p hpar)⟩
    · intro c d hc hid hd
      have hcont := hd.completes.extends_.function hid.2
      simp only [hcont.params, hcont.result, allocated?, hcont.builtin, hcont.name]
    refine faithful_guard fun hmany => faithful_guard fun hfew => ?_
    refine (faithful_parameterTypes fun hc => hc.2).bind fun types => ?_
    have hlen : ∀ {c}, ((H c ∧ id < c.program.functions.size) ∧ Callable id c f) ∧
        (f.params.map fun p => (c.program.symbol p).ty) = types → args.length = types.length := by
      intro c hc
      rw [← hc.2, List.length_map]
      omega
    refine faithful_of_pre hlen fun hlen => (faithful_arguments hlen hp).bind fun es => ?_
    have struct : ∀ {c d : Context}, Checked c args es types → c.program.Extends d.program →
        allocated? d.program f args = allocated? c.program f args := by
      intro c d hes he
      refine allocated?_congr rfl rfl fun m hm name hname => ?_
      obtain ⟨e, -, hme⟩ := forall₂_mem_left hes.admits hm
      obtain ⟨l, hl, -, -⟩ := hme.measures name hname
      obtain ⟨id, hid, -⟩ := Option.map_eq_some_iff.1 hl
      rw [hid, he.struct? hid]
    refine (faithful_ask (R := fun c o => allocated? c.program f args = o)
      (fun _ hc hi => struct hc.2 hi.extends_)
      fun _ hc hd => struct hc.2 hd.completes.extends_).bind fun o => ?_
    refine faithful_expression hs (by simp) (by simp) fun c hc d hd => ?_
    obtain ⟨⟨⟨⟨-, hcall⟩, rfl⟩, hes⟩, ho⟩ := hc
    exact hcall.typed hes ho hd
  · exact faithful_malformed

/-! ## Assignments -/

/-- Values that have been checked against the type of an array's elements. -/
structure Initial (low : Lowering) (element : Ty) (values : List Node) (c : Context)
    (es : List Expr) : Prop where
  types : ∀ e ∈ es, c.Types e
  assignable : ∀ e ∈ es, element.assignable e.ty = true
  replays : ∀ {d}, c.Agrees d → List.Forall₂ (fun v e => expr low v d = .ok (e, d)) values es

theorem faithful_checkValues {element : Ty} {values : List Node}
    (hp : ∀ m ∈ values, ExprFaithful g low m) :
    Faithful g H (checkValues low element values) (Initial low element values) := by
  induction values generalizing H with
  | nil => exact faithful_pure fun _ _ => ⟨nofun, nofun, fun _ => .nil⟩
  | cons node nodes ih =>
    unfold checkValues
    refine (faithful_value (hp node (by simp))).bind fun e => faithful_guard fun ha => ?_
    refine (ih fun m hm => hp m (by simp [hm])).bind fun es => ?_
    refine faithful_pure fun c hc => ?_
    obtain ⟨⟨-, he, -, again⟩, hes⟩ := hc
    refine ⟨?_, ?_, fun hd => .cons (again hd) (hes.replays hd)⟩
    · simpa using ⟨he.types, hes.types⟩
    · simpa using ⟨by simpa using ha, hes.assignable⟩

/-- An array assignment is noted with what its values have been lowered to. -/
theorem faithful_noteAssigned {dst : Expr} {left : Node} {length : Nat} {values : List Node}
    {element : Ty} {es : List Expr} (hpt : dst.ty.pointee = some element)
    (hsc : element.isScalar = true) (hle : values.length ≤ length)
    (hH : ∀ {c}, H c → c.Admits left dst ∧ c.arrayLength? dst = some length ∧
      Initial (lower g) element values c es) :
    Faithful g H (do
      let e := Expr.arrayAssign dst values (← ask Context.visibleNames)
      change fun c => c.noteAssigned e es
      return e) fun c e => c.Types e ∧ ∃ scope, e = .arrayAssign dst values scope where
  follows {c a c'} hc hc' hx := by
    simp only [bind_eq_ok, ask_eq_ok, change_eq_ok, pure_eq_ok] at hx
    obtain ⟨_, _, ⟨rfl, rfl⟩, _, _, rfl, rfl, rfl⟩ := hx
    obtain ⟨hdst, hlen, hes⟩ := hH hc'.here
    have noted : c.noteAssigned (.arrayAssign dst values c.visibleNames) es = { c with
        assigned := fun b fs => (b = .arrayAssign dst values c.visibleNames ∧ fs = es) ∨
          c.assigned b fs } := by
      rw [noteAssigned, hc.building]
      rfl
    rw [noted]
    have hi : c.Interns { c with
        assigned := fun b fs => (b = .arrayAssign dst values c.visibleNames ∧ fs = es) ∨
          c.assigned b fs } := ⟨.refl _, rfl, rfl, rfl, rfl, .inr⟩
    refine ⟨hi, hc.interns hi rfl rfl rfl hc.ranged.maps ?_, fun k hk => ⟨fun {d} hd => ?_, _, rfl⟩⟩
    · rintro dst' values' scope ty loc es' (⟨he, rfl⟩ | ha) q hq f
      · cases he
        exact hes.replays (agrees_frozenIn (hi.reaches.precedes q hq) f)
      · exact hc.replayed ha q (hi.reaches.precedes q hq) f
    · have hcd : c.Leads d := (hi.reaches).leads (hk.reaches.leads hd)
      rw [hk.current]
      refine .arrayAssign (hdst.types hcd) ⟨length, ?_, hle⟩ hpt hsc ?_
        (fun e he => hes.types e he hcd) hes.assignable
      · rw [arrayLength?_eq hcd.completes.extends_ hdst.reads, hlen]
      · exact hd.assigned (hk.assigned (.inl ⟨rfl, rfl⟩))
  replays {c a c'} hc hc' hx d hd := by
    simp only [bind_eq_ok, ask_eq_ok, change_eq_ok, pure_eq_ok] at hx ⊢
    obtain ⟨_, _, ⟨rfl, rfl⟩, _, _, rfl, rfl, rfl⟩ := hx
    refine ⟨_, _, ⟨rfl, rfl⟩, (), _, rfl, ?_, ?_⟩
    · rw [hd.visible, noteAssigned, hc.building]
      rfl
    · rw [noteAssigned, hd.frozen]
      rfl

theorem faithful_arrayAssign {dst : Expr} {left init : Node} {length : Nat} {values : List Node}
    (hp : ∀ m ∈ values, ExprFaithful g (lower g) m)
    (hH : ∀ {c}, H c → c.Admits left dst ∧ c.arrayLength? dst = some length) :
    Faithful g H (arrayAssign (lower g) dst length values init) fun c e =>
      c.Types e ∧ ∃ scope, e = .arrayAssign dst values scope := by
  unfold arrayAssign
  refine faithful_guard fun hle => ?_
  split
  · exact faithful_fail
  · rename_i element hpt
    refine faithful_guard fun hsc => (faithful_checkValues hp).bind fun es => ?_
    exact faithful_noteAssigned hpt (by simpa using hsc) (Nat.le_of_not_lt hle) fun hc =>
      ⟨(hH hc.1).1, (hH hc.1).2, hc.2⟩

theorem faithful_scalarAssign {dst : Expr} {left right node : Node} (hp : ExprFaithful g low right)
    (hH : ∀ {c}, H c → c.Admits left dst) :
    Faithful g H (scalarAssign low dst left right node) fun c e =>
      c.Types e ∧ ∃ src, e = .assign dst src := by
  unfold scalarAssign
  refine faithful_guard fun hplace => ?_
  refine (faithful_arrayLength fun hc => (hH hc).reads).bind fun o => faithful_guard fun ho => ?_
  refine (faithful_value hp).bind fun src => faithful_guard fun ha => faithful_pure fun c hc => ?_
  obtain ⟨⟨hc, rfl⟩, hsrc, hvoid, -⟩ := hc
  refine ⟨fun {d} hd => ?_, src, rfl⟩
  refine .assign ((hH hc).types hd) (hsrc.types hd) (by simpa using hplace) ?_ hvoid
    (by simpa using ha)
  rw [arrayLength?_eq hd.completes.extends_ (hH hc).reads]
  simpa using ho

theorem faithful_assignment (hp : ∀ m ∈ n.shape.parts, ExprFaithful g (lower g) m)
    (deep : ∀ m ∈ n.shape.parts, ∀ k ∈ m.shape.parts, ExprFaithful g (lower g) k) :
    Faithful g H (assignment (lower g) n) (Yields n) := by
  unfold assignment
  split
  · rename_i left right hs
    rw [hs] at hp deep
    refine (faithful_expr (hp left (by simp [Shape.parts]))).bind fun dst => ?_
    refine (faithful_arrayLength fun hc => hc.2.reads).bind fun o => ?_
    split
    · rename_i values length hi
      have hv : ∀ m ∈ values, ExprFaithful g (lower g) m := fun m hm =>
        deep right (by simp [Shape.parts]) m (by rw [hi]; exact hm)
      refine (faithful_arrayAssign hv fun hc => ⟨hc.1.2, hc.2⟩).bind fun e => ?_
      refine faithful_pure fun c hc => ?_
      obtain ⟨-, ht, scope, rfl⟩ := hc
      exact ⟨_, rfl, ht, by rintro _ ⟨⟩, by rintro ⟨⟩, by simp [hs]⟩
    · refine (faithful_scalarAssign (hp right (by simp [Shape.parts])) fun hc => hc.1.2).bind fun e => ?_
      refine faithful_pure fun c hc => ?_
      obtain ⟨-, ht, src, rfl⟩ := hc
      exact ⟨_, rfl, ht, by rintro _ ⟨⟩, by rintro ⟨⟩, by simp [hs]⟩
  · exact faithful_malformed

/-! ## All expressions -/

/-- The lowering of statements and declarations, which comes to no expression. -/
def NoExpr (x : Lower Lowered) : Prop := ∀ c e c', x c ≠ .ok (.expr e, c')

theorem noExpr_fail {cause : CompileCause} {loc : Location} : NoExpr (fail cause loc) := by
  intro c e c' h
  exact fail_ne_ok h

theorem noExpr_action {a : Action} : NoExpr (action a n) := by
  intro c e c' h
  cases (pure_eq_ok.1 h).1

theorem noExpr_declared : NoExpr (pure .declared) := by
  intro c e c' h
  cases (pure_eq_ok.1 h).1

theorem noExpr_bind {α : Type} {x : Lower α} {f : α → Lower Lowered} (h : ∀ a, NoExpr (f a)) :
    NoExpr (x >>= f) := by
  intro c e c' hx
  obtain ⟨a, d, -, hf⟩ := bind_eq_ok.1 hx
  exact h a _ _ _ hf

theorem noExpr_guard {p : Prop} [Decidable p] {cause : CompileCause} {loc : Location}
    {x : PUnit → Lower Lowered} (hx : NoExpr (x ())) :
    NoExpr (if p then fail cause loc >>= x else x ()) := by
  rw [fail_bind]
  split
  · exact noExpr_fail
  · exact hx

theorem noExpr_declareParam {base : Base} {stars : Nat} {name : String} {loc : Location} :
    NoExpr (declareParam base stars name loc) :=
  noExpr_bind fun _ => noExpr_guard <| noExpr_guard <| noExpr_bind fun _ => noExpr_bind fun _ =>
    noExpr_declared

theorem noExpr_returns : NoExpr (returns low n) := by
  unfold returns
  split
  · refine noExpr_bind fun _ => noExpr_bind fun _ => ?_
    split
    · exact noExpr_guard noExpr_action
    · exact noExpr_guard <| noExpr_bind fun _ => noExpr_guard noExpr_action
  · exact noExpr_fail

theorem noExpr_param : NoExpr (param n) := by
  unfold param
  split
  · split
    · exact noExpr_declareParam
    · exact noExpr_declareParam
    · exact noExpr_fail
  · exact noExpr_fail

theorem noExpr_jump : NoExpr (jump n) := by
  unfold jump
  split
  · exact noExpr_bind fun _ => noExpr_guard noExpr_action
  · exact noExpr_bind fun _ => noExpr_guard noExpr_action
  · exact noExpr_fail

theorem noExpr_program : NoExpr (program low n) := by
  unfold program
  split
  · exact noExpr_bind fun _ => noExpr_declared
  · exact noExpr_fail

theorem noExpr_structDef : NoExpr (structDef low n) := by
  unfold structDef
  split
  · exact noExpr_guard <| noExpr_bind fun _ => noExpr_bind fun _ => noExpr_bind fun _ =>
      noExpr_declared
  · exact noExpr_fail

theorem noExpr_functionDef : NoExpr (functionDef low n) := by
  unfold functionDef
  split
  · exact noExpr_bind fun _ => noExpr_guard <| noExpr_bind fun _ => noExpr_bind fun _ =>
      noExpr_bind fun _ => noExpr_bind fun _ => noExpr_declared
  · exact noExpr_fail

theorem noExpr_varDec : NoExpr (varDec low n) := by
  unfold varDec
  split
  · exact noExpr_bind fun _ => noExpr_declared
  · exact noExpr_fail

theorem noExpr_block : NoExpr (block low n) := by
  unfold block
  split
  · exact noExpr_bind fun _ => noExpr_bind fun _ => noExpr_bind fun _ => noExpr_action
  · exact noExpr_fail

theorem noExpr_ifElse : NoExpr (ifElse low n) := by
  unfold ifElse
  split
  · exact noExpr_bind fun _ => noExpr_bind fun _ => noExpr_bind fun _ => noExpr_action
  · exact noExpr_fail

theorem noExpr_whileLoop : NoExpr (whileLoop low n) := by
  unfold whileLoop
  split
  · exact noExpr_bind fun _ => noExpr_bind fun _ => noExpr_action
  · exact noExpr_fail

theorem noExpr_doWhile : NoExpr (doWhile low n) := by
  unfold doWhile
  split
  · exact noExpr_bind fun _ => noExpr_bind fun _ => noExpr_action
  · exact noExpr_fail

theorem noExpr_forLoop : NoExpr (forLoop low n) := by
  unfold forLoop
  split
  · exact noExpr_bind fun _ => noExpr_bind fun _ => noExpr_bind fun _ => noExpr_bind fun _ =>
      noExpr_action
  · exact noExpr_fail

theorem noExpr_exprStatement : NoExpr (exprStatement low n) := by
  unfold exprStatement
  split
  · exact noExpr_bind fun _ => noExpr_action
  · exact noExpr_fail

/-- Statements and declarations come to no expression. -/
theorem noExpr_rule (h : n.production.isOwn = true) : NoExpr (rule low n) := by
  unfold rule
  cases hr : n.production with
  | program => exact noExpr_program
  | structDef => exact noExpr_structDef
  | functionDef => exact noExpr_functionDef
  | param => exact noExpr_param
  | varDec => exact noExpr_varDec
  | block => exact noExpr_block
  | ifElse => exact noExpr_ifElse
  | whileLoop => exact noExpr_whileLoop
  | doWhile => exact noExpr_doWhile
  | forLoop => exact noExpr_forLoop
  | returns => exact noExpr_returns
  | breaks | continues => exact noExpr_jump
  | empty => exact noExpr_action
  | exprStatement => exact noExpr_exprStatement
  | _ =>
    rw [hr] at h
    cases h

theorem noExpr_lowerStep (h : n.production.isOwn = true) : NoExpr (lowerStep g low n) := by
  unfold lowerStep
  split
  · exact noExpr_fail
  · split
    · exact noExpr_rule h
    · exact noExpr_fail

/-- The rule of every expression is faithful if the lowering of its parts is. -/
theorem faithful_rule (hn : n.Regular) (h : n.production.isOwn = false)
    (hp : ∀ m ∈ n.shape.parts, ExprFaithful g (lower g) m)
    (deep : ∀ m ∈ n.shape.parts, ∀ k ∈ m.shape.parts, ExprFaithful g (lower g) k) :
    Faithful g H (rule (lower g) n) (Yields n) := by
  unfold rule
  cases hr : n.production with
  | assignment => exact faithful_assignment hp deep
  | logicalOr | logicalAnd | equality | relational | additive | multiplicative =>
    exact faithful_binary hp
  | unary => exact faithful_unary hp
  | suffix => exact faithful_suffix hp
  | call => exact faithful_call hp
  | identifier => exact faithful_identifier
  | literal => exact faithful_literal hn
  | arrayInit | type | varItem | statement | expr | primary | other => exact faithful_fail
  | _ =>
    rw [hr] at h
    cases h

end Lower

/-- The rule of a node that is no statement is faithful if the lowering of its parts is. -/
theorem faithful_lowerStep {g : Grammar} {n : Node} (hn : n.Regular) (h : n.production.isOwn = false)
    (hp : ∀ m ∈ n.shape.parts, Lower.ExprFaithful g (lower g) m)
    (deep : ∀ m ∈ n.shape.parts, ∀ k ∈ m.shape.parts, Lower.ExprFaithful g (lower g) k) :
    Lower.Faithful g (fun _ => True) (lower g n) (Lower.Yields n) := by
  rcases lower_cases g n with hl | ⟨cause, hl⟩ <;> rw [hl]
  · exact Lower.faithful_rule hn h hp deep
  · exact Lower.faithful_fail

/-- **Lowering an expression is faithful**: it comes to a well-typed expression, and to the same one
again over any frozen program that lowering arrives at. -/
theorem faithful_lowerExpr (g : Grammar) (n : Node) (hn : n.Regular) :
    Lower.ExprFaithful g (lower g) n := by
  -- The parts are less high than the node, and so are the values that an assignment lists.
  have ih : ∀ m, m.height < n.height → m.Regular → Lower.ExprFaithful g (lower g) m :=
    fun m _ hm => faithful_lowerExpr g m hm
  have hp : ∀ m ∈ n.shape.parts, Lower.ExprFaithful g (lower g) m :=
    fun m hm => ih m (Node.height_lt_of_mem_parts hm) (hn.part hm)
  have deep : ∀ m ∈ n.shape.parts, ∀ k ∈ m.shape.parts, Lower.ExprFaithful g (lower g) k :=
    fun m hm k hk => ih k
      (Nat.lt_trans (Node.height_lt_of_mem_parts hk) (Node.height_lt_of_mem_parts hm))
      ((hn.part hm).part hk)
  cases h : n.production.isOwn with
  | false =>
    refine (faithful_lowerStep hn h hp deep).bind fun l => ?_
    cases l with
    | expr e =>
      refine Lower.faithful_pure fun c hc => ?_
      obtain ⟨-, e', he, hadm⟩ := hc
      cases he
      exact hadm
    | stmt s => exact Lower.faithful_fail
    | declared => exact Lower.faithful_fail
  | true =>
    have none : ∀ {c e c'}, ¬ Lower.expr (lower g) n c = .ok (e, c') := by
      intro c e c' hx
      obtain ⟨l, d, hl, hx⟩ := Lower.bind_eq_ok.1 hx
      cases l with
      | expr e =>
        rw [lower_eq] at hl
        exact Lower.noExpr_lowerStep h _ _ _ hl
      | stmt s => cases hx
      | declared => cases hx
    exact ⟨⟨fun _ _ hx => absurd hx none⟩, fun _ _ hx => absurd hx none⟩
termination_by n.height

/-- A node that is no statement comes to an expression. -/
theorem faithful_lower (g : Grammar) (n : Node) (hn : n.Regular) (h : n.production.isOwn = false) :
    Lower.Faithful g (fun _ => True) (lower g n) (Lower.Yields n) :=
  faithful_lowerStep hn h (fun m hm => faithful_lowerExpr g m (hn.part hm))
    fun _ hm k hk => faithful_lowerExpr g k ((hn.part hm).part hk)

end MiniC
