/-
  Code that is the same but for places and for the numbers of string literals.

  The places of a tree have no part in what it is lowered to, and neither have the string literals that
  are already in the table, but for the numbers that literals get.

  * `Expr.Same`: two expressions over two programs are the same when their places are taken away and
    their string literals are spelled out.
  * `Context.Beside`: contexts that are the same but for the table of strings and its map; over a frozen
    program the same texts are found.
  * `Lower.Matches`: a step in one context and a step in another one both fail, or both come to what a
    relation says and add the same texts to the tables of strings; there is a rule for each way of
    putting steps together.
  * `Context.Beside.exists_indexed`: beside two contexts there is one in which each text stands in the
    table where the map says.
  * `lowerExpr_same`: trees that differ in their places only are lowered to the same code, in contexts
    beside each other.
-/
import MiniC.Proofs.LoweredExpr
import MiniC.Proofs.Scoping

namespace MiniC

/-! ## Trees without places -/

namespace Node

mutual

/-- A tree whose places are taken away has none to lose. -/
theorem unplaced_unplaced : ∀ n : Node, n.unplaced.unplaced = n.unplaced
  | mk mark shape => by rw [unplaced, unplaced, unplacedShape_unplacedShape shape]

theorem unplacedShape_unplacedShape (s : Shape) :
    unplacedShape (unplacedShape s) = unplacedShape s := by
  cases s <;> simp only [unplacedShape, unplaced_unplaced, unplacedAll_unplacedAll,
    unplacedOption_unplacedOption]

theorem unplacedAll_unplacedAll : ∀ ns : List Node, unplacedAll (unplacedAll ns) = unplacedAll ns
  | [] => rfl
  | n :: ns => by rw [unplacedAll, unplacedAll, unplaced_unplaced n, unplacedAll_unplacedAll ns]

theorem unplacedOption_unplacedOption :
    ∀ o : Option Node, unplacedOption (unplacedOption o) = unplacedOption o
  | none => rfl
  | some n => by rw [unplacedOption, unplacedOption, unplaced_unplaced n]

end

end Node

/-! ## The same expression -/

namespace Expr

mutual

/-- An expression that is nowhere and whose string literals all have the number 0. -/
def bare : Expr → Expr
  | mk op ty _ => .mk (bareOperation op) ty .nowhere

/-- An operation on such expressions. -/
@[simp] def bareOperation : Operation → Operation
  | .const w => .const w
  | .str _ => .str 0
  | .var id => .var id
  | .member object offset array => .member (bare object) offset array
  | .deref pointer => .deref (bare pointer)
  | .index base number scale => .index (bare base) (bare number) scale
  | .addressOf place => .addressOf (bare place)
  | .unary op operand => .unary op (bare operand)
  | .binary op left right => .binary op (bare left) (bare right)
  | .pointerOffset pointer offset scale subtract =>
    .pointerOffset (bare pointer) (bare offset) scale subtract
  | .pointerDiff left right scale => .pointerDiff (bare left) (bare right) scale
  | .call function args allocates => .call function (bareAll args) allocates
  | .assign dst src => .assign (bare dst) (bare src)
  | .arrayAssign dst values scope => .arrayAssign (bare dst) (values.map Node.unplaced) scope

/-- Such expressions in a list. -/
def bareAll : List Expr → List Expr
  | [] => []
  | e :: es => bare e :: bareAll es

end

mutual

/-- The numbers of the string literals in an expression, from left to right. -/
def literals : Expr → List StringId
  | mk op _ _ => literalsOperation op

/-- The numbers of the string literals in an operation. -/
@[simp] def literalsOperation : Operation → List StringId
  | .const _ | .var _ => []
  | .str id => [id]
  | .member e _ _ | .deref e | .addressOf e | .unary _ e | .arrayAssign e _ _ => literals e
  | .index l r _ | .binary _ l r | .pointerOffset l r _ _ | .pointerDiff l r _ | .assign l r =>
    literals l ++ literals r
  | .call _ args _ => literalsAll args

/-- The numbers of the string literals in a list of expressions. -/
def literalsAll : List Expr → List StringId
  | [] => []
  | e :: es => literals e ++ literalsAll es

end

@[simp] theorem bare_mk (op : Operation) (ty : Ty) (loc : Location) :
    bare (mk op ty loc) = .mk (bareOperation op) ty .nowhere := by rw [bare]

@[simp] theorem literals_mk (op : Operation) (ty : Ty) (loc : Location) :
    literals (mk op ty loc) = literalsOperation op := by rw [literals]

/-- The texts of the string literals in an expression over a program, from left to right: each literal has
the number under which its text is found, and this is where its text stands in the table of strings if
the map is the inverse of the table. -/
structure Spells (p : Program) (e : Expr) (texts : List String) : Prop where
  found : texts.map p.string? = e.literals.map some
  stored : p.stringIds.Indexes (numbered id p.strings) →
    e.literals.map (fun id => p.strings[id]?) = texts.map some

/-- Two expressions over two programs are the same but for places and the numbers of string literals. -/
def Same (p q : Program) (e e' : Expr) : Prop :=
  e.bare = e'.bare ∧ ∃ texts, e.Spells p texts ∧ e'.Spells q texts

end Expr

namespace Expr
variable {p p' q q' r : Program} {e e' e'' : Expr}

/-- What is found under numbers stands there in a table that the map is the inverse of. -/
theorem stored_of_found (hp : p.stringIds.Indexes (numbered id p.strings)) {ids : List StringId}
    {texts : List String} (h : texts.map p.string? = ids.map some) :
    ids.map (fun id => p.strings[id]?) = texts.map some := by
  induction texts generalizing ids with
  | nil =>
    obtain rfl := List.map_eq_nil_iff.1 h.symm
    rfl
  | cons text texts ih =>
    obtain ⟨id, ids, rfl, hid, hids⟩ := List.map_eq_cons_iff.1 h.symm
    obtain ⟨_, stands, rfl⟩ := mem_numbered.1 ((hp.found _ _).1 hid.symm)
    rw [List.map_cons, List.map_cons, ih hids.symm, stands]
    rfl

theorem spells_of_found {texts : List String} (h : texts.map p.string? = e.literals.map some) :
    e.Spells p texts :=
  ⟨h, fun hp => stored_of_found hp h⟩

theorem Spells.extend {texts : List String} (h : e.Spells p texts) (hp : p.Extends p') :
    e.Spells p' texts := by
  refine spells_of_found (Eq.trans (List.map_congr_left fun text ht => ?_) h.found)
  have here : p.string? text ∈ e.literals.map some := h.found ▸ List.mem_map_of_mem ht
  obtain ⟨id, -, hid⟩ := List.mem_map.1 here
  rw [← hid, hp.string? hid.symm]

theorem Spells.unique {texts texts' : List String} (hp : p.stringIds.Indexes (numbered id p.strings))
    (h : e.Spells p texts) (h' : e.Spells p texts') : texts = texts' :=
  List.map_injective_iff.2 (fun _ _ => Option.some.inj) ((h.stored hp).symm.trans (h'.stored hp))

namespace Same

theorem symm (h : Same p q e e') : Same q p e' e := by
  obtain ⟨hb, texts, h1, h2⟩ := h
  exact ⟨hb.symm, texts, h2, h1⟩

theorem trans (hq : q.stringIds.Indexes (numbered id q.strings)) (h : Same p q e e')
    (h' : Same q r e' e'') : Same p r e e'' := by
  obtain ⟨hb, texts, h1, h2⟩ := h
  obtain ⟨hb', texts', h1', h2'⟩ := h'
  obtain rfl := h2.unique hq h1'
  exact ⟨hb.trans hb', texts, h1, h2'⟩

theorem extend (h : Same p q e e') (hp : p.Extends p') (hq : q.Extends q') : Same p' q' e e' := by
  obtain ⟨hb, texts, h1, h2⟩ := h
  exact ⟨hb, texts, h1.extend hp, h2.extend hq⟩

theorem ty (h : Same p q e e') : e'.ty = e.ty := by
  obtain ⟨op, ty, loc⟩ := e
  obtain ⟨op', ty', loc'⟩ := e'
  have hb := h.1
  simp only [bare_mk, Expr.mk.injEq] at hb
  exact hb.2.1.symm

theorem operation (h : Same p q e e') : bareOperation e'.op = bareOperation e.op := by
  obtain ⟨op, ty, loc⟩ := e
  obtain ⟨op', ty', loc'⟩ := e'
  have hb := h.1
  simp only [bare_mk, Expr.mk.injEq] at hb
  exact hb.1.symm

theorem isPlace (h : Same p q e e') : e'.isPlace = e.isPlace := by
  have bare : ∀ e : Expr, e.isPlace = Expr.isPlace (.mk (bareOperation e.op) e.ty .nowhere) := by
    rintro ⟨op, ty, loc⟩
    cases op <;> rfl
  rw [bare e', bare e, h.operation, h.ty]

/-- An operation on the same operands. -/
theorem mk {op op' : Operation} {ty : Ty} {loc loc' : Location}
    (hb : bareOperation op = bareOperation op') (texts : List String)
    (h : (Expr.mk op ty loc).Spells p texts) (h' : (Expr.mk op' ty loc').Spells q texts) :
    Same p q (.mk op ty loc) (.mk op' ty loc') :=
  ⟨by rw [bare_mk, bare_mk, hb], texts, h, h'⟩

/-- An operation on one expression and the same one on another expression. -/
theorem one {f : Expr → Operation} (hb : ∀ e, bareOperation (f e) = f e.bare)
    (hl : ∀ e, literalsOperation (f e) = e.literals) (h : Same p q e e') (ty : Ty)
    (loc loc' : Location) : Same p q (.mk (f e) ty loc) (.mk (f e') ty loc') := by
  obtain ⟨hbare, texts, h1, h2⟩ := h
  refine mk (by rw [hb, hb, hbare]) texts (spells_of_found ?_) (spells_of_found ?_)
  · rw [literals_mk, hl, h1.found]
  · rw [literals_mk, hl, h2.found]

/-- An operation on two expressions and the same one on two others. -/
theorem two {f : Expr → Expr → Operation} (hb : ∀ l r, bareOperation (f l r) = f l.bare r.bare)
    (hl : ∀ l r, literalsOperation (f l r) = l.literals ++ r.literals) {l l' r r' : Expr}
    (h : Same p q l l') (h' : Same p q r r') (ty : Ty) (loc loc' : Location) :
    Same p q (.mk (f l r) ty loc) (.mk (f l' r') ty loc') := by
  obtain ⟨hbare, texts, h1, h2⟩ := h
  obtain ⟨hbare', texts', h1', h2'⟩ := h'
  refine mk (by rw [hb, hb, hbare, hbare']) (texts ++ texts') (spells_of_found ?_) (spells_of_found ?_)
  · rw [literals_mk, hl, List.map_append, List.map_append, h1.found, h1'.found]
  · rw [literals_mk, hl, List.map_append, List.map_append, h2.found, h2'.found]

end Same

/-- Lists of the same expressions. -/
inductive SameAll (p q : Program) : List Expr → List Expr → Prop
  | nil : SameAll p q [] []
  | cons {e e' : Expr} {es es' : List Expr} : Same p q e e' → SameAll p q es es' →
    SameAll p q (e :: es) (e' :: es')

theorem SameAll.spells {es es' : List Expr} (h : SameAll p q es es') : bareAll es = bareAll es' ∧
    ∃ texts : List String, texts.map p.string? = (literalsAll es).map some ∧
      texts.map q.string? = (literalsAll es').map some := by
  induction h with
  | nil => exact ⟨rfl, [], rfl, rfl⟩
  | cons h _ ih =>
    obtain ⟨hb, texts, h1, h2⟩ := h
    obtain ⟨hbs, more, h1', h2'⟩ := ih
    refine ⟨by rw [bareAll, bareAll, hb, hbs], texts ++ more, ?_, ?_⟩
    · rw [literalsAll, List.map_append, List.map_append, h1.found, h1']
    · rw [literalsAll, List.map_append, List.map_append, h2.found, h2']

end Expr

/-! ## Contexts beside each other -/

/-- Contexts that are the same but for their tables of strings with their maps and what they note of array
assignments; where no string can be added, the same texts are found. -/
structure Context.Beside (c d : Context) : Prop where
  frozen : d.frozen = c.frozen
  function : d.function = c.function
  struct : d.struct = c.struct
  program : d.program =
    { c.program with strings := d.program.strings, stringIds := d.program.stringIds }
  found : c.frozen = true → ∀ text, (d.program.string? text).isSome = (c.program.string? text).isSome

namespace Context.Beside
variable {c d e : Context}

theorem refl (c : Context) : c.Beside c := ⟨rfl, rfl, rfl, rfl, fun _ _ => rfl⟩

theorem symm (h : c.Beside d) : d.Beside c where
  frozen := h.frozen.symm
  function := h.function.symm
  struct := h.struct.symm
  program := by
    conv_rhs => rw [h.program]
  found hf text := (h.found (h.frozen ▸ hf) text).symm

theorem trans (h : c.Beside d) (h' : d.Beside e) : c.Beside e where
  frozen := h'.frozen.trans h.frozen
  function := h'.function.trans h.function
  struct := h'.struct.trans h.struct
  program := by
    conv_lhs => rw [h'.program, h.program]
  found hf text := (h'.found (h.frozen.trans hf) text).trans (h.found hf text)

theorem symbol (h : c.Beside d) (id : SymbolId) : d.program.symbol id = c.program.symbol id := by
  rw [h.program]
  rfl

theorem find? (h : c.Beside d) (name : String) : d.find? name = c.find? name := by
  rw [Context.find?, Context.find?, h.function, h.program]
  rfl

theorem struct? (h : c.Beside d) (name : String) :
    d.program.struct? name = c.program.struct? name := by
  rw [h.program]
  rfl

theorem layout? (h : c.Beside d) (name : String) :
    d.program.layout? name = c.program.layout? name := by
  rw [h.program]
  rfl

theorem sizeOf? (h : c.Beside d) (t : Ty) : d.program.sizeOf? t = c.program.sizeOf? t := by
  rw [h.program]
  rfl

theorem function? (h : c.Beside d) (name : String) :
    d.program.function? name = c.program.function? name := by
  rw [h.program]
  rfl

theorem functions (h : c.Beside d) (id : FunctionId) :
    d.program.function id = c.program.function id := by
  rw [h.program]
  rfl

theorem visibleNames (h : c.Beside d) : d.visibleNames = c.visibleNames := by
  rw [Context.visibleNames, Context.visibleNames, h.function]

theorem arrayLength? (h : c.Beside d) {p q : Program} {e e' : Expr} (he : Expr.Same p q e e') :
    d.arrayLength? e' = c.arrayLength? e := by
  have bare : ∀ (c : Context) (e : Expr),
      c.arrayLength? e = c.arrayLength? (.mk (Expr.bareOperation e.op) e.ty .nowhere) := by
    rintro c ⟨op, ty, loc⟩
    cases op <;> rfl
  rw [bare d, bare c, he.operation, he.ty, Context.arrayLength?, Context.arrayLength?]
  split
  · rw [h.symbol]
  · rfl
  · rfl

end Context.Beside

/-- The program `q` is `p` with the given texts in its table of strings, which no text leaves. -/
structure Program.Spelled (texts : List String) (p q : Program) : Prop where
  same : q = { p with strings := q.strings, stringIds := q.stringIds }
  grows : p.Extends q
  indexed : p.stringIds.Indexes (numbered id p.strings) →
    q.stringIds.Indexes (numbered id q.strings)
  found : ∀ text, (q.string? text).isSome ↔ (p.string? text).isSome ∨ text ∈ texts

namespace Program.Spelled
variable {texts texts' : List String} {p q r : Program}

theorem refl (p : Program) : p.Spelled [] p := ⟨rfl, .refl p, id, by simp⟩

theorem trans (h : p.Spelled texts q) (h' : q.Spelled texts' r) : p.Spelled (texts ++ texts') r where
  same := by
    conv_lhs => rw [h'.same, h.same]
  grows := h.grows.trans h'.grows
  indexed hp := h'.indexed (h.indexed hp)
  found text := by rw [h'.found, h.found, List.mem_append, or_assoc]

/-- A text that is in the table, or is put there. -/
theorem internString (p : Program) (text : String) : p.Spelled [text] (p.internString text).2 where
  same := by
    obtain ⟨strings, stringIds, h⟩ := p.internString_strings text
    rw [h]
  grows := p.extends_internString text
  indexed hp := by
    unfold Program.internString
    split
    · exact hp
    · exact numbered_push p.strings text ▸ hp.insert ‹_› _
  found other := by
    unfold Program.internString
    split
    case h_1 known =>
      rw [List.mem_singleton, iff_self_or]
      rintro rfl
      rw [known]
      rfl
    case h_2 => simp [string?, NameMap.find?_insert, apply_ite, or_comm]

/-- Any texts can be put into the table. -/
theorem exists_all (texts : List String) (p : Program) : ∃ q, p.Spelled texts q := by
  induction texts generalizing p with
  | nil => exact ⟨p, .refl p⟩
  | cons text texts ih =>
    obtain ⟨q, hq⟩ := ih (p.internString text).2
    exact ⟨q, (internString p text).trans hq⟩

end Program.Spelled

/-- The context `c'` is `c` with the given texts in its table of strings. -/
structure Context.Spelled (texts : List String) (c c' : Context) : Prop where
  beside : c.Beside c'
  program : c.program.Spelled texts c'.program

namespace Context.Spelled
variable {texts texts' : List String} {c c' c'' : Context}

theorem refl (c : Context) : c.Spelled [] c := ⟨.refl c, .refl c.program⟩

theorem trans (h : c.Spelled texts c') (h' : c'.Spelled texts' c'') :
    c.Spelled (texts ++ texts') c'' :=
  ⟨h.beside.trans h'.beside, h.program.trans h'.program⟩

end Context.Spelled

/-- Beside two contexts there is one that finds the texts which both of them find, and whose map of texts
is the inverse of its table. -/
theorem Context.Beside.exists_indexed {c d : Context} (h : c.Beside d) : ∃ e : Context,
    c.Beside e ∧ d.Beside e ∧ e.program.stringIds.Indexes (numbered id e.program.strings) ∧
      ∀ text, (e.program.string? text).isSome → (d.program.string? text).isSome := by
  -- These texts are put into an empty table, one after the other.
  let texts := (c.program.stringIds.map Prod.fst).filter fun text => (d.program.string? text).isSome
  obtain ⟨p, hp⟩ := Program.Spelled.exists_all texts
    { c.program with strings := #[], stringIds := [] }
  have both : ∀ text, (p.string? text).isSome ↔
      (c.program.string? text).isSome ∧ (d.program.string? text).isSome := by
    intro text
    rw [hp.found]
    simp [texts, Program.string?, NameMap.find?, List.lookup_isSome_iff]
  have beside : c.Beside { c with program := p } := by
    refine ⟨rfl, rfl, rfl, hp.same, fun hf text => ?_⟩
    rw [Bool.eq_iff_iff, both, h.found hf, and_self]
  exact ⟨{ c with program := p }, beside, h.symm.trans beside, hp.indexed .nil,
    fun text ht => ((both text).1 ht).2⟩

namespace Lower
variable {α β γ δ : Type} {c d : Context}

/-! ## Steps that match -/

/-- From `c` and `d` the two steps both fail, or both come to results as `Q` says over the programs that
they leave, with the same texts added. -/
def Matches (c d : Context) (x : Lower α) (y : Lower β)
    (Q : Program → Program → α → β → Prop) : Prop :=
  match x c, y d with
  | .ok (a, c'), .ok (b, d') =>
    (∃ texts, c.Spelled texts c' ∧ d.Spelled texts d') ∧ Q c'.program d'.program a b
  | .error _, .error _ => True
  | .ok _, .error _ | .error _, .ok _ => False

section
variable {Q : Program → Program → α → β → Prop}
  {R : Program → Program → γ → δ → Prop}

theorem bind_of_ok {x : Lower α} {f : α → Lower γ} {a : α} {k : Context}
    {r : Except CompileError (γ × Context)} (hx : x c = .ok (a, k)) (hf : f a k = r) :
    (x >>= f) c = r := by
  change Except.bind (x c) (fun p => f p.1 p.2) = r
  rw [hx]
  exact hf

theorem bind_of_error {x : Lower α} {e : CompileError} (hx : x c = .error e) (f : α → Lower γ) :
    (x >>= f) c = .error e := by
  change Except.bind (x c) (fun p => f p.1 p.2) = _
  rw [hx]
  rfl

theorem matches_pure {a : α} {b : β} (h : Q c.program d.program a b) :
    Matches c d (pure a) (pure b) Q :=
  ⟨⟨[], .refl c, .refl d⟩, h⟩

theorem matches_fail {cause cause' : CompileCause} {loc loc' : Location} :
    Matches c d (fail cause loc : Lower α) (fail cause' loc' : Lower β) Q := trivial

theorem Matches.cases {x : Lower α} {y : Lower β} (h : Matches c d x y Q) :
    (∃ a c' b d', x c = .ok (a, c') ∧ y d = .ok (b, d') ∧
      (∃ texts, c.Spelled texts c' ∧ d.Spelled texts d') ∧
      Q c'.program d'.program a b) ∨
    ∃ e e', x c = .error e ∧ y d = .error e' := by
  unfold Matches at h
  split at h
  · rename_i a c' b d' hx hy
    exact .inl ⟨a, c', b, d', hx, hy, h⟩
  · rename_i e e' hx hy
    exact .inr ⟨e, e', hx, hy⟩
  · exact h.elim
  · exact h.elim

theorem Matches.of_ok {x : Lower α} {y : Lower β} {a : α} {b : β} {c' d' : Context}
    (hx : x c = .ok (a, c')) (hy : y d = .ok (b, d'))
    (hs : ∃ texts, c.Spelled texts c' ∧ d.Spelled texts d')
    (hq : Q c'.program d'.program a b) : Matches c d x y Q := by
  unfold Matches
  rw [hx, hy]
  exact ⟨hs, hq⟩

theorem Matches.of_error {x : Lower α} {y : Lower β} {e e' : CompileError} (hx : x c = .error e)
    (hy : y d = .error e') : Matches c d x y Q := by
  unfold Matches
  rw [hx, hy]
  trivial

theorem Matches.bind {x : Lower α} {y : Lower β} {f : α → Lower γ} {g : β → Lower δ}
    (h : Matches c d x y Q) (hcd : c.Beside d)
    (hf : ∀ a b c' d', c'.Beside d' → c.program.Extends c'.program →
      d.program.Extends d'.program →
      Q c'.program d'.program a b → Matches c' d' (f a) (g b) R) :
    Matches c d (x >>= f) (y >>= g) R := by
  rcases h.cases with ⟨a, c', b, d', hx, hy, ⟨texts, hc, hd⟩, hq⟩ | ⟨e, e', hx, hy⟩
  · have beside := hc.beside.symm.trans (hcd.trans hd.beside)
    rcases (hf a b c' d' beside hc.program.grows hd.program.grows hq).cases with
      ⟨a', c'', b', d'', hfa, hgb, ⟨more, hc', hd'⟩, hr⟩ | ⟨e, e', hfa, hgb⟩
    · exact .of_ok (bind_eq_ok.2 ⟨a, c', hx, hfa⟩) (bind_eq_ok.2 ⟨b, d', hy, hgb⟩)
        ⟨texts ++ more, hc.trans hc', hd.trans hd'⟩ hr
    · exact .of_error (bind_of_ok hx hfa) (bind_of_ok hy hgb)
  · exact .of_error (bind_of_error hx f) (bind_of_error hy g)

theorem matches_ask_bind {f : Context → γ} {f' : Context → δ} {x : γ → Lower α} {y : δ → Lower β}
    (h : Matches c d (x (f c)) (y (f' d)) Q) : Matches c d (ask f >>= x) (ask f' >>= y) Q := h

theorem matches_guard {p p' : Prop} [Decidable p] [Decidable p'] {cause cause' : CompileCause}
    {loc loc' : Location} {x : PUnit → Lower α} {y : PUnit → Lower β} (hp : p' ↔ p)
    (h : ¬ p → Matches c d (x ()) (y ()) Q) :
    Matches c d (if p then fail cause loc >>= x else x ()) (if p' then fail cause' loc' >>= y else y ())
      Q := by
  by_cases hyes : p
  · rw [if_pos hyes, if_pos (hp.2 hyes)]
    trivial
  · rw [if_neg hyes, if_neg (fun hn => hyes (hp.1 hn))]
    exact h hyes

theorem matches_require_bind {o o' : Option γ} {cause cause' : CompileCause} {loc loc' : Location}
    {x y : γ → Lower α} {Q : Program → Program → α → α → Prop} (ho : o' = o)
    (h : ∀ a, o = some a → Matches c d (x a) (y a) Q) :
    Matches c d (require o cause loc >>= x) (require o' cause' loc' >>= y) Q := by
  subst ho
  cases o' with
  | none => trivial
  | some a => exact h a rfl

end

/-! ## Names, sizes and string literals -/

theorem matches_sizeOf_bind {Q : Program → Program → α → α → Prop} (h : c.Beside d) {t : Ty}
    {loc loc' : Location} {x y : Nat → Lower α} (hx : ∀ n, Matches c d (x n) (y n) Q) :
    Matches c d (sizeOf t loc >>= x) (sizeOf t loc' >>= y) Q := by
  have step : Matches c d (require (c.program.sizeOf? t) (.unknownSize t) loc >>= x)
      (require (d.program.sizeOf? t) (.unknownSize t) loc' >>= y) Q :=
    matches_require_bind (h.sizeOf? t) fun n _ => hx n
  exact step

theorem matches_resolveType_bind {Q : Program → Program → α → α → Prop} (h : c.Beside d)
    {base : Base} {stars : Nat} {loc loc' : Location} {x y : Ty → Lower α}
    (hx : Matches c d (x ⟨base, stars⟩) (y ⟨base, stars⟩) Q) :
    Matches c d (resolveType base stars loc >>= x) (resolveType base stars loc' >>= y) Q := by
  cases base with
  | struct name =>
    simp only [resolveType, bind_assoc]
    refine matches_ask_bind (matches_ask_bind ?_)
    rw [h.struct, h.struct? name]
    split
    · trivial
    · split
      · trivial
      · exact hx
  | _ => exact hx

theorem spelled_internString {c : Context} (hf : c.frozen = false) (text : String) :
    c.Spelled [text] { c with program := (c.program.internString text).2 } := by
  have spelled := Program.Spelled.internString c.program text
  exact ⟨⟨rfl, rfl, rfl, spelled.same, fun h => by rw [hf] at h; cases h⟩, spelled⟩

theorem matches_internString (h : c.Beside d) (text : String) (loc loc' : Location) :
    Matches c d (internString text loc) (internString text loc')
      fun p q i j => p.string? text = some i ∧ q.string? text = some j := by
  cases hf : c.frozen with
  | true =>
    unfold Matches
    rw [internString_of_frozen hf, internString_of_frozen (h.frozen.trans hf)]
    have same := h.found hf text
    cases hc : c.program.string? text <;> cases hd : d.program.string? text
    · trivial
    · rw [hc, hd] at same
      cases same
    · rw [hc, hd] at same
      cases same
    · exact ⟨⟨[], .refl c, .refl d⟩, hc, hd⟩
  | false =>
    have hd := h.frozen.trans hf
    unfold Matches
    rw [internString_of_building hf, internString_of_building hd]
    exact ⟨⟨[text], spelled_internString hf text, spelled_internString hd text⟩,
      Program.string?_internString .., Program.string?_internString ..⟩

/-! ## Expressions -/

/-- What trees are lowered to is the same expression. -/
def Yield (p q : Program) (l l' : Lowered) : Prop :=
  ∃ e e', l = .expr e ∧ l' = .expr e' ∧ Expr.Same p q e e'

section
variable {g : Grammar} {low : Lowering} {n : Node}

/-- In contexts beside each other the tree comes to the same expression with and without places. -/
def Unplaceable (low : Lowering) (n : Node) : Prop :=
  ∀ ⦃c d : Context⦄, c.Beside d → Matches c d (expr low n) (expr low n.unplaced) Expr.Same

theorem matches_expression {op op' : Operation} {ty ty' : Ty} {n' : Node}
    (h : Expr.Same c.program d.program (.mk op ty n.start) (.mk op' ty' n'.start)) :
    Matches c d (expression op ty n) (expression op' ty' n') Yield :=
  matches_pure ⟨_, _, rfl, rfl, h⟩

theorem matches_value (h : Unplaceable low n) (hcd : c.Beside d) :
    Matches c d (value low n) (value low n.unplaced) Expr.Same := by
  refine (h hcd).bind hcd fun e e' c' d' _ _ _ he => ?_
  exact matches_guard (by rw [he.ty]) fun _ => matches_pure he

theorem same_const (p q : Program) (w : Word) (ty : Ty) (loc loc' : Location) :
    Expr.Same p q (.mk (.const w) ty loc) (.mk (.const w) ty loc') :=
  .mk rfl [] (Expr.spells_of_found rfl) (Expr.spells_of_found rfl)

theorem matches_literal (h : c.Beside d) :
    Matches c d (literal n) (literal n.unplaced) Yield := by
  obtain ⟨mark, shape⟩ := n
  cases shape with
  | intLiteral w => exact matches_expression (same_const ..)
  | charLiteral w => exact matches_expression (same_const ..)
  | null => exact matches_expression (same_const ..)
  | stringLiteral text =>
    refine (matches_internString h text _ _).bind h fun i j c' d' _ _ _ hij => ?_
    refine matches_expression (.mk rfl [text] (Expr.spells_of_found ?_) (Expr.spells_of_found ?_))
    · simp [hij.1]
    · simp [hij.2]
  | _ => trivial

theorem matches_identifier (h : c.Beside d) :
    Matches c d (identifier n) (identifier n.unplaced) Yield := by
  obtain ⟨mark, shape⟩ := n
  cases shape with
  | identifier name =>
    have step : Matches c d
        (require (c.find? name) (.undeclared name) mark.start >>= fun id =>
          ask (fun c => (c.program.symbol id).ty) >>= fun ty =>
            expression (.var id) ty (.mk mark (.identifier name)))
        (require (d.find? name) (.undeclared name) .nowhere >>= fun id =>
          ask (fun c => (c.program.symbol id).ty) >>= fun ty =>
            expression (.var id) ty (.mk ⟨mark.production, .nowhere⟩ (.identifier name))) Yield := by
      refine matches_require_bind (h.find? name) fun id _ => matches_ask_bind ?_
      rw [h.symbol]
      exact matches_expression (.mk rfl [] (Expr.spells_of_found rfl) (Expr.spells_of_found rfl))
    exact step
  | _ => trivial

/-! ### Operators -/

theorem matches_pointerOffset (h : c.Beside d) {p p' o o' : Expr} {n' : Node}
    (hp : Expr.Same c.program d.program p p')
    (ho : Expr.Same c.program d.program o o') (subtract : Bool) :
    Matches c d (pointerOffset p o subtract n) (pointerOffset p' o' subtract n') Yield := by
  unfold pointerOffset
  rw [hp.ty]
  split
  · trivial
  · refine matches_guard Iff.rfl fun _ => matches_sizeOf_bind h fun scale => matches_expression ?_
    exact .two (f := fun p o => .pointerOffset p o scale subtract) (by simp) (by simp) hp ho _ _ _

theorem matches_pointerDiff (h : c.Beside d) {l l' r r' : Expr} {n' : Node}
    (hl : Expr.Same c.program d.program l l')
    (hr : Expr.Same c.program d.program r r') :
    Matches c d (pointerDiff l r n) (pointerDiff l' r' n') Yield := by
  unfold pointerDiff
  rw [hl.ty]
  split
  · trivial
  · refine matches_sizeOf_bind h fun scale => matches_expression ?_
    exact .two (f := fun l r => .pointerDiff l r scale) (by simp) (by simp) hl hr _ _ _

theorem matches_combine (h : c.Beside d) (op : BinaryOp) {l l' r r' : Expr} {n' : Node}
    (hl : Expr.Same c.program d.program l l')
    (hr : Expr.Same c.program d.program r r') :
    Matches c d (combine op l r n) (combine op l' r' n') Yield := by
  have plain : Matches c d (expression (.binary op l r) Ty.int n)
      (expression (.binary op l' r') Ty.int n') Yield :=
    matches_expression (.two (f := .binary op) (by simp) (by simp) hl hr _ _ _)
  cases op with
  | add =>
    simp only [combine, hl.ty, hr.ty]
    split
    · exact plain
    · split
      · exact matches_pointerOffset h hl hr false
      · split
        · exact matches_pointerOffset h hr hl false
        · trivial
  | sub =>
    simp only [combine, hl.ty, hr.ty]
    split
    · exact plain
    · split
      · exact matches_pointerOffset h hl hr true
      · split
        · exact matches_pointerDiff h hl hr
        · trivial
  | _ =>
    simp only [combine, hl.ty, hr.ty]
    split
    · exact plain
    · trivial

theorem matches_binary (hp : ∀ m ∈ n.shape.parts, Unplaceable low m) (h : c.Beside d) :
    Matches c d (binary low n) (binary low n.unplaced) Yield := by
  obtain ⟨mark, shape⟩ := n
  cases shape with
  | binary op left right =>
    have hl := hp left (by simp [Node.shape, Shape.parts])
    have hr := hp right (by simp [Node.shape, Shape.parts])
    refine (matches_value hl h).bind h fun l l' c' d' h' _ _ hl => ?_
    refine (matches_value hr h').bind h' fun r r' c'' d'' h'' hc hd hr => ?_
    exact matches_combine h'' op (hl.extend hc hd) hr
  | _ => trivial

theorem matches_unaryOp {operand n' : Node} (ho : Unplaceable low operand) (h : c.Beside d)
    (op : UnaryOp) : Matches c d (unaryOp low op operand n) (unaryOp low op operand.unplaced n')
      Yield := by
  refine (matches_value ho h).bind h fun e e' c' d' _ _ _ he => ?_
  refine matches_guard ?_ fun _ => matches_expression ?_
  · cases op <;> simp only [he.ty]
  · exact .one (f := .unary op) (by simp) (by simp) he _ _ _

theorem matches_deref {operand n' : Node} (ho : Unplaceable low operand) (h : c.Beside d) :
    Matches c d (deref low operand n) (deref low operand.unplaced n') Yield := by
  refine (matches_value ho h).bind h fun e e' c' d' _ _ _ he => ?_
  refine matches_require_bind (by rw [he.ty]) fun pointee _ => matches_expression ?_
  exact .one (f := .deref) (by simp) (by simp) he _ _ _

theorem matches_addressOf {operand n' : Node} (ho : Unplaceable low operand) (h : c.Beside d) :
    Matches c d (addressOf low operand n) (addressOf low operand.unplaced n') Yield := by
  refine (ho h).bind h fun e e' c' d' h' _ _ he => ?_
  refine matches_guard (by rw [he.isPlace]) fun _ => matches_ask_bind ?_
  rw [h'.arrayLength? he, he.ty]
  exact matches_expression (.one (f := .addressOf) (by simp) (by simp) he _ _ _)

theorem matches_sizeofExpr {operand n' : Node} (ho : Unplaceable low operand) (h : c.Beside d) :
    Matches c d (sizeofExpr low operand n) (sizeofExpr low operand.unplaced n')
      fun _ _ size size' => size' = size := by
  have same : ∀ {c d : Context}, c.Beside d → ∀ (t : Ty) (loc loc' : Location) (k : Nat),
      Matches c d (sizeOf t loc >>= fun size => pure (k * size))
        (sizeOf t loc' >>= fun size => pure (k * size)) fun _ _ size size' => size' = size :=
    fun h _ _ _ _ => matches_sizeOf_bind h fun _ => matches_pure rfl
  refine (ho h).bind h fun e e' c' d' h' _ _ he => matches_ask_bind ?_
  rw [h'.arrayLength? he, he.ty]
  split
  · split
    · trivial
    · exact same h' ..
  · have one := same h' e.ty n.start n'.start 1
    simpa only [Nat.one_mul, bind_pure] using one

theorem matches_unary (hp : ∀ m ∈ n.shape.parts, Unplaceable low m) (h : c.Beside d) :
    Matches c d (unary low n) (unary low n.unplaced) Yield := by
  obtain ⟨mark, shape⟩ := n
  cases shape with
  | unary op operand => exact matches_unaryOp (hp operand (by simp [Node.shape, Shape.parts])) h op
  | deref operand => exact matches_deref (hp operand (by simp [Node.shape, Shape.parts])) h
  | addressOf operand => exact matches_addressOf (hp operand (by simp [Node.shape, Shape.parts])) h
  | sizeofType base stars =>
    exact matches_resolveType_bind h (matches_sizeOf_bind h fun _ =>
      matches_expression (same_const ..))
  | sizeofExpr operand =>
    refine (matches_sizeofExpr (hp operand (by simp [Node.shape, Shape.parts])) h).bind h
      fun size size' c' d' _ _ _ he => ?_
    rw [he]
    exact matches_expression (same_const ..)
  | _ => trivial

/-! ### Subscripts, members and calls -/

/-- An element of an array, by the pointer and the number. -/
def indexed (base index : Expr) (node : Node) : Lower Lowered := do
  match base.ty.pointee with
  | none => malformed node
  | some element =>
    if element.isVoid then fail .voidElement node.start
    let scale ← sizeOf element node.start
    expression (.index base index scale) element node

theorem matches_indexed (h : c.Beside d) {b b' i i' : Expr} {n' : Node}
    (hb : Expr.Same c.program d.program b b')
    (hi : Expr.Same c.program d.program i i') :
    Matches c d (indexed b i n) (indexed b' i' n') Yield := by
  unfold indexed
  rw [hb.ty]
  split
  · trivial
  · refine matches_guard Iff.rfl fun _ => matches_sizeOf_bind h fun scale => matches_expression ?_
    exact .two (f := fun b i => .index b i scale) (by simp) (by simp) hb hi _ _ _

theorem matches_subscript (h : c.Beside d) {l l' r r' : Expr} {n' : Node}
    (hl : Expr.Same c.program d.program l l')
    (hr : Expr.Same c.program d.program r r') :
    Matches c d (subscript l r n) (subscript l' r' n') Yield := by
  unfold subscript
  rw [hl.ty, hr.ty]
  -- Whichever side is the pointer, it is so in both contexts.
  cases l.ty.isArithmetic && r.ty.isPointer with
  | true => exact matches_guard (by simp [hl.ty, hr.ty]) fun _ => matches_indexed h hr hl
  | false => exact matches_guard (by simp [hl.ty, hr.ty]) fun _ => matches_indexed h hl hr

theorem matches_member (h : c.Beside d) {o o' : Expr} {n' : Node}
    (ho : Expr.Same c.program d.program o o') (field : String) :
    Matches c d (member o field n) (member o' field n') Yield := by
  refine matches_require_bind (by rw [ho.ty]) fun name _ => matches_ask_bind ?_
  refine matches_require_bind (h.layout? name) fun layout _ => ?_
  refine matches_require_bind rfl fun m _ => matches_expression ?_
  exact .one (f := fun o => .member o m.offset m.arrayLength) (by simp) (by simp) ho _ _ _

theorem matches_suffix (hp : ∀ m ∈ n.shape.parts, Unplaceable low m) (h : c.Beside d) :
    Matches c d (suffix low n) (suffix low n.unplaced) Yield := by
  obtain ⟨mark, shape⟩ := n
  cases shape with
  | index base number =>
    have hl := hp base (by simp [Node.shape, Shape.parts])
    have hr := hp number (by simp [Node.shape, Shape.parts])
    refine (matches_value hl h).bind h fun l l' c' d' h' _ _ hl => ?_
    refine (matches_value hr h').bind h' fun r r' c'' d'' h'' hc hd hr => ?_
    exact matches_subscript h'' (hl.extend hc hd) hr
  | member object field =>
    refine (hp object (by simp [Node.shape, Shape.parts]) h).bind h fun o o' c' d' h' _ _ ho => ?_
    exact matches_member h' ho field
  | pointerMember pointer field =>
    refine (matches_value (hp pointer (by simp [Node.shape, Shape.parts])) h).bind h
      fun p p' c' d' h' _ _ hp => ?_
    rw [hp.ty]
    split
    · split
      · exact matches_member h' (.one (f := .deref) (by simp) (by simp) hp _ _ _) field
      · trivial
    · trivial
  | _ => trivial

theorem matches_arguments (name : String) {args : List Node} (ha : ∀ m ∈ args, Unplaceable low m)
    (params : List Ty) (number : Nat) {c d : Context} (h : c.Beside d) :
    Matches c d (arguments low name number args params)
      (arguments low name number (args.map Node.unplaced) params) Expr.SameAll := by
  induction args generalizing params number c d with
  | nil => exact matches_pure .nil
  | cons arg args ih =>
    cases params with
    | nil => exact matches_pure .nil
    | cons param params =>
      refine (matches_value (ha arg (by simp)) h).bind h fun e e' c' d' h' _ _ he => ?_
      refine matches_guard (by rw [he.ty]) fun _ => ?_
      refine (ih (fun m hm => ha m (by simp [hm])) params (number + 1) h').bind h'
        fun es es' c'' d'' _ hc hd hes => ?_
      exact matches_pure (.cons (he.extend hc hd) hes)

theorem allocated?_unplaced (p : Program) (f : Function) (args : List Node) :
    allocated? p f (args.map Node.unplaced) = allocated? p f args := by
  rcases args with _ | ⟨⟨mark, shape⟩, args⟩
  · rfl
  · cases shape <;> rfl

theorem matches_call (hp : ∀ m ∈ n.shape.parts, Unplaceable low m) (h : c.Beside d) :
    Matches c d (call low n) (call low n.unplaced) Yield := by
  obtain ⟨mark, shape⟩ := n
  cases shape with
  | call name args =>
    simp only [call, Node.unplaced, Node.shape, Node.unplacedShape, Node.unplacedAll_eq_map,
      List.length_map]
    refine matches_ask_bind (matches_require_bind (h.function? name) fun id _ => matches_ask_bind ?_)
    rw [h.functions id]
    refine matches_guard Iff.rfl fun _ => matches_guard Iff.rfl fun _ => matches_ask_bind ?_
    have params : ∀ f : Function, (f.params.map fun p => (d.program.symbol p).ty) =
        f.params.map fun p => (c.program.symbol p).ty :=
      fun f => List.map_congr_left fun p _ => by rw [h.symbol]
    rw [params]
    refine (matches_arguments name hp _ 1 h).bind h fun es es' c' d' h' _ _ hes => matches_ask_bind ?_
    have allocates : ∀ f, allocated? d'.program f (args.map Node.unplaced) =
        allocated? c'.program f args := by
      intro f
      rw [allocated?_unplaced, h'.program]
      rfl
    rw [allocates]
    obtain ⟨hb, texts, h1, h2⟩ := hes.spells
    refine matches_expression
      (.mk (by simp [hb]) texts (Expr.spells_of_found ?_) (Expr.spells_of_found ?_))
    · simp [h1]
    · simp [h2]
  | _ => trivial

/-! ### Assignments -/

theorem matches_checkValues (element : Ty) {values : List Node}
    (hv : ∀ m ∈ values, Unplaceable low m) {c d : Context} (h : c.Beside d) :
    Matches c d (checkValues low element values) (checkValues low element (values.map Node.unplaced))
      fun _ _ _ _ => True := by
  induction values generalizing c d with
  | nil => exact matches_pure trivial
  | cons v vs ih =>
    refine (matches_value (hv v (by simp)) h).bind h fun e e' c' d' h' _ _ he => ?_
    refine matches_guard (by rw [he.ty]) fun _ => ?_
    refine (ih (fun m hm => hv m (by simp [hm])) h').bind h' fun _ _ _ _ _ _ _ _ => ?_
    exact matches_pure trivial

theorem spelled_noteAssigned (c : Context) (e : Expr) (es : List Expr) :
    c.Spelled [] (c.noteAssigned e es) := by
  unfold Context.noteAssigned
  split
  · exact .refl c
  · exact ⟨⟨rfl, rfl, rfl, rfl, fun _ _ => rfl⟩, .refl c.program⟩

theorem matches_noteAssigned (e e' : Expr) (es es' : List Expr) :
    Matches c d (change fun c => c.noteAssigned e es) (change fun c => c.noteAssigned e' es')
      fun p q _ _ => p = c.program ∧ q = d.program := by
  refine ⟨⟨[], spelled_noteAssigned c e es, spelled_noteAssigned d e' es'⟩, ?_, ?_⟩
  all_goals
    simp only [Context.noteAssigned]
    split <;> rfl

theorem matches_arrayAssign (h : c.Beside d) {dst dst' : Expr} {i j : Node} (values : List Node)
    (hd : Expr.Same c.program d.program dst dst')
    (hv : ∀ m ∈ values, Unplaceable low m) (length : Nat) :
    Matches c d (arrayAssign low dst length values i)
      (arrayAssign low dst' length (values.map Node.unplaced) j) Expr.Same := by
  unfold arrayAssign
  rw [List.length_map, hd.ty]
  refine matches_guard Iff.rfl fun _ => ?_
  split
  · trivial
  · refine matches_guard Iff.rfl fun _ => ?_
    refine (matches_checkValues _ hv h).bind h fun es es' c' d' h' hc hd' _ => matches_ask_bind ?_
    refine (matches_noteAssigned _ _ es es').bind h' fun _ _ c'' d'' _ _ _ hs => matches_pure ?_
    rw [hs.1, hs.2, h'.visibleNames, Expr.arrayAssign, Expr.arrayAssign, hd.ty]
    obtain ⟨hb, texts, h1, h2⟩ := hd.extend hc hd'
    refine .mk ?_ texts (Expr.spells_of_found ?_) (Expr.spells_of_found ?_)
    · have all : values.map Node.unplaced = (values.map Node.unplaced).map Node.unplaced := by
        rw [List.map_map]
        exact List.map_congr_left fun m _ => (Node.unplaced_unplaced m).symm
      simp only [Expr.bareOperation, hb, ← all]
    · simpa using h1.found
    · simpa using h2.found

theorem matches_scalarAssign (h : c.Beside d) {dst dst' : Expr} {l k right m : Node}
    (hd : Expr.Same c.program d.program dst dst') (hr : Unplaceable low right) :
    Matches c d (scalarAssign low dst l right n) (scalarAssign low dst' k right.unplaced m)
      Expr.Same := by
  unfold scalarAssign
  refine matches_guard (by rw [hd.isPlace]) fun _ => matches_ask_bind ?_
  rw [h.arrayLength? hd]
  refine matches_guard Iff.rfl fun _ => ?_
  refine (matches_value hr h).bind h fun src src' c' d' h' hc hd' hsrc => ?_
  refine matches_guard (by rw [hd.ty, hsrc.ty]) fun _ => matches_pure ?_
  rw [Expr.assign, Expr.assign, hd.ty]
  exact .two (f := .assign) (by simp) (by simp) (hd.extend hc hd') hsrc _ _ _

theorem matches_assignment (hp : ∀ m ∈ n.shape.parts, Unplaceable low m)
    (deep : ∀ m ∈ n.shape.parts, ∀ k ∈ m.shape.parts, Unplaceable low k) (h : c.Beside d) :
    Matches c d (assignment low n) (assignment low n.unplaced) Yield := by
  obtain ⟨mark, shape⟩ := n
  cases shape with
  | assign left right =>
    have yields : ∀ {x y : Lower Expr} {c d : Context}, c.Beside d → Matches c d x y Expr.Same →
        Matches c d (x >>= fun e => pure (.expr e)) (y >>= fun e => pure (.expr e)) Yield :=
      fun h hx => hx.bind h fun e e' _ _ _ _ _ he => matches_pure ⟨e, e', rfl, rfl, he⟩
    refine (hp left (by simp [Node.shape, Shape.parts]) h).bind h fun dst dst' c' d' h' _ _ hd =>
      matches_ask_bind ?_
    have hr := hp right (by simp [Node.shape, Shape.parts])
    have hv := deep right (by simp [Node.shape, Shape.parts])
    have scalar := yields h' (matches_scalarAssign (l := left) (k := left.unplaced)
      (n := .mk mark (.assign left right)) (m := (Node.mk mark (.assign left right)).unplaced) h' hd hr)
    rw [h'.arrayLength? hd]
    obtain ⟨mark', shape'⟩ := right
    cases shape' with
    | arrayInit values =>
      cases c'.arrayLength? dst with
      | none => exact scalar
      | some length =>
        have listed := yields h' (matches_arrayAssign (i := .mk mark' (.arrayInit values))
          (j := (Node.mk mark' (.arrayInit values)).unplaced) h' values hd hv length)
        simpa only [Node.unplaced, Node.shape, Node.unplacedShape, Node.unplacedAll_eq_map] using listed
    | _ => exact scalar
  | _ => trivial

/-! ### All expressions -/

theorem matches_rule (hn : n.production.isOwn = false) (hp : ∀ m ∈ n.shape.parts, Unplaceable low m)
    (deep : ∀ m ∈ n.shape.parts, ∀ k ∈ m.shape.parts, Unplaceable low k) (h : c.Beside d) :
    Matches c d (rule low n) (rule low n.unplaced) Yield := by
  have same : n.unplaced.production = n.production := by
    obtain ⟨mark, shape⟩ := n
    rfl
  unfold rule
  rw [same]
  cases hr : n.production with
  | assignment => exact matches_assignment hp deep h
  | logicalOr | logicalAnd | equality | relational | additive | multiplicative =>
    exact matches_binary hp h
  | unary => exact matches_unary hp h
  | suffix => exact matches_suffix hp h
  | call => exact matches_call hp h
  | identifier => exact matches_identifier h
  | literal => exact matches_literal h
  | arrayInit | type | varItem | statement | expr | primary | other => exact matches_fail
  | _ =>
    rw [hr] at hn
    cases hn

/-- No expression comes of a production that makes statements or definitions. -/
theorem expr_of_isOwn (h : n.production.isOwn = true) (c : Context) :
    ∃ e, expr (lower g) n c = .error e := by
  cases hx : expr (lower g) n c with
  | error e => exact ⟨e, rfl⟩
  | ok r =>
    obtain ⟨l, d, hl, hx⟩ := bind_eq_ok.1 hx
    cases l with
    | expr e =>
      rw [lower_eq] at hl
      exact absurd hl (noExpr_lowerStep h _ _ _)
    | stmt s => cases hx
    | declared => cases hx

end

end Lower

/-- **Places have no part in what an expression is lowered to**, and the table of strings has no part
but for the numbers of literals. -/
theorem unplaceable (g : Grammar) (n : Node) : Lower.Unplaceable (lower g) n := by
  have ih : ∀ m, m.height < n.height → Lower.Unplaceable (lower g) m := fun m _ => unplaceable g m
  have hp : ∀ m ∈ n.shape.parts, Lower.Unplaceable (lower g) m :=
    fun m hm => ih m (Node.height_lt_of_mem_parts hm)
  -- The rule of an expression looks at most at the parts of its parts.
  have deep : ∀ m ∈ n.shape.parts, ∀ k ∈ m.shape.parts, Lower.Unplaceable (lower g) k :=
    fun m hm k hk => ih k
      (Nat.lt_trans (Node.height_lt_of_mem_parts hk) (Node.height_lt_of_mem_parts hm))
  have same : n.unplaced.production = n.production := by
    obtain ⟨mark, shape⟩ := n
    rfl
  intro c d h
  cases hn : n.production.isOwn with
  | true =>
    obtain ⟨e, he⟩ := Lower.expr_of_isOwn (g := g) hn c
    obtain ⟨e', he'⟩ := Lower.expr_of_isOwn (g := g) (same ▸ hn : n.unplaced.production.isOwn = true) d
    unfold Lower.Matches
    rw [he, he']
    trivial
  | false =>
    have step : Lower.Matches c d (lower g n) (lower g n.unplaced) Lower.Yield := by
      rw [lower_eq, lower_eq, lowerStep, lowerStep, same]
      split
      · trivial
      · split
        · exact Lower.matches_rule hn hp deep h
        · trivial
    refine step.bind h fun l l' c' d' _ _ _ hl => ?_
    obtain ⟨e, e', rfl, rfl, he⟩ := hl
    exact Lower.matches_pure he
termination_by n.height

/-- **Trees that differ in their places only are lowered to the same code**, in contexts beside each
other. -/
theorem lowerExpr_same (g : Grammar) {n n' : Node} (hn : n.unplaced = n'.unplaced) {c d : Context}
    (h : c.Beside d) : Lower.Matches c d (lowerExpr g n) (lowerExpr g n') Expr.Same := by
  -- Both come to what the tree without places comes to beside them, where no number stands for two texts.
  obtain ⟨k, hck, hdk, indexed, known⟩ := h.exists_indexed
  have left := (unplaceable g n hck).cases
  have right := (unplaceable g n' hdk).cases
  rw [hn] at left
  rcases left with ⟨e, c', u, k', hx, hu, ⟨texts, hc, hk⟩, he⟩ | ⟨r, r', hx, hu⟩ <;>
    rcases right with ⟨e', d', u', k'', hx', hu', ⟨texts', hd, hk'⟩, he'⟩ | ⟨q, q', hx', hu'⟩
  · obtain ⟨rfl, rfl⟩ := Prod.mk.inj (Except.ok.inj (hu.symm.trans hu'))
    have added : ∀ text, (d'.program.string? text).isSome ↔
        (d.program.string? text).isSome ∨ text ∈ texts := by
      intro text
      have one := hk.program.found text
      have other := hk'.program.found text
      have inBoth := known text
      rw [hd.program.found]
      tauto
    exact Lower.Matches.of_ok hx hx' ⟨texts, hc, hd.beside, { hd.program with found := added }⟩
      (he.trans (hk.program.indexed indexed) he'.symm)
  · cases hu.symm.trans hu'
  · cases hu.symm.trans hu'
  · exact Lower.Matches.of_error hx hx'

end MiniC
