/-
  Spellings of one meaning: `p->f` and `(*p).f`, `a[i]` and `i[a]`, `a[i]` and `*(a + i)`.

  The first two pairs come to the same code.  The third pair does not: a subscript is one operation and
  looks for the null pointer once its operands have values, and `*(a + i)` is two operations, of which
  the second looks for the null pointer after the offset.  So the two part where `a` is null, or where
  the offset leads to the address 0, and nowhere else.

  * `Lower.matches_arrow` and `Lower.matches_turned`: the pairs with the same code.
  * `Lower.element_cases`: what `a[i]` and `*(a + i)` come to, in one context.
  * `execute_element`: the two operations do the same and lead to the same place.
  * `spellings_agree`: all of it.
-/
import MiniC.Proofs.PointerArithmetic
import MiniC.Proofs.SameCode

namespace MiniC

/-- The trees of a production can be lowered. -/
def Grammar.Lowers (g : Grammar) (p : Production) : Prop :=
  ∃ entry, g.find? p = some entry ∧ entry.lowers = true

/-! ## The spellings -/

namespace Node

/-- The tree of `p->f`. -/
def arrow (p : Node) (field : String) (loc : Location) : Node := .mk ⟨.suffix, loc⟩ (.pointerMember p field)

/-- The tree of `*p`. -/
def star (p : Node) (loc : Location) : Node := .mk ⟨.unary, loc⟩ (.deref p)

/-- The tree of `o.f`. -/
def dot (o : Node) (field : String) (loc : Location) : Node := .mk ⟨.suffix, loc⟩ (.member o field)

/-- The tree of `a[i]`. -/
def element (a i : Node) (loc : Location) : Node := .mk ⟨.suffix, loc⟩ (.index a i)

/-- The tree of `a + i`. -/
def plus (a i : Node) (loc : Location) : Node := .mk ⟨.additive, loc⟩ (.binary .add a i)

end Node

/-- An element of an array, and what an offset leads to, by the same pointer and the same number. -/
inductive Expr.Element (base index : Expr) (scale : Nat) : Expr → Expr → Prop
  | mk (t : Ty) (l l' l'' : Location) : base.ty.pointee = some t →
    Element base index scale (.mk (.index base index scale) t l)
      (.mk (.deref (.mk (.pointerOffset base index scale false) base.ty l'')) t l')

namespace Lower
variable {g : Grammar} {c d : Context}

theorem rule_of_lowers {n : Node} (h : g.Lowers n.production) : lower g n = rule (lower g) n := by
  obtain ⟨entry, found, lowers⟩ := h
  rw [lower_eq, lowerStep, found]
  exact if_pos lowers

theorem value_same (g : Grammar) {n n' : Node} (hn : n.unplaced = n'.unplaced) (h : c.Beside d) :
    Matches c d (value (lower g) n) (value (lower g) n') Expr.Same := by
  refine (lowerExpr_same g hn h).bind h fun e e' c' d' _ _ _ he => ?_
  exact matches_guard (by rw [he.ty]) fun _ => matches_pure he

theorem Matches.expr {n n' : Node} (h : c.Beside d) (hs : Matches c d (lower g n) (lower g n') Yield) :
    Matches c d (lowerExpr g n) (lowerExpr g n') Expr.Same := by
  refine hs.bind h fun l l' c' d' _ _ _ hl => ?_
  obtain ⟨e, e', rfl, rfl, he⟩ := hl
  exact matches_pure he

/-! ### Members -/

theorem lowerExpr_star (h : g.Lowers .unary) (p : Node) (loc : Location) :
    lowerExpr g (.star p loc) = (do
      let e ← value (lower g) p
      let t ← require e.ty.pointee (.dereferenced e.ty) loc
      pure (.mk (.deref e) t loc)) := by
  have rule : lower g (.star p loc) = deref (lower g) p (.star p loc) := rule_of_lowers h
  unfold lowerExpr expr
  rw [rule, deref]
  simp only [bind_assoc, expression, pure_bind]
  rfl

/-- `p->f` and `(*p).f` come to the same code. -/
theorem matches_arrow (hs : g.Lowers .suffix) (hu : g.Lowers .unary) {p p' : Node}
    (hp : p.unplaced = p'.unplaced) (field : String) (l l' l'' : Location) (h : c.Beside d) :
    Matches c d (lowerExpr g (.arrow p field l)) (lowerExpr g (.dot (.star p' l'') field l'))
      Expr.Same := by
  have left : lower g (.arrow p field l) = suffix (lower g) (.arrow p field l) := rule_of_lowers hs
  have right : lower g (.dot (.star p' l'') field l') = (lowerExpr g (.star p' l'') >>= fun o =>
      member o field (.dot (.star p' l'') field l')) := rule_of_lowers hs
  refine .expr h ?_
  rw [left, right, lowerExpr_star hu, bind_assoc]
  refine (value_same g hp h).bind h fun e e' c' d' h' _ _ he => ?_
  have same : e'.ty.pointee = e.ty.pointee := by rw [he.ty]
  cases ht : e.ty.pointee with
  | none =>
    rw [ht] at same
    simp only [same]
    trivial
  | some t =>
    rw [ht] at same
    simp only [same, require, pure_bind]
    have object : Expr.Same c'.program d'.program (.mk (.deref e) t l)
        (.mk (.deref e') t l'') := .one (f := .deref) (by simp) (by simp) he _ _ _
    cases hname : t.structName? with
    | none =>
      refine .of_error rfl (bind_of_error (e := ⟨.memberOfNoStruct field, l'⟩) ?_ _)
      change require t.structName? _ _ d' = _
      rw [hname]
      rfl
    | some name => exact matches_member h' object field

/-! ### Elements -/

/-- The two sides of a bracket are a pointer and a number. -/
def Subscripts (base index : Expr) : Prop :=
  base.ty.isPointer = true ∧ index.ty.isArithmetic = true

theorem Subscripts.not_swapped {base index : Expr} (h : Subscripts base index) :
    ¬ Subscripts index base := fun h' => Ty.not_isArithmetic_of_isPointer h.1 h'.2

theorem subscript_of_left {l r : Expr} (h : Subscripts l r) (n : Node) :
    subscript l r n = indexed l r n := by
  have arithmetic := Ty.not_isArithmetic_of_isPointer h.1
  unfold subscript
  simp only [h.1, h.2, Bool.eq_false_iff.2 arithmetic, Bool.false_and, Bool.false_eq_true, if_false,
    not_true, or_self]
  rfl

theorem subscript_of_right {l r : Expr} (h : Subscripts r l) (n : Node) :
    subscript l r n = indexed r l n := by
  unfold subscript
  simp only [h.1, h.2, Bool.and_self, if_true, not_true, or_self, if_false]
  rfl

theorem subscript_of_neither {l r : Expr} (h : ¬ Subscripts l r) (h' : ¬ Subscripts r l) (n : Node) :
    subscript l r n = fail .notSubscriptable n.start := by
  unfold Subscripts at h h'
  unfold subscript
  have left : (l.ty.isArithmetic && r.ty.isPointer) = false := by
    rw [Bool.and_comm, ← Bool.not_eq_true, Bool.and_eq_true]
    exact h'
  simp only [left, Bool.false_eq_true, if_false, ← not_and_or, h, not_false_eq_true, if_true]
  rfl

/-- It does not matter on which side of the bracket the pointer stands. -/
theorem subscript_comm (l r : Expr) (n : Node) : subscript l r n = subscript r l n := by
  by_cases left : Subscripts l r
  · rw [subscript_of_left left, subscript_of_right left]
  · by_cases right : Subscripts r l
    · rw [subscript_of_right right, subscript_of_left right]
    · rw [subscript_of_neither left right, subscript_of_neither right left]

/-- Two operands come to the same in either order. -/
theorem Matches.turned {α β : Type} {x y x' y' : Lower Expr} {k : Expr → Expr → Lower α}
    {k' : Expr → Expr → Lower β} {R : Program → Program → α → β → Prop}
    (hx : ∀ {c d : Context}, c.Beside d → Matches c d x x' Expr.Same)
    (hy : ∀ {c d : Context}, c.Beside d → Matches c d y y' Expr.Same) (h : c.Beside d)
    (hk : ∀ {a a' b b' : Expr} {c d : Context}, c.Beside d →
      Expr.Same c.program d.program a a' →
      Expr.Same c.program d.program b b' → Matches c d (k a b) (k' b' a') R) :
    Matches c d (x >>= fun a => y >>= fun b => k a b) (y' >>= fun b => x' >>= fun a => k' b a) R := by
  rcases (hx h).cases with ⟨a, c₁, -, -, hxa, -, ⟨texts, hc₁, -⟩, -⟩ | ⟨e, -, hxe, -⟩
  · rcases (hy (hc₁.beside.symm.trans h)).cases with
      ⟨b, c₂, b', d₁, hyb, hyb', ⟨texts₂, hc₂, hd₁⟩, hb⟩ | ⟨e, e', hye, hye'⟩
    · -- The first operand once more, now behind the second one.
      have h₁ := h.trans hd₁.beside
      rcases (hx h₁).cases with ⟨a₀, c₀, a', d₂, hxa₀, hxa', ⟨texts₁, hc₀, hd₂⟩, ha⟩ | ⟨e, e', hxe, -⟩
      · obtain ⟨rfl, rfl⟩ := Prod.mk.inj (Except.ok.inj (hxa.symm.trans hxa₀))
        have h₂ : c₂.Beside d₂ :=
          hc₂.beside.symm.trans (hc₁.beside.symm.trans (h₁.trans hd₂.beside))
        have added : ∃ texts, c.Spelled texts c₂ ∧ d.Spelled texts d₂ := by
          refine ⟨texts₁ ++ texts₂, hc₀.trans hc₂, ?_⟩
          have both := hd₁.trans hd₂
          refine ⟨both.beside, { both.program with found := fun text => ?_ }⟩
          rw [both.program.found, List.mem_append, List.mem_append, or_comm (a := text ∈ texts₂)]
        rcases (hk h₂ (ha.extend hc₂.program.grows (.refl _))
            (hb.extend (.refl _) hd₂.program.grows)).cases with
          ⟨r, c₃, r', d₃, hr, hr', ⟨more, hc₃, hd₃⟩, hq⟩ | ⟨e, e', he, he'⟩
        · obtain ⟨texts, hc, hd⟩ := added
          exact .of_ok (bind_of_ok hxa (bind_of_ok hyb hr)) (bind_of_ok hyb' (bind_of_ok hxa' hr'))
            ⟨texts ++ more, hc.trans hc₃, hd.trans hd₃⟩ hq
        · exact .of_error (bind_of_ok hxa (bind_of_ok hyb he)) (bind_of_ok hyb' (bind_of_ok hxa' he'))
      · cases hxa.symm.trans hxe
    · exact .of_error (bind_of_ok hxa (bind_of_error hye _)) (bind_of_error hye' _)
  · rcases (hy h).cases with ⟨-, -, b', d₁, -, hyb', ⟨texts, -, hd₁⟩, -⟩ | ⟨-, e', -, hye'⟩
    · rcases (hx (h.trans hd₁.beside)).cases with ⟨a, c₁, -, -, hxa, -⟩ | ⟨-, e', -, hxe'⟩
      · cases hxe.symm.trans hxa
      · exact .of_error (bind_of_error hxe _) (bind_of_ok hyb' (bind_of_error hxe' _))
    · exact .of_error (bind_of_error hxe _) (bind_of_error hye' _)

theorem lower_element (h : g.Lowers .suffix) (a i : Node) (loc : Location) :
    lower g (.element a i loc) = (do
      let l ← value (lower g) a
      let r ← value (lower g) i
      subscript l r (.element a i loc)) := rule_of_lowers h

/-- `a[i]` and `i[a]` come to the same code. -/
theorem matches_turned (h : g.Lowers .suffix) {a a' i i' : Node} (ha : a.unplaced = a'.unplaced)
    (hi : i.unplaced = i'.unplaced) (l l' : Location) (hcd : c.Beside d) :
    Matches c d (lowerExpr g (.element a i l)) (lowerExpr g (.element i' a' l')) Expr.Same := by
  refine .expr hcd ?_
  rw [lower_element h, lower_element h]
  refine .turned (fun h => value_same g ha h) (fun h => value_same g hi h) hcd ?_
  intro A A' I I' c d hcd hA hI
  rw [subscript_comm I' A']
  exact matches_subscript hcd hA hI

/-! ### Offsets -/

theorem lower_plus (h : g.Lowers .additive) (a i : Node) (loc : Location) :
    lower g (.plus a i loc) = (do
      let l ← value (lower g) a
      let r ← value (lower g) i
      combine .add l r (.plus a i loc)) := rule_of_lowers h

theorem sizeOf_cases (t : Ty) (c : Context) : (∃ scale, ∀ loc, sizeOf t loc c = .ok (scale, c)) ∨
    ∀ loc, sizeOf t loc c = .error ⟨.unknownSize t, loc⟩ := by
  have asked : ∀ loc, sizeOf t loc c = require (c.program.sizeOf? t) (.unknownSize t) loc c :=
    fun _ => rfl
  simp only [asked]
  cases c.program.sizeOf? t with
  | none => exact .inr fun _ => rfl
  | some scale => exact .inl ⟨scale, fun _ => rfl⟩

/-- Where a pointer has an element, it has an offset, and the other way round. -/
theorem indexed_cases (base index : Expr) (n n' : Node) (c : Context) :
    (∃ e e', indexed base index n c = .error e ∧ pointerOffset base index false n' c = .error e') ∨
    ∃ t scale, base.ty.pointee = some t ∧
      indexed base index n c = .ok (.expr (.mk (.index base index scale) t n.start), c) ∧
      pointerOffset base index false n' c =
        .ok (.expr (.mk (.pointerOffset base index scale false) base.ty n'.start), c) := by
  unfold indexed pointerOffset
  cases ht : base.ty.pointee with
  | none => exact .inl ⟨_, _, rfl, rfl⟩
  | some t =>
    cases hv : t.isVoid with
    | true =>
      refine .inl ⟨⟨.voidElement, n.start⟩, ⟨.voidArithmetic, n'.start⟩, ?_, ?_⟩
      all_goals
        simp only [hv, if_true]
        rfl
    | false =>
      simp only [hv, Bool.false_eq_true, if_false]
      rcases sizeOf_cases t c with ⟨scale, known⟩ | unknown
      · exact .inr ⟨t, scale, rfl, bind_of_ok (known _) rfl, bind_of_ok (known _) rfl⟩
      · exact .inl ⟨_, _, bind_of_error (unknown _) _, bind_of_error (unknown _) _⟩

/-- A sum that is no pointer cannot be dereferenced, so it fails where the subscript does. -/
theorem combine_of_neither {l r : Expr} (h : ¬ Subscripts l r) (h' : ¬ Subscripts r l) (n : Node)
    (c : Context) : (∃ e, combine .add l r n c = .error e) ∨
      combine .add l r n c = .ok (.expr (.mk (.binary .add l r) Ty.int n.start), c) := by
  unfold Subscripts at h h'
  have turned : ¬ (l.ty.isArithmetic = true ∧ r.ty.isPointer = true) := fun both => h' both.symm
  unfold combine
  dsimp only
  rw [if_neg h, if_neg turned]
  split
  · exact .inr rfl
  · exact .inl ⟨_, rfl⟩

theorem combine_of_left {l r : Expr} (h : Subscripts l r) (n : Node) :
    combine .add l r n = pointerOffset l r false n := by
  unfold Subscripts at h
  have mixed : ¬ (l.ty.isArithmetic = true ∧ r.ty.isArithmetic = true) := fun both =>
    Ty.not_isArithmetic_of_isPointer h.1 both.1
  unfold combine
  dsimp only
  rw [if_neg mixed, if_pos h]

theorem combine_of_right {l r : Expr} (h : Subscripts r l) (n : Node) :
    combine .add l r n = pointerOffset r l false n := by
  have turned : l.ty.isArithmetic = true ∧ r.ty.isPointer = true := ⟨h.2, h.1⟩
  have other : ¬ (l.ty.isPointer = true ∧ r.ty.isArithmetic = true) := h.not_swapped
  have mixed : ¬ (l.ty.isArithmetic = true ∧ r.ty.isArithmetic = true) := fun both =>
    Ty.not_isArithmetic_of_isPointer h.1 both.2
  unfold combine
  dsimp only
  rw [if_neg mixed, if_neg other, if_pos turned]

theorem lowerExpr_of_ok {n : Node} {e : Expr} (h : lower g n c = .ok (.expr e, d)) :
    lowerExpr g n c = .ok (e, d) := bind_of_ok h rfl

theorem lowerExpr_of_error {n : Node} {r : CompileError} (h : lower g n c = .error r) :
    lowerExpr g n c = .error r := bind_of_error h _

theorem value_of_error {n : Node} {r : CompileError} (h : lower g n c = .error r) :
    value (lower g) n c = .error r := bind_of_error (lowerExpr_of_error h) _

theorem value_of_ok {n : Node} {e : Expr} (h : lower g n c = .ok (.expr e, d))
    (hv : e.ty.isVoid = false) : value (lower g) n c = .ok (e, d) := by
  refine bind_of_ok (lowerExpr_of_ok h) ?_
  rw [hv]
  rfl

theorem element_of_pair (hu : g.Lowers .unary) {a i : Node} {l l' l'' : Location}
    {base index : Expr} (h : Subscripts base index)
    (left : lower g (.element a i l) c = indexed base index (.element a i l) d)
    (right : lower g (.plus a i l'') c = pointerOffset base index false (.plus a i l'') d) :
    (∃ r r', lowerExpr g (.element a i l) c = .error r ∧
      lowerExpr g (.star (.plus a i l'') l') c = .error r') ∨
    ∃ scale e e', Expr.Element base index scale e e' ∧
      lowerExpr g (.element a i l) c = .ok (e, d) ∧
      lowerExpr g (.star (.plus a i l'') l') c = .ok (e', d) := by
  rw [lowerExpr_star hu]
  rcases indexed_cases base index (.element a i l) (.plus a i l'') d with
    ⟨r, r', hl, hr⟩ | ⟨t, scale, ht, hl, hr⟩
  · exact .inl ⟨r, r', lowerExpr_of_error (left.trans hl),
      bind_of_error (value_of_error (right.trans hr)) _⟩
  · refine .inr ⟨scale, _, _, ⟨t, l, l', l'', ht⟩, lowerExpr_of_ok (left.trans hl), ?_⟩
    refine bind_of_ok (value_of_ok (right.trans hr) ?_) (bind_of_ok (a := t) (k := d) ?_ rfl)
    · exact Ty.isVoid_of_isScalar (Ty.isScalar_of_isPointer h.1)
    · change require base.ty.pointee _ _ d = _
      rw [ht]
      rfl

theorem lowerExpr_of_value {n : Node} {e : Expr} (h : value (lower g) n c = .ok (e, d)) :
    lowerExpr g n c = .ok (e, d) := by
  obtain ⟨e', c', he, hv⟩ := bind_eq_ok.1 h
  split at hv
  · cases hv
  · cases hv
    exact he

/-- **What `a[i]` and `*(a + i)` come to**: both to nothing, or to an element and to what an offset
leads to, of one pointer and one number. -/
theorem element_cases (hs : g.Lowers .suffix) (hu : g.Lowers .unary) (ha : g.Lowers .additive)
    (a i : Node) (l l' l'' : Location) (c : Context) :
    (∃ r r', lowerExpr g (.element a i l) c = .error r ∧
      lowerExpr g (.star (.plus a i l'') l') c = .error r') ∨
    ∃ A I c₁ c₂ base index scale e e', value (lower g) a c = .ok (A, c₁) ∧
      value (lower g) i c₁ = .ok (I, c₂) ∧
      (base = A ∧ index = I ∨ base = I ∧ index = A) ∧ Subscripts base index ∧
      Expr.Element base index scale e e' ∧
      lowerExpr g (.element a i l) c = .ok (e, c₂) ∧
      lowerExpr g (.star (.plus a i l'') l') c = .ok (e', c₂) := by
  cases hA : value (lower g) a c with
  | error r =>
    rw [lowerExpr_star hu]
    refine .inl ⟨r, r, lowerExpr_of_error ?_, bind_of_error (value_of_error ?_) _⟩
    · exact lower_element hs a i l ▸ bind_of_error hA _
    · exact lower_plus ha a i l'' ▸ bind_of_error hA _
  | ok p =>
    obtain ⟨A, c₁⟩ := p
    cases hI : value (lower g) i c₁ with
    | error r =>
      rw [lowerExpr_star hu]
      refine .inl ⟨r, r, lowerExpr_of_error ?_, bind_of_error (value_of_error ?_) _⟩
      · exact lower_element hs a i l ▸ bind_of_ok hA (bind_of_error hI _)
      · exact lower_plus ha a i l'' ▸ bind_of_ok hA (bind_of_error hI _)
    | ok q =>
      obtain ⟨I, c₂⟩ := q
      have left : lower g (.element a i l) c = subscript A I (.element a i l) c₂ :=
        lower_element hs a i l ▸ bind_of_ok hA (bind_of_ok hI rfl)
      have right : lower g (.plus a i l'') c = combine .add A I (.plus a i l'') c₂ :=
        lower_plus ha a i l'' ▸ bind_of_ok hA (bind_of_ok hI rfl)
      by_cases first : Subscripts A I
      · rw [subscript_of_left first] at left
        rw [combine_of_left first] at right
        refine (element_of_pair hu first left right).imp id fun ⟨scale, e, e', he⟩ => ?_
        exact ⟨A, I, c₁, c₂, A, I, scale, e, e', rfl, hI, .inl ⟨rfl, rfl⟩, first, he⟩
      by_cases second : Subscripts I A
      · rw [subscript_of_right second] at left
        rw [combine_of_right second] at right
        refine (element_of_pair hu second left right).imp id fun ⟨scale, e, e', he⟩ => ?_
        exact ⟨A, I, c₁, c₂, I, A, scale, e, e', rfl, hI, .inr ⟨rfl, rfl⟩, second, he⟩
      · rw [subscript_of_neither first second] at left
        rw [lowerExpr_star hu]
        rcases combine_of_neither first second (.plus a i l'') c₂ with ⟨r, sum⟩ | sum
        · exact .inl ⟨_, r, lowerExpr_of_error left, bind_of_error (value_of_error (right.trans sum)) _⟩
        · refine .inl ⟨_, ⟨.dereferenced Ty.int, l'⟩, lowerExpr_of_error left, ?_⟩
          exact bind_of_ok (value_of_ok (right.trans sum) rfl) (bind_of_error rfl _)

end Lower

/-! ## Execution -/

/-- A fault without its place. -/
def Fault.unplaced : Fault → Fault
  | memory e _ => .memory e .nowhere
  | nullDereference _ => .nullDereference .nowhere
  | divisionByZero _ => .divisionByZero .nowhere
  | overflow operator _ => .overflow operator .nowhere
  | invalidFree a _ => .invalidFree a .nowhere
  | invalidSize size _ => .invalidSize size .nowhere
  | stackOverflow limit _ => .stackOverflow limit .nowhere
  | notAnArray _ => .notAnArray .nowhere
  | lowering e => .lowering { e with loc := .nowhere }
  | unsupportedValue ty _ => .unsupportedValue ty .nowhere
  | notAddressable _ => .notAddressable .nowhere
  | unbound name _ => .unbound name .nowhere
  | f => f

/-- Why a run stops, without places. -/
def Stop.unplaced : Stop → Stop
  | .fault f => .fault f.unplaced
  | s => s

/-- A run that tells of its faults without places. -/
def Run.unplaced {α : Type} (x : Run α) : Run α := fun m =>
  match x m with
  | .ok a n => .ok a n
  | .error s n => .error s.unplaced n

namespace Run
variable {α : Type} {x : Run α} {m n : Machine}

theorem unplaced_of_ok {a : α} (h : x m = .ok a n) : x.unplaced m = .ok a n := by
  unfold unplaced
  rw [h]

theorem unplaced_of_error {s : Stop} (h : x m = .error s n) : x.unplaced m = .error s.unplaced n := by
  unfold unplaced
  rw [h]

theorem unplaced_bind_congr {β : Type} {f g : α → Run β}
    (h : ∀ a n, x m = .ok a n → (f a).unplaced n = (g a).unplaced n) :
    (x >>= f).unplaced m = (x >>= g).unplaced m := by
  cases hx : x m with
  | error s n => rw [unplaced_of_error (bind_of_error hx), unplaced_of_error (bind_of_error hx)]
  | ok a n =>
    have next : ∀ k : α → Run β, (x >>= k).unplaced m = (k a).unplaced n := fun k => by
      unfold unplaced
      rw [bind_of_ok hx]
    rw [next f, next g]
    exact h a n hx

/-- Whether there is an address does not depend on where it is asked for. -/
theorem offsetAddress_cases (v : Value) (w : Word) (scale : Nat) :
    (∃ a, ∀ loc m, offsetAddress v w scale false loc m = .ok a m) ∨
    ∀ loc m, offsetAddress v w scale false loc m = .error (.fault (.overflow "+" loc)) m := by
  have asked : ∀ loc m, offsetAddress v w scale false loc m = require
      (Address.ofInt? (v.address.wide + w.toInt64 * Int64.ofNat scale).toInt) (.overflow "+" loc) m :=
    fun _ _ => rfl
  simp only [asked]
  cases Address.ofInt? (v.address.wide + w.toInt64 * Int64.ofNat scale).toInt with
  | none => exact .inr fun _ _ => rfl
  | some a => exact .inl ⟨a, fun _ _ => rfl⟩

end Run

theorem Value.pointer_ne_null {ty : Ty} {a : Address} (h : a ≠ 0) : (Value.pointer ty a).word ≠ 0 := by
  intro null
  apply h
  rw [← address_pointer ty a, address, null]
  rfl

/-- The pointer does not come to the null pointer, and the element does not lie at the address 0. -/
def Engine.Reaches (engine : Engine) (base index : Expr) (scale : Nat) (m : Machine) : Prop :=
  ∀ v m₁, engine.solve base m = .ok v m₁ → v.word ≠ 0 ∧
    ∀ w m₂, engine.solve index m₁ = .ok w m₂ → ∀ loc,
      Run.offsetAddress v w.word scale false loc m₂ ≠ .ok 0 m₂

/-- The place of an element, by the values of the pointer and the number. -/
def Run.elementPlace (v : Value) (w : Word) (scale : Nat) (ty : Ty) (loc : Location) : Run Resolved := do
  if v.word = 0 then fault (.nullDereference loc)
  let a ← offsetAddress v w scale false loc
  return .place ⟨a, ty, false⟩

/-- The place that an offset leads to. -/
def Run.offsetPlace (v : Value) (w : Word) (scale : Nat) (pointer ty : Ty) (loc loc' : Location) :
    Run Resolved := do
  let a ← offsetAddress v w scale false loc
  let p := Value.pointer pointer a
  if p.word = 0 then fault (.nullDereference loc')
  return .place ⟨p.address, ty, false⟩

theorem Run.elementPlace_unplaced {v : Value} {w : Word} {scale : Nat} {m : Machine} (hv : v.word ≠ 0)
    (ha : ∀ loc, offsetAddress v w scale false loc m ≠ .ok 0 m) (pointer ty : Ty)
    (l l' l'' : Location) : (elementPlace v w scale ty l).unplaced m =
      (offsetPlace v w scale pointer ty l' l'').unplaced m := by
  unfold elementPlace offsetPlace
  rw [if_neg hv]
  rcases offsetAddress_cases v w scale with ⟨a, found⟩ | none
  · have notNull : (Value.pointer pointer a).word ≠ 0 :=
      Value.pointer_ne_null fun zero => ha l (zero ▸ found l m)
    have left : (offsetAddress v w scale false l >>= fun a =>
        (pure (.place ⟨a, ty, false⟩) : Run Resolved)) m = .ok (.place ⟨a, ty, false⟩) m :=
      bind_of_ok (found l m)
    have right : (do
        let a ← offsetAddress v w scale false l'
        let p := Value.pointer pointer a
        if p.word = 0 then fault (.nullDereference l'')
        return .place ⟨p.address, ty, false⟩ : Run Resolved) m = .ok (.place ⟨a, ty, false⟩) m := by
      refine (bind_of_ok (found l' m)).trans ?_
      simp only [if_neg notNull, Value.address_pointer]
      rfl
    rw [unplaced_of_ok left, unplaced_of_ok right]
  · rw [unplaced_of_error (bind_of_error (none l m)), unplaced_of_error (bind_of_error (none l' m))]
    rfl

section
variable {env : Env} {fuel : Nat} {base index e e' : Expr} {scale : Nat} {m : Machine}

theorem execute_index (t : Ty) (l : Location) :
    execute env (fuel + 1) (.mk (.index base index scale) t l) = (do
      let v ← (engine env fuel).solve base
      let w ← (engine env fuel).solve index
      Run.elementPlace v w.word scale t l) := rfl

theorem execute_star_plus (pointer t : Ty) (l l' : Location) :
    execute env (fuel + 2) (.mk (.deref (.mk (.pointerOffset base index scale false) pointer l)) t l') =
      (do
        let v ← (engine env fuel).solve base
        let w ← (engine env fuel).solve index
        Run.offsetPlace v w.word scale pointer t l l') := by
  have rule : execute env (fuel + 2)
      (.mk (.deref (.mk (.pointerOffset base index scale false) pointer l)) t l') = (do
        let r ← (do
          let v ← (engine env fuel).solve base
          let w ← (engine env fuel).solve index
          let a ← Run.offsetAddress v w.word scale false l
          return .value (.pointer pointer a))
        let p ← Run.load r l
        if p.word = 0 then Run.fault (.nullDereference l')
        return .place ⟨p.address, t, false⟩) := bind_assoc ..
  rw [rule]
  simp only [bind_assoc, pure_bind, Run.load]
  rfl

/-- **An element is what the offset leads to**: both are found with the same effects, and are the same
place, or both fail for the same reason. -/
theorem execute_element (he : Expr.Element base index scale e e')
    (h : (engine env fuel).Reaches base index scale m) :
    (execute env (fuel + 1) e).unplaced m = (execute env (fuel + 2) e').unplaced m := by
  obtain ⟨t, l, l', l'', -⟩ := he
  rw [execute_index, execute_star_plus]
  refine Run.unplaced_bind_congr fun v m₁ hv => Run.unplaced_bind_congr fun w m₂ hw => ?_
  obtain ⟨notNull, next⟩ := h v m₁ hv
  exact Run.elementPlace_unplaced notNull (next w m₂ hw) ..

/-- What is found is a place of the element's type. -/
theorem place_of_element (he : Expr.Element base index scale e e') {r : Resolved} {n : Machine}
    (hr : execute env (fuel + 1) e m = .ok r n) : ∃ a, r = .place ⟨a, e.ty, false⟩ := by
  obtain ⟨t, l, l', l'', -⟩ := he
  rw [execute_index] at hr
  simp only [Run.bind_eq_ok, Run.elementPlace] at hr
  obtain ⟨v, m₁, -, w, m₂, -, hr⟩ := hr
  split at hr
  · cases hr
  · obtain ⟨a, m₃, -, hr⟩ := Run.bind_eq_ok.1 hr
    cases hr
    exact ⟨a, rfl⟩

end

/-- **Spellings of one meaning agree.**  In every context and for all operands `p->f` and `(*p).f` are
both refused or come to the same code, and so are `a[i]` and `i[a]`: the same but for places, with the
same texts where the code has string literals, which `a[i]` and `i[a]` may number in another order.
`a[i]` and `*(a + i)` are both refused or both accepted, with one operand for the pointer and the
other for the number; and in every state in which the pointer is not null and the element does not lie
at the address 0, both have the same effects and lead to the same place, or both fail for the same
reason. -/
theorem spellings_agree {g : Grammar} (hs : g.Lowers .suffix) (hu : g.Lowers .unary)
    (ha : g.Lowers .additive) (c : Context) (l l' l'' : Location) :
    (∀ (p p' : Node) (field : String), p.unplaced = p'.unplaced →
      Lower.Matches c c (lowerExpr g (.arrow p field l)) (lowerExpr g (.dot (.star p' l'') field l'))
        Expr.Same) ∧
    (∀ a i a' i' : Node, a.unplaced = a'.unplaced → i.unplaced = i'.unplaced →
      Lower.Matches c c (lowerExpr g (.element a i l)) (lowerExpr g (.element i' a' l')) Expr.Same) ∧
    ∀ a i : Node,
      (∃ r r', lowerExpr g (.element a i l) c = .error r ∧
        lowerExpr g (.star (.plus a i l'') l') c = .error r') ∨
      ∃ A I c₁ c₂ base index scale e e', lowerExpr g a c = .ok (A, c₁) ∧
        lowerExpr g i c₁ = .ok (I, c₂) ∧ (base = A ∧ index = I ∨ base = I ∧ index = A) ∧
        Expr.Element base index scale e e' ∧ lowerExpr g (.element a i l) c = .ok (e, c₂) ∧
        lowerExpr g (.star (.plus a i l'') l') c = .ok (e', c₂) ∧
        ∀ (env : Env) (fuel : Nat) (m : Machine), (engine env fuel).Reaches base index scale m →
          (execute env (fuel + 1) e).unplaced m = (execute env (fuel + 2) e').unplaced m ∧
          ∀ r n, execute env (fuel + 1) e m = .ok r n → ∃ a, r = .place ⟨a, e.ty, false⟩ := by
  refine ⟨fun p p' field hp => Lower.matches_arrow hs hu hp field l l' l'' (.refl c),
    fun a i a' i' h h' => Lower.matches_turned hs h h' l l' (.refl c), fun a i => ?_⟩
  refine (Lower.element_cases hs hu ha a i l l' l'' c).imp id ?_
  rintro ⟨A, I, c₁, c₂, base, index, scale, e, e', hA, hI, sides, -, element, left, right⟩
  refine ⟨A, I, c₁, c₂, base, index, scale, e, e', Lower.lowerExpr_of_value hA,
    Lower.lowerExpr_of_value hI, sides, element, left, right, fun env fuel m reaches => ?_⟩
  exact ⟨execute_element element reaches, fun r n => place_of_element element⟩

/-! ### Three spellings -/

namespace Spellings

/-- A program with a structure and a pointer to it. -/
def program : Program where
  symbols := #[⟨"p", ⟨.struct "pair", 1⟩, 4, none, .nowhere⟩]
  globals := [0]
  structs := #[⟨"pair", [⟨"x", Ty.int, 4, 0, none⟩, ⟨"y", Ty.char, 1, 4, none⟩], 5⟩]
  functions := #[]
  strings := #[]
  globalNames := [("p", 0)]
  structNames := [("pair", 0)]
  functionNames := []
  stringIds := []

/-- The tree of the pointer. -/
def pointer : Node := .mk ⟨.identifier, .nowhere⟩ (.identifier "p")

/-- The tree of a string literal. -/
def text (s : String) : Node := .mk ⟨.literal, .nowhere⟩ (.stringLiteral s)

/-- The tree of a number. -/
def number (w : Word) : Node := .mk ⟨.literal, .nowhere⟩ (.intLiteral w)

/-- The numbers of the string literals in what a tree is lowered to. -/
def numbers (n : Node) : Option (List StringId) :=
  (lowerExpr .full n (.building program)).toOption.map fun r => r.1.literals

/-- A machine whose first string literal lies at the address 4096. -/
def machine : Machine := { Machine.idle 0 with strings := #[4096] }

theorem offsetAddress_one (loc : Location) :
    Run.offsetAddress (.pointer Ty.char.pointer 4096) 1 1 false loc machine = .ok 4097 machine := by
  have sum : Address.ofInt? ((Value.pointer Ty.char.pointer 4096).address.offset 1 1 false) =
      some 4097 := by decide +kernel
  rw [Run.offsetAddress_eq _ _ _ _ (by decide), sum]
  rfl

/-- What `"ab"` is lowered to. -/
theorem lowered_text {e : Expr} {c : Context}
    (h : lowerExpr .full (text "ab") (.building program) = .ok (e, c)) :
    e = .mk (.str 0) Ty.char.pointer .nowhere := by
  have run : ((lowerExpr .full (text "ab") (.building program)).toOption.map fun r =>
      match r.1 with
      | .mk (.str id) ty loc => some (id, ty, loc)
      | _ => none) = some (some (0, Ty.char.pointer, .nowhere)) := by decide +kernel
  rw [h] at run
  obtain ⟨op, ty, loc⟩ := e
  cases op <;> cases run
  rfl

/-- What a number is lowered to. -/
theorem lowered_number {w : Word} {e : Expr} {c d : Context}
    (h : lowerExpr .full (number w) c = .ok (e, d)) : e = .mk (.const w) Ty.int .nowhere := by
  have rule : lower .full (number w) c = .ok (.expr (.mk (.const w) Ty.int .nowhere), c) := by
    rw [Lower.rule_of_lowers ⟨_, rfl, rfl⟩]
    rfl
  cases h.symm.trans (Lower.lowerExpr_of_ok rule)
  rfl

/-- The elements of a string literal have one byte. -/
theorem lowered_scale {base index : Expr} {scale : Nat} {t : Ty} {loc : Location} {c : Context}
    (h : lowerExpr .full (.element (text "ab") (number 1) .nowhere) (.building program) =
      .ok (.mk (.index base index scale) t loc, c)) : scale = 1 := by
  have run : ((lowerExpr .full (.element (text "ab") (number 1) .nowhere)
      (.building program)).toOption.map fun r =>
        match r.1 with
        | .mk (.index _ _ scale) _ _ => some scale
        | _ => none) = some (some 1) := by decide +kernel
  rw [h] at run
  cases run
  rfl

/-- `p->y` and `(*p).y` come to the same code, and so do `"ab"["c"[0]]` and `"c"[0]["ab"]`, which count
their literals each in its own way; `"ab"[1]` and `*("ab" + 1)` both lead to the address 4097. -/
theorem spellings_agree_literals :
    let c := Context.building program
    let a := text "ab"
    let i := Node.element (text "c") (number 0) .nowhere
    let direct := Node.arrow pointer "y" .nowhere
    let starred := Node.dot (.star pointer .nowhere) "y" .nowhere
    (Lower.Matches c c (lowerExpr .full direct) (lowerExpr .full starred) Expr.Same ∧
      numbers direct = some []) ∧
    (Lower.Matches c c (lowerExpr .full (.element a i .nowhere)) (lowerExpr .full (.element i a .nowhere))
      Expr.Same ∧
      numbers (.element a i .nowhere) = some [0, 1] ∧ numbers (.element i a .nowhere) = some [1, 0]) ∧
    ∃ e e' c', lowerExpr .full (.element a (number 1) .nowhere) c = .ok (e, c') ∧
      lowerExpr .full (.star (.plus a (number 1) .nowhere) .nowhere) c = .ok (e', c') ∧
      ∀ env fuel, execute env (fuel + 2) e machine = .ok (.place ⟨4097, Ty.char, false⟩) machine ∧
        (execute env (fuel + 3) e').unplaced machine = .ok (.place ⟨4097, Ty.char, false⟩) machine := by
  intro c a i direct starred
  obtain ⟨arrows, turns, elements⟩ := spellings_agree (g := .full) ⟨_, rfl, rfl⟩ ⟨_, rfl, rfl⟩
    ⟨_, rfl, rfl⟩ c .nowhere .nowhere .nowhere
  refine ⟨⟨arrows pointer pointer "y" rfl, by decide +kernel⟩,
    ⟨turns a i a i rfl rfl, by decide +kernel, by decide +kernel⟩, ?_⟩
  have accepted : (lowerExpr .full (.element a (number 1) .nowhere) c).toOption.isSome = true := by
    decide +kernel
  rcases elements a (number 1) with ⟨r, -, refused, -⟩ |
    ⟨A, I, c₁, c₂, base, index, scale, e, e', hA, hI, sides, element, left, right, runs⟩
  · cases refused ▸ accepted
  refine ⟨e, e', c₂, left, right, fun env fuel => ?_⟩
  obtain rfl := lowered_text hA
  obtain rfl := lowered_number hI
  obtain ⟨t, l, l', l'', ht⟩ := element
  obtain rfl := lowered_scale left
  rcases sides with ⟨rfl, rfl⟩ | ⟨rfl, rfl⟩
  · obtain rfl : Ty.char = t := Option.some.inj ht
    have base : (engine env (fuel + 1)).solve (.mk (.str 0) Ty.char.pointer .nowhere) machine =
        .ok (.pointer Ty.char.pointer 4096) machine := rfl
    have index : (engine env (fuel + 1)).solve (.mk (.const 1) Ty.int .nowhere) machine =
        .ok ⟨Ty.int, 1⟩ machine := rfl
    have found : execute env (fuel + 2) (.mk (.index (.mk (.str 0) Ty.char.pointer .nowhere)
        (.mk (.const 1) Ty.int .nowhere) 1) Ty.char l) machine =
          .ok (.place ⟨4097, Ty.char, false⟩) machine := by
      rw [execute_index, Run.bind_of_ok base, Run.bind_of_ok index]
      exact Run.bind_of_ok (offsetAddress_one l)
    refine ⟨found, ?_⟩
    rw [← (runs env (fuel + 1) machine ?_).1, Run.unplaced_of_ok found]
    intro v m₁ hv
    cases hv.symm.trans base
    refine ⟨by decide, fun w m₂ hw loc zero => ?_⟩
    cases hw.symm.trans index
    cases zero.symm.trans (offsetAddress_one loc)
  · cases ht

end Spellings

end MiniC
