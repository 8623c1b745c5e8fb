/-
  Expressions are lowered under the names that are in sight.

  `Lower.Stays s Γ x R` says that the step `x`, taken where a context shows the names `Γ`, still
  shows them afterwards and comes to something that satisfies `R`.  There is one lemma for each way to
  combine steps and one for each rule; together they give `stays_lowerExpr`: the expression that a
  tree is lowered to is the one that `Names.Reads` says, and all variables that the tree names are
  ones that the names have.
-/
import MiniC.Proofs.Names

namespace MiniC.Lower

/-- Where a context shows `Γ`, the step `x` leaves it so and comes to something that satisfies
`R`. -/
def Stays {α : Type} (s : Site) (Γ : Names) (x : Lower α) (R : α → Prop) : Prop :=
  ∀ c a c', c.Shows s Γ → x c = .ok (a, c') → c'.Shows s Γ ∧ R a

section
variable {α β : Type} {s : Site} {Γ : Names} {Q : β → Prop} {R : α → Prop} {cause : CompileCause}
  {loc : Location}

theorem stays_pure {a : α} (h : R a) : Stays s Γ (pure a) R := by
  intro c b c' hc hx
  obtain ⟨rfl, rfl⟩ := pure_eq_ok.1 hx
  exact ⟨hc, h⟩

theorem stays_fail : Stays s Γ (fail cause loc : Lower α) R :=
  fun _ _ _ _ hx => absurd hx fail_ne_ok

theorem Stays.bind {x : Lower β} {f : β → Lower α} (hx : Stays s Γ x Q)
    (hf : ∀ b, Q b → Stays s Γ (f b) R) : Stays s Γ (x >>= f) R := by
  intro c a c'' hc h
  obtain ⟨b, c', h1, h2⟩ := bind_eq_ok.1 h
  obtain ⟨hc', hb⟩ := hx c b c' hc h1
  exact hf b hb c' a c'' hc' h2

/-- What the context says is known before the rest. -/
theorem stays_ask_bind {f : Context → β} {k : β → Lower α}
    (h : ∀ c, c.Shows s Γ → Stays s Γ (k (f c)) R) : Stays s Γ (ask f >>= k) R :=
  fun c a c' hc hx => h c hc c a c' hc hx

theorem stays_ite {p : Prop} [Decidable p] {x y : Lower α} (hx : Stays s Γ x R)
    (hy : Stays s Γ y R) : Stays s Γ (if p then x else y) R := by
  split
  · exact hx
  · exact hy

/-- A check in front of `x`. -/
theorem stays_guard {p : Prop} [Decidable p] {x : PUnit → Lower α} (hx : ¬ p → Stays s Γ (x ()) R) :
    Stays s Γ (if p then fail cause loc >>= x else x ()) R := by
  intro c a c' hc h
  obtain ⟨hp, h⟩ := guard_eq_ok.1 h
  exact hx hp c a c' hc h

theorem stays_require_bind {o : Option β} {k : β → Lower α} (h : ∀ b, Stays s Γ (k b) R) :
    Stays s Γ (require o cause loc >>= k) R := by
  cases o with
  | none => exact stays_fail
  | some b => exact h b

/-- What the context says, or a fault. -/
theorem stays_found {f : Context → Option β} {k : β → Lower α} (h : ∀ b, Stays s Γ (k b) R) :
    Stays s Γ (do let b ← require (← ask f) cause loc; k b) R :=
  stays_ask_bind fun _ _ => stays_require_bind h

theorem Stays.mono {x : Lower α} {R' : α → Prop} (hx : Stays s Γ x R) (h : ∀ a, R a → R' a) :
    Stays s Γ x R' := by
  intro c a c' hc ha
  obtain ⟨hc', hR⟩ := hx c a c' hc ha
  exact ⟨hc', h a hR⟩

/-! ## The operations on contexts -/

theorem stays_resolveType (base : Base) (stars : Nat) :
    Stays s Γ (resolveType base stars loc) fun ty => ty = ⟨base, stars⟩ := by
  unfold resolveType
  cases base with
  | struct name =>
    refine stays_ask_bind fun _ _ => stays_ask_bind fun _ _ => stays_ite stays_fail ?_
    exact stays_ite stays_fail (stays_pure rfl)
  | int | char | void => exact stays_pure rfl

theorem stays_sizeOf (ty : Ty) : Stays s Γ (sizeOf ty loc) fun _ => True := by
  refine stays_ask_bind fun c _ => ?_
  cases c.program.sizeOf? ty with
  | none => exact stays_fail
  | some size => exact stays_pure trivial

theorem stays_internString (text : String) : Stays s Γ (internString text loc) fun _ => True := by
  refine stays_ask_bind fun c _ => stays_ite ?_ ?_
  · refine stays_ask_bind fun c _ => ?_
    cases c.program.string? text with
    | none => exact stays_fail
    | some id => exact stays_pure trivial
  · intro c id c' hc hx
    simp only [bind_eq_ok, ask_eq_ok, change_eq_ok, pure_eq_ok] at hx
    obtain ⟨_, _, ⟨-, rfl⟩, _, _, rfl, -, rfl⟩ := hx
    obtain ⟨strings, stringIds, added⟩ := c.program.internString_strings text
    rw [added]
    exact ⟨hc.congr rfl rfl rfl rfl rfl rfl, trivial⟩

theorem stays_noteAssigned (a : Expr) (es : List Expr) :
    Stays s Γ (change fun c => c.noteAssigned a es) fun _ => True := by
  intro c u c' hc hx
  obtain rfl := change_eq_ok.1 hx
  unfold Context.noteAssigned
  split
  · exact ⟨hc, trivial⟩
  · exact ⟨hc.congr rfl rfl rfl rfl rfl rfl, trivial⟩

/-- A name is looked up as the names say. -/
theorem stays_lookup (name : String) :
    Stays s Γ (lookup name loc) fun id => ∃ v, Γ.resolve name = some v ∧ v.id = id := by
  refine stays_ask_bind fun c hc => ?_
  rw [hc.find?]
  cases hv : Γ.resolve name with
  | none => exact stays_fail
  | some v => exact stays_pure ⟨v, rfl, rfl⟩

end

/-! ## The rules -/

section
variable {s : Site} {Γ : Names} {ok : Variable → Prop} {n : Node} {low : Lowering}

/-- What a tree is lowered to is the expression that it is read as. -/
def ReadAs (Γ : Names) (ok : Variable → Prop) (n : Node) (l : Lowered) : Prop :=
  ∃ e, l = .expr e ∧ Γ.Reads ok n e

/-- The lowering of `n` reads it under the names. -/
abbrev ExprStays (s : Site) (Γ : Names) (ok : Variable → Prop) (low : Lowering) (n : Node) : Prop :=
  Stays s Γ (expr low n) fun e => Γ.Reads ok n e

theorem stays_value {m : Node} (hm : ExprStays s Γ ok low m) :
    Stays s Γ (value low m) fun e => Γ.Reads ok m e :=
  hm.bind fun _ he => stays_guard fun _ => stays_pure he

theorem stays_condition {m : Node} (hm : ExprStays s Γ ok low m) :
    Stays s Γ (condition low m) fun e => Γ.Reads ok m e :=
  (stays_value hm).bind fun _ he => stays_guard fun _ => stays_pure he

/-- An operation on what the parts are read as. -/
theorem stays_expression {op : Operation} {ty : Ty} {es : List Expr} {shape : Shape}
    (hs : n.shape = shape) (ho : shape.operates = true)
    (hp : List.Forall₂ (Γ.Reads ok) shape.parts es) (hop : op.operands.Perm es)
    (hv : ∀ id, op ≠ .var id) : Stays s Γ (expression op ty n) (ReadAs Γ ok n) := by
  subst hs
  exact stays_pure ⟨_, rfl, .operation ho hp hop hv⟩

/-! ### Assignments -/

theorem stays_checkValues (element : Ty) {nodes : List Node}
    (h : ∀ m ∈ nodes, ExprStays s Γ ok low m) :
    Stays s Γ (checkValues low element nodes) fun es => List.Forall₂ (Γ.Reads ok) nodes es := by
  induction nodes with
  | nil => exact stays_pure .nil
  | cons m ms ih =>
    obtain ⟨hm, hms⟩ := List.forall_mem_cons.1 h
    refine (stays_value hm).bind fun e he => stays_guard fun _ => ?_
    exact (ih hms).bind fun es hes => stays_pure (.cons he hes)

theorem stays_arrayAssign {left right : Node} {dst : Expr} {values : List Node} (length : Nat)
    (hs : n.shape = .assign left right) (hr : right.shape = .arrayInit values)
    (hd : Γ.Reads ok left dst) (hv : ∀ m ∈ values, ExprStays s Γ ok low m) :
    Stays s Γ (arrayAssign low dst length values right) fun e => Γ.Reads ok n e := by
  unfold arrayAssign
  refine stays_guard fun _ => ?_
  split
  · exact stays_fail
  · refine stays_guard fun _ => (stays_checkValues _ hv).bind fun es hes => ?_
    refine stays_ask_bind fun c hc => (stays_noteAssigned _ es).bind fun _ _ => stays_pure ?_
    refine .arrayAssign hs hr hd hes fun name => ?_
    rw [c.find?_visibleNames, hc.local?]

theorem stays_scalarAssign {left right : Node} {dst : Expr} (hs : n.shape = .assign left right)
    (hd : Γ.Reads ok left dst) (hr : ExprStays s Γ ok low right) :
    Stays s Γ (scalarAssign low dst left right n) fun e => Γ.Reads ok n e := by
  unfold scalarAssign
  refine stays_guard fun _ => stays_ask_bind fun _ _ => ?_
  refine stays_guard fun _ => (stays_value hr).bind fun src hsrc => ?_
  refine stays_guard fun _ => stays_pure ?_
  refine .operation (by rw [hs]; rfl) ?_ (List.Perm.refl [dst, src]) nofun
  rw [hs]
  exact .cons hd (.cons hsrc .nil)

theorem stays_assignment (h : ∀ m ∈ n.shape.parts, ExprStays s Γ ok low m)
    (deep : ∀ m ∈ n.shape.parts, ∀ k ∈ m.shape.parts, ExprStays s Γ ok low k) :
    Stays s Γ (assignment low n) (ReadAs Γ ok n) := by
  unfold assignment
  split
  · rename_i left right hs
    have hr : right ∈ n.shape.parts := by simp [hs, Shape.parts]
    refine (h left (by simp [hs, Shape.parts])).bind fun dst hd => stays_ask_bind fun _ _ => ?_
    split
    · rename_i values length hi _
      have hv : ∀ m ∈ values, ExprStays s Γ ok low m :=
        fun m hm => deep right hr m (by rw [hi]; exact hm)
      exact (stays_arrayAssign length hs hi hd hv).bind fun e he => stays_pure ⟨e, rfl, he⟩
    · exact (stays_scalarAssign hs hd (h right hr)).bind fun e he => stays_pure ⟨e, rfl, he⟩
  · exact stays_fail

/-! ### Operators -/

theorem stays_pointerOffset {op : BinaryOp} {left right : Node} {l r pointer offset : Expr}
    (subtract : Bool) (hs : n.shape = .binary op left right) (hl : Γ.Reads ok left l)
    (hr : Γ.Reads ok right r) (hp : [pointer, offset].Perm [l, r]) :
    Stays s Γ (pointerOffset pointer offset subtract n) (ReadAs Γ ok n) := by
  unfold pointerOffset
  split
  · exact stays_fail
  · refine stays_guard fun _ => (stays_sizeOf _).bind fun _ _ => ?_
    exact stays_expression hs rfl (.cons hl (.cons hr .nil)) hp nofun

theorem stays_pointerDiff {op : BinaryOp} {left right : Node} {l r : Expr}
    (hs : n.shape = .binary op left right) (hl : Γ.Reads ok left l) (hr : Γ.Reads ok right r) :
    Stays s Γ (pointerDiff l r n) (ReadAs Γ ok n) := by
  unfold pointerDiff
  split
  · exact stays_fail
  · refine (stays_sizeOf _).bind fun _ _ => ?_
    exact stays_expression hs rfl (.cons hl (.cons hr .nil)) (.refl _) nofun

theorem stays_combine {op : BinaryOp} {left right : Node} {l r : Expr}
    (hs : n.shape = .binary op left right) (hl : Γ.Reads ok left l) (hr : Γ.Reads ok right r) :
    Stays s Γ (combine op l r n) (ReadAs Γ ok n) := by
  have plain : Stays s Γ (expression (.binary op l r) Ty.int n) (ReadAs Γ ok n) :=
    stays_expression hs rfl (.cons hl (.cons hr .nil)) (.refl _) nofun
  cases op with
  | add =>
    refine stays_ite plain (stays_ite (stays_pointerOffset false hs hl hr (.refl _)) ?_)
    exact stays_ite (stays_pointerOffset false hs hl hr (.swap ..)) stays_fail
  | sub =>
    refine stays_ite plain (stays_ite (stays_pointerOffset true hs hl hr (.refl _)) ?_)
    exact stays_ite (stays_pointerDiff hs hl hr) stays_fail
  | mul | div | mod | eq | ne | lt | le | gt | ge | and | or => exact stays_ite plain stays_fail

theorem stays_binary (h : ∀ m ∈ n.shape.parts, ExprStays s Γ ok low m) :
    Stays s Γ (binary low n) (ReadAs Γ ok n) := by
  unfold binary
  split
  · rename_i op left right hs
    refine (stays_value (h left (by simp [hs, Shape.parts]))).bind fun l hl => ?_
    refine (stays_value (h right (by simp [hs, Shape.parts]))).bind fun r hr => ?_
    exact stays_combine hs hl hr
  · exact stays_fail

theorem stays_sizeofExpr {operand : Node} (h : ExprStays s Γ ok low operand) :
    Stays s Γ (sizeofExpr low operand n) fun _ => ∃ e, Γ.Reads ok operand e := by
  refine h.bind fun e he => stays_ask_bind fun _ _ => ?_
  split
  · split
    · exact stays_fail
    · exact (stays_sizeOf _).bind fun _ _ => stays_pure ⟨e, he⟩
  · exact (stays_sizeOf _).mono fun _ _ => ⟨e, he⟩

theorem stays_unary (h : ∀ m ∈ n.shape.parts, ExprStays s Γ ok low m) :
    Stays s Γ (unary low n) (ReadAs Γ ok n) := by
  have part : ∀ {shape operand}, n.shape = shape → shape.parts = [operand] →
      ExprStays s Γ ok low operand :=
    fun hs hp => h _ (by rw [hs, hp]; exact List.mem_singleton_self _)
  unfold unary
  split
  · rename_i op operand hs
    refine (stays_value (part hs rfl)).bind fun e he => stays_guard fun _ => ?_
    exact stays_expression hs rfl (.cons he .nil) (.refl _) nofun
  · rename_i operand hs
    refine (stays_value (part hs rfl)).bind fun e he => stays_require_bind fun _ => ?_
    exact stays_expression hs rfl (.cons he .nil) (.refl _) nofun
  · rename_i operand hs
    refine (part hs rfl).bind fun e he => stays_guard fun _ => stays_ask_bind fun _ _ => ?_
    exact stays_expression hs rfl (.cons he .nil) (.refl _) nofun
  · rename_i base stars hs
    refine (stays_resolveType base stars).bind fun _ _ => (stays_sizeOf _).bind fun _ _ => ?_
    exact stays_expression hs rfl .nil (.refl _) nofun
  · rename_i operand hs
    refine (stays_sizeofExpr (part hs rfl)).bind fun size ⟨e, he⟩ => stays_pure ?_
    exact ⟨_, rfl, .sizeofExpr hs he⟩
  · exact stays_fail

/-! ### Subscripts and members -/

theorem stays_subscript {base index : Node} {l r : Expr} (hs : n.shape = .index base index)
    (hl : Γ.Reads ok base l) (hr : Γ.Reads ok index r) :
    Stays s Γ (subscript l r n) (ReadAs Γ ok n) := by
  unfold subscript
  simp only
  refine stays_guard fun _ => ?_
  split
  · exact stays_fail
  · refine stays_guard fun _ => (stays_sizeOf _).bind fun _ _ => ?_
    refine stays_expression hs rfl (.cons hl (.cons hr .nil)) ?_ nofun
    split
    · exact .swap ..
    · exact .refl _

/-- A member of `object`, whatever the tree says that it is a member of. -/
theorem stays_member {object : Expr} {field : String} {R : Lowered → Prop}
    (h : ∀ offset array ty, R (.expr (.mk (.member object offset array) ty n.start))) :
    Stays s Γ (member object field n) R :=
  stays_require_bind fun _ => stays_found fun _ => stays_require_bind fun _ => stays_pure (h _ _ _)

theorem stays_suffix (h : ∀ m ∈ n.shape.parts, ExprStays s Γ ok low m) :
    Stays s Γ (suffix low n) (ReadAs Γ ok n) := by
  unfold suffix
  split
  · rename_i base index hs
    refine (stays_value (h base (by simp [hs, Shape.parts]))).bind fun l hl => ?_
    refine (stays_value (h index (by simp [hs, Shape.parts]))).bind fun r hr => ?_
    exact stays_subscript hs hl hr
  · rename_i object field hs
    refine (h object (by simp [hs, Shape.parts])).bind fun e he => stays_member fun _ _ _ => ?_
    refine ⟨_, rfl, .operation (by rw [hs]; rfl) ?_ (List.Perm.refl [e]) fun _ h => by cases h⟩
    rw [hs]
    exact .cons he .nil
  · rename_i pointer field hs
    refine (stays_value (h pointer (by simp [hs, Shape.parts]))).bind fun e he => ?_
    split
    · refine stays_ite (stays_member fun _ _ _ => ?_) stays_fail
      exact ⟨_, rfl, .pointerMember hs he⟩
    · exact stays_fail
  · exact stays_fail

/-! ### Calls and atoms -/

theorem stays_arguments (name : String) (number : Nat) {args : List Node} {types : List Ty}
    (h : ∀ m ∈ args, ExprStays s Γ ok low m) (hl : args.length ≤ types.length) :
    Stays s Γ (arguments low name number args types) fun es =>
      List.Forall₂ (Γ.Reads ok) args es := by
  induction args generalizing number types with
  | nil => exact stays_pure .nil
  | cons m ms ih =>
    obtain ⟨hm, hms⟩ := List.forall_mem_cons.1 h
    cases types with
    | nil => simp at hl
    | cons ty types =>
      refine (stays_value hm).bind fun e he => stays_guard fun _ => ?_
      exact (ih (number + 1) hms (by simpa using hl)).bind fun es hes => stays_pure (.cons he hes)

theorem stays_call (h : ∀ m ∈ n.shape.parts, ExprStays s Γ ok low m) :
    Stays s Γ (call low n) (ReadAs Γ ok n) := by
  unfold call
  split
  · rename_i name args hs
    refine stays_found fun id => stays_ask_bind fun c _ => stays_guard fun few => ?_
    refine stays_guard fun _ => stays_ask_bind fun c' _ => ?_
    have hl : args.length ≤ ((c.program.function id).params.map fun p =>
        (c'.program.symbol p).ty).length := by simpa using few
    have parts : ∀ m ∈ args, ExprStays s Γ ok low m := fun m hm => h m (by rw [hs]; exact hm)
    refine (stays_arguments name 1 parts hl).bind fun es hes => ?_
    exact stays_ask_bind fun _ _ => stays_expression hs rfl hes (.refl _) nofun
  · exact stays_fail

theorem stays_identifier (ha : Γ.All ok) : Stays s Γ (identifier n) (ReadAs Γ ok n) := by
  unfold identifier
  split
  · rename_i name hs
    refine (stays_lookup name).bind fun id ⟨v, hv, hid⟩ => stays_ask_bind fun c hc => stays_pure ?_
    obtain ⟨t, ht, -, hty, -⟩ := hc.ok_of_resolve hc.records hv
    subst hid
    rw [Program.symbol_eq ht, hty]
    exact ⟨_, rfl, .identifier hs hv (hc.ok_of_resolve ha hv)⟩
  · exact stays_fail

theorem stays_literal : Stays s Γ (literal n) (ReadAs Γ ok n) := by
  unfold literal
  split
  · rename_i hs
    exact stays_expression hs rfl .nil (.refl _) nofun
  · rename_i hs
    exact stays_expression hs rfl .nil (.refl _) nofun
  · rename_i text hs
    refine (stays_internString text).bind fun _ _ => ?_
    exact stays_expression hs rfl .nil (.refl _) nofun
  · rename_i hs
    exact stays_expression hs rfl .nil (.refl _) nofun
  · exact stays_fail

/-- The rule of every expression reads its tree, if its parts are read so. -/
theorem stays_rule (ha : Γ.All ok) (ho : n.production.isOwn = false)
    (h : ∀ m ∈ n.shape.parts, ExprStays s Γ ok low m)
    (deep : ∀ m ∈ n.shape.parts, ∀ k ∈ m.shape.parts, ExprStays s Γ ok low k) :
    Stays s Γ (rule low n) (ReadAs Γ ok n) := by
  unfold rule
  cases hr : n.production with
  | assignment => exact stays_assignment h deep
  | logicalOr | logicalAnd | equality | relational | additive | multiplicative =>
    exact stays_binary h
  | unary => exact stays_unary h
  | suffix => exact stays_suffix h
  | call => exact stays_call h
  | identifier => exact stays_identifier ha
  | literal => exact stays_literal
  | arrayInit | type | varItem | statement | expr | primary | other => exact stays_fail
  | _ =>
    rw [hr] at ho
    cases ho

theorem stays_lowerStep {g : Grammar} (ha : Γ.All ok) (ho : n.production.isOwn = false)
    (h : ∀ m ∈ n.shape.parts, ExprStays s Γ ok low m)
    (deep : ∀ m ∈ n.shape.parts, ∀ k ∈ m.shape.parts, ExprStays s Γ ok low k) :
    Stays s Γ (lowerStep g low n) (ReadAs Γ ok n) := by
  unfold lowerStep
  split
  · exact stays_fail
  · exact stays_ite (stays_rule ha ho h deep) stays_fail

end

end MiniC.Lower

namespace MiniC
variable {s : Site} {Γ : Names} {ok : Variable → Prop}

/-- **An expression is read under the names in sight**: its variables are what their names stand
for, and its lowering adds no names. -/
theorem stays_lowerExpr (g : Grammar) (n : Node) (ha : Γ.All ok) :
    Lower.ExprStays s Γ ok (lower g) n := by
  have ih : ∀ m, m.height < n.height → Lower.ExprStays s Γ ok (lower g) m :=
    fun m _ => stays_lowerExpr g m ha
  have parts : ∀ m ∈ n.shape.parts, Lower.ExprStays s Γ ok (lower g) m :=
    fun m hm => ih m (Node.height_lt_of_mem_parts hm)
  have deep : ∀ m ∈ n.shape.parts, ∀ k ∈ m.shape.parts, Lower.ExprStays s Γ ok (lower g) k :=
    fun m hm k hk =>
      ih k (Nat.lt_trans (Node.height_lt_of_mem_parts hk) (Node.height_lt_of_mem_parts hm))
  cases h : n.production.isOwn with
  | false =>
    have rule : Lower.Stays s Γ (lower g n) (Lower.ReadAs Γ ok n) := by
      rw [lower_eq]
      exact Lower.stays_lowerStep ha h parts deep
    refine rule.bind fun l ⟨e, hl, he⟩ => ?_
    subst hl
    exact Lower.stays_pure he
  | true =>
    -- The rules of statements and declarations never come to an expression.
    intro c e c' _ hx
    obtain ⟨l, d, hl, hx⟩ := Lower.bind_eq_ok.1 hx
    cases l with
    | expr e =>
      rw [lower_eq] at hl
      exact absurd hl (Lower.noExpr_lowerStep h _ _ _)
    | stmt s => cases hx
    | declared => cases hx
termination_by n.height

/-- A tree that is no statement comes to the expression that it is read as. -/
theorem stays_lower (g : Grammar) (n : Node) (ho : n.production.isOwn = false) (ha : Γ.All ok) :
    Lower.Stays s Γ (lower g n) (Lower.ReadAs Γ ok n) := by
  rw [lower_eq]
  exact Lower.stays_lowerStep ha ho (fun m _ => stays_lowerExpr g m ha)
    fun _ _ k _ => stays_lowerExpr g k ha

end MiniC
