/-
  Jumps stand in loops.

  A `break` or a `continue` is lowered only where a loop of the same function is around, so in a body
  that lowering has finished each of them has a loop to leave or to go on with.

  * `Stmt.Enclosed k s`: with `k` loops around, all jumps of `s` stand in loops.
  * `Context.Nested g k`: at most `k` loops are around, and the bodies so far are enclosed.
  * `Lower.Nests`: what a step of lowering makes of such a context, with one lemma for each rule.
  * `Program.ofSource_enclosed`: all bodies of a program are enclosed.
-/
import MiniC.Proofs.Deferred

namespace MiniC

/-- With `k` loops around, every `break` and every `continue` of the statement stands in a loop. -/
inductive Stmt.Enclosed : Nat → Stmt → Prop
  | expr {k : Nat} {e : Expr} {loc : Location} : Enclosed k (.mk (.expr e) loc)
  | block {k : Nat} {body : List Stmt} {loc : Location} : (∀ s ∈ body, Enclosed k s) →
    Enclosed k (.mk (.block body) loc)
  | ifElse {k : Nat} {c : Expr} {t : Stmt} {e : Option Stmt} {loc : Location} : Enclosed k t →
    (∀ s ∈ e, Enclosed k s) → Enclosed k (.mk (.ifElse c t e) loc)
  | whileLoop {k : Nat} {c : Expr} {b : Stmt} {loc : Location} : Enclosed (k + 1) b →
    Enclosed k (.mk (.whileLoop c b) loc)
  | doWhile {k : Nat} {c : Expr} {b : Stmt} {loc : Location} : Enclosed (k + 1) b →
    Enclosed k (.mk (.doWhile b c) loc)
  | forLoop {k : Nat} {i c n : Option Expr} {b : Stmt} {loc : Location} : Enclosed (k + 1) b →
    Enclosed k (.mk (.forLoop i c n b) loc)
  | returns {k : Nat} {value : Option Expr} {loc : Location} : Enclosed k (.mk (.returns value) loc)
  | breaks {k : Nat} {loc : Location} : Enclosed (k + 1) (.mk .breaks loc)
  | continues {k : Nat} {loc : Location} : Enclosed (k + 1) (.mk .continues loc)
  | empty {k : Nat} {loc : Location} : Enclosed k (.mk .empty loc)

/-- All jumps of what a tree is lowered to stand in loops. -/
def Lowered.Enclosed (k : Nat) : Lowered → Prop
  | stmt s => s.Enclosed k
  | expr _ | declared => True

namespace Context
variable {g : Grammar} {k j : Nat} {c c' : Context}

/-- At most `k` loops are around, and all jumps of the functions so far stand in loops. -/
structure Nested (g : Grammar) (k : Nat) (c : Context) : Prop where
  sound : c.Sound g
  loops : ∀ f, c.function = some f → f.loops ≤ k
  enclosed : ∀ (i : Nat) f body, c.program.functions[i]? = some f → f.body = .compiled body →
    body.Enclosed 0

/-- Expressions neither open a loop nor finish a function. -/
theorem Nested.interns (h : c.Nested g k) (hs : c'.Sound g) (hi : c.Interns c') : c'.Nested g k where
  sound := hs
  loops f hf := h.loops f (hi.function ▸ hf)
  enclosed i f body hf := h.enclosed i f body (hi.functions ▸ hf)

/-- Declarations neither open a loop nor finish a function. -/
theorem Nested.declare (h : c.Nested g k) (hs : c'.Sound g) {name : String} {ty : Ty} {size : Nat}
    {array : Option ArraySpec} {isParam : Bool} {loc : Location} {u : Unit}
    (hx : Lower.declare name ty size array isParam loc c = .ok (u, c')) : c'.Nested g k := by
  rcases Lower.declare_cases hx with ⟨s, -, rfl⟩ | ⟨-, -, -, rfl⟩ | ⟨-, f, hf, rfl⟩
  · exact ⟨hs, h.loops, h.enclosed⟩
  · exact ⟨hs, h.loops, h.enclosed⟩
  · refine ⟨hs, ?_, ?_⟩
    · rintro _ ⟨⟩
      exact h.loops f hf
    · intro i f' body hf' hb
      rcases functions_modify hf' with ⟨-, hf'⟩ | ⟨-, f'', hf'', rfl⟩
      · exact h.enclosed i f' body hf' hb
      · exact h.enclosed _ f'' body hf'' hb

end Context

namespace Lower
variable {α β : Type} {g : Grammar} {k j : Nat} {n : Node} {cause : CompileCause} {loc : Location}
open Context

/-! ## Steps -/

/-- With `k` loops around, the step `x` leaves at most as many around and comes to something that
satisfies `R`. -/
def Nests (g : Grammar) (k : Nat) (x : Lower α) (R : α → Prop) : Prop :=
  ∀ c a c', c.Nested g k → x c = .ok (a, c') → c'.Nested g k ∧ R a

section
variable {Q : β → Prop} {R : α → Prop}

theorem nests_pure {a : α} (h : R a) : Nests g k (pure a) R := by
  intro c b c' hc hx
  obtain ⟨rfl, rfl⟩ := pure_eq_ok.1 hx
  exact ⟨hc, h⟩

theorem nests_fail : Nests g k (fail cause loc : Lower α) R :=
  fun _ _ _ _ hx => absurd hx fail_ne_ok

theorem Nests.bind {x : Lower β} {f : β → Lower α} (hx : Nests g k x Q)
    (hf : ∀ b, Q b → Nests g k (f b) R) : Nests g k (x >>= f) R := by
  intro c a c'' hc h
  obtain ⟨b, c', h1, h2⟩ := bind_eq_ok.1 h
  obtain ⟨hc', hb⟩ := hx c b c' hc h1
  exact hf b hb c' a c'' hc' h2

/-- What the context says is known before the rest. -/
theorem nests_ask_bind {f : Context → β} {x : β → Lower α}
    (h : ∀ c, c.Nested g k → Nests g k (x (f c)) R) : Nests g k (ask f >>= x) R :=
  fun c a c' hc hx => h c hc c a c' hc hx

theorem nests_guard {p : Prop} [Decidable p] {x : PUnit → Lower α} (hx : ¬ p → Nests g k (x ()) R) :
    Nests g k (if p then fail cause loc >>= x else x ()) R := by
  intro c a c' hc h
  obtain ⟨hp, h⟩ := guard_eq_ok.1 h
  exact hx hp c a c' hc h

theorem nests_require_bind {o : Option β} {x : β → Lower α} (h : ∀ b, Nests g k (x b) R) :
    Nests g k (require o cause loc >>= x) R := by
  cases o with
  | none => exact nests_fail
  | some b => exact h b

/-- Steps of expressions. -/
theorem Faithful.nests {P : Context → α → Prop} {x : Lower α} (h : Faithful g (fun _ => True) x P) :
    Nests g k x fun _ => True := by
  intro c a c' hc hx
  obtain ⟨hi, hs, -⟩ := h.follows hc.sound (fun _ _ => trivial) hx
  exact ⟨hc.interns hs hi, trivial⟩

/-- A change of the function being defined, by what it does to the number of loops. -/
theorem nested_changeFunction {f : FunctionContext → FunctionContext}
    (h : Follows g Reaches (fun _ => True) (changeFunction f) fun _ _ => True)
    (hl : ∀ e : FunctionContext, e.loops ≤ k → (f e).loops ≤ j) {c c' : Context} {u : Unit}
    (hc : c.Nested g k) (hx : changeFunction f c = .ok (u, c')) : c'.Nested g j := by
  obtain ⟨-, hs, -⟩ := h.follows hc.sound (fun _ _ => trivial) hx
  obtain rfl := change_eq_ok.1 hx
  refine ⟨hs, fun e he => ?_, hc.enclosed⟩
  obtain ⟨e, hf, rfl⟩ := Option.map_eq_some_iff.1 he
  exact hl e (hc.loops e hf)

theorem nests_enterScope : Nests g k enterScope fun _ => True :=
  fun _ _ _ hc hx => ⟨nested_changeFunction follows_enterScope (fun _ h => h) hc hx, trivial⟩

theorem nests_exitScope : Nests g k exitScope fun _ => True := by
  intro c u c' hc hx
  refine ⟨nested_changeFunction follows_exitScope (fun e h => ?_) hc hx, trivial⟩
  split
  · exact h
  · exact h

end

/-! ## Parts -/

section
variable (hn : n.Regular)
include hn

theorem nests_expr : Nests g k (expr (lower g) n) fun _ => True := (faithful_lowerExpr g n hn).nests

theorem nests_value : Nests g k (value (lower g) n) fun _ => True :=
  (nests_expr hn).bind fun _ _ => nests_guard fun _ => nests_pure trivial

theorem nests_condition : Nests g k (condition (lower g) n) fun _ => True :=
  (nests_value hn).bind fun _ _ => nests_guard fun _ => nests_pure trivial

end

theorem nests_optional {f : Node → Lower α} {R : α → Prop} {o : Option Node}
    (h : ∀ m ∈ o, Nests g k (f m) R) : Nests g k (optional f o) fun r => ∀ a ∈ r, R a := by
  cases o with
  | none => exact nests_pure nofun
  | some m =>
    refine (h m rfl).bind fun a ha => nests_pure ?_
    rintro _ ⟨⟩
    exact ha

theorem nests_action {a : Action} (h : Stmt.Enclosed k (.mk a n.start)) :
    Nests g k (action a n) (Lowered.Enclosed k) :=
  nests_pure h

/-- All jumps of what `n` is lowered to stand in loops, where `k` loops are around. -/
abbrev StmtNests (g : Grammar) (k : Nat) (n : Node) : Prop :=
  Nests g k (lower g n) (Lowered.Enclosed k)

theorem nests_stmt (h : StmtNests g k n) : Nests g k (stmt (lower g) n) (Stmt.Enclosed k) := by
  refine h.bind fun l hl => ?_
  cases l with
  | stmt s => exact nests_pure hl
  | expr e => exact nests_pure .expr
  | declared => exact nests_pure .empty

theorem nests_statements {ns : List Node} (h : ∀ m ∈ ns, StmtNests g k m) :
    Nests g k (statements (lower g) ns) fun ss => ∀ s ∈ ss, s.Enclosed k := by
  induction ns with
  | nil => exact nests_pure nofun
  | cons m ms ih =>
    obtain ⟨hm, hms⟩ := List.forall_mem_cons.1 h
    refine hm.bind fun l hl => (ih hms).bind fun ss hss => ?_
    cases l with
    | stmt s => exact nests_pure (List.forall_mem_cons.2 ⟨hl, hss⟩)
    | expr e => exact nests_pure (List.forall_mem_cons.2 ⟨.expr, hss⟩)
    | declared => exact nests_pure hss

/-- The body of a loop has one more loop around, which is over behind it. -/
theorem nests_loopBody (h : StmtNests g (k + 1) n) :
    Nests g k (loopBody (lower g) n) (Stmt.Enclosed (k + 1)) := by
  intro c s c' hc hx
  obtain ⟨_, c₁, entered, hx⟩ := bind_eq_ok.1 hx
  obtain ⟨b, c₂, lowered, hx⟩ := bind_eq_ok.1 hx
  obtain ⟨_, c₃, exited, hx⟩ := bind_eq_ok.1 hx
  obtain ⟨rfl, rfl⟩ := pure_eq_ok.1 hx
  have inside : c₁.Nested g (k + 1) :=
    nested_changeFunction follows_enterLoop (fun _ he => Nat.succ_le_succ he) hc entered
  obtain ⟨after, hb⟩ := nests_stmt h c₁ b c₂ inside lowered
  exact ⟨nested_changeFunction follows_exitLoop (fun _ he => Nat.sub_le_of_le_add he) after exited, hb⟩

/-! ## Variables -/

theorem nests_variableType (base : Base) (stars : Nat) (name : String) :
    Nests g k (variableType base stars name loc) fun _ => True :=
  faithful_resolveType.nests.bind fun _ _ => nests_guard fun _ => nests_pure trivial

theorem nests_sizeOf (ty : Ty) : Nests g k (sizeOf ty loc) fun _ => True := faithful_sizeOf.nests

theorem nests_arrayLength (name : String) (hn : n.Regular) :
    Nests g k (arrayLength (lower g) name n loc) fun _ => True := by
  refine (nests_expr hn).bind fun e _ => nests_guard fun _ => nests_require_bind fun length => ?_
  exact nests_guard fun _ => nests_pure trivial

theorem nests_variableItem (base : Base) (hn : n.Regular) :
    Nests g k (variableItem (lower g) base n) fun _ => True := by
  -- That the declaration is sound is known of the whole item; here only the loops are followed.
  have sound : ∀ c u c', c.Sound g → variableItem (lower g) base n c = .ok (u, c') → c'.Sound g := by
    intro c u c' hc hx
    exact ((follows_variableItem (H := fun _ => True) hn).follows hc (fun _ _ => trivial) hx).2.1
  unfold variableItem at sound ⊢
  split
  · rename_i stars name hs
    simp only [hs] at sound
    intro c u c' hc hx
    have hc' := sound c u c' hc.sound hx
    obtain ⟨ty, c₁, h₁, hx⟩ := bind_eq_ok.1 hx
    obtain ⟨size, c₂, h₂, hx⟩ := bind_eq_ok.1 hx
    obtain ⟨hc₁, -⟩ := nests_variableType base stars name c ty c₁ hc h₁
    obtain ⟨hc₂, -⟩ := nests_sizeOf ty c₁ size c₂ hc₁ h₂
    exact ⟨hc₂.declare hc' hx, trivial⟩
  · rename_i stars name size? hs
    simp only [hs] at sound
    cases size? with
    | none => exact (nests_variableType base stars name).bind fun _ _ => nests_fail
    | some part =>
      have hpart : part.Regular := hn.part (by simp [hs, Shape.parts])
      intro c u c' hc hx
      have hc' := sound c u c' hc.sound hx
      obtain ⟨ty, c₁, h₁, hx⟩ := bind_eq_ok.1 hx
      obtain ⟨spec, c₂, h₂, hx⟩ := bind_eq_ok.1 hx
      obtain ⟨element, c₃, h₃, hx⟩ := bind_eq_ok.1 hx
      obtain ⟨-, hx⟩ := guard_eq_ok.1 hx
      obtain ⟨hc₁, -⟩ := nests_variableType base stars name c ty c₁ hc h₁
      obtain ⟨hc₂, -⟩ := nests_arrayLength name hpart c₁ spec c₂ hc₁ h₂
      obtain ⟨hc₃, -⟩ := nests_sizeOf ty c₂ element c₃ hc₂ h₃
      exact ⟨hc₃.declare hc' hx, trivial⟩
  · exact nests_fail

theorem nests_variableItems (base : Base) {items : List Node} (h : ∀ m ∈ items, m.Regular) :
    Nests g k (variableItems (lower g) base items) fun _ => True := by
  induction items with
  | nil => exact nests_pure trivial
  | cons m ms ih =>
    obtain ⟨hm, hms⟩ := List.forall_mem_cons.1 h
    exact (nests_variableItem base hm).bind fun _ _ => ih hms

/-! ## The rules -/

section
variable (hn : n.Regular)
include hn

theorem nests_varDec : Nests g k (varDec (lower g) n) (Lowered.Enclosed k) := by
  unfold varDec
  split
  · rename_i base items hs
    refine (nests_variableItems base fun m hm => hn.part ?_).bind fun _ _ => nests_pure trivial
    rwa [hs]
  · exact nests_fail

theorem nests_returns : Nests g k (returns (lower g) n) (Lowered.Enclosed k) := by
  unfold returns
  split
  · rename_i value? hs
    refine nests_ask_bind fun _ _ => nests_require_bind fun expected => ?_
    cases value? with
    | none => exact nests_guard fun _ => nests_action .returns
    | some part =>
      have hpart : part.Regular := hn.part (by simp [hs, Shape.parts])
      refine nests_guard fun _ => (nests_value hpart).bind fun e _ => nests_guard fun _ => ?_
      exact nests_action .returns
  · exact nests_fail

theorem nests_exprStatement : Nests g k (exprStatement (lower g) n) (Lowered.Enclosed k) := by
  unfold exprStatement
  split
  · rename_i part hs
    have hpart : part.Regular := hn.part (by simp [hs, Shape.parts])
    exact (nests_expr hpart).bind fun _ _ => nests_action .expr
  · exact nests_fail

omit hn in
/-- A jump is lowered only where a loop is around. -/
theorem nests_jump : Nests g k (jump n) (Lowered.Enclosed k) := by
  have around : ∀ c : Context, c.Nested g k → ¬ ¬ c.inLoop = true → ∃ j, k = j + 1 := by
    intro c hc hl
    replace hl := not_not.1 hl
    unfold inLoop at hl
    cases hf : c.function with
    | none => simp [hf] at hl
    | some f =>
      have := hc.loops f hf
      have : 0 < f.loops := by simpa [hf] using hl
      exact ⟨k - 1, by omega⟩
  unfold jump
  split
  · refine nests_ask_bind fun c hc => nests_guard fun hl => ?_
    obtain ⟨j, rfl⟩ := around c hc hl
    exact nests_action .breaks
  · refine nests_ask_bind fun c hc => nests_guard fun hl => ?_
    obtain ⟨j, rfl⟩ := around c hc hl
    exact nests_action .continues
  · exact nests_fail

variable (hp : ∀ m ∈ n.shape.parts, m.production.isTop = false → ∀ j, StmtNests g j m)
include hp

theorem nests_block : Nests g k (block (lower g) n) (Lowered.Enclosed k) := by
  have fits := hn.fits
  unfold block
  split
  · rename_i nodes hs
    rw [hs] at hp fits
    refine nests_enterScope.bind fun _ _ => ?_
    refine (nests_statements fun m hm => hp m hm (fits m hm) k).bind fun body hbody => ?_
    exact nests_exitScope.bind fun _ _ => nests_action (.block hbody)
  · exact nests_fail

theorem nests_ifElse : Nests g k (ifElse (lower g) n) (Lowered.Enclosed k) := by
  have fits := hn.fits
  unfold ifElse
  split
  · rename_i test thenBranch elseBranch hs
    have htest : test.Regular := hn.part (by simp [hs, Shape.parts])
    rw [hs] at hp fits
    have hthen := hp thenBranch (by simp [Shape.parts]) fits.1 k
    refine (nests_condition htest).bind fun _ _ => (nests_stmt hthen).bind fun t ht => ?_
    refine (nests_optional fun m hm => nests_stmt (hp m ?_ (fits.2 m hm) k)).bind fun e he => ?_
    · simp [Shape.parts, Option.mem_def.1 hm]
    · exact nests_action (.ifElse ht he)
  · exact nests_fail

theorem nests_whileLoop : Nests g k (whileLoop (lower g) n) (Lowered.Enclosed k) := by
  have fits := hn.fits
  unfold whileLoop
  split
  · rename_i test body hs
    have htest : test.Regular := hn.part (by simp [hs, Shape.parts])
    rw [hs] at hp fits
    have hbody := hp body (by simp [Shape.parts]) fits (k + 1)
    refine (nests_condition htest).bind fun _ _ => (nests_loopBody hbody).bind fun b hb => ?_
    exact nests_action (.whileLoop hb)
  · exact nests_fail

theorem nests_doWhile : Nests g k (doWhile (lower g) n) (Lowered.Enclosed k) := by
  have fits := hn.fits
  unfold doWhile
  split
  · rename_i body test hs
    have htest : test.Regular := hn.part (by simp [hs, Shape.parts])
    rw [hs] at hp fits
    have hbody := hp body (by simp [Shape.parts]) fits (k + 1)
    refine (nests_loopBody hbody).bind fun b hb => (nests_condition htest).bind fun _ _ => ?_
    exact nests_action (.doWhile hb)
  · exact nests_fail

theorem nests_forLoop : Nests g k (forLoop (lower g) n) (Lowered.Enclosed k) := by
  have fits := hn.fits
  unfold forLoop
  split
  · rename_i init test increment body hs
    have head : ∀ {o}, o = init ∨ o = test ∨ o = increment → ∀ m ∈ o, m.Regular := by
      rintro o (rfl | rfl | rfl) m hm <;>
        exact hn.part (by simp [hs, Shape.parts, Option.mem_def.1 hm])
    rw [hs] at hp fits
    have hbody := hp body (by simp [Shape.parts]) fits (k + 1)
    refine (nests_optional fun m hm => nests_expr (head (.inl rfl) m hm)).bind fun _ _ => ?_
    refine (nests_optional fun m hm => nests_condition (head (.inr (.inl rfl)) m hm)).bind fun _ _ => ?_
    refine (nests_optional fun m hm => nests_expr (head (.inr (.inr rfl)) m hm)).bind fun _ _ => ?_
    exact (nests_loopBody hbody).bind fun b hb => nests_action (.forLoop hb)
  · exact nests_fail

theorem nests_rule (ho : n.production.isOwn = true) (ht : n.production.isTop = false) :
    Nests g k (rule (lower g) n) (Lowered.Enclosed k) := by
  unfold rule
  cases hr : n.production with
  | varDec => exact nests_varDec hn
  | block => exact nests_block hn hp
  | ifElse => exact nests_ifElse hn hp
  | whileLoop => exact nests_whileLoop hn hp
  | doWhile => exact nests_doWhile hn hp
  | forLoop => exact nests_forLoop hn hp
  | returns => exact nests_returns hn
  | breaks | continues => exact nests_jump
  | empty => exact nests_action .empty
  | exprStatement => exact nests_exprStatement hn
  | program | structDef | functionDef | param =>
    rw [hr] at ht
    cases ht
  | _ =>
    rw [hr] at ho
    cases ho

end

/-- **Jumps are lowered inside of loops.** -/
theorem nests_lower (g : Grammar) (n : Node) (hn : n.Regular) (ht : n.production.isTop = false)
    (k : Nat) : StmtNests g k n := by
  have hp : ∀ m ∈ n.shape.parts, m.production.isTop = false → ∀ j, StmtNests g j m :=
    fun m hm ht j =>
      have := Node.height_lt_of_mem_parts hm
      nests_lower g m (hn.part hm) ht j
  cases ho : n.production.isOwn with
  | false =>
    intro c l c' hc hx
    obtain ⟨hi, hs, yields⟩ := (faithful_lower g n hn ho).follows hc.sound (fun _ _ => trivial) hx
    obtain ⟨e, rfl, -⟩ := yields.here
    exact ⟨hc.interns hs hi, trivial⟩
  | true =>
    rcases lower_cases g n with hl | ⟨cause, hl⟩ <;> rw [StmtNests, hl]
    · exact nests_rule hn hp ho ht
    · exact nests_fail
termination_by n.height

/-! ## Definitions -/

theorem nests_all {ns : List Node} (h : ∀ m ∈ ns, StmtNests g k m) :
    Nests g k (all (lower g) ns) fun _ => True := by
  induction ns with
  | nil => exact nests_pure trivial
  | cons m ms ih =>
    obtain ⟨hm, hms⟩ := List.forall_mem_cons.1 h
    intro c u c'' hc hx
    obtain ⟨_, c', first, hx⟩ := bind_eq_ok.1 hx
    obtain ⟨l, first⟩ := discard_eq_ok.1 first
    obtain ⟨hc', -⟩ := hm c l c' hc first
    exact ih hms c' u c'' hc' hx

/-- A definition outside of all others keeps all jumps in loops. -/
def ItemNests (g : Grammar) (x : Lower Lowered) : Prop :=
  ∀ c l c', c.Nested g 0 → c.Outside → x c = .ok (l, c') → c'.Nested g 0

theorem itemNests_fail : ItemNests g (fail cause loc) := fun _ _ _ _ _ hx => absurd hx fail_ne_ok

/-- A definition is lowered by its rule. -/
theorem itemNests_lower (h : ItemNests g (rule (lower g) n)) : ItemNests g (lower g n) := by
  rcases lower_cases g n with hl | ⟨cause, hl⟩ <;> rw [hl]
  · exact h
  · exact itemNests_fail

/-- A body is lowered with no loop around. -/
theorem itemNests_functionDef (hn : n.Regular) : ItemNests g (functionDef (lower g) n) := by
  have fits := hn.fits
  have follows := follows_functionDef (g := g) hn
  unfold functionDef at follows ⊢
  split
  · rename_i base stars name params body hs
    rw [hs] at fits
    simp only [hs] at follows
    have hbody : body.Regular := hn.part (by simp [hs, Shape.parts])
    intro c l c' hc ho hx
    obtain ⟨-, sound, -⟩ := follows.follows hc.sound (fun _ hk => ho.reaches hk) hx
    obtain ⟨result, c₁, ht, hx⟩ := bind_eq_ok.1 hx
    obtain ⟨rfl, known⟩ := resolveType_ok ht ho.struct
    obtain ⟨hstruct, hx⟩ := guard_eq_ok.1 hx
    simp only [bind_eq_ok, discard_eq_ok, pure_eq_ok] at hx
    obtain ⟨_, _, ⟨_, hbegin⟩, _, c₁, hparams, s, c₂, hstmt, _, _, hfinish, -, rfl⟩ := hx
    obtain ⟨unnamed, rfl⟩ := beginFunction_ok hbegin
    have h₀ : c.Heads c.program.symbols ⟨name, result, [], [], .declared, n.start⟩ [[]] :=
      ⟨unnamed, rfl, rfl, by simpa using hstruct, known, id, .inl, by simp, by simp⟩
    obtain ⟨symbols, f, scopes, rfl, h⟩ := keepsHead_all hc.sound ho fits.1 h₀ hparams
    -- In front of its body the function is declared only, and no loop is open.
    have begun : (c.heading symbols f scopes).Nested g 0 := by
      refine ⟨h.sound hc.sound ho, ?_, fun i f' body' hf' hb => ?_⟩
      · rintro _ ⟨⟩
        exact Nat.le_refl 0
      · change (c.program.functions.push f)[i]? = some f' at hf'
        rcases Program.getElem?_push_cases hf' with hf' | ⟨rfl, -⟩
        · exact hc.enclosed i f' body' hf' hb
        · cases h.declared.symm.trans hb
    have hlower := nests_lower g body hbody (by rw [fits.2]; rfl) 0
    obtain ⟨after, henclosed⟩ := nests_stmt hlower _ s c₂ begun hstmt
    obtain ⟨e, -, rfl⟩ := finishFunction_ok hfinish
    refine ⟨sound, by rintro _ ⟨⟩, fun i f' body' hf' hb => ?_⟩
    rcases functions_modify hf' with ⟨-, hf'⟩ | ⟨-, f'', hf'', rfl⟩
    · exact after.enclosed i f' body' hf' hb
    · cases hb
      exact henclosed
  · exact itemNests_fail

theorem itemNests_structDef (hn : n.Regular) : ItemNests g (structDef (lower g) n) := by
  have fits := hn.fits
  have follows := follows_structDef (g := g) hn
  unfold structDef at follows ⊢
  split
  · rename_i name members hs
    rw [hs] at fits
    simp only [hs] at follows
    intro c l c' hc ho hx
    obtain ⟨-, sound, -⟩ := follows.follows hc.sound (fun _ hk => ho.reaches hk) hx
    obtain ⟨-, hx⟩ := guard_eq_ok.1 hx
    simp only [bind_eq_ok, discard_eq_ok, pure_eq_ok] at hx
    obtain ⟨_, _, hbegin, _, c₂, hall, _, _, ⟨_, hfinish⟩, -, rfl⟩ := hx
    obtain ⟨fresh, rfl⟩ := beginStruct_ok hbegin
    have begun : Nested g 0 { c with struct := some ⟨name, [], 0⟩ } :=
      ⟨hc.sound.beginStruct ho fresh, hc.loops, hc.enclosed⟩
    have hmembers : ∀ m ∈ members, StmtNests g 0 m := fun m hm =>
      nests_lower g m (hn.part (by rwa [hs])) (by rw [fits m hm]; rfl) 0
    obtain ⟨after, -⟩ := nests_all hmembers _ _ c₂ begun hall
    obtain ⟨s, -, rfl⟩ := finishStruct_ok hfinish
    exact ⟨sound, after.loops, after.enclosed⟩
  · exact itemNests_fail

theorem itemNests_item (hn : n.Regular) (hp : n.production = .structDef ∨
    n.production = .functionDef ∨ n.production = .varDec) : ItemNests g (lower g n) := by
  rcases hp with hp | hp | hp
  · refine itemNests_lower ?_
    simp only [rule, hp]
    exact itemNests_structDef hn
  · refine itemNests_lower ?_
    simp only [rule, hp]
    exact itemNests_functionDef hn
  · intro c l c' hc _ hx
    exact (nests_lower g n hn (by rw [hp]; rfl) 0 c l c' hc hx).1

theorem nested_items {items : List Node} {c c' : Context} {u : Unit} (hn : ∀ m ∈ items, m.Regular)
    (hp : ∀ m ∈ items, m.production = .structDef ∨ m.production = .functionDef ∨
      m.production = .varDec)
    (hc : c.Nested g 0) (ho : c.Outside) (hx : all (lower g) items c = .ok (u, c')) :
    c'.Nested g 0 := by
  induction items generalizing c with
  | nil =>
    obtain ⟨-, rfl⟩ := pure_eq_ok.1 hx
    exact hc
  | cons m ms ih =>
    obtain ⟨hm, hms⟩ := List.forall_mem_cons.1 hn
    obtain ⟨pm, pms⟩ := List.forall_mem_cons.1 hp
    obtain ⟨_, c₁, first, hx⟩ := bind_eq_ok.1 hx
    obtain ⟨l, first⟩ := discard_eq_ok.1 first
    obtain ⟨reach, -, -⟩ := (follows_item hm pm).follows hc.sound (fun _ hk => ho.reaches hk) first
    exact ih hms pms (itemNests_item hm pm c l c₁ hc ho first) (ho.reaches reach) hx

theorem itemNests_program (hn : n.Regular) (hp : n.production = .program) :
    ItemNests g (lower g n) := by
  have fits := hn.fits
  refine itemNests_lower ?_
  simp only [rule, hp, program]
  split
  · rename_i items hs
    rw [hs] at fits
    intro c l c' hc ho hx
    obtain ⟨_, c₁, hall, hx⟩ := bind_eq_ok.1 hx
    obtain ⟨-, rfl⟩ := pure_eq_ok.1 hx
    exact nested_items (fun m hm => hn.part (by rwa [hs])) fits hc ho hall
  · exact itemNests_fail

end Lower

/-! ## Programs -/

/-- The builtin functions have no statements. -/
theorem Context.building_nested (g : Grammar) : (Context.building .initial).Nested g 0 := by
  refine ⟨Context.building_sound g, by rintro _ ⟨⟩, fun i f body hf hb => ?_⟩
  change Program.initial.functions[i]? = some f at hf
  have hmem : f ∈ Program.initial.functions.toList := by simpa using Array.mem_of_getElem? hf
  obtain ⟨-, -, -, -, b, hbuiltin, -⟩ := Program.initial_functions hmem
  cases hbuiltin.symm.trans hb

/-- **In every function of a source, each `break` and each `continue` stands in a loop.** -/
theorem Program.ofSource_enclosed {g : Grammar} {source : String} {p : Program}
    (h : Program.ofSource g source = .ok p) {i : Nat} {f : Function} {body : Stmt}
    (hf : p.functions[i]? = some f) (hb : f.body = .compiled body) : body.Enclosed 0 := by
  obtain ⟨root, l, c, hr, hl, rfl⟩ := Program.ofSource_eq_ok h
  have read := ofSource_readAs hr
  have nested := Lower.itemNests_program read.regular (read.own rfl) _ l c
    (Context.building_nested g) ⟨rfl, rfl⟩ hl
  exact nested.enclosed i f body hf hb

end MiniC
