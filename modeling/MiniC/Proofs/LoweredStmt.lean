/-
  What statements are lowered to.

  Each rule of lowering that makes a statement makes a well-typed one, and declares only variables
  that are well typed (`follows_lower`).
-/
import MiniC.Proofs.Declared

namespace MiniC

/-- Code that is well typed whatever lowering arrives at. -/
def Context.Accepts (c : Context) : Lowered → Prop
  | .expr e => c.Types e
  | .stmt s => c.TypesStmt s
  | .declared => True

namespace Lower
variable {α β : Type} {g : Grammar} {H : Context → Prop} {n : Node}
open Context

/-! ## Steps -/

theorem follows_guard {S : Context → Context → Prop} {R : Context → α → Prop} {p : Prop} [Decidable p]
    {cause : CompileCause} {loc : Location} {x : PUnit → Lower α}
    (hx : ¬ p → Follows g S H (x ()) R) :
    Follows g S H (if p then fail cause loc >>= x else x ()) R := by
  rw [fail_bind]
  exact follows_ite (fun _ => follows_fail) hx

theorem follows_ask {S : Context → Context → Prop} [IsPreorder Context S] {f : Context → α}
    {R : Context → α → Prop} (onward : ∀ {c c'}, S c c' → R c' (f c)) : Follows g S H (ask f) R where
  follows {c a c'} hc _ hx := by
    obtain ⟨rfl, rfl⟩ := ask_eq_ok.1 hx
    exact ⟨refl c, hc, fun k hk => onward hk⟩

theorem follows_require_bind {S : Context → Context → Prop} {R : Context → α → Prop} {o : Option β}
    {cause : CompileCause} {loc : Location} {k : β → Lower α}
    (hk : ∀ b, o = some b → Follows g S H (k b) R) :
    Follows g S H (do let b ← require o cause loc; k b) R := by
  cases o with
  | none =>
    rw [require, fail_bind]
    exact follows_fail
  | some b => exact hk b rfl

/-- A step of expressions among statements: what it comes to has to hold also after declarations. -/
theorem Faithful.reaches {x : Lower α} {R R' : Context → α → Prop}
    (h : Faithful g (fun _ => True) x R) (hR : ∀ {c c' a}, R c a → c.Reaches c' → R' c' a) :
    Follows g Reaches H x R' where
  follows {c a c'} hc _ hx := by
    obtain ⟨h1, h2, h3⟩ := h.follows hc (fun _ _ => trivial) hx
    exact ⟨h1.reaches, h2, fun k hk => hR h3.here hk⟩

theorem follows_optional {f : Node → Lower α} {R : Context → α → Prop} {o : Option Node}
    (h : ∀ m ∈ o, Follows g Reaches H (f m) R) :
    Follows g Reaches H (optional f o) fun c r => ∀ a ∈ r, R c a := by
  cases o with
  | none => exact follows_pure fun _ _ => nofun
  | some m =>
    refine (h m rfl).bind fun a => follows_pure fun c hc => ?_
    rintro _ ⟨⟩
    exact hc.2

theorem follows_changeFunction {f : FunctionContext → FunctionContext} (hid : ∀ k, (f k).id = k.id)
    (hr : ∀ k, (f k).result = k.result)
    (hs : ∀ k, ∀ scope ∈ (f k).scopes, scope = [] ∨ scope ∈ k.scopes) :
    Follows g Reaches H (changeFunction f) fun _ _ => True where
  follows {c u c'} hc _ hx := by
    obtain rfl := change_eq_ok.1 hx
    obtain ⟨h1, h2⟩ := hc.changeFunction hid hr hs
    exact ⟨h1, h2, fun _ _ => trivial⟩

theorem follows_enterScope : Follows g Reaches H enterScope fun _ _ => True := by
  refine follows_changeFunction (fun _ => rfl) (fun _ => rfl) fun k scope hs => ?_
  rcases List.mem_cons.1 hs with rfl | hs
  · exact .inl rfl
  · exact .inr hs

theorem follows_exitScope : Follows g Reaches H exitScope fun _ _ => True := by
  refine follows_changeFunction (fun k => ?_) (fun k => ?_) fun k scope hs => .inr ?_
  · split <;> rfl
  · split <;> rfl
  · split at hs
    · rename_i heq
      rw [heq]
      exact List.mem_cons_of_mem _ hs
    · exact hs

theorem follows_enterLoop : Follows g Reaches H enterLoop fun _ _ => True :=
  follows_changeFunction (fun _ => rfl) (fun _ => rfl) fun _ _ => .inr

theorem follows_exitLoop : Follows g Reaches H exitLoop fun _ _ => True :=
  follows_changeFunction (fun _ => rfl) (fun _ => rfl) fun _ _ => .inr

/-! ## Parts -/

theorem follows_expr (hn : n.Regular) : Follows g Reaches H (expr (lower g) n) fun c e => c.Types e :=
  (faithful_lowerExpr g n hn).reaches fun h hr => Types.reaches h.types hr

theorem follows_value (hn : n.Regular) :
    Follows g Reaches H (value (lower g) n) fun c e => c.Types e ∧ e.ty.isVoid = false :=
  (faithful_value (faithful_lowerExpr g n hn)).reaches fun h hr => ⟨Types.reaches h.1.types hr, h.2.1⟩

theorem follows_condition (hn : n.Regular) :
    Follows g Reaches H (condition (lower g) n) fun c e => c.Types e ∧ e.ty.isScalar = true := by
  refine (follows_value hn).bind fun e => follows_guard fun hs => follows_pure fun c hc => ?_
  exact ⟨hc.2.1, by simpa using hs⟩

/-- The lowering of `n` makes well-typed code. -/
abbrev StmtFollows (g : Grammar) (low : Lowering) (n : Node) : Prop :=
  Follows g Reaches (fun _ => True) (low n) fun c l => c.Accepts l

section
variable {low : Lowering}

theorem follows_stmt (h : StmtFollows g low n) :
    Follows g Reaches H (stmt low n) fun c s => c.TypesStmt s := by
  refine (h.mono (fun _ _ => trivial) fun _ _ h => h).bind fun l => ?_
  cases l with
  | stmt s => exact follows_pure fun c hc => hc.2
  | expr e => exact follows_pure fun c hc d hd => .expr (hc.2 hd)
  | declared => exact follows_pure fun c hc d hd => .empty

theorem follows_statements {ns : List Node} (h : ∀ m ∈ ns, StmtFollows g low m) :
    Follows g Reaches H (statements low ns) fun c ss => ∀ s ∈ ss, c.TypesStmt s := by
  induction ns generalizing H with
  | nil => exact follows_pure fun _ _ => nofun
  | cons m ms ih =>
    unfold statements
    refine ((h m (by simp)).mono (fun _ _ => trivial) fun _ _ h => h).bind fun l => ?_
    refine (ih fun k hk => h k (by simp [hk])).bind fun ss => ?_
    cases l with
    | stmt s =>
      refine follows_pure fun c hc => ?_
      simpa using ⟨hc.1.2, hc.2⟩
    | expr e =>
      refine follows_pure fun c hc => ?_
      have he : c.TypesStmt (.mk (.expr e) m.start) := fun hd => .expr (hc.1.2 hd)
      simpa using ⟨he, hc.2⟩
    | declared => exact follows_pure fun c hc => hc.2

theorem follows_loopBody (h : StmtFollows g low n) :
    Follows g Reaches H (loopBody low n) fun c s => c.TypesStmt s := by
  refine follows_enterLoop.bind fun _ => (follows_stmt h).bind fun s => ?_
  exact follows_exitLoop.bind fun _ => follows_pure fun c hc => hc.1.2

end

theorem follows_action {a : Action} (h : ∀ c, H c → c.TypesStmt (.mk a n.start)) :
    Follows g Reaches H (action a n) fun c l => c.Accepts l :=
  follows_pure h

/-! ## Variables -/

theorem follows_variableType {base : Base} {stars : Nat} {name : String} {loc : Location} :
    Follows g Reaches H (variableType base stars name loc) fun c t =>
      (∀ {q}, c.Completes q → t.Known q) ∧ t.isVoid = false := by
  have known : Follows g Reaches H (resolveType base stars loc) fun c t =>
      ∀ {q}, c.Completes q → t.Known q :=
    faithful_resolveType.reaches fun h hr q hq => h.2 (hr.precedes q hq)
  refine known.bind fun t => follows_guard fun hv => follows_pure fun c hc => ?_
  exact ⟨hc.2, by simpa using hv⟩

theorem follows_sizeOf {ty : Ty} {loc : Location} :
    Follows g Reaches H (sizeOf ty loc) fun c n => c.program.sizeOf? ty = some n ∧ 0 < n :=
  faithful_sizeOf.reaches fun h hr => ⟨hr.extends_.sizeOf? h.1, h.2.1⟩

theorem follows_arrayLength {name : String} {loc : Location} (hn : n.Regular) :
    Follows g Reaches H (arrayLength (lower g) name n loc) fun c spec =>
      c.Types spec.lengthExpr ∧ 0 < spec.length ∧
        ∃ w, spec.lengthExpr.constant? = some w ∧ w.toInt = spec.length := by
  refine (follows_expr hn).bind fun e => follows_guard fun _ => ?_
  refine follows_require_bind fun length hlength => follows_guard fun hpos => ?_
  refine follows_pure fun c hc => ⟨hc.2, ?_, length, hlength, ?_⟩ <;> simp only <;> omega

theorem follows_variableItem {base : Base} (hn : n.Regular) :
    Follows g Reaches H (variableItem (lower g) base n) fun c _ => c.Populated := by
  unfold variableItem
  split
  · refine follows_variableType.bind fun ty => follows_sizeOf.bind fun size => ?_
    refine follows_declare fun hc d hd => ?_
    obtain ⟨⟨-, known, hv⟩, -, stored⟩ := hc
    exact ⟨known hd.completes, hv, nofun, nofun, stored⟩
  · rename_i stars name size? hs
    refine follows_variableType.bind fun ty => ?_
    split
    · exact follows_fail
    · rename_i part
      have hpart : part.Regular := hn.part (by simp [hs, Shape.parts])
      refine (follows_arrayLength hpart).bind fun spec => follows_sizeOf.bind fun element => ?_
      refine follows_guard fun _ => follows_declare fun {c} hc d hd => ?_
      obtain ⟨⟨⟨-, known, hv⟩, types, positive, w, constant, hw⟩, hsize, stored⟩ := hc
      refine ⟨known hd.completes, by simp [Ty.isVoid, Ty.pointer, Ty.void], ?_, ?_,
        Nat.mul_pos positive stored⟩
      · rintro _ ⟨⟩
        exact ⟨Ty.isPointer_pointer _, Option.isSome_iff_exists.2 ⟨w, constant⟩, _, types hd⟩
      · rintro _ ⟨⟩
        exact ⟨positive, ⟨w, constant, hw⟩, ty, element, rfl, hd.completes.extends_.sizeOf? hsize, rfl⟩
  · exact follows_fail

theorem follows_variableItems {base : Base} {items : List Node} (h : ∀ m ∈ items, m.Regular)
    (hH : ∀ {c}, H c → items = [] → c.Populated) :
    Follows g Reaches H (variableItems (lower g) base items) fun c _ => c.Populated := by
  induction items generalizing H with
  | nil => exact follows_pure fun _ hc => hH hc rfl
  | cons m ms ih =>
    refine (follows_variableItem (h m (by simp))).bind fun _ => ?_
    exact ih (fun k hk => h k (by simp [hk])) fun hc _ => hc.2

theorem follows_varDec (hn : n.Regular) :
    Follows g Reaches H (varDec (lower g) n) fun c l => c.Accepts l ∧ c.Populated := by
  have fits := hn.fits
  unfold varDec
  split
  · rename_i base items hs
    rw [hs] at fits
    refine (follows_variableItems (fun m hm => hn.part ?_) fun _ he => absurd he fits).bind fun _ =>
      follows_pure fun _ hc => ⟨trivial, hc.2⟩
    rwa [hs]
  · exact follows_fail

/-! ## The rules -/

/-- The result of the function being defined is no structure. -/
theorem follows_result : Follows g Reaches H (ask Context.result?) fun c o =>
    c.result? = o ∧ ∀ t ∈ o, t.structName? = none where
  follows {c o c'} hc _ hx := by
    obtain ⟨rfl, rfl⟩ := ask_eq_ok.1 hx
    refine ⟨refl c, hc, fun k hk => ⟨hk.result, fun t ht => ?_⟩⟩
    obtain ⟨f, hf, rfl⟩ := Option.map_eq_some_iff.1 ht
    obtain ⟨hid, hresult, -⟩ := hc.ranged.function hf
    obtain ⟨d, hd⟩ := hc.ranged.exists_leads
    have hfun := Array.getElem?_eq_getElem hid
    rw [hresult, Program.function_eq hfun]
    exact ((hc.program hd).functions hfun).result

section
variable (hn : n.Regular)
include hn

theorem follows_returns : Follows g Reaches H (returns (lower g) n) fun c l => c.Accepts l := by
  unfold returns
  split
  · rename_i value? hs
    refine follows_result.bind fun o => follows_require_bind fun expected ho => ?_
    split
    · refine follows_guard fun hv => follows_action fun c hc d hd => ?_
      exact .returns (hc.2.1.trans ho) (by simpa using hv)
    · rename_i part
      have hpart : part.Regular := hn.part (by simp [hs, Shape.parts])
      refine follows_guard fun hv => (follows_value hpart).bind fun e => follows_guard fun ha => ?_
      refine follows_action fun c hc d hd => ?_
      obtain ⟨⟨-, hresult, hstruct⟩, he, -⟩ := hc
      have hscalar := Ty.isScalar_of_structName? (by simpa using hv) (hstruct expected ho)
      exact .returnsValue (hresult.trans ho) hscalar (he hd) (by simpa using ha)
  · exact follows_fail

theorem follows_exprStatement :
    Follows g Reaches H (exprStatement (lower g) n) fun c l => c.Accepts l := by
  unfold exprStatement
  split
  · rename_i part hs
    have hpart : part.Regular := hn.part (by simp [hs, Shape.parts])
    exact (follows_expr hpart).bind fun e => follows_action fun c hc d hd => .expr (hc.2 hd)
  · exact follows_fail

omit hn in
theorem follows_jump : Follows g Reaches H (jump n) fun c l => c.Accepts l := by
  have loops : Follows g Reaches H (ask Context.inLoop) fun _ _ => True :=
    follows_ask fun _ => trivial
  unfold jump
  split
  · exact loops.bind fun _ => follows_guard fun _ => follows_action fun _ _ _ _ => .breaks
  · exact loops.bind fun _ => follows_guard fun _ => follows_action fun _ _ _ _ => .continues
  · exact follows_fail

variable (hp : ∀ m ∈ n.shape.parts, m.production.isTop = false → StmtFollows g (lower g) m)
include hp

theorem follows_block : Follows g Reaches H (block (lower g) n) fun c l => c.Accepts l := by
  have fits := hn.fits
  unfold block
  split
  · rename_i nodes hs
    rw [hs] at hp fits
    refine follows_enterScope.bind fun _ => ?_
    refine (follows_statements fun m hm => hp m hm (fits m hm)).bind fun body => ?_
    refine follows_exitScope.bind fun _ => follows_action fun c hc d hd => ?_
    exact .block fun s hs => hc.1.2 s hs hd
  · exact follows_fail

theorem follows_ifElse : Follows g Reaches H (ifElse (lower g) n) fun c l => c.Accepts l := by
  have fits := hn.fits
  unfold ifElse
  split
  · rename_i test thenBranch elseBranch hs
    have htest : test.Regular := hn.part (by simp [hs, Shape.parts])
    rw [hs] at hp fits
    have hthen := hp thenBranch (by simp [Shape.parts]) fits.1
    refine (follows_condition htest).bind fun t => (follows_stmt hthen).bind fun s => ?_
    refine (follows_optional fun m hm => follows_stmt (hp m ?_ (fits.2 m hm))).bind fun e => ?_
    · simp [Shape.parts, Option.mem_def.1 hm]
    · refine follows_action fun c hc d hd => ?_
      obtain ⟨⟨⟨-, ht⟩, hs⟩, he⟩ := hc
      exact .ifElse (ht.1 hd) ht.2 (hs hd) fun s hs => he s hs hd
  · exact follows_fail

theorem follows_whileLoop : Follows g Reaches H (whileLoop (lower g) n) fun c l => c.Accepts l := by
  have fits := hn.fits
  unfold whileLoop
  split
  · rename_i test body hs
    have htest : test.Regular := hn.part (by simp [hs, Shape.parts])
    rw [hs] at hp fits
    have hbody := hp body (by simp [Shape.parts]) fits
    refine (follows_condition htest).bind fun t => (follows_loopBody hbody).bind fun b => ?_
    exact follows_action fun c hc d hd => .whileLoop (hc.1.2.1 hd) hc.1.2.2 (hc.2 hd)
  · exact follows_fail

theorem follows_doWhile : Follows g Reaches H (doWhile (lower g) n) fun c l => c.Accepts l := by
  have fits := hn.fits
  unfold doWhile
  split
  · rename_i body test hs
    have htest : test.Regular := hn.part (by simp [hs, Shape.parts])
    rw [hs] at hp fits
    have hbody := hp body (by simp [Shape.parts]) fits
    refine (follows_loopBody hbody).bind fun b => (follows_condition htest).bind fun t => ?_
    exact follows_action fun c hc d hd => .doWhile (hc.2.1 hd) hc.2.2 (hc.1.2 hd)
  · exact follows_fail

theorem follows_forLoop : Follows g Reaches H (forLoop (lower g) n) fun c l => c.Accepts l := by
  have fits := hn.fits
  unfold forLoop
  split
  · rename_i init test increment body hs
    have hinit : ∀ m ∈ init, m.Regular := fun m hm => hn.part (by
      simp [hs, Shape.parts, Option.mem_def.1 hm])
    have htest : ∀ m ∈ test, m.Regular := fun m hm => hn.part (by
      simp [hs, Shape.parts, Option.mem_def.1 hm])
    have hincrement : ∀ m ∈ increment, m.Regular := fun m hm => hn.part (by
      simp [hs, Shape.parts, Option.mem_def.1 hm])
    rw [hs] at hp fits
    have hbody := hp body (by simp [Shape.parts]) fits
    refine (follows_optional fun m hm => follows_expr (hinit m hm)).bind fun i => ?_
    refine (follows_optional fun m hm => follows_condition (htest m hm)).bind fun t => ?_
    refine (follows_optional fun m hm => follows_expr (hincrement m hm)).bind fun k => ?_
    refine (follows_loopBody hbody).bind fun b => follows_action fun c hc d hd => ?_
    obtain ⟨⟨⟨⟨-, hi⟩, ht⟩, hk⟩, hb⟩ := hc
    exact .forLoop (fun e he => hi e he hd) (fun e he => ⟨(ht e he).1 hd, (ht e he).2⟩)
      (fun e he => hk e he hd) (hb hd)
  · exact follows_fail

end

theorem follows_rule (hn : n.Regular) (ho : n.production.isOwn = true)
    (ht : n.production.isTop = false)
    (hp : ∀ m ∈ n.shape.parts, m.production.isTop = false → StmtFollows g (lower g) m) :
    Follows g Reaches H (rule (lower g) n) fun c l => c.Accepts l := by
  unfold rule
  cases hr : n.production with
  | varDec => exact (follows_varDec hn).mono (fun _ h => h) fun _ _ h => h.1
  | block => exact follows_block hn hp
  | ifElse => exact follows_ifElse hn hp
  | whileLoop => exact follows_whileLoop hn hp
  | doWhile => exact follows_doWhile hn hp
  | forLoop => exact follows_forLoop hn hp
  | returns => exact follows_returns hn
  | breaks | continues => exact follows_jump
  | empty => exact follows_action fun _ _ _ _ => .empty
  | exprStatement => exact follows_exprStatement hn
  | program | structDef | functionDef | param =>
    rw [hr] at ht
    cases ht
  | _ =>
    rw [hr] at ho
    cases ho

end Lower

/-- **Statements are lowered to well-typed code**, and so are the expressions that stand as one. -/
theorem follows_lower (g : Grammar) (n : Node) (hn : n.Regular) (ht : n.production.isTop = false) :
    Lower.StmtFollows g (lower g) n := by
  have hp : ∀ m ∈ n.shape.parts, m.production.isTop = false → Lower.StmtFollows g (lower g) m :=
    fun m hm ht =>
      have := Node.height_lt_of_mem_parts hm
      follows_lower g m (hn.part hm) ht
  cases ho : n.production.isOwn with
  | false => exact (faithful_lower g n hn ho).reaches fun ⟨e, he, ha⟩ hr => he ▸ Context.Types.reaches ha.types hr
  | true =>
    rcases lower_cases g n with hl | ⟨cause, hl⟩ <;> rw [Lower.StmtFollows, hl]
    · exact Lower.follows_rule hn ho ht hp
    · exact Lower.follows_fail
termination_by n.height

end MiniC
