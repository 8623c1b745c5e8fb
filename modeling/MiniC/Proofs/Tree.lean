/-
  Trees and the lowering of trees.

  A rule of lowering asks only for the lowering of trees that are less high than its own, so the
  bound on the height that ties the rules together does not show: `lower_eq` says that lowering is
  the rule of a node applied to lowering itself.
-/
import MiniC.Lowering

namespace MiniC

namespace Shape

/-- The trees that a shape is made of. -/
def parts : Shape → List Node
  | program items => items
  | structDef _ members => members
  | functionDef _ _ _ params body => body :: params
  | param _ item => [item]
  | varDec _ items => items
  | arrayItem _ _ size => size.toList
  | block statements => statements
  | ifElse condition thenBranch elseBranch => condition :: thenBranch :: elseBranch.toList
  | whileLoop condition body => [condition, body]
  | doWhile body condition => [body, condition]
  | forLoop init condition increment body =>
    body :: (init.toList ++ condition.toList ++ increment.toList)
  | returns value => value.toList
  | exprStatement expr => [expr]
  | assign left right => [left, right]
  | arrayInit values => values
  | binary _ left right => [left, right]
  | unary _ operand => [operand]
  | deref operand => [operand]
  | addressOf operand => [operand]
  | sizeofExpr operand => [operand]
  | index base number => [base, number]
  | member object _ => [object]
  | pointerMember pointer _ => [pointer]
  | call _ args => args
  | type _ | varItem .. | breaks | continues | empty | sizeofType .. | intLiteral _ | charLiteral _
  | stringLiteral _ | null | identifier _ => []

end Shape

namespace Node

theorem height_le_heights {n : Node} {ns : List Node} (h : n ∈ ns) : n.height ≤ heights ns := by
  induction ns with
  | nil => simp at h
  | cons m ms ih =>
    rw [heights]
    rcases List.mem_cons.1 h with rfl | h
    · exact Nat.le_max_left ..
    · exact Nat.le_trans (ih h) (Nat.le_max_right ..)

theorem height_le_optionHeight {n : Node} {o : Option Node} (h : n ∈ o.toList) :
    n.height ≤ optionHeight o := by
  cases o with
  | none => simp at h
  | some m => simp at h; subst h; simp [optionHeight]

/-- A part is less high than the whole. -/
theorem height_lt_of_mem_parts {m n : Node} (h : m ∈ n.shape.parts) : m.height < n.height := by
  obtain ⟨mark, shape⟩ := n
  rw [Node.shape] at h
  rw [height]
  apply Nat.lt_succ_of_le
  cases shape with
  | program | structDef | varDec | block | arrayInit | call => exact height_le_heights h
  | functionDef _ _ _ params body =>
    rw [shapeHeight]
    rcases List.mem_cons.1 h with rfl | h
    · exact Nat.le_max_right ..
    · exact Nat.le_trans (height_le_heights h) (Nat.le_max_left ..)
  | arrayItem _ _ size => cases size <;> simp_all [Shape.parts, shapeHeight]
  | ifElse c t e =>
    cases e <;> simp only [Shape.parts, Option.toList, List.mem_cons, List.not_mem_nil, or_false]
      at h <;> rw [shapeHeight]
    · rcases h with rfl | rfl <;> omega
    · rcases h with rfl | rfl | rfl <;> omega
  | forLoop i c n b =>
    rw [shapeHeight]
    simp only [Shape.parts, List.mem_cons, List.mem_append] at h
    rcases h with rfl | (h | h) | h
    · omega
    all_goals have := height_le_optionHeight h; omega
  | returns value => cases value <;> simp_all [Shape.parts, shapeHeight]
  | whileLoop | doWhile | assign | binary | index =>
    simp only [Shape.parts, List.mem_cons, List.not_mem_nil, or_false] at h
    rw [shapeHeight]
    rcases h with rfl | rfl <;> omega
  | param | exprStatement | unary | deref | addressOf | sizeofExpr | member | pointerMember =>
    simp only [Shape.parts, List.mem_cons, List.not_mem_nil, or_false] at h
    subst h
    exact Nat.le_refl _
  | _ => simp [Shape.parts] at h

end Node

namespace Lower

/-! ## What a rule asks for -/

section
variable {low low' : Lowering} {n : Node}

theorem expr_congr (h : low n = low' n) : expr low n = expr low' n := by
  rw [expr, expr, h]

theorem value_congr (h : low n = low' n) : value low n = value low' n := by
  rw [value, value, expr_congr h]

theorem stmt_congr (h : low n = low' n) : stmt low n = stmt low' n := by
  rw [stmt, stmt, h]

theorem condition_congr (h : low n = low' n) : condition low n = condition low' n := by
  rw [condition, condition, value_congr h]

theorem loopBody_congr (h : low n = low' n) : loopBody low n = loopBody low' n := by
  rw [loopBody, loopBody, stmt_congr h]

theorem optional_congr {α : Type} {f f' : Node → Lower α} {o : Option Node}
    (h : ∀ m ∈ o.toList, f m = f' m) : optional f o = optional f' o := by
  cases o with
  | none => rfl
  | some m => rw [optional, optional, h m (by simp)]

theorem checkValues_congr {element : Ty} {ns : List Node} (h : ∀ m ∈ ns, low m = low' m) :
    checkValues low element ns = checkValues low' element ns := by
  induction ns with
  | nil => rfl
  | cons m ms ih =>
    rw [checkValues, checkValues, value_congr (h m (by simp)), ih fun k hk => h k (by simp [hk])]

theorem arguments_congr {name : String} {ns : List Node} {i : Nat} {ts : List Ty}
    (h : ∀ m ∈ ns, low m = low' m) : arguments low name i ns ts = arguments low' name i ns ts := by
  induction ns generalizing i ts with
  | nil => simp [arguments]
  | cons m ms ih =>
    cases ts with
    | nil => simp [arguments]
    | cons t ts =>
      rw [arguments, arguments, value_congr (h m (by simp)), ih fun k hk => h k (by simp [hk])]

theorem statements_congr {ns : List Node} (h : ∀ m ∈ ns, low m = low' m) :
    statements low ns = statements low' ns := by
  induction ns with
  | nil => rfl
  | cons m ms ih => rw [statements, statements, h m (by simp), ih fun k hk => h k (by simp [hk])]

theorem all_congr {ns : List Node} (h : ∀ m ∈ ns, low m = low' m) : all low ns = all low' ns := by
  induction ns with
  | nil => rfl
  | cons m ms ih => rw [all, all, h m (by simp), ih fun k hk => h k (by simp [hk])]

theorem variableItem_congr {base : Base} (h : ∀ m ∈ n.shape.parts, low m = low' m) :
    variableItem low base n = variableItem low' base n := by
  rw [variableItem, variableItem]
  split
  · rfl
  · rename_i stars name size? hs
    cases size? with
    | none => rfl
    | some part => simp only [arrayLength, expr_congr (h part (by simp [hs, Shape.parts]))]
  · rfl

theorem variableItems_congr {base : Base} {ns : List Node}
    (h : ∀ n ∈ ns, ∀ m ∈ n.shape.parts, low m = low' m) :
    variableItems low base ns = variableItems low' base ns := by
  induction ns with
  | nil => rfl
  | cons m ms ih =>
    rw [variableItems, variableItems, variableItem_congr (h m (by simp)),
      ih fun k hk => h k (by simp [hk])]

theorem assignment_congr (h : ∀ m ∈ n.shape.parts, low m = low' m)
    (deep : ∀ m ∈ n.shape.parts, ∀ k ∈ m.shape.parts, low k = low' k) :
    assignment low n = assignment low' n := by
  unfold assignment
  split
  · rename_i left right hs
    have hr : right ∈ n.shape.parts := by simp [hs, Shape.parts]
    have hv : ∀ dst length values, right.shape = .arrayInit values →
        arrayAssign low dst length values right = arrayAssign low' dst length values right := by
      intro dst length values hi
      have hc : ∀ element, checkValues low element values = checkValues low' element values :=
        fun element => checkValues_congr fun k hk => deep right hr k (by rw [hi]; exact hk)
      simp only [arrayAssign, hc]
    have hw : ∀ dst, scalarAssign low dst left right n = scalarAssign low' dst left right n := by
      intro dst
      simp only [scalarAssign, value_congr (h right hr)]
    rw [expr_congr (h left (by simp [hs, Shape.parts]))]
    congr 1
    funext dst
    congr 1
    funext length
    split
    · rename_i hi
      rw [hv _ _ _ hi]
    · rw [hw]
  · rfl

theorem unary_congr (h : ∀ m ∈ n.shape.parts, low m = low' m) : unary low n = unary low' n := by
  unfold unary
  split <;> rename_i hs <;> simp only [hs, Shape.parts, List.mem_singleton, forall_eq] at h
  · simp only [unaryOp, value_congr h]
  · simp only [deref, value_congr h]
  · simp only [addressOf, expr_congr h]
  · rfl
  · simp only [sizeofExpr, expr_congr h]
  · rfl

theorem suffix_congr (h : ∀ m ∈ n.shape.parts, low m = low' m) : suffix low n = suffix low' n := by
  unfold suffix
  split
  · rename_i base number hs
    rw [value_congr (h base (by simp [hs, Shape.parts])),
      value_congr (h number (by simp [hs, Shape.parts]))]
  · rename_i object field hs
    rw [expr_congr (h object (by simp [hs, Shape.parts]))]
  · rename_i pointer field hs
    rw [value_congr (h pointer (by simp [hs, Shape.parts]))]
  · rfl

theorem binary_congr (h : ∀ m ∈ n.shape.parts, low m = low' m) : binary low n = binary low' n := by
  unfold binary
  split
  · rename_i op left right hs
    rw [value_congr (h left (by simp [hs, Shape.parts])),
      value_congr (h right (by simp [hs, Shape.parts]))]
  · rfl

theorem call_congr (h : ∀ m ∈ n.shape.parts, low m = low' m) : call low n = call low' n := by
  unfold call
  split
  · rename_i name args hs
    have ha : ∀ ts, arguments low name 1 args ts = arguments low' name 1 args ts :=
      fun ts => arguments_congr fun m hm => h m (hs ▸ hm)
    simp only [ha]
  · rfl

theorem exprStatement_congr (h : ∀ m ∈ n.shape.parts, low m = low' m) :
    exprStatement low n = exprStatement low' n := by
  unfold exprStatement
  split
  · rename_i part hs
    rw [expr_congr (h part (by simp [hs, Shape.parts]))]
  · rfl

theorem returns_congr (h : ∀ m ∈ n.shape.parts, low m = low' m) : returns low n = returns low' n := by
  unfold returns
  split
  · rename_i value? hs
    cases value? with
    | none => rfl
    | some m => simp only [value_congr (h m (by simp [hs, Shape.parts]))]
  · rfl

theorem block_congr (h : ∀ m ∈ n.shape.parts, low m = low' m) : block low n = block low' n := by
  unfold block
  split
  · rename_i ss hs
    have hb : statements low ss = statements low' ss := statements_congr fun m hm => h m (hs ▸ hm)
    rw [hb]
  · rfl

theorem ifElse_congr (h : ∀ m ∈ n.shape.parts, low m = low' m) : ifElse low n = ifElse low' n := by
  unfold ifElse
  split
  · rename_i test thenBranch elseBranch hs
    have he : optional (stmt low) elseBranch = optional (stmt low') elseBranch :=
      optional_congr fun m hm => stmt_congr (h m (by simp [hs, Shape.parts, Option.mem_toList.1 hm]))
    rw [condition_congr (h test (by simp [hs, Shape.parts])),
      stmt_congr (h thenBranch (by simp [hs, Shape.parts])), he]
  · rfl

theorem whileLoop_congr (h : ∀ m ∈ n.shape.parts, low m = low' m) :
    whileLoop low n = whileLoop low' n := by
  unfold whileLoop
  split
  · rename_i test body hs
    rw [condition_congr (h test (by simp [hs, Shape.parts])),
      loopBody_congr (h body (by simp [hs, Shape.parts]))]
  · rfl

theorem doWhile_congr (h : ∀ m ∈ n.shape.parts, low m = low' m) : doWhile low n = doWhile low' n := by
  unfold doWhile
  split
  · rename_i body test hs
    rw [condition_congr (h test (by simp [hs, Shape.parts])),
      loopBody_congr (h body (by simp [hs, Shape.parts]))]
  · rfl

theorem forLoop_congr (h : ∀ m ∈ n.shape.parts, low m = low' m) : forLoop low n = forLoop low' n := by
  unfold forLoop
  split
  · rename_i init test increment body hs
    have mem : ∀ {o m}, o = init ∨ o = test ∨ o = increment → m ∈ o.toList → low m = low' m := by
      rintro o m (rfl | rfl | rfl) hm <;> exact h m (by simp [hs, Shape.parts, Option.mem_toList.1 hm])
    have hi : optional (expr low) init = optional (expr low') init :=
      optional_congr fun m hm => expr_congr (mem (.inl rfl) hm)
    have ht : optional (condition low) test = optional (condition low') test :=
      optional_congr fun m hm => condition_congr (mem (.inr (.inl rfl)) hm)
    have hn : optional (expr low) increment = optional (expr low') increment :=
      optional_congr fun m hm => expr_congr (mem (.inr (.inr rfl)) hm)
    rw [hi, ht, hn, loopBody_congr (h body (by simp [hs, Shape.parts]))]
  · rfl

theorem program_congr (h : ∀ m ∈ n.shape.parts, low m = low' m) : program low n = program low' n := by
  unfold program
  split
  · rename_i items hs
    have ha : all low items = all low' items := all_congr fun m hm => h m (hs ▸ hm)
    rw [ha]
  · rfl

theorem structDef_congr (h : ∀ m ∈ n.shape.parts, low m = low' m) :
    structDef low n = structDef low' n := by
  unfold structDef
  split
  · rename_i name members hs
    have ha : all low members = all low' members := all_congr fun m hm => h m (hs ▸ hm)
    simp only [ha]
  · rfl

theorem functionDef_congr (h : ∀ m ∈ n.shape.parts, low m = low' m) :
    functionDef low n = functionDef low' n := by
  unfold functionDef
  split
  · rename_i base stars name params body hs
    have ha : all low params = all low' params :=
      all_congr fun m hm => h m (hs ▸ List.mem_cons_of_mem _ hm)
    simp only [ha, stmt_congr (h body (by simp [hs, Shape.parts]))]
  · rfl

theorem varDec_congr (deep : ∀ m ∈ n.shape.parts, ∀ k ∈ m.shape.parts, low k = low' k) :
    varDec low n = varDec low' n := by
  unfold varDec
  split
  · rename_i base items hs
    have hv : variableItems low base items = variableItems low' base items :=
      variableItems_congr fun m hm => deep m (hs ▸ hm)
    rw [hv]
  · rfl

end

/-- A rule is decided by the lowering of the trees that are less high than its own. -/
theorem rule_congr {low low' : Lowering} {n : Node}
    (h : ∀ m : Node, m.height < n.height → low m = low' m) : rule low n = rule low' n := by
  have parts : ∀ m ∈ n.shape.parts, low m = low' m :=
    fun m hm => h m (Node.height_lt_of_mem_parts hm)
  have deep : ∀ m ∈ n.shape.parts, ∀ k ∈ m.shape.parts, low k = low' k := fun m hm k hk =>
    h k (Nat.lt_trans (Node.height_lt_of_mem_parts hk) (Node.height_lt_of_mem_parts hm))
  unfold rule
  cases n.production with
  | program => exact program_congr parts
  | structDef => exact structDef_congr parts
  | functionDef => exact functionDef_congr parts
  | varDec => exact varDec_congr deep
  | block => exact block_congr parts
  | ifElse => exact ifElse_congr parts
  | whileLoop => exact whileLoop_congr parts
  | doWhile => exact doWhile_congr parts
  | forLoop => exact forLoop_congr parts
  | returns => exact returns_congr parts
  | exprStatement => exact exprStatement_congr parts
  | assignment => exact assignment_congr parts deep
  | logicalOr | logicalAnd | equality | relational | additive | multiplicative =>
    exact binary_congr parts
  | unary => exact unary_congr parts
  | suffix => exact suffix_congr parts
  | call => exact call_congr parts
  | _ => rfl

end Lower

/-- Lowering within a height that is enough is lowering. -/
theorem lowerWithin_eq (g : Grammar) {h : Nat} {n : Node} (hn : n.height ≤ h) :
    lowerWithin g h n = lower g n := by
  induction h using Nat.strongRecOn generalizing n with
  | ind h ih =>
    cases h with
    | zero =>
      obtain ⟨mark, shape⟩ := n
      simp [Node.height] at hn
    | succ h =>
      obtain ⟨k, hk⟩ : ∃ k, n.height = k + 1 := by
        obtain ⟨mark, shape⟩ := n
        exact ⟨_, by rw [Node.height]⟩
      have agree : ∀ m : Node, m.height < n.height → lowerWithin g h m = lowerWithin g k m := by
        intro m hm
        rw [ih h (by omega) (by omega), ih k (by omega) (by omega)]
      rw [lower, hk, lowerWithin, lowerWithin]
      funext c
      simp only [lowerStep, Lower.rule_congr agree]

/-- **Lowering is its rules applied to itself.** -/
theorem lower_eq (g : Grammar) (n : Node) : lower g n = lowerStep g (lower g) n := by
  have agree : ∀ m : Node, m.height < n.height → lowerWithin g n.height m = lower g m :=
    fun m hm => lowerWithin_eq g (Nat.le_of_lt hm)
  rw [← lowerWithin_eq g (Nat.le_succ n.height), lowerWithin]
  funext c
  simp only [lowerStep, Lower.rule_congr agree]

/-- A tree is lowered by its rule, or the grammar refuses it. -/
theorem lower_cases (g : Grammar) (n : Node) :
    lower g n = Lower.rule (lower g) n ∨ ∃ cause, lower g n = Lower.fail cause n.start := by
  rw [lower_eq, lowerStep]
  split
  · exact .inr ⟨_, rfl⟩
  · split
    · exact .inl rfl
    · exact .inr ⟨_, rfl⟩

end MiniC
