/-
  Names are resolved by lexical scoping.

  Statements and declarations move on to further names: `Lower.Moves s Γ x R` says that the step `x`,
  taken where a context shows `Γ`, shows some names `Γ'` afterwards, and that `R` holds of its result
  and of `Γ'` whichever property all variables of `Γ'` have.  The property is left open because which
  variables a function has is known only at its end.

  A tree in which each node belongs to the production of its shape (`Node.Proper`) has no parts that
  the rule of its production does not look at; all trees of the parser are so.

  * `moves_lower`: a statement is lowered as `Names.Lowers` says;
  * `Program.names_lexical`: the definitions of a source that can be built are those of its program
    as `Program.Defines` says, so each name used in a function is a variable of the innermost block
    that has one, a parameter, or an earlier global, and none is declared twice.
-/
import MiniC.Proofs.ReadNames
import MiniC.Proofs.Spelling

namespace MiniC

/-! ## Proper trees -/

/-- Each node of a tree belongs to the production of its shape. -/
inductive Node.Proper : Node → Prop
  | mk {n : Node} : n.production = n.shape.production → (∀ m ∈ n.shape.parts, m.Proper) → n.Proper

namespace Node
variable {m n : Node}

theorem Proper.own (h : n.Proper) : n.production = n.shape.production := by cases h; assumption

theorem Proper.part (h : n.Proper) (hm : m ∈ n.shape.parts) : m.Proper := by
  cases h with
  | mk _ hp => exact hp m hm

theorem production_unplacedShape (shape : Shape) :
    (unplacedShape shape).production = shape.production := by
  cases shape <;> rfl

theorem parts_unplacedShape (shape : Shape) :
    (unplacedShape shape).parts = shape.parts.map unplaced := by
  cases shape <;> simp [Shape.parts, Option.toList_map]

theorem Proper.of_unplaced {n : Node} (h : n.unplaced.Proper) : n.Proper := by
  refine .mk ?_ fun m hm => ?_
  · obtain ⟨mark, shape⟩ := n
    exact h.own.trans (production_unplacedShape shape)
  · have hm' : m.unplaced ∈ n.unplaced.shape.parts := by
      obtain ⟨mark, shape⟩ := n
      rw [unplaced, Node.shape, parts_unplacedShape]
      exact List.mem_map_of_mem hm
    have := height_lt_of_mem_parts hm
    exact of_unplaced (h.part hm')
termination_by n.height

end Node

theorem Node.proper_mk {mark : Mark} {shape : Shape} : (Node.mk mark shape).Proper ↔
    mark.production = shape.production ∧ ∀ m ∈ shape.parts, m.Proper :=
  ⟨fun h => ⟨h.own, fun _ hm => h.part hm⟩, fun h => .mk h.1 h.2⟩

/-- The trees of a phrase. -/
def Phrase.trees : Phrase → List Node
  | one _ n => [n]
  | optional n? => n?.toList
  | listed _ ns | values ns | parameters ns | series _ ns => ns

/-- The node of a literal has no parts. -/
theorem Lexeme.parts_of_literal? {l : Lexeme} {shape : Shape} (h : l.literal? = some shape) :
    shape.production = .literal ∧ shape.parts = [] := by
  unfold literal? at h
  split at h
  case h_1 =>
    obtain ⟨w, -, rfl⟩ := Option.map_eq_some_iff.1 h
    exact ⟨rfl, rfl⟩
  all_goals cases h
  all_goals exact ⟨rfl, rfl⟩

/-- What can be written is proper: each rule of the syntax makes the node of its shape. -/
theorem Derives.proper {x : Phrase} {ls : List Lexeme} (h : Derives x ls) :
    ∀ n ∈ x.trees, n.Proper := by
  induction h with
  | literal h => simp [Phrase.trees, Node.proper_mk, (Lexeme.parts_of_literal? h).2]
  | _ => simp_all [Phrase.trees, Shape.parts, Node.proper_mk, or_imp]

theorem Shape.eq_empty {shape : Shape} (h : shape.production = .empty) : shape = .empty := by
  cases shape with
  | empty => rfl
  | binary op => cases op <;> cases h
  | _ => cases h

/-- **The tree of a source is proper.** -/
theorem Node.ofSource_proper {g : Grammar} {source : String} {root : Node}
    (h : Node.ofSource g .program source = .ok root) : root.Proper := by
  unfold Node.ofSource at h
  split at h
  · cases h
  · rename_i ts ht
    obtain ⟨c, hc, rfl⟩ := tokenize_closed ht
    rw [hc.ofTokens] at h
    split at h
    · cases h
    · rename_i hp
      cases h
      obtain ⟨ls, -, hd, -⟩ := parseWithin_takes g _ .program c hc _ _ hp
      exact .of_unplaced (hd.proper _ (List.mem_singleton_self _))

namespace Lower

/-- Where a context shows `Γ`, the step `x` goes on to names `Γ'` and to something that satisfies `R`
for every property that all variables of `Γ'` have. -/
def Moves {α : Type} (s : Site) (Γ : Names) (x : Lower α)
    (R : (Variable → Prop) → α → Names → Prop) : Prop :=
  ∀ c a c', c.Shows s Γ → x c = .ok (a, c') →
    ∃ Γ', c'.Shows s Γ' ∧ Γ.Grows Γ' ∧ ∀ ok, Γ'.All ok → R ok a Γ'

section
variable {α β : Type} {s : Site} {Γ : Names} {Q : (Variable → Prop) → β → Names → Prop}
  {R : (Variable → Prop) → α → Names → Prop} {cause : CompileCause} {loc : Location}

theorem moves_pure {a : α} (h : ∀ ok, Γ.All ok → R ok a Γ) : Moves s Γ (pure a) R := by
  intro c b c' hc hx
  obtain ⟨rfl, rfl⟩ := pure_eq_ok.1 hx
  exact ⟨Γ, hc, .refl Γ, h⟩

theorem moves_fail : Moves s Γ (fail cause loc : Lower α) R :=
  fun _ _ _ _ hx => absurd hx fail_ne_ok

theorem Moves.bind {x : Lower β} {f : β → Lower α} (hx : Moves s Γ x Q)
    (hf : ∀ b Γ₁, Moves s Γ₁ (f b) fun ok a Γ₂ => Q ok b Γ₁ → R ok a Γ₂) :
    Moves s Γ (x >>= f) R := by
  intro c a c'' hc h
  obtain ⟨b, c', h1, h2⟩ := bind_eq_ok.1 h
  obtain ⟨Γ₁, hc', grows, hQ⟩ := hx c b c' hc h1
  obtain ⟨Γ₂, hc'', grows', hR⟩ := hf b Γ₁ c' a c'' hc' h2
  exact ⟨Γ₂, hc'', grows.trans grows', fun ok ha => hR ok ha (hQ ok (grows'.all ha))⟩

/-- A step that keeps the names, in front of one that moves on. -/
theorem Stays.andThen {P : (Variable → Prop) → β → Prop} {x : Lower β} {f : β → Lower α}
    (hx : ∀ ok, Γ.All ok → Stays s Γ x (P ok))
    (hf : ∀ b, Moves s Γ (f b) fun ok a Γ' => P ok b → R ok a Γ') : Moves s Γ (x >>= f) R := by
  intro c a c'' hc h
  obtain ⟨b, c', h1, h2⟩ := bind_eq_ok.1 h
  have known : ∀ ok, Γ.All ok → c'.Shows s Γ ∧ P ok b := fun ok ha => hx ok ha c b c' hc h1
  have hc' := (known (fun _ => True) ⟨fun _ _ => trivial, fun _ _ => trivial⟩).1
  obtain ⟨Γ', hc'', grows, hR⟩ := hf b c' a c'' hc' h2
  exact ⟨Γ', hc'', grows, fun ok ha => hR ok ha (known ok (grows.all ha)).2⟩

theorem Stays.moves {P : (Variable → Prop) → α → Prop} {x : Lower α}
    (hx : ∀ ok, Γ.All ok → Stays s Γ x (P ok)) (h : ∀ ok a, P ok a → R ok a Γ) : Moves s Γ x R := by
  rw [← bind_pure x]
  exact Stays.andThen hx fun a => moves_pure fun ok _ => h ok a

theorem Moves.mono {x : Lower α} {R' : (Variable → Prop) → α → Names → Prop} (hx : Moves s Γ x R)
    (h : ∀ ok a Γ', R ok a Γ' → R' ok a Γ') : Moves s Γ x R' := by
  intro c a c' hc ha
  obtain ⟨Γ', hc', grows, hR⟩ := hx c a c' hc ha
  exact ⟨Γ', hc', grows, fun ok hok => h ok a Γ' (hR ok hok)⟩

theorem moves_ask_bind {f : Context → β} {k : β → Lower α} (h : ∀ b, Moves s Γ (k b) R) :
    Moves s Γ (ask f >>= k) R :=
  fun c a c' hc hx => h (f c) c a c' hc hx

/-- A check in front of `x`. -/
theorem moves_guard {p : Prop} [Decidable p] {x : PUnit → Lower α} (hx : Moves s Γ (x ()) R) :
    Moves s Γ (if p then fail cause loc >>= x else x ()) R :=
  fun c a c' hc h => hx c a c' hc (guard_eq_ok.1 h).2

theorem moves_require_bind {o : Option β} {k : β → Lower α} (h : ∀ b, Moves s Γ (k b) R) :
    Moves s Γ (require o cause loc >>= k) R := by
  cases o with
  | none => exact moves_fail
  | some b => exact h b

end

/-! ## Declarations -/

section
variable {s : Site} {Γ : Names} {g : Grammar} {n : Node}

/-- A declared variable is the one that the names have more; a member is no variable. -/
theorem moves_declare (name : String) (ty : Ty) (size : Nat) (array : Option ArraySpec)
    (loc : Location) :
    Moves s Γ (declare name ty size array false loc) fun _ _ Γ' =>
      (s = .struct → Γ' = Γ) ∧ (s ≠ .struct → Γ.declare false name ty loc = some Γ') := by
  intro c u c' hc hx
  rcases declare_shows hc hx with ⟨hs, hc'⟩ | ⟨hs, Γ', hd, hc'⟩
  · exact ⟨Γ, hc', .refl Γ, fun _ _ => ⟨fun _ => rfl, fun h => absurd hs h⟩⟩
  · exact ⟨Γ', hc', .of_declare hd, fun _ _ => ⟨fun h => absurd h hs, fun _ => hd⟩⟩

theorem stays_variableType (base : Base) (stars : Nat) (name : String) (loc : Location) :
    Stays s Γ (variableType base stars name loc) fun ty => ty = ⟨base, stars⟩ :=
  (stays_resolveType base stars).bind fun _ h => stays_guard fun _ => stays_pure h

theorem stays_arrayLength {ok : Variable → Prop} (ha : Γ.All ok) (name : String) (size : Node)
    (loc : Location) :
    Stays s Γ (arrayLength (lower g) name size loc) fun _ => ∃ e, Γ.Reads ok size e := by
  refine (stays_lowerExpr g size ha).bind fun e he => stays_guard fun _ => ?_
  exact stays_require_bind fun _ => stays_guard fun _ => stays_pure ⟨e, he⟩

/-- One variable of a declaration. -/
theorem moves_variableItem (base : Base) (item : Node) :
    Moves s Γ (variableItem (lower g) base item) fun ok _ Γ' => (s = .struct → Γ' = Γ) ∧
      (s ≠ .struct → ∃ name ty es, item.shape.declared? base = some (name, ty) ∧
        List.Forall₂ (Γ.Reads ok) item.shape.parts es ∧
        Γ.declare false name ty item.start = some Γ') := by
  unfold variableItem
  simp only
  split
  · rename_i stars name hi
    refine Stays.andThen (fun _ _ => stays_variableType base stars name _) fun ty => ?_
    refine Stays.andThen (fun _ _ => stays_sizeOf ty) fun size => ?_
    refine (moves_declare name ty size none item.start).mono ?_
    rintro ok _ Γ' ⟨member, hd⟩ _ rfl
    exact ⟨member, fun hs => ⟨name, _, [], by rw [hi]; rfl, by rw [hi]; exact .nil, hd hs⟩⟩
  · rename_i stars name size? hi
    refine Stays.andThen (fun _ _ => stays_variableType base stars name _) fun ty => ?_
    cases size? with
    | none => exact moves_fail
    | some size =>
      refine Stays.andThen (fun ok ha => stays_arrayLength ha name size _) fun spec => ?_
      refine Stays.andThen (fun _ _ => stays_sizeOf ty) fun element => moves_guard ?_
      refine (moves_declare name ty.pointer _ _ item.start).mono ?_
      rintro ok _ Γ' ⟨member, hd⟩ _ ⟨e, he⟩ rfl
      refine ⟨member, fun hs => ⟨name, _, [e], by rw [hi]; rfl, ?_, hd hs⟩⟩
      rw [hi]
      exact .cons he .nil
  · exact moves_fail

theorem moves_variableItems (base : Base) (items : List Node) :
    Moves s Γ (variableItems (lower g) base items) fun ok _ Γ' => (s = .struct → Γ' = Γ) ∧
      (s ≠ .struct → Names.Declares ok base Γ items Γ') := by
  induction items generalizing Γ with
  | nil => exact moves_pure fun _ _ => ⟨fun _ => rfl, fun _ => .nil⟩
  | cons item items ih =>
    refine (moves_variableItem base item).bind fun _ Γ₁ => ih.mono ?_
    rintro ok _ Γ' ⟨members, rest⟩ ⟨member, first⟩
    refine ⟨fun hs => (members hs).trans (member hs), fun hs => ?_⟩
    obtain ⟨name, ty, es, hn, hr, hd⟩ := first hs
    exact .cons hn hr hd (rest hs)

/-- The declarations of a structure are no variables, those outside of structures are. -/
theorem moves_varDec :
    Moves s Γ (varDec (lower g) n) fun ok l Γ' => (s = .struct → Γ' = Γ) ∧
      (s ≠ .struct → ∃ base items, n.shape = .varDec base items ∧ l = .declared ∧
        Names.Declares ok base Γ items Γ') := by
  unfold varDec
  split
  · rename_i base items hn
    refine (moves_variableItems base items).bind fun _ Γ₁ => moves_pure ?_
    rintro ok - ⟨members, hd⟩
    exact ⟨members, fun hs => ⟨base, items, hn, rfl, hd hs⟩⟩
  · exact moves_fail

end

/-! ## Statements -/

section
variable {g : Grammar} {k : FunctionId} {head : Function} {Γ : Names} {n : Node}

theorem stays_changeFunction {f : FunctionContext → FunctionContext} (hid : ∀ j, (f j).id = j.id)
    (hscopes : ∀ j, (f j).scopes = j.scopes) :
    Stays (.function k head) Γ (changeFunction f) fun _ => True := by
  intro c u c' hc hx
  obtain rfl := change_eq_ok.1 hx
  obtain ⟨-, hb, -⟩ := hc.stands
  refine ⟨hc.reblock hid (fun j hj => ?_) hb fun _ hvs => .inr hvs, trivial⟩
  rw [hscopes, hj]

/-- The lowering of the statement `n` is the one that the names say. -/
abbrev StmtMoves (g : Grammar) (k : FunctionId) (head : Function) (n : Node) : Prop :=
  ∀ Γ, Moves (.function k head) Γ (lower g n) fun ok l Γ' => Γ.Lowers ok n l Γ'

theorem moves_stmt (h : StmtMoves g k head n) :
    Moves (.function k head) Γ (stmt (lower g) n) fun ok st Γ' =>
      ∃ l, st = l.standing n.start ∧ Γ.Lowers ok n l Γ' := by
  refine (h Γ).bind fun l Γ₁ => ?_
  cases l with
  | stmt st => exact moves_pure fun ok _ hl => ⟨.stmt st, rfl, hl⟩
  | expr e => exact moves_pure fun ok _ hl => ⟨.expr e, rfl, hl⟩
  | declared => exact moves_pure fun ok _ hl => ⟨.declared, rfl, hl⟩

theorem moves_loopBody (h : StmtMoves g k head n) :
    Moves (.function k head) Γ (loopBody (lower g) n) fun ok st Γ' =>
      ∃ l, st = l.standing n.start ∧ Γ.Lowers ok n l Γ' := by
  refine Stays.andThen (fun _ _ => stays_changeFunction (fun _ => rfl) fun _ => rfl) fun _ => ?_
  refine (moves_stmt h).bind fun st Γ₁ => ?_
  refine Stays.andThen (fun _ _ => stays_changeFunction (fun _ => rfl) fun _ => rfl) fun _ => ?_
  exact moves_pure fun ok _ _ hst _ => hst

theorem moves_statements {nodes : List Node} (h : ∀ m ∈ nodes, StmtMoves g k head m) :
    Moves (.function k head) Γ (statements (lower g) nodes) fun ok ss Γ' =>
      Γ.LowersAll ok nodes ss Γ' := by
  induction nodes generalizing Γ with
  | nil => exact moves_pure fun _ _ => .nil
  | cons m ms ih =>
    obtain ⟨hm, hms⟩ := List.forall_mem_cons.1 h
    refine (hm Γ).bind fun l Γ₁ => (ih hms).bind fun ss Γ₂ => ?_
    cases l with
    | stmt st => exact moves_pure fun ok _ hss hl => .cons hl hss
    | expr e => exact moves_pure fun ok _ hss hl => .cons hl hss
    | declared => exact moves_pure fun ok _ hss hl => .cons hl hss

theorem enterScope_shows {c c' : Context} {u : Unit} (hc : c.Shows (.function k head) Γ)
    (hx : enterScope c = .ok (u, c')) : c'.Shows (.function k head) Γ.enter := by
  rw [enterScope, changeFunction, change_eq_ok] at hx
  subst hx
  exact hc.reblock (fun _ => rfl) (fun j hj => by simp [hj, Variable.scope]) (by simp)
    fun vs hvs => List.mem_cons.1 hvs

/-- A block that is not the outermost one ends. -/
theorem exitScope_shows {c c' : Context} {u : Unit} (hc : c.Shows (.function k head) Γ)
    (hd : 1 < Γ.blocks.length) (hx : exitScope c = .ok (u, c')) :
    c'.Shows (.function k head) Γ.leave := by
  rw [exitScope, changeFunction, change_eq_ok] at hx
  subst hx
  obtain ⟨inner, block, outer, hb⟩ : ∃ inner block outer, Γ.blocks = inner :: block :: outer := by
    match hb : Γ.blocks with
    | [] => simp [hb] at hd
    | [_] => simp [hb] at hd
    | inner :: block :: outer => exact ⟨inner, block, outer, rfl⟩
  refine hc.reblock (fun j => ?_) (fun j hj => ?_) (by simp [hb]) fun vs hvs => ?_
  · split <;> rfl
  · rw [hb] at hj ⊢
    simp [hj]
  · exact .inr (List.mem_of_mem_tail hvs)

/-- The declarations inside of a block end with it. -/
theorem moves_block (fits : n.shape.Fits)
    (h : ∀ m ∈ n.shape.parts, m.production.isTop = false → StmtMoves g k head m) :
    Moves (.function k head) Γ (block (lower g) n) fun ok l Γ' => Γ.Lowers ok n l Γ' := by
  unfold block
  split
  · rename_i nodes hs
    rw [hs] at fits
    intro c l c' hc hx
    simp only [bind_eq_ok] at hx
    obtain ⟨_, c₁, henter, ss, c₂, hss, _, c₃, hexit, hx⟩ := hx
    obtain ⟨rfl, rfl⟩ := pure_eq_ok.1 hx
    have statements := moves_statements (Γ := Γ.enter) fun m hm =>
      h m (by rw [hs]; exact hm) (fits m hm)
    obtain ⟨Γ₁, hc₂, grows, hR⟩ := statements _ _ _ (enterScope_shows hc henter) hss
    -- Around the block there is at least that of the parameters.
    have depth : Γ₁.blocks.length = Γ.blocks.length + 1 := grows.depth
    have outer := List.length_pos_iff.2 hc.stands.2.1
    refine ⟨Γ₁.leave, exitScope_shows hc₂ (by omega) hexit,
      ⟨grows.globals, grows.locals, grows.params, ?_⟩, fun ok ha => .block hs (hR ok ha)⟩
    rw [Names.leave, List.length_tail, depth, Nat.add_sub_cancel]
  · exact moves_fail

theorem moves_ifElse (fits : n.shape.Fits)
    (h : ∀ m ∈ n.shape.parts, m.production.isTop = false → StmtMoves g k head m) :
    Moves (.function k head) Γ (ifElse (lower g) n) fun ok l Γ' => Γ.Lowers ok n l Γ' := by
  unfold ifElse
  split
  · rename_i test t t? hs
    rw [hs] at fits
    refine Stays.andThen (fun ok ha => stays_condition (stays_lowerExpr g test ha)) fun e => ?_
    refine (moves_stmt (h t (by simp [hs, Shape.parts]) fits.1)).bind fun st Γ₁ => ?_
    cases t? with
    | none =>
      refine moves_pure ?_
      rintro ok - ⟨l, rfl, hl⟩ he
      exact .ifThen hs he hl
    | some t' =>
      have other : Moves (.function k head) Γ₁ (optional (stmt (lower g)) (some t')) fun ok o Γ' =>
          ∃ l, o = some (Lowered.standing l t'.start) ∧ Γ₁.Lowers ok t' l Γ' := by
        refine (moves_stmt (h t' (by simp [hs, Shape.parts]) (fits.2 t' rfl))).bind ?_
        refine fun st' Γ₂ => moves_pure ?_
        rintro ok - ⟨l, rfl, hl⟩
        exact ⟨l, rfl, hl⟩
      refine other.bind fun o Γ₂ => moves_pure ?_
      rintro ok - ⟨l', rfl, hl'⟩ ⟨l, rfl, hl⟩ he
      exact .ifElse hs he hl hl'
  · exact moves_fail

theorem moves_whileLoop (fits : n.shape.Fits)
    (h : ∀ m ∈ n.shape.parts, m.production.isTop = false → StmtMoves g k head m) :
    Moves (.function k head) Γ (whileLoop (lower g) n) fun ok l Γ' => Γ.Lowers ok n l Γ' := by
  unfold whileLoop
  split
  · rename_i test body hs
    rw [hs] at fits
    refine Stays.andThen (fun ok ha => stays_condition (stays_lowerExpr g test ha)) fun e => ?_
    refine (moves_loopBody (h body (by simp [hs, Shape.parts]) fits)).bind fun st Γ₁ => moves_pure ?_
    rintro ok - ⟨l, rfl, hl⟩ he
    exact .whileLoop hs he hl
  · exact moves_fail

theorem moves_doWhile (fits : n.shape.Fits)
    (h : ∀ m ∈ n.shape.parts, m.production.isTop = false → StmtMoves g k head m) :
    Moves (.function k head) Γ (doWhile (lower g) n) fun ok l Γ' => Γ.Lowers ok n l Γ' := by
  unfold doWhile
  split
  · rename_i body test hs
    rw [hs] at fits
    refine (moves_loopBody (h body (by simp [hs, Shape.parts]) fits)).bind fun st Γ₁ => ?_
    refine Stays.andThen (fun ok ha => stays_condition (stays_lowerExpr g test ha)) fun e => ?_
    refine moves_pure ?_
    rintro ok - he ⟨l, rfl, hl⟩
    exact .doWhile hs hl he
  · exact moves_fail

theorem stays_optional {s : Site} {ok : Variable → Prop} {f : Node → Lower Expr} {o : Option Node}
    (h : ∀ m, Stays s Γ (f m) fun e => Γ.Reads ok m e) :
    Stays s Γ (optional f o) fun e => Option.Rel (Γ.Reads ok) o e := by
  cases o with
  | none => exact stays_pure .none
  | some m => exact (h m).bind fun e he => stays_pure (.some he)

theorem moves_forLoop (fits : n.shape.Fits)
    (h : ∀ m ∈ n.shape.parts, m.production.isTop = false → StmtMoves g k head m) :
    Moves (.function k head) Γ (forLoop (lower g) n) fun ok l Γ' => Γ.Lowers ok n l Γ' := by
  unfold forLoop
  split
  · rename_i init test increment body hs
    rw [hs] at fits
    refine Stays.andThen (fun ok ha => stays_optional fun m => stays_lowerExpr g m ha) fun i => ?_
    refine Stays.andThen
      (fun ok ha => stays_optional fun m => stays_condition (stays_lowerExpr g m ha)) fun t => ?_
    refine Stays.andThen (fun ok ha => stays_optional fun m => stays_lowerExpr g m ha) fun j => ?_
    refine (moves_loopBody (h body (by simp [hs, Shape.parts]) fits)).bind fun st Γ₁ => moves_pure ?_
    rintro ok - ⟨l, rfl, hl⟩ hj ht hi
    exact .forLoop hs hi ht hj hl
  · exact moves_fail

theorem moves_returns :
    Moves (.function k head) Γ (returns (lower g) n) fun ok l Γ' => Γ.Lowers ok n l Γ' := by
  unfold returns
  split
  · rename_i value? hs
    refine moves_ask_bind fun _ => moves_require_bind fun expected => ?_
    cases value? with
    | none => exact moves_guard (moves_pure fun ok _ => .returns hs .none)
    | some part =>
      refine moves_guard (Stays.andThen (fun ok ha => stays_value (stays_lowerExpr g part ha)) ?_)
      exact fun e => moves_guard (moves_pure fun ok _ he => .returns hs (.some he))
  · exact moves_fail

theorem moves_jump : Moves (.function k head) Γ (jump n) fun ok l Γ' => Γ.Lowers ok n l Γ' := by
  unfold jump
  split
  · rename_i hs
    exact moves_ask_bind fun _ => moves_guard (moves_pure fun ok _ => .breaks hs)
  · rename_i hs
    exact moves_ask_bind fun _ => moves_guard (moves_pure fun ok _ => .continues hs)
  · exact moves_fail

theorem moves_exprStatement :
    Moves (.function k head) Γ (exprStatement (lower g) n) fun ok l Γ' => Γ.Lowers ok n l Γ' := by
  unfold exprStatement
  split
  · rename_i part hs
    refine Stays.andThen (fun ok ha => stays_lowerExpr g part ha) fun e => ?_
    exact moves_pure fun ok _ he => .exprStatement hs he
  · exact moves_fail

/-- The rule of every statement lowers its tree as the names say, if its parts are lowered so. -/
theorem moves_rule (fits : n.shape.Fits) (proper : n.Proper) (ho : n.production.isOwn = true)
    (ht : n.production.isTop = false)
    (h : ∀ m ∈ n.shape.parts, m.production.isTop = false → StmtMoves g k head m) :
    Moves (.function k head) Γ (rule (lower g) n) fun ok l Γ' => Γ.Lowers ok n l Γ' := by
  unfold rule
  cases hr : n.production with
  | varDec =>
    refine moves_varDec.mono fun ok l Γ' h => ?_
    obtain ⟨base, items, hs, rfl, hd⟩ := h.2 (by simp)
    exact .varDec hs hd
  | block => exact moves_block fits h
  | ifElse => exact moves_ifElse fits h
  | whileLoop => exact moves_whileLoop fits h
  | doWhile => exact moves_doWhile fits h
  | forLoop => exact moves_forLoop fits h
  | returns => exact moves_returns
  | breaks | continues => exact moves_jump
  | empty => exact moves_pure fun ok _ => .empty (Shape.eq_empty (proper.own.symm.trans hr))
  | exprStatement => exact moves_exprStatement
  | program | structDef | functionDef | param =>
    rw [hr] at ht
    cases ht
  | _ =>
    rw [hr] at ho
    cases ho

end

end Lower

/-- **A statement is lowered under the names in sight**: its names stand for what they stand for in
the blocks around, and it leaves the names that its declarations say. -/
theorem moves_lower (g : Grammar) {k : FunctionId} {head : Function} (n : Node) (hn : n.Regular)
    (proper : n.Proper) (ht : n.production.isTop = false) : Lower.StmtMoves g k head n := by
  intro Γ
  have parts : ∀ m ∈ n.shape.parts, m.production.isTop = false → Lower.StmtMoves g k head m :=
    fun m hm ht => by
      have := Node.height_lt_of_mem_parts hm
      exact moves_lower g m (hn.part hm) (proper.part hm) ht
  cases ho : n.production.isOwn with
  | false =>
    -- An expression that stands where a statement may.
    refine Lower.Stays.moves (fun ok ha => stays_lower g n ho ha) ?_
    rintro ok _ ⟨e, rfl, he⟩
    exact .expr he
  | true =>
    rcases lower_cases g n with hl | ⟨cause, hl⟩ <;> rw [hl]
    · exact Lower.moves_rule hn.fits proper ho ht parts
    · exact Lower.moves_fail
termination_by n.height

end MiniC
