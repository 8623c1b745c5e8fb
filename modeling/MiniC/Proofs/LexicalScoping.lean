/-
  Names are resolved by lexical scoping.

  The definitions of a source are followed one after the other.  What one of them has left in the
  tables is still there at the end (`Context.Retains`): variables and globals are only added to, and a
  function changes only while it is being defined.  So what is known where a definition ends is known
  of the whole program.

  The main result is `Program.names_lexical`: the definitions of a source that can be built are those
  of its program as `Program.Defines` says.  Each name used in a function thus stands for the variable
  of the innermost block that has one, else for the parameter, else for the global before it, and none
  is declared twice in one block.
-/
import MiniC.Proofs.Scoping
import MiniC.Proofs.SourceText

namespace MiniC

namespace Context
variable {P : Location → Prop} {c c' c'' : Context}

/-- What is left of `c` in `c'`: its variables, its globals, and its functions but for the one that
is being defined. -/
structure Retains (c c' : Context) : Prop where
  symbols : ∀ {i : Nat} {s}, c.program.symbols[i]? = some s → c'.program.symbols[i]? = some s
  globals : c.program.globals ⊆ c'.program.globals
  functions : ∀ {i : Nat} {f}, c.program.functions[i]? = some f → c.currentFunction? ≠ some i →
    c'.program.functions[i]? = some f ∧ c'.currentFunction? ≠ some i

theorem Retains.refl (c : Context) : c.Retains c :=
  ⟨id, List.Subset.refl _, fun hf hc => ⟨hf, hc⟩⟩

theorem Retains.trans (h : c.Retains c') (h' : c'.Retains c'') : c.Retains c'' where
  symbols hs := h'.symbols (h.symbols hs)
  globals := List.Subset.trans h.globals h'.globals
  functions hf hc := by
    obtain ⟨hf', hc'⟩ := h.functions hf hc
    exact h'.functions hf' hc'

/-- A change of the function being defined leaves the others alone. -/
theorem retained_modify {f : FunctionContext} (hf : c.function = some f) {p : Program}
    {change : Function → Function} (hp : p.functions = c.program.functions) {i : Nat} {fn : Function}
    (hfn : c.program.functions[i]? = some fn) (hc : c.currentFunction? ≠ some i) :
    (p.modifyFunction f.id change).functions[i]? = some fn ∧ some f.id ≠ some i := by
  rw [currentFunction?, hf, Option.map_some] at hc
  have hi : f.id ≠ i := fun h => hc (congrArg some h)
  exact ⟨by simp [Program.modifyFunction, hp, Array.getElem?_modify, hi, hfn], hc⟩

/-- One step leaves what has been defined. -/
theorem Step.retains (h : Step P c c') : c.Retains c' := by
  cases h with
  | intern text =>
    obtain ⟨strings, stringIds, added⟩ := c.program.internString_strings text
    rw [added]
    exact ⟨id, List.Subset.refl _, fun hf hc => ⟨hf, hc⟩⟩
  | assign a es =>
    unfold noteAssigned
    split
    · exact .refl _
    · exact ⟨id, List.Subset.refl _, fun hf hc => ⟨hf, hc⟩⟩
  | scope hid =>
    refine ⟨id, List.Subset.refl _, fun hf hc => ⟨hf, ?_⟩⟩
    simpa [currentFunction?, Function.comp_def, hid] using hc
  | beginStruct name => exact ⟨id, List.Subset.refl _, fun hf hc => ⟨hf, hc⟩⟩
  | finishStruct hs => exact ⟨id, List.Subset.refl _, fun hf hc => ⟨hf, hc⟩⟩
  | beginFunction name result hn hl =>
    refine ⟨id, List.Subset.refl _, fun hf hc => ⟨Program.getElem?_push_of_some hf, fun h => ?_⟩⟩
    -- The function that begins has a number that none has had.
    have hi := (Array.getElem?_eq_some_iff.1 hf).1
    exact absurd (Option.some.inj h) (Nat.ne_of_gt hi)
  | finishFunction hk hb =>
    refine ⟨id, List.Subset.refl _, fun hf hc => ⟨(retained_modify hk rfl hf hc).1, fun h => ?_⟩⟩
    cases h
  | member hs hn hm => exact ⟨id, List.Subset.refl _, fun hf hc => ⟨hf, hc⟩⟩
  | global hn hm hl ha =>
    exact ⟨Program.getElem?_push_of_some, List.subset_append_left .., fun hf hc => ⟨hf, hc⟩⟩
  | variable_ hk hm hl ha =>
    exact ⟨Program.getElem?_push_of_some, List.Subset.refl _,
      fun hf hc => retained_modify hk rfl hf hc⟩

/-- What steps leave of a context. -/
theorem Steps.retains (h : Steps P c c') : c.Retains c' := by
  induction h with
  | refl => exact .refl c
  | tail _ hs ih => exact ih.trans hs.retains

theorem Retains.records (h : c.Retains c') {v : Variable} (hv : c.program.Records v) :
    c'.program.Records v := by
  obtain ⟨s, hs, hr⟩ := hv
  exact ⟨s, h.symbols hs, hr⟩

end Context

namespace Lower
variable {g : Grammar} {Γ : Names} {n : Node} {c c' : Context}
open Context

/-- If `x` succeeds in the context `c`, then `R` holds of what it comes to. -/
def Arrives {α : Type} (c : Context) (x : Lower α) (R : α → Context → Prop) : Prop :=
  ∀ a c', x c = .ok (a, c') → R a c'

theorem arrives_fail {α : Type} {cause : CompileCause} {loc : Location} {R : α → Context → Prop} :
    Arrives c (fail cause loc) R := fun _ _ hx => absurd hx fail_ne_ok

/-! ## Structures and globals -/

/-- Whatever goes on from where `n` has been lowered, `n` is a definition of the program. -/
def Defined (Γ : Names) (n : Node) (c : Context) (Γ' : Names) : Prop :=
  c.Shows .outside Γ' ∧ ∀ {c' ns Γ''}, c.Retains c' → c'.Mapped → c'.program.Defines Γ' ns Γ'' →
    c'.program.Defines Γ (n :: ns) Γ''

/-- A tree that can be lowered is lowered by the rule of its production. -/
theorem arrives_lower {R : Lowered → Context → Prop} (h : Arrives c (rule (lower g) n) R) :
    Arrives c (lower g n) R := by
  rcases lower_cases g n with hl | ⟨cause, hl⟩ <;> rw [hl]
  · exact h
  · exact arrives_fail

/-- The members of a structure are no variables. -/
theorem members_shows {members : List Node} (hm : ∀ m ∈ members, m.production = .varDec)
    (hc : c.Shows .struct Γ) {u : Unit} (hx : all (lower g) members c = .ok (u, c')) :
    c'.Shows .struct Γ := by
  induction members generalizing c with
  | nil =>
    obtain ⟨-, rfl⟩ := pure_eq_ok.1 hx
    exact hc
  | cons m ms ih =>
    obtain ⟨hm, hms⟩ := List.forall_mem_cons.1 hm
    obtain ⟨_, c₁, hfirst, hx⟩ := bind_eq_ok.1 hx
    obtain ⟨l, hfirst⟩ := discard_eq_ok.1 hfirst
    have first : Arrives c (lower g m) fun _ c₁ => c₁.Shows .struct Γ := by
      refine arrives_lower fun l c₁ hl => ?_
      simp only [rule, hm] at hl
      obtain ⟨Γ', hc₁, -, known⟩ := moves_varDec c l c₁ hc hl
      obtain ⟨same, -⟩ := known (fun _ => True) ⟨fun _ _ => trivial, fun _ _ => trivial⟩
      exact same rfl ▸ hc₁
    exact ih hms (first l c₁ hfirst) hx

theorem defined_structDef (fits : n.shape.Fits) (hc : c.Shows .outside Γ) :
    Arrives c (structDef (lower g) n) fun _ c' => ∃ Γ', Defined Γ n c' Γ' := by
  unfold structDef
  split
  · rename_i name members hs
    rw [hs] at fits
    intro l c' hx
    obtain ⟨-, hx⟩ := guard_eq_ok.1 hx
    simp only [bind_eq_ok, discard_eq_ok, pure_eq_ok] at hx
    obtain ⟨_, _, hbegin, _, c₂, hall, _, _, ⟨_, hfinish⟩, -, rfl⟩ := hx
    obtain ⟨-, rfl⟩ := beginStruct_ok hbegin
    obtain ⟨-, stands⟩ := hc.stands
    have begun : Shows .struct Γ { c with struct := some ⟨name, [], 0⟩ } :=
      ⟨hc.next, hc.globals, hc.global?, hc.records, hc.blocks, rfl, stands⟩
    have hc₂ := members_shows fits begun hall
    obtain ⟨t, -, rfl⟩ := finishStruct_ok hfinish
    obtain ⟨-, stands⟩ := hc₂.stands
    exact ⟨Γ, ⟨hc₂.next, hc₂.globals, hc₂.global?, hc₂.records, hc₂.blocks, rfl, stands⟩,
      fun _ _ hrest => .structDef hs hrest⟩
  · exact arrives_fail

theorem defined_varDec (hc : c.Shows .outside Γ) :
    Arrives c (varDec (lower g) n) fun _ c' => ∃ Γ', Defined Γ n c' Γ' := by
  intro l c' hx
  obtain ⟨Γ', hc', -, known⟩ := moves_varDec c l c' hc hx
  refine ⟨Γ', hc', fun {c'' ns Γ''} hr _ hrest => ?_⟩
  have ok : Γ'.All c''.program.HasGlobal := by
    obtain ⟨-, -, -, hl⟩ := hc'.stands
    refine ⟨fun v hv => ⟨hr.records (hc'.records.1 v hv), hr.globals ?_⟩, by simp [hl]⟩
    rw [hc'.globals]
    exact List.mem_map_of_mem hv
  obtain ⟨base, items, hs, -, hd⟩ := (known _ ok).2 (by simp)
  exact .varDec hs hd hrest

/-! ## Functions -/

theorem receives_declareParam {k : FunctionId} {head : Function} {base : Base} {stars : Nat}
    {name : String} {loc : Location} (hc : c.Shows (.function k head) Γ) {l : Lowered}
    (hx : declareParam base stars name loc c = .ok (l, c')) :
    ∃ Γ', c'.Shows (.function k head) Γ' ∧ Γ.declare true name ⟨base, stars⟩ loc = some Γ' := by
  obtain ⟨ty, c₁, hty, hx⟩ := bind_eq_ok.1 hx
  obtain ⟨hc₁, rfl⟩ := stays_resolveType base stars c ty c₁ hc hty
  obtain ⟨-, hx⟩ := guard_eq_ok.1 hx
  obtain ⟨-, hx⟩ := guard_eq_ok.1 hx
  obtain ⟨size, c₂, hsize, hx⟩ := bind_eq_ok.1 hx
  obtain ⟨hc₂, -⟩ := stays_sizeOf _ c₁ size c₂ hc₁ hsize
  obtain ⟨_, c₃, hd, hx⟩ := bind_eq_ok.1 hx
  obtain ⟨-, rfl⟩ := pure_eq_ok.1 hx
  rcases declare_shows hc₂ hd with ⟨h, -⟩ | ⟨-, Γ', hd, hc₃⟩
  · cases h
  · exact ⟨Γ', hc₃, hd⟩

/-- A parameter is declared in the block of the parameters. -/
theorem receives_param {k : FunctionId} {head : Function} (hc : c.Shows (.function k head) Γ) :
    Arrives c (param n) fun _ c' => ∃ Γ' base item name ty, c'.Shows (.function k head) Γ' ∧
      n.shape = .param base item ∧ item.shape.declared? base = some (name, ty) ∧
      Γ.declare true name ty item.start = some Γ' := by
  unfold param
  split
  · rename_i base item hs
    split
    · rename_i stars name hi
      intro l c' hx
      obtain ⟨Γ', hc', hd⟩ := receives_declareParam hc hx
      exact ⟨Γ', base, item, name, _, hc', hs, by rw [hi]; rfl, hd⟩
    · rename_i stars name size hi
      intro l c' hx
      obtain ⟨Γ', hc', hd⟩ := receives_declareParam hc hx
      exact ⟨Γ', base, item, name, _, hc', hs, by rw [hi]; rfl, hd⟩
    · exact arrives_fail
  · exact arrives_fail

theorem receives_all {k : FunctionId} {head : Function} {params : List Node}
    (hp : ∀ m ∈ params, m.production = .param) (hc : c.Shows (.function k head) Γ) {u : Unit}
    (hx : all (lower g) params c = .ok (u, c')) :
    ∃ Γ', c'.Shows (.function k head) Γ' ∧ Γ.Receives params Γ' := by
  induction params generalizing c Γ with
  | nil =>
    obtain ⟨-, rfl⟩ := pure_eq_ok.1 hx
    exact ⟨Γ, hc, .nil⟩
  | cons m ms ih =>
    obtain ⟨hm, hms⟩ := List.forall_mem_cons.1 hp
    obtain ⟨_, c₁, hfirst, hx⟩ := bind_eq_ok.1 hx
    obtain ⟨l, hfirst⟩ := discard_eq_ok.1 hfirst
    have first := arrives_lower (g := g) (n := m) (c := c) fun l c₁ hl => by
      simp only [rule, hm] at hl
      exact receives_param hc l c₁ hl
    obtain ⟨Γ₁, base, item, name, ty, hc₁, hs, hi, hd⟩ := first l c₁ hfirst
    obtain ⟨Γ', hc', hrest⟩ := ih hms hc₁ hx
    exact ⟨Γ', hc', .cons hs hi hd hrest⟩

/-- A function begins without variables and with a block for its parameters. -/
theorem heading_shows (hc : c.Shows .outside Γ) {head : Function} (hp : head.params = [])
    (hl : head.locals = []) :
    (c.heading c.program.symbols head [[]]).Shows (.function c.program.functions.size head)
      Γ.enterFunction := by
  refine ⟨hc.next, hc.globals, hc.global?, ⟨hc.records.1, nofun⟩, by simp [Names.enterFunction],
    hc.stands.1, nofun, ⟨_, rfl, rfl, rfl⟩, ?_⟩
  obtain ⟨name, result, params, locals, body, loc⟩ := head
  subst hp hl
  simp [heading, Program.addFunction, Names.enterFunction]

/-- A function ends with all its variables in the tables and with none of them in sight. -/
theorem finishFunction_shows {k : FunctionId} {head : Function} {st : Stmt} {u : Unit}
    (hc : c.Shows (.function k head) Γ) (hx : finishFunction st c = .ok (u, c')) :
    c'.Shows .outside Γ.leaveFunction ∧ Γ.All c'.program.Records ∧
      c'.program.functions[k]? = some
        { head with
          params := Γ.params.map Variable.id
          locals := Γ.locals.map Variable.id
          body := .compiled st } := by
  obtain ⟨f, hf, rfl⟩ := finishFunction_ok hx
  obtain ⟨hstruct, -, ⟨f', hf', rfl, -⟩, hentry⟩ := hc.stands
  cases hf.symm.trans hf'
  refine ⟨⟨hc.next, hc.globals, hc.global?, ⟨hc.records.1, nofun⟩, nofun, hstruct, rfl, rfl, rfl⟩,
    hc.records, ?_⟩
  simp [Program.modifyFunction, Array.getElem?_modify, hentry]

theorem defined_functionDef (hn : n.Regular) (proper : n.Proper) (hc : c.Shows .outside Γ) :
    Arrives c (functionDef (lower g) n) fun _ c' => ∃ Γ', Defined Γ n c' Γ' := by
  have fits := hn.fits
  unfold functionDef
  split
  · rename_i base stars name params body hs
    rw [hs] at fits
    intro l c' hx
    have hbody : body ∈ n.shape.parts := by simp [hs, Shape.parts]
    have lowered : ∀ {k head}, StmtMoves g k head body :=
      moves_lower g body (hn.part hbody) (proper.part hbody) (by rw [fits.2]; rfl)
    obtain ⟨result, _, ht, hx⟩ := bind_eq_ok.1 hx
    obtain ⟨rfl, -⟩ := resolveType_ok ht hc.stands.1
    obtain ⟨-, hx⟩ := guard_eq_ok.1 hx
    simp only [bind_eq_ok, discard_eq_ok, pure_eq_ok] at hx
    obtain ⟨_, _, ⟨_, hbegin⟩, _, c₁, hparams, st, c₂, hstmt, _, c₃, hfinish, -, rfl⟩ := hx
    obtain ⟨-, rfl⟩ := beginFunction_ok hbegin
    obtain ⟨Γ₁, hc₁, hreceives⟩ := receives_all fits.1 (heading_shows hc rfl rfl) hparams
    obtain ⟨Γ₂, hc₂, grows, known⟩ := moves_stmt lowered c₁ st c₂ hc₁ hstmt
    obtain ⟨hc₃, records, entry⟩ := finishFunction_shows hc₂ hfinish
    refine ⟨Γ₂.leaveFunction, hc₃, fun {c'' ns Γ''} hr hm hrest => ?_⟩
    -- The function and its variables are still there at the end.
    obtain ⟨entry', -⟩ := hr.functions entry (by simp [currentFunction?, hc₃.stands.2.1])
    have hk := Program.function_eq entry'
    have ok : Γ₂.All (c''.program.HasVariable c.program.functions.size) := by
      refine ⟨fun v hv => ⟨hr.records (records.1 v hv), .inr (hr.globals ?_)⟩, fun v hv =>
        ⟨hr.records (records.2 v hv), .inl ?_⟩⟩
      · rw [hc₃.globals]
        exact List.mem_map_of_mem hv
      · rw [hk]
        exact List.mem_map_of_mem hv
    obtain ⟨l, rfl, hl⟩ := known _ ok
    refine .functionDef hs hreceives hl ?_ (by rw [hk]) (by rw [hk, ← grows.params]) (by rw [hk])
      hrest
    exact hm.maps.function?_eq_some_iff.2 ⟨_, entry', rfl⟩
  · exact arrives_fail

/-! ## Programs -/

variable {P : Location → Prop}

theorem defined_item (hn : n.Regular) (proper : n.Proper)
    (hp : n.production = .structDef ∨ n.production = .functionDef ∨ n.production = .varDec)
    (hc : c.Shows .outside Γ) : Arrives c (lower g n) fun _ c' => ∃ Γ', Defined Γ n c' Γ' := by
  refine arrives_lower ?_
  rcases hp with hp | hp | hp <;> simp only [rule, hp]
  · exact defined_structDef hn.fits hc
  · exact defined_functionDef hn proper hc
  · exact defined_varDec hc

/-- The definitions of a source one after the other. -/
theorem defines_all {items : List Node} (hn : ∀ n ∈ items, n.Regular)
    (proper : ∀ n ∈ items, n.Proper) (placed : ∀ n ∈ items, n.Placed P)
    (hp : ∀ n ∈ items, n.production = .structDef ∨
      n.production = .functionDef ∨ n.production = .varDec) (hc : c.Shows .outside Γ) (hm : c.Mapped) :
    Arrives c (all (lower g) items) fun _ c' =>
      ∃ Γ', c'.Shows .outside Γ' ∧ c'.program.Defines Γ items Γ' := by
  induction items generalizing c Γ with
  | nil =>
    intro u c' hx
    obtain ⟨-, rfl⟩ := pure_eq_ok.1 hx
    exact ⟨Γ, hc, .nil⟩
  | cons n ns ih =>
    rw [List.forall_mem_cons] at hn proper placed hp
    intro u c' hx
    obtain ⟨_, c₁, hfirst, hx⟩ := bind_eq_ok.1 hx
    obtain ⟨l, hfirst⟩ := discard_eq_ok.1 hfirst
    obtain ⟨Γ₁, hc₁, continues⟩ := defined_item hn.1 proper.1 hp.1 hc l c₁ hfirst
    have hm₁ := ((lower_traces g placed.1 c).1 l c₁ hfirst).1.keeps Step.mapped hm
    obtain ⟨Γ', hc', hrest⟩ := ih hn.2 proper.2 placed.2 hp.2 hc₁ hm₁ u c' hx
    obtain ⟨steps, -⟩ := (traces_all (fun hm => lower_traces g hm) placed.2).1 u c' hx
    exact ⟨Γ', hc', continues steps.retains (steps.keeps Step.mapped hm₁) hrest⟩

end Lower

/-- The builtin functions have six parameters and there are no globals. -/
theorem Context.building_shows : (Context.building .initial).Shows .outside .initial :=
  ⟨rfl, rfl, fun _ => rfl, ⟨nofun, nofun⟩, nofun, rfl, rfl, rfl, rfl⟩

/-- **Names are resolved by lexical scoping.**  The definitions of a source that can be built are
those of its program: each variable of a function's body is the one that its name stands for in the
blocks around, among the parameters or among the globals before it, no name that is used is
undeclared, and none is declared twice in one block, parameter list or among the globals.  In every
context the list of visible names and the look-up give each local name the same variable. -/
theorem Program.names_lexical {g : Grammar} {source : String} {p : Program}
    (h : Program.ofSource g source = .ok p) :
    (∃ root items Γ, Node.ofSource g .program source = .ok root ∧ root.shape = .program items ∧
      p.Defines .initial items Γ ∧ p.globals = Γ.globals.map Variable.id) ∧
    ∀ (c : Context) (name : String), c.visibleNames.find? name = c.local? name ∧
      ∀ id loc, c.local? name = some id → Lower.lookup name loc c = .ok (id, c) := by
  obtain ⟨root, l, c, hr, hl, rfl⟩ := Program.ofSource_eq_ok h
  have read := ofSource_readAs hr
  have proper := Node.ofSource_proper hr
  have placed := (Node.ofSource_placed g .program source).1 root hr
  have fits := read.regular.fits
  have defines : Lower.Arrives (.building .initial) (lower g root) fun _ c => ∃ items Γ,
      root.shape = .program items ∧ c.program.Defines .initial items Γ ∧
      c.program.globals = Γ.globals.map Variable.id := by
    refine Lower.arrives_lower ?_
    simp only [Lower.rule, read.own rfl, Lower.program]
    split
    · rename_i items hs
      rw [hs] at fits
      intro l c hx
      obtain ⟨u, c₁, hall, hx⟩ := Lower.bind_eq_ok.1 hx
      obtain ⟨-, rfl⟩ := Lower.pure_eq_ok.1 hx
      have part : ∀ n ∈ items, n ∈ root.shape.parts := fun n hn => by rw [hs]; exact hn
      obtain ⟨Γ, hc, hd⟩ := Lower.defines_all (fun n hn => read.regular.part (part n hn))
        (fun n hn => proper.part (part n hn)) (fun n hn => placed.part (part n hn)) fits
        Context.building_shows Context.building_initial u c₁ hall
      exact ⟨items, Γ, hs, hd, hc.globals⟩
    · exact Lower.arrives_fail
  obtain ⟨items, Γ, hs, hd, hg⟩ := defines l c hl
  refine ⟨⟨root, items, Γ, hr, hs, hd, hg⟩, fun c name => ⟨c.find?_visibleNames name, ?_⟩⟩
  intro id loc hid
  have found : c.find? name = some id := by rw [Context.find?_eq, hid, Option.some_or]
  exact Lower.bind_eq_ok.2 ⟨_, c, rfl, Lower.require_eq_ok.2 ⟨found, rfl⟩⟩

/-- A source in which blocks, a parameter and a global have the same name. -/
def nested : String :=
  "int x; int f(int a, char x) \x7b if (a) int y; else y = x; "
    ++ "\x7b int x[4]; x[0] = y; while (x[0]) int a; a = sizeof(x); x = \x7ba, y\x7d; \x7d "
    ++ "int a; a = x; return a; \x7d int main() \x7b return f(x, 2); \x7d"

/-- In `nested` the variables get the numbers 6 to 12, of which the first is the global. -/
theorem Program.names_lexical_nested : ∃ p, Program.ofSource .full nested = .ok p ∧
    p.globals = [6] ∧ (p.function 4).params = [7, 8] ∧
    (p.function 4).locals = [7, 8, 9, 10, 11, 12] ∧
    ∃ root items Γ, Node.ofSource .full .program nested = .ok root ∧
      root.shape = .program items ∧ p.Defines .initial items Γ ∧
      p.globals = Γ.globals.map Variable.id := by
  have run : (Program.ofSource .full nested).toOption.map
      (fun p => (p.globals, (p.function 4).params, (p.function 4).locals)) =
        some ([6], [7, 8], [7, 8, 9, 10, 11, 12]) := by
    rw [Program.ofSource_of_toList nested (toList_append_of_eq
      (toList_append_of_eq (String.ofList_eq.1 rfl) (String.ofList_eq.1 rfl)) (String.ofList_eq.1 rfl))]
    decide +kernel
  obtain ⟨p, hp, found⟩ := Except.exists_ok_of_map run
  simp only [Prod.mk.injEq] at found
  obtain ⟨globals, params, locals⟩ := found
  exact ⟨p, hp, globals, params, locals, (Program.names_lexical hp).1⟩

end MiniC
