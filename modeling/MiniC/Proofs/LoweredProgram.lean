/-
  What programs are lowered to.

  Definitions stand outside of all others.  While the head of a function is lowered the tables do
  not just grow: the function gets its parameters one by one, before any code can name it.  So a
  head is compared with the context that it began in (`Context.Heads`).
-/
import MiniC.Proofs.LoweredStmt

namespace MiniC

namespace Context
variable {g : Grammar} {b c c' d : Context}

/-- No definition is under way. -/
structure Outside (c : Context) : Prop where
  function : c.function = none
  struct : c.struct = none

theorem Outside.reaches (h : c.Outside) (hr : c.Reaches c') : c'.Outside := by
  have hf := hr.current
  have hs := hr.struct
  rw [currentFunction?, currentFunction?, h.function, Option.map_none, Option.map_eq_none_iff] at hf
  rw [h.struct, Option.map_none, Option.map_eq_none_iff] at hs
  exact ⟨hf, hs⟩

theorem Outside.leads (h : c.Outside) : c.Leads c :=
  ⟨⟨.refl _, fun s hs => by simp [h.struct] at hs⟩, id⟩

/-! ## Structures -/

theorem Sound.beginStruct (h : c.Sound g) (ho : c.Outside) {name : String}
    (hn : c.program.struct? name = none) : Sound g { c with struct := some ⟨name, [], 0⟩ } := by
  refine h.grow (fun q hq => ⟨hq.extends_, fun s hs => ?_⟩) rfl .rfl
    { h.ranged with fresh := by rintro _ ⟨⟩; exact hn } (fun _ _ _ => .inl) (fun _ _ _ => .inl)
    (fun _ _ _ hx => .inl ⟨hx, rfl⟩) ?_ ?_
  · simp [ho.struct] at hs
  · rintro d s' hd ⟨⟩
    simp
  · rintro s' ⟨⟩
    exact .inr fun hm => absurd rfl hm

theorem Sound.finishStruct (h : c.Sound g) {s : StructContext} (hs : c.struct = some s)
    (hm : s.members ≠ []) :
    Sound g { c with
      program := (c.program.addStruct ⟨s.name, s.members, s.nextOffset⟩).2
      struct := none } := by
  have hp : c.Precedes { c with
      program := (c.program.addStruct ⟨s.name, s.members, s.nextOffset⟩).2
      struct := none } := by
    refine fun q hq => ⟨(Program.extends_addStruct h.ranged.maps (h.ranged.fresh hs)).trans hq.extends_,
      fun s' hs' => ?_⟩
    cases hs.symm.trans hs'
    exact hq.extends_.struct?_isSome (Option.isSome_of_mem (Program.struct?_addStruct ..))
  refine h.grow hp rfl .rfl { h.ranged with maps := h.ranged.maps.addStruct (h.ranged.fresh hs), fresh := nofun }
    (fun _ _ _ => .inl) ?_ (fun _ _ _ hx => .inl ⟨hx, rfl⟩) nofun nofun
  intro d hd i l hl
  rcases Program.getElem?_push_cases hl with hl | ⟨rfl, -⟩
  · exact .inl hl
  · exact .inr ⟨h.members hs ⟨hp _ hd.completes, hd.assigned⟩, h.filled hs hm⟩

/-! ## Functions -/

/-- The context `b` with more variables and a further function, which is being defined. -/
def heading (b : Context) (symbols : Array Symbol) (f : Function) (scopes : List Scope) : Context :=
  { b with
    program := { (b.program.addFunction f).2 with symbols }
    function := some ⟨b.program.functions.size, f.result, scopes, 0⟩ }

/-- The variables that `b` has more in a head are scalars, and the parameters are among them. -/
structure Heads (b : Context) (symbols : Array Symbol) (f : Function) (scopes : List Scope) :
    Prop where
  unnamed : b.program.function? f.name = none
  declared : f.body = .declared
  locals : f.locals = f.params
  result : f.result.structName? = none
  known : f.result.Known b.program
  old : ∀ {i : Nat} {s}, b.program.symbols[i]? = some s → symbols[i]? = some s
  fresh : ∀ {i : Nat} {s}, symbols[i]? = some s → b.program.symbols[i]? = some s ∨
    s.ty.Known b.program ∧ s.ty.isScalar = true ∧ s.array = none ∧ 0 < s.size
  params : ∀ p ∈ f.params, ∃ s, symbols[p]? = some s ∧ s.ty.isScalar = true
  scopes : ∀ scope ∈ scopes, ∀ entry ∈ scope, entry.2 ∈ f.params

variable {symbols : Array Symbol} {f : Function} {scopes : List Scope}

theorem heading_function : (b.heading symbols f scopes).program.function b.program.functions.size = f :=
  Program.function_eq (by simp [heading, Program.addFunction])

theorem Heads.extends_ (h : b.Heads symbols f scopes) :
    b.program.Extends (b.heading symbols f scopes).program :=
  { Program.extends_addFunction h.unnamed with symbols := h.old }

theorem Heads.ranged (h : b.Heads symbols f scopes) (hb : b.Ranged) :
    (b.heading symbols f scopes).Ranged := by
  have he := h.extends_
  have params : ∀ p ∈ f.params, (b.heading symbols f scopes).program.HasSymbol p := by
    intro p hp
    obtain ⟨s, hs, -⟩ := h.params p hp
    exact (Array.getElem?_eq_some_iff.1 hs).1
  refine ⟨⟨(hb.maps.addFunction h.unnamed).withSymbols h.old, hb.fresh⟩, fun {i f'} hf' => ?_, ?_, ?_⟩
  · rcases Program.getElem?_push_cases hf' with hf' | ⟨rfl, -⟩
    · exact ⟨fun id hid => he.hasSymbol ((hb.locals hf').1 id hid),
        fun id hid => he.hasSymbol ((hb.locals hf').2 id hid)⟩
    · exact ⟨h.locals ▸ params, params⟩
  · rintro _ ⟨⟩
    rw [heading_function, h.locals]
    exact ⟨by simp [heading, Program.addFunction], rfl, h.scopes⟩
  · rintro _ ⟨⟩
    rw [heading_function, Function.isBuiltin, h.declared]

theorem Heads.sound (h : b.Heads symbols f scopes) (hb : b.Sound g) (ho : b.Outside) :
    (b.heading symbols f scopes).Sound g := by
  have he := h.extends_
  have leads : ∀ {d}, (b.heading symbols f scopes).Leads d → b.Leads d := fun hd =>
    ⟨⟨he.trans hd.completes.extends_, hd.completes.struct⟩, hd.assigned⟩
  refine ⟨hb.building, h.ranged hb.ranged, fun {d} hd => ⟨?_, ?_, ?_⟩, ?_, fun hs => hb.filled hs, ?_⟩
  · intro i s hs
    rcases h.fresh hs with hs | ⟨known, scalar, array, stored⟩
    · exact (hb.program (leads hd)).symbols hs
    · exact ⟨known.extends_ (leads hd).completes.extends_, Ty.isVoid_of_isScalar scalar,
        by simp [array], by simp [array], stored⟩
  · exact fun hl => (hb.program (leads hd)).structs hl
  · intro i f' hf'
    rcases Program.getElem?_push_cases hf' with hf' | ⟨rfl, rfl⟩
    · refine ((hb.program (leads hd)).functions hf').mono fun hi => ?_
      simp [currentFunction?, ho.function] at hi
    · refine ⟨h.result, h.known.extends_ (leads hd).completes.extends_, fun p hp => ?_, ?_, ?_⟩
      · obtain ⟨s, hs, scalar⟩ := h.params p hp
        rw [Program.symbol_eq (hd.completes.extends_.symbols hs)]
        exact ⟨h.locals ▸ hp, scalar⟩
      · rw [h.declared]
        rfl
      · simp [Function.isBuiltin, h.declared]
  · exact fun hs d hd => hb.members hs (leads hd)
  · exact fun ha q hq => hb.replayed ha q ⟨he.trans hq.extends_, hq.struct⟩

/-- One more parameter of the function whose head is lowered. -/
theorem Heads.addParam (h : b.Heads symbols f scopes) {s : Symbol} (hk : s.ty.Known b.program)
    (hs : s.ty.isScalar = true) (ha : s.array = none) (hn : 0 < s.size) : ∃ symbols' f' scopes',
      (b.heading symbols f scopes).addLocal ⟨b.program.functions.size, f.result, scopes, 0⟩ s true =
        b.heading symbols' f' scopes' ∧ b.Heads symbols' f' scopes' := by
  refine ⟨symbols.push s, { f with locals := f.locals ++ [symbols.size], params := f.params ++ [symbols.size] },
    ((s.name, symbols.size) :: scopes.headD []) :: scopes.tail, ?_, ?_⟩
  · simp only [Context.addLocal, heading, Program.addFunction, Program.addSymbol,
      Program.modifyFunction, if_true]
    congr 2
    refine Array.ext_getElem? fun i => ?_
    rw [Array.getElem?_modify, Array.getElem?_push, Array.getElem?_push]
    by_cases hi : b.program.functions.size = i
    · simp [hi]
    · simp [hi, Ne.symm hi]
  · refine ⟨h.unnamed, h.declared, by rw [h.locals], h.result, h.known, ?_, ?_, ?_, ?_⟩
    · exact fun hx => Program.getElem?_push_of_some (h.old hx)
    · intro i t ht
      rcases Program.getElem?_push_cases ht with ht | ⟨rfl, -⟩
      · exact h.fresh ht
      · exact .inr ⟨hk, hs, ha, hn⟩
    · intro p hp
      rcases List.mem_append.1 hp with hp | hp
      · obtain ⟨t, ht, hts⟩ := h.params p hp
        exact ⟨t, Program.getElem?_push_of_some ht, hts⟩
      · rw [List.mem_singleton.1 hp]
        exact ⟨s, by simp, hs⟩
    · intro scope hscope entry hentry
      rcases mem_headD_or_tail hscope hentry with rfl | ⟨t, ht, hentry⟩
      · simp
      · exact List.mem_append_left _ (h.scopes t ht entry hentry)

theorem Sound.finishFunction (h : c.Sound g) {k : FunctionContext} {body : Stmt}
    (hf : c.function = some k) (ht : c.TypesStmt body) :
    c.program.Extends (c.program.modifyFunction k.id fun f => { f with body := .compiled body }) ∧
      Sound g { c with
        program := c.program.modifyFunction k.id fun f => { f with body := .compiled body }
        function := none } := by
  have he : c.program.Extends
      (c.program.modifyFunction k.id fun f => { f with body := .compiled body }) := by
    refine Program.extends_modifyFunction fun f hfun => ⟨rfl, rfl, rfl, List.prefix_refl _, ?_⟩
    have hb := h.ranged.own hf
    rw [Program.function_eq hfun] at hb
    rw [hb]
    rfl
  refine ⟨he, h.grow (fun q hq => ⟨he.trans hq.extends_, hq.struct⟩) rfl .rfl
    ⟨⟨h.ranged.maps.modifyFunction k.id fun _ => rfl, h.ranged.fresh⟩, ?_, by rintro _ ⟨⟩,
      by rintro _ ⟨⟩⟩ (fun _ _ _ => .inl) (fun _ _ _ => .inl) ?_
    (fun _ hs m hm => .inl ⟨_, hs, hm⟩) .inl⟩
  · intro i f' hf'
    rcases functions_modify hf' with ⟨-, hf'⟩ | ⟨-, f, hf, rfl⟩
    · exact h.ranged.locals hf'
    · exact ⟨(h.ranged.locals hf).1, (h.ranged.locals hf).2⟩
  · -- Only the function that is finished gets a body, and this body has been lowered in it.
    intro d hd i f' hf'
    have hcd : c.Leads d := ⟨⟨he.trans hd.completes.extends_, hd.completes.struct⟩, hd.assigned⟩
    have current : c.currentFunction? = some k.id := by rw [currentFunction?, hf]; rfl
    rcases functions_modify hf' with ⟨hi, hf'⟩ | ⟨rfl, f, hfun, rfl⟩
    · refine .inr (((h.program hcd).functions hf').mono fun hk => ?_)
      rw [current] at hk
      exact absurd (Option.some.inj hk).symm hi
    · have hsound := (h.program hcd).functions hfun
      refine .inr ⟨hsound.result, hsound.known, hsound.params, ?_, by rintro ⟨⟩⟩
      have hbody := ht hcd
      rw [current, result?, hf, Option.map_some, (h.ranged.function hf).2.1,
        Program.function_eq hfun] at hbody
      exact hbody

end Context

namespace Lower
variable {g : Grammar} {b c c' : Context} {n : Node} {low : Lowering}
open Context

@[simp] theorem discard_eq_ok {α : Type} {x : Lower α} {u : PUnit} :
    discard x c = .ok (u, c') ↔ ∃ a, x c = .ok (a, c') := by
  change Except.map _ (x c) = _ ↔ _
  cases x c with
  | error e => simp [Except.map]
  | ok r => simp [Except.map, Prod.ext_iff]

/-- A type outside of structures is known. -/
theorem resolveType_ok {base : Base} {stars : Nat} {loc : Location} {t : Ty}
    (h : resolveType base stars loc c = .ok (t, c')) (hs : c.struct = none) :
    c = c' ∧ t.Known c.program := by
  cases base with
  | int | char | void =>
    obtain ⟨rfl, rfl⟩ := pure_eq_ok.1 h
    exact ⟨rfl, nofun⟩
  | struct name =>
    obtain ⟨rfl, rfl, hk⟩ := resolveType_eq_ok.1 h
    refine ⟨rfl, ?_⟩
    rintro _ ⟨⟩
    simpa [hs] using hk

/-! ## Heads of functions -/

/-- A step that only adds parameters to the function whose head is lowered. -/
def KeepsHead {α : Type} (b : Context) (x : Lower α) : Prop :=
  ∀ {symbols f scopes a c'}, b.Heads symbols f scopes →
    x (b.heading symbols f scopes) = .ok (a, c') →
    ∃ symbols' f' scopes', c' = b.heading symbols' f' scopes' ∧ b.Heads symbols' f' scopes'

theorem keepsHead_fail {cause : CompileCause} {loc : Location} :
    KeepsHead b (fail cause loc : Lower Lowered) := fun _ hx => absurd hx fail_ne_ok

theorem keepsHead_declareParam (hb : b.Sound g) (ho : b.Outside) {base : Base} {stars : Nat} {name : String}
    {loc : Location} : KeepsHead b (declareParam base stars name loc) := by
  intro symbols f scopes l c' h hx
  obtain ⟨t, c₁, ht, hx⟩ := bind_eq_ok.1 hx
  obtain ⟨rfl, known⟩ := resolveType_ok ht ho.struct
  obtain ⟨hv, hx⟩ := guard_eq_ok.1 hx
  obtain ⟨hstruct, hx⟩ := guard_eq_ok.1 hx
  have scalar : t.isScalar = true :=
    Ty.isScalar_of_structName? (by simpa using hv) (by simpa using hstruct)
  simp only [bind_eq_ok, sizeOf, ask_eq_ok, require_eq_ok, pure_eq_ok] at hx
  obtain ⟨size, _, ⟨_, _, ⟨rfl, rfl⟩, hsize, rfl⟩, _, _, declared, -, rfl⟩ := hx
  have stored : 0 < size := (h.sound hb ho).sizeOf?_pos hsize
  rcases declare_cases declared with ⟨s, hs, -⟩ | ⟨-, hf, -⟩ | ⟨-, k, hk, rfl⟩
  · cases ho.struct.symm.trans hs
  · cases hf
  · cases hk
    exact h.addParam known scalar rfl stored

theorem keepsHead_param (hb : b.Sound g) (ho : b.Outside) : KeepsHead b (param n) := by
  unfold param
  split
  · split
    · exact keepsHead_declareParam hb ho
    · exact keepsHead_declareParam hb ho
    · exact keepsHead_fail
  · exact keepsHead_fail

theorem keepsHead_lower (hb : b.Sound g) (ho : b.Outside) (hn : n.production = .param) :
    KeepsHead b (lower g n) := by
  rcases lower_cases g n with hl | ⟨cause, hl⟩ <;> rw [hl]
  · simp only [rule, hn]
    exact keepsHead_param hb ho
  · exact keepsHead_fail

theorem keepsHead_all (hb : b.Sound g) (ho : b.Outside) {params : List Node}
    (hp : ∀ m ∈ params, m.production = .param) : KeepsHead b (all (lower g) params) := by
  induction params with
  | nil =>
    intro symbols f scopes a c' h hx
    obtain ⟨-, rfl⟩ := pure_eq_ok.1 hx
    exact ⟨symbols, f, scopes, rfl, h⟩
  | cons m ms ih =>
    intro symbols f scopes a c' h hx
    obtain ⟨_, c₁, hm, hx⟩ := bind_eq_ok.1 hx
    obtain ⟨l, hm⟩ := discard_eq_ok.1 hm
    obtain ⟨symbols', f', scopes', rfl, h'⟩ := keepsHead_lower hb ho (hp m (by simp)) h hm
    exact ih (fun k hk => hp k (by simp [hk])) h' hx

theorem beginFunction_ok {name : String} {result : Ty} {loc : Location} {id : FunctionId}
    (h : beginFunction name result loc c = .ok (id, c')) :
    c.program.function? name = none ∧
      c' = c.heading c.program.symbols ⟨name, result, [], [], .declared, loc⟩ [[]] := by
  simp only [beginFunction, bind_eq_ok, ask_eq_ok] at h
  obtain ⟨_, _, ⟨rfl, rfl⟩, h⟩ := h
  obtain ⟨fresh, h⟩ := guard_eq_ok.1 h
  simp only [bind_eq_ok, requireBuilding_eq_ok, ask_eq_ok, change_eq_ok, pure_eq_ok] at h
  obtain ⟨_, _, ⟨-, rfl⟩, _, _, ⟨rfl, rfl⟩, _, _, rfl, -, rfl⟩ := h
  exact ⟨Option.not_isSome_iff_eq_none.1 fresh, rfl⟩

theorem finishFunction_ok {body : Stmt} {u : Unit} (h : finishFunction body c = .ok (u, c')) :
    ∃ k, c.function = some k ∧ c' = { c with
      program := c.program.modifyFunction k.id fun f => { f with body := .compiled body }
      function := none } := by
  simp only [finishFunction, bind_eq_ok, ask_eq_ok, require_eq_ok, requireBuilding_eq_ok,
    change_eq_ok] at h
  obtain ⟨_, _, ⟨rfl, rfl⟩, k, _, ⟨hk, rfl⟩, _, _, ⟨-, rfl⟩, rfl⟩ := h
  exact ⟨k, hk, rfl⟩

/-! ## Definitions -/

/-- A definition outside of all others, or a declaration, keeps the invariant. -/
abbrev ItemFollows (g : Grammar) (x : Lower Lowered) : Prop :=
  Follows g Reaches Outside x fun _ _ => True

theorem follows_functionDef (hn : n.Regular) : ItemFollows g (functionDef (lower g) n) := by
  have fits := hn.fits
  unfold functionDef
  split
  · rename_i base stars name params body hs
    rw [hs] at fits
    have hbody : body.Regular := hn.part (by simp [hs, Shape.parts])
    refine ⟨fun {b l c₃} hb ho hx => ?_⟩
    replace ho := ho.here
    obtain ⟨result, c₁, ht, hx⟩ := bind_eq_ok.1 hx
    obtain ⟨rfl, known⟩ := resolveType_ok ht ho.struct
    obtain ⟨hstruct, hx⟩ := guard_eq_ok.1 hx
    simp only [bind_eq_ok, discard_eq_ok, pure_eq_ok] at hx
    obtain ⟨_, _, ⟨_, hbegin⟩, _, c₁, hparams, s, c₂, hstmt, _, _, hfinish, -, rfl⟩ := hx
    obtain ⟨unnamed, rfl⟩ := beginFunction_ok hbegin
    have h₀ : b.Heads b.program.symbols ⟨name, result, [], [], .declared, n.start⟩ [[]] :=
      ⟨unnamed, rfl, rfl, by simpa using hstruct, known, id, .inl, by simp, by simp⟩
    obtain ⟨symbols, f, scopes, rfl, h⟩ := keepsHead_all hb ho fits.1 h₀ hparams
    have hc₁ := h.sound hb ho
    have hlower := follows_lower g body hbody (by rw [fits.2]; rfl)
    obtain ⟨reach, hc₂, typed⟩ := (follows_stmt hlower (H := fun _ => True)).follows hc₁
      (fun _ _ => trivial) hstmt
    obtain ⟨k, hk, rfl⟩ := finishFunction_ok hfinish
    obtain ⟨he, hc₃⟩ := hc₂.finishFunction hk typed.here
    refine ⟨⟨(h.extends_.trans reach.extends_).trans he, ?_, ?_, reach.struct, reach.members,
      reach.assigned⟩, hc₃, fun _ _ => trivial⟩
    · rw [currentFunction?, currentFunction?, ho.function]
    · rw [result?, result?, ho.function]
  · exact follows_fail

theorem follows_all {H : Context → Prop} {ns : List Node}
    (h : ∀ m ∈ ns, Follows g Reaches H (low m) fun _ _ => True) :
    Follows g Reaches H (all low ns) fun _ _ => True := by
  induction ns with
  | nil => exact follows_pure fun _ _ => trivial
  | cons m ms ih =>
    have first : Follows g Reaches H (discard (low m)) fun _ _ => True := by
      refine ⟨fun {c u c'} hc hH hx => ?_⟩
      obtain ⟨l, hx⟩ := discard_eq_ok.1 hx
      exact (h m (by simp)).follows hc hH hx
    refine first.bind fun _ => ?_
    exact (ih fun k hk => h k (by simp [hk])).mono (fun _ h => h.1) fun _ _ h => h

theorem beginStruct_ok {name : String} {loc : Location} {u : Unit}
    (h : beginStruct name loc c = .ok (u, c')) :
    c.program.struct? name = none ∧ c' = { c with struct := some ⟨name, [], 0⟩ } := by
  simp only [beginStruct, bind_eq_ok, ask_eq_ok] at h
  obtain ⟨_, _, ⟨rfl, rfl⟩, h⟩ := h
  obtain ⟨fresh, h⟩ := guard_eq_ok.1 h
  exact ⟨Option.not_isSome_iff_eq_none.1 fresh, (change_eq_ok.1 h).symm⟩

theorem finishStruct_ok {loc : Location} {id : StructId} (h : finishStruct loc c = .ok (id, c')) :
    ∃ s, c.struct = some s ∧ c' = { c with
      program := (c.program.addStruct ⟨s.name, s.members, s.nextOffset⟩).2
      struct := none } := by
  simp only [finishStruct, bind_eq_ok, ask_eq_ok, require_eq_ok, requireBuilding_eq_ok, change_eq_ok,
    pure_eq_ok] at h
  obtain ⟨_, _, ⟨rfl, rfl⟩, s, _, ⟨hs, rfl⟩, _, _, ⟨-, rfl⟩, _, _, ⟨rfl, rfl⟩, _, _, rfl, -, rfl⟩ := h
  exact ⟨s, hs, rfl⟩

/-- The declaration of members leaves a structure with some. -/
theorem follows_member (hn : n.Regular) (hp : n.production = .varDec) :
    Follows g Reaches (fun _ => True) (lower g n) fun c _ => c.Populated := by
  rcases lower_cases g n with hl | ⟨cause, hl⟩ <;> rw [hl]
  · simp only [rule, hp]
    exact (follows_varDec hn).mono (fun _ h => h) fun _ _ h => h.2
  · exact follows_fail

theorem follows_members {ms : List Node} (hm : ms ≠ [])
    (h : ∀ m ∈ ms, Follows g Reaches (fun _ => True) (low m) fun c _ => c.Populated) :
    Follows g Reaches (fun _ => True) (all low ms) fun c _ => c.Populated := by
  obtain ⟨m, rest, rfl⟩ := List.exists_cons_of_ne_nil hm
  have first : Follows g Reaches (fun _ => True) (discard (low m)) fun c _ => c.Populated := by
    refine ⟨fun {c u c'} hc hH hx => ?_⟩
    obtain ⟨l, hx⟩ := discard_eq_ok.1 hx
    exact (h m (by simp)).follows hc hH hx
  have later : Follows g Reaches (fun _ => True) (all low rest) fun _ _ => True :=
    follows_all fun k hk => (h k (by simp [hk])).mono (fun _ h => h) fun _ _ _ => trivial
  refine ⟨fun {c u c'} hc hH hx => ?_⟩
  obtain ⟨_, c₁, h1, h2⟩ := bind_eq_ok.1 hx
  obtain ⟨s1, hc₁, populated⟩ := first.follows hc hH h1
  obtain ⟨s2, hc₂, -⟩ := later.follows hc₁ (fun _ _ => trivial) h2
  exact ⟨IsTrans.trans _ _ _ s1 s2, hc₂, populated.step s2⟩

theorem follows_structDef (hn : n.Regular) : ItemFollows g (structDef (lower g) n) := by
  have fits := hn.fits
  unfold structDef
  split
  · rename_i name members hs
    rw [hs] at fits
    have hmembers : ∀ m ∈ members, Follows g Reaches (fun _ => True) (lower g m) fun c _ =>
        c.Populated := fun m hm => follows_member (hn.part (by rwa [hs])) (fits m hm)
    refine ⟨fun {b l c₃} hb ho hx => ?_⟩
    replace ho := ho.here
    obtain ⟨some_, hx⟩ := guard_eq_ok.1 hx
    simp only [bind_eq_ok, discard_eq_ok, pure_eq_ok] at hx
    obtain ⟨_, _, hbegin, _, c₂, hall, _, _, ⟨_, hfinish⟩, -, rfl⟩ := hx
    obtain ⟨fresh, rfl⟩ := beginStruct_ok hbegin
    obtain ⟨reach, hc₂, populated⟩ := (follows_members (by simpa using some_) hmembers).follows
      (hb.beginStruct ho fresh) (fun _ _ => trivial) hall
    obtain ⟨s, hs, rfl⟩ := finishStruct_ok hfinish
    refine ⟨⟨?_, reach.current, reach.result, ?_, fun hs => ?_, reach.assigned⟩,
      hc₂.finishStruct hs (populated.here s hs), fun _ _ => trivial⟩
    · exact reach.extends_.trans (Program.extends_addStruct hc₂.ranged.maps (hc₂.ranged.fresh hs))
    · rw [ho.struct]
    · cases ho.struct.symm.trans hs
  · exact follows_fail

theorem follows_item (hn : n.Regular) (hp : n.production = .structDef ∨ n.production = .functionDef ∨
    n.production = .varDec) : ItemFollows g (lower g n) := by
  rcases lower_cases g n with hl | ⟨cause, hl⟩
  case inr =>
    rw [hl]
    exact follows_fail
  rcases hp with hp | hp | hp
  · rw [hl]
    simp only [rule, hp]
    exact follows_structDef hn
  · rw [hl]
    simp only [rule, hp]
    exact follows_functionDef hn
  · exact (follows_lower g n hn (by rw [hp]; rfl)).mono (fun _ _ => trivial) fun _ _ _ => trivial

theorem follows_program (hn : n.Regular) (hp : n.production = .program) :
    ItemFollows g (lower g n) := by
  have fits := hn.fits
  rcases lower_cases g n with hl | ⟨cause, hl⟩ <;> rw [hl]
  · simp only [rule, hp, program]
    split
    · rename_i items hs
      rw [hs] at fits
      refine (follows_all fun m hm => follows_item (hn.part (by rwa [hs])) (fits m hm)).bind fun _ => ?_
      exact follows_pure fun _ _ => trivial
    · exact follows_fail
  · exact follows_fail

end Lower

/-! ## Programs -/

/-- The builtin functions have names of their own. -/
theorem Program.initial_indexed : Program.initial.Indexed := by
  refine Indexed.addFunction (.addSymbol (.addFunction (.addSymbol (.addFunction (.addSymbol
    (.addFunction (.addSymbol (.addSymbol (.addSymbol .empty _) _) _) ?_) _) ?_) _) ?_) _) ?_
  all_goals decide

theorem Context.building_initial : (Context.building .initial).Mapped :=
  ⟨Program.initial_indexed, nofun⟩

/-- The builtin functions name only what they have. -/
theorem Program.initial_functions {f : Function} (h : f ∈ Program.initial.functions.toList) :
    (∀ p ∈ f.params, p ∈ f.locals ∧ Program.initial.HasSymbol p ∧
      (Program.initial.symbol p).ty.isScalar = true) ∧
    (∀ p ∈ f.locals, Program.initial.HasSymbol p) ∧ f.result.base = .void ∧
    (f.name = "malloc" → f.IsAllocator Program.initial) ∧
    ∃ b, f.body = .builtin b ∧ ∀ p ∈ b.reads, p ∈ f.params := by
  simp only [initial, installBuiltins, addBuiltin, addFunction, addParameter, addSymbol, empty] at h ⊢
  simp at h
  rcases h with rfl | rfl | rfl | rfl
  all_goals simp [HasSymbol, symbol, Builtin.reads, Function.IsAllocator, Ty.isScalar, Ty.isPointer,
    Ty.isArithmetic, Ty.pointer, Ty.int, Ty.void, Ty.voidPointer, Ty.char]

/-- The builtin functions are well typed. -/
theorem Context.building_sound (g : Grammar) : (Context.building .initial).Sound g := by
  have functions : ∀ {i : Nat} {f}, Program.initial.functions[i]? = some f →
      f ∈ Program.initial.functions.toList := fun h => by simpa using Array.mem_of_getElem? h
  refine ⟨rfl, ⟨building_initial, fun hf => ?_, by rintro _ ⟨⟩, by rintro _ ⟨⟩⟩,
    fun {d} hd => ⟨fun {i s} hs => ?_, by rintro _ _ ⟨⟩, fun hf => ?_⟩,
    by rintro _ ⟨⟩, by rintro _ ⟨⟩, by rintro _ _ _ _ _ _ ⟨⟩⟩
  · obtain ⟨h1, h2, -⟩ := Program.initial_functions (functions hf)
    exact ⟨h2, fun p hp => (h1 p hp).2.1⟩
  · have hmem : s ∈ Program.initial.symbols.toList := Array.mem_def.1 (Array.mem_of_getElem? hs)
    simp only [Program.initial, Program.installBuiltins, Program.addBuiltin, Program.addFunction,
      Program.addParameter, Program.addSymbol, Program.empty] at hmem
    simp at hmem
    rcases hmem with rfl | rfl | rfl | rfl | rfl | rfl
    all_goals exact ⟨by rintro _ ⟨⟩, rfl, by rintro _ ⟨⟩, by rintro _ ⟨⟩, by decide⟩
  · obtain ⟨h1, h2, h3, malloc, b, hb, h4⟩ := Program.initial_functions (functions hf)
    refine ⟨?_, by simp [Ty.Known, h3], fun p hp => ?_, ?_, fun _ hn => ?_⟩
    · unfold Ty.structName?
      split
      · rename_i heq
        rw [heq] at h3
        cases h3
      · rfl
    · obtain ⟨hl, hs, scalar⟩ := h1 p hp
      rw [hd.completes.extends_.symbol hs]
      exact ⟨hl, scalar⟩
    · rw [hb]
      exact h4
    · obtain ⟨size, hbody, hparams, hlocals, hresult, hty⟩ := malloc hn
      have hs := h2 size (by simp [hlocals])
      exact ⟨size, hbody, hparams, hlocals, hresult, by rwa [hd.completes.extends_.symbol hs]⟩

/-- Lowering has come to an end. -/
structure Context.Finished (g : Grammar) (c : Context) : Prop extends c.Sound g, c.Outside

namespace Context.Finished
variable {g : Grammar} {c : Context} (h : c.Finished g)
include h

/-- Nothing more is added to the tables. -/
theorem leads : c.Leads c := h.toOutside.leads

/-- All that the tables hold is well typed and no body is missing. -/
theorem tables : c.program.Sound c none := by
  have hp := h.program h.leads
  rwa [currentFunction?, h.function] at hp

end Context.Finished

/-- **A source that can be built has been lowered to well-typed tables.** -/
theorem lower_finished {g : Grammar} {source : String} {root : Node} {l : Lowered} {c : Context}
    (hr : Node.ofSource g .program source = .ok root)
    (hl : lower g root (.building .initial) = .ok (l, c)) : c.Finished g := by
  have read := ofSource_readAs hr
  have ho : (Context.building .initial).Outside := ⟨rfl, rfl⟩
  obtain ⟨reach, hc, -⟩ := (Lower.follows_program read.regular (read.own rfl)).follows
    (Context.building_sound g) (fun _ hk => ho.reaches hk) hl
  exact ⟨hc, ho.reaches reach⟩

end MiniC
