/-
  What declarations add to the tables.

  A name that is declared becomes a member, a global or a variable of the function being defined.
  Whichever it is, the tables only grow and all they hold stays well typed.
-/
import MiniC.Proofs.LoweredExpr

namespace MiniC

namespace Context
variable {g : Grammar} {c c' d : Context}

/-- The invariant is kept where all that is new in the tables is well typed in its own right. -/
theorem Sound.grow (h : c.Sound g) (hp : c.Precedes c') (hb : c'.frozen = c.frozen)
    (ha : ∀ {a es}, c'.assigned a es ↔ c.assigned a es) (ranged : c'.Ranged)
    (symbols : ∀ {d}, c'.Leads d → ∀ {i : Nat} {s}, c'.program.symbols[i]? = some s →
      c.program.symbols[i]? = some s ∨ s.Sound d)
    (structs : ∀ {d}, c'.Leads d → ∀ {i : Nat} {l}, c'.program.structs[i]? = some l →
      c.program.structs[i]? = some l ∨ l.Sound d)
    (functions : ∀ {d}, c'.Leads d → ∀ {i : Nat} {f}, c'.program.functions[i]? = some f →
      (c.program.functions[i]? = some f ∧ c'.currentFunction? = c.currentFunction?) ∨
        f.Sound d (c'.currentFunction? = some i) i)
    (members : ∀ {d s'}, c'.Leads d → c'.struct = some s' → ∀ m ∈ s'.members,
      (∃ s, c.struct = some s ∧ m ∈ s.members) ∨ m.Sound d)
    (filled : ∀ {s'}, c'.struct = some s' → c.struct = some s' ∨
      (s'.members ≠ [] → 0 < s'.nextOffset)) : c'.Sound g := by
  have leads : ∀ {d}, c'.Leads d → c.Leads d := fun hd =>
    ⟨hp _ hd.completes, fun h' => hd.assigned (ha.2 h')⟩
  refine ⟨hb.trans h.building, ranged, fun hd => ⟨fun hx => ?_, fun hx => ?_, fun hx => ?_⟩, ?_, ?_, ?_⟩
  · exact (symbols hd hx).elim (fun hx => (h.program (leads hd)).symbols hx) id
  · exact (structs hd hx).elim (fun hx => (h.program (leads hd)).structs hx) id
  · rcases functions hd hx with ⟨hx, hk⟩ | hx
    · rw [hk]
      exact (h.program (leads hd)).functions hx
    · exact hx
  · intro s' hs' d hd m hm
    rcases members hd hs' m hm with ⟨s, hs, hm⟩ | hm
    · exact h.members hs (leads hd) m hm
    · exact hm
  · exact fun hs' => (filled hs').elim (fun hs => h.filled hs) id
  · exact fun h' q hq => h.replayed (ha.1 h') q (hp q hq)

/-! ## The function being defined -/

/-- What happens to the function being defined does not reach the tables. -/
theorem Sound.changeFunction (h : c.Sound g) {f : FunctionContext → FunctionContext}
    (hid : ∀ k, (f k).id = k.id) (hr : ∀ k, (f k).result = k.result)
    (hs : ∀ k, ∀ scope ∈ (f k).scopes, scope = [] ∨ scope ∈ k.scopes) :
    c.Reaches { c with function := c.function.map f } ∧
      Sound g { c with function := c.function.map f } := by
  have hreach : c.Reaches { c with function := c.function.map f } := by
    refine ⟨.refl _, ?_, ?_, rfl, members_of_eq rfl, id⟩
    · simp [currentFunction?, Function.comp_def, hid]
    · simp [result?, Function.comp_def, hr]
  have ranged : Ranged { c with function := c.function.map f } := by
    refine ⟨⟨h.ranged.maps, h.ranged.fresh⟩, h.ranged.locals, fun {k'} hk' => ?_,
      fun {k'} hk' => ?_⟩
    · obtain ⟨k, hk, rfl⟩ := Option.map_eq_some_iff.1 hk'
      obtain ⟨h1, h2, h3⟩ := h.ranged.function hk
      rw [hid, hr]
      refine ⟨h1, h2, fun scope hscope entry hentry => ?_⟩
      rcases hs k scope hscope with rfl | hscope
      · simp at hentry
      · exact h3 scope hscope entry hentry
    · obtain ⟨k, hk, rfl⟩ := Option.map_eq_some_iff.1 hk'
      rw [hid]
      exact h.ranged.own hk
  exact ⟨hreach, h.grow hreach.precedes rfl .rfl ranged (fun _ _ _ => .inl) (fun _ _ _ => .inl)
    (fun _ _ _ hx => .inl ⟨hx, hreach.current⟩) (fun _ hs m hm => .inl ⟨_, hs, hm⟩) .inl⟩

/-! ## Variables -/

/-- The context with one more variable in the innermost scope of `f`. -/
def addLocal (c : Context) (f : FunctionContext) (s : Symbol) (isParam : Bool) : Context :=
  let id := c.program.symbols.size
  { c with
    program := (c.program.addSymbol s).2.modifyFunction f.id fun g =>
      { g with
        locals := g.locals ++ [id]
        params := if isParam then g.params ++ [id] else g.params }
    function := some { f with scopes := ((s.name, id) :: f.scopes.headD []) :: f.scopes.tail } }

/-- The context with one more global. -/
def addGlobal (c : Context) (s : Symbol) : Context := { c with program := c.program.addGlobal s }

/-- The context with one more member of the structure being defined. -/
def addMember (c : Context) (s : StructContext) (name : String) (ty : Ty) (size : Nat)
    (array : Option ArraySpec) : Context :=
  { c with
    struct := some
      { s with
        members := s.members ++ [⟨name, ty, size, s.nextOffset, array.map ArraySpec.length⟩]
        nextOffset := s.nextOffset + size } }

theorem mem_headD_or_tail {scopes : List Scope} {name : String} {id : SymbolId} {scope : Scope}
    {entry : String × SymbolId} (hs : scope ∈ ((name, id) :: scopes.headD []) :: scopes.tail)
    (he : entry ∈ scope) : entry = (name, id) ∨ ∃ t ∈ scopes, entry ∈ t := by
  cases scopes with
  | nil => simp_all
  | cons t ts =>
    rcases List.mem_cons.1 hs with rfl | hs
    · rcases List.mem_cons.1 he with rfl | he
      · exact .inl rfl
      · exact .inr ⟨t, by simp, he⟩
    · exact .inr ⟨scope, List.mem_cons_of_mem _ hs, he⟩

theorem Sound.addGlobal (h : c.Sound g) {s : Symbol} (hn : c.program.global? s.name = none)
    (hs : ∀ {d}, c.Leads d → s.Sound d) :
    c.Reaches (c.addGlobal s) ∧ (c.addGlobal s).Sound g := by
  have he := Program.extends_addGlobal hn
  have hreach : c.Reaches (c.addGlobal s) := ⟨he, rfl, rfl, rfl, members_of_eq rfl, id⟩
  refine ⟨hreach, h.grow hreach.precedes rfl .rfl
    ⟨⟨h.ranged.maps.addGlobal hn, h.ranged.fresh⟩, ?_, h.ranged.function, h.ranged.own⟩ ?_
    (fun _ _ _ => .inl)
    (fun _ _ _ hx => .inl ⟨hx, rfl⟩) (fun _ hs m hm => .inl ⟨_, hs, hm⟩) .inl⟩
  · exact fun hf => ⟨fun id hid => he.hasSymbol ((h.ranged.locals hf).1 id hid),
      fun id hid => he.hasSymbol ((h.ranged.locals hf).2 id hid)⟩
  · intro d hd i t ht
    rcases Program.getElem?_push_cases ht with ht | ⟨rfl, -⟩
    · exact .inl ht
    · exact .inr (hs (hreach.leads hd))

theorem Sound.addMember (h : c.Sound g) {s : StructContext} {name : String} {ty : Ty} {size : Nat}
    {array : Option ArraySpec} {loc : Location} (hcs : c.struct = some s)
    (hs : ∀ {d}, c.Leads d → Symbol.Sound d ⟨name, ty, size, array, loc⟩) :
    c.Reaches (c.addMember s name ty size array) ∧
      (c.addMember s name ty size array).Sound g := by
  have hreach : c.Reaches (c.addMember s name ty size array) := by
    refine ⟨.refl _, rfl, rfl, by rw [hcs]; rfl, fun hs hs' => ?_, id⟩
    cases hcs.symm.trans hs
    cases hs'
    exact List.prefix_append ..
  refine ⟨hreach, h.grow hreach.precedes rfl .rfl
    { h.ranged with fresh := by rintro _ ⟨⟩; exact (h.ranged.fresh hcs :) }
    (fun _ _ _ => .inl) (fun _ _ _ => .inl) (fun _ _ _ hx => .inl ⟨hx, rfl⟩) ?_ ?_⟩
  · intro d s' hd hs' m hm
    cases hs'
    rcases List.mem_append.1 hm with hm | hm
    · exact .inl ⟨s, hcs, hm⟩
    · rw [List.mem_singleton.1 hm]
      have hsound := hs (hreach.leads hd)
      refine .inr ⟨hsound.known, hsound.notVoid, fun ha => ?_⟩
      cases array with
      | none => cases ha
      | some spec => exact (hsound.array spec rfl).1
  · rintro s' ⟨⟩
    obtain ⟨d, hd⟩ := h.ranged.exists_leads
    exact .inr fun _ => Nat.add_pos_right _ (hs hd).stored

/-- The functions of a program that has one more variable of the function `id`. -/
theorem functions_modify {p : Program} {id i : FunctionId} {change : Function → Function} {f' : Function}
    (h : (p.modifyFunction id change).functions[i]? = some f') :
    (i ≠ id ∧ p.functions[i]? = some f') ∨ i = id ∧ ∃ f, p.functions[id]? = some f ∧ f' = change f := by
  rw [Program.modifyFunction, Array.getElem?_modify] at h
  by_cases hi : id = i
  · subst hi
    simp only [if_true, Option.map_eq_some_iff] at h
    obtain ⟨f, hf, rfl⟩ := h
    exact .inr ⟨rfl, f, hf, rfl⟩
  · rw [if_neg hi] at h
    exact .inl ⟨Ne.symm hi, h⟩

theorem extends_addLocal (c : Context) (f : FunctionContext) (s : Symbol) :
    c.program.Extends (c.addLocal f s false).program :=
  (c.program.extends_addSymbol s).trans
    (Program.extends_modifyFunction fun _ _ => ⟨rfl, rfl, rfl, List.prefix_append .., rfl⟩)

/-- The function being defined, with one more variable. -/
theorem function_addLocal {f : FunctionContext} (hf : f.id < c.program.functions.size) (s : Symbol) :
    (c.addLocal f s false).program.function f.id =
      { c.program.function f.id with
        locals := (c.program.function f.id).locals ++ [c.program.symbols.size] } := by
  have hfun := Array.getElem?_eq_getElem hf
  rw [Program.function_eq hfun]
  refine Program.function_eq ?_
  simp [Context.addLocal, Program.addSymbol, Program.modifyFunction, Array.getElem?_modify, hfun]

theorem Ranged.addLocal (h : c.Ranged) {f : FunctionContext} (hcf : c.function = some f) (s : Symbol) :
    (c.addLocal f s false).Ranged := by
  have he := c.extends_addLocal f s
  have hnew : (c.addLocal f s false).program.HasSymbol c.program.symbols.size := by
    simp [Program.HasSymbol, Context.addLocal, Program.addSymbol, Program.modifyFunction]
  obtain ⟨defined, result, named⟩ := h.function hcf
  refine ⟨⟨(h.maps.addSymbol s).modifyFunction f.id fun _ => rfl, h.fresh⟩,
    fun {i f'} hf' => ?_, fun {k} hk => ?_, fun {k} hk => ?_⟩
  · rcases functions_modify hf' with ⟨-, hf'⟩ | ⟨-, k, hk, rfl⟩
    · exact ⟨fun id hid => he.hasSymbol ((h.locals hf').1 id hid),
        fun id hid => he.hasSymbol ((h.locals hf').2 id hid)⟩
    · refine ⟨fun id hid => ?_, fun id hid => he.hasSymbol ((h.locals hk).2 id hid)⟩
      rcases List.mem_append.1 hid with hid | hid
      · exact he.hasSymbol ((h.locals hk).1 id hid)
      · exact List.mem_singleton.1 hid ▸ hnew
  · cases hk
    rw [function_addLocal defined]
    refine ⟨?_, result, fun scope hscope entry hentry => ?_⟩
    · simpa [Context.addLocal, Program.addSymbol, Program.modifyFunction] using defined
    · rcases mem_headD_or_tail hscope hentry with rfl | ⟨t, ht, hentry⟩
      · simp
      · exact List.mem_append_left _ (named t ht entry hentry)
  · cases hk
    rw [function_addLocal defined]
    exact h.own hcf

theorem Sound.addLocal (h : c.Sound g) {f : FunctionContext} {s : Symbol} (hcf : c.function = some f)
    (hs : ∀ {d}, c.Leads d → s.Sound d) :
    c.Reaches (c.addLocal f s false) ∧ (c.addLocal f s false).Sound g := by
  have hreach : c.Reaches (c.addLocal f s false) :=
    ⟨c.extends_addLocal f s, by rw [currentFunction?, currentFunction?, hcf]; rfl,
      by rw [result?, result?, hcf]; rfl, rfl, members_of_eq rfl, id⟩
  refine ⟨hreach, h.grow hreach.precedes rfl .rfl (h.ranged.addLocal hcf s) ?_ (fun _ _ _ => .inl) ?_
    (fun _ hs m hm => .inl ⟨_, hs, hm⟩) .inl⟩
  · intro d hd i t ht
    rcases Program.getElem?_push_cases ht with ht | ⟨rfl, -⟩
    · exact .inl ht
    · exact .inr (hs (hreach.leads hd))
  · intro d hd i f' hf'
    rcases functions_modify hf' with ⟨-, hf'⟩ | ⟨rfl, k, hk, rfl⟩
    · exact .inl ⟨hf', hreach.current⟩
    · -- The body of the function being defined is still to come.
      have hsound := (h.program (hreach.leads hd)).functions hk
      rw [hreach.current]
      have hown := h.ranged.own hcf
      rw [Program.function_eq (show c.program.functions[f.id]? = some k from hk)] at hown
      refine .inr ⟨hsound.result, hsound.known, fun p hp => ?_, hsound.body, fun hb => ?_⟩
      · exact ⟨List.mem_append_left _ (hsound.params p hp).1, (hsound.params p hp).2⟩
      · exact absurd (hown.symm.trans hb) (by simp)

end Context

namespace Lower
variable {g : Grammar} {H : Context → Prop} {c c' : Context}
open Context

theorem guard_eq_ok {α : Type} {p : Prop} [Decidable p] {cause : CompileCause} {loc : Location}
    {x : PUnit → Lower α} {r : α × Context} :
    (if p then fail cause loc >>= x else x ()) c = .ok r ↔ ¬ p ∧ x () c = .ok r := by
  rw [fail_bind]
  split
  · exact ⟨fun h => absurd h fail_ne_ok, fun h => absurd ‹p› h.1⟩
  · exact ⟨fun h => ⟨‹_›, h⟩, fun h => h.2⟩

theorem requireBuilding_eq_ok {loc : Location} {u : Unit} :
    requireBuilding loc c = .ok (u, c') ↔ c.frozen = false ∧ c = c' := by
  simp only [requireBuilding, bind_eq_ok, ask_eq_ok]
  constructor
  · rintro ⟨_, _, ⟨rfl, rfl⟩, h⟩
    cases hf : c.frozen <;> simp_all
  · rintro ⟨hf, rfl⟩
    exact ⟨_, _, ⟨rfl, rfl⟩, by simp [hf]⟩

/-- **What declaring a name can do.** -/
theorem declare_cases {name : String} {ty : Ty} {size : Nat} {array : Option ArraySpec}
    {isParam : Bool} {loc : Location} {u : Unit}
    (h : declare name ty size array isParam loc c = .ok (u, c')) :
    (∃ s, c.struct = some s ∧ c' = c.addMember s name ty size array) ∨
      (c.struct = none ∧ c.function = none ∧ c.program.global? name = none ∧
        c' = c.addGlobal ⟨name, ty, size, array, loc⟩) ∨
      c.struct = none ∧
        ∃ f, c.function = some f ∧ c' = c.addLocal f ⟨name, ty, size, array, loc⟩ isParam := by
  simp only [declare, bind_eq_ok, ask_eq_ok] at h
  obtain ⟨_, _, ⟨rfl, rfl⟩, h⟩ := h
  cases hs : c.struct with
  | some s =>
    simp only [hs, declareMember] at h
    obtain ⟨-, h⟩ := guard_eq_ok.1 h
    obtain ⟨-, h⟩ := guard_eq_ok.1 h
    exact .inl ⟨s, rfl, (change_eq_ok.1 h).symm⟩
  | none =>
    simp only [hs, bind_eq_ok, ask_eq_ok] at h
    obtain ⟨_, _, ⟨rfl, rfl⟩, h⟩ := h
    cases hf : c.function with
    | none =>
      simp only [hf, declareGlobal, bind_eq_ok, ask_eq_ok] at h
      obtain ⟨_, _, ⟨rfl, rfl⟩, h⟩ := h
      obtain ⟨fresh, h⟩ := guard_eq_ok.1 h
      simp only [bind_eq_ok, requireBuilding_eq_ok, change_eq_ok] at h
      obtain ⟨_, _, ⟨-, rfl⟩, rfl⟩ := h
      exact .inr (.inl ⟨rfl, rfl, Option.not_isSome_iff_eq_none.1 fresh, rfl⟩)
    | some f =>
      simp only [hf, declareLocal] at h
      obtain ⟨-, h⟩ := guard_eq_ok.1 h
      simp only [bind_eq_ok, requireBuilding_eq_ok, change_eq_ok] at h
      obtain ⟨_, _, ⟨-, rfl⟩, rfl⟩ := h
      exact .inr (.inr ⟨rfl, f, rfl, rfl⟩)

/-- A name can be declared if what it stands for is well typed. -/
theorem follows_declare {name : String} {ty : Ty} {size : Nat} {array : Option ArraySpec}
    {loc : Location}
    (hH : ∀ {c}, H c → ∀ {d}, c.Leads d → Symbol.Sound d ⟨name, ty, size, array, loc⟩) :
    Follows g Reaches H (declare name ty size array false loc) fun c _ => c.Populated where
  follows {c u c'} hc hH' hx := by
    have sound : ∀ {d}, c.Leads d → Symbol.Sound d ⟨name, ty, size, array, loc⟩ := hH hH'.here
    rcases declare_cases hx with ⟨s, hs, rfl⟩ | ⟨hnone, -, fresh, rfl⟩ | ⟨hnone, f, hf, rfl⟩
    · obtain ⟨h1, h2⟩ := hc.addMember hs sound
      refine ⟨h1, h2, fun k hk => Populated.reaches ?_ hk⟩
      rintro _ ⟨⟩
      simp
    · obtain ⟨h1, h2⟩ := hc.addGlobal fresh sound
      exact ⟨h1, h2, fun k hk => Populated.reaches (fun s hs => by cases hnone.symm.trans hs) hk⟩
    · obtain ⟨h1, h2⟩ := hc.addLocal hf sound
      exact ⟨h1, h2, fun k hk => Populated.reaches (fun s hs => by cases hnone.symm.trans hs) hk⟩

end Lower

end MiniC
