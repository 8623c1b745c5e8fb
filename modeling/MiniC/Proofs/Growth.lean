/-
  Growing programs.

  Lowering only ever adds to the tables of a program and to the maps beside them.  `p.Extends q` says
  that `q` has all that `p` has under the same numbers and that whatever is found in `p` by its name is
  found in `q` at the same place; a new entry does so if its name is new.  `p.Indexed` says that each
  map is the inverse of its table.  A completion of a context is a program that lowering could still
  arrive at.
-/
import MiniC.Lowering
import MiniC.Proofs.NameMaps

namespace MiniC

/-- The same function further on: only its variables and its body can have been added to. -/
structure Function.Continues (f f' : Function) : Prop where
  name : f'.name = f.name
  result : f'.result = f.result
  params : f'.params = f.params
  locals : f.locals <+: f'.locals
  builtin : f'.isBuiltin = f.isBuiltin

theorem Function.Continues.refl (f : Function) : f.Continues f :=
  ⟨rfl, rfl, rfl, List.prefix_refl _, rfl⟩

theorem Function.Continues.trans {f f' f'' : Function} (h : f.Continues f') (h' : f'.Continues f'') :
    f.Continues f'' :=
  ⟨h'.name.trans h.name, h'.result.trans h.result, h'.params.trans h.params,
    h.locals.trans h'.locals, h'.builtin.trans h.builtin⟩

/-- `q` has all that `p` has, under the same numbers, and what is found in `p` is found in `q`. -/
structure Program.Extends (p q : Program) : Prop where
  symbols : ∀ {i : Nat} {s}, p.symbols[i]? = some s → q.symbols[i]? = some s
  globals : p.globals <+: q.globals
  structs : ∀ {i : Nat} {l}, p.structs[i]? = some l → q.structs[i]? = some l
  functions : ∀ {i : Nat} {f}, p.functions[i]? = some f →
    ∃ f', q.functions[i]? = some f' ∧ f.Continues f'
  strings : ∀ {i : Nat} {s}, p.strings[i]? = some s → q.strings[i]? = some s
  global? : ∀ {name id}, p.global? name = some id → q.global? name = some id
  struct? : ∀ {name id}, p.struct? name = some id → q.struct? name = some id
  layout? : ∀ {name l}, p.layout? name = some l → q.layout? name = some l
  function? : ∀ {name id}, p.function? name = some id → q.function? name = some id
  string? : ∀ {text id}, p.string? text = some id → q.string? text = some id

namespace Program

/-- The number of a symbol is one of the table. -/
def HasSymbol (p : Program) (id : SymbolId) : Prop := id < p.symbols.size

theorem symbol_eq {p : Program} {id : SymbolId} {s : Symbol} (h : p.symbols[id]? = some s) :
    p.symbol id = s := by
  simp [symbol, Array.getD_eq_getD_getElem?, h]

theorem function_eq {p : Program} {id : FunctionId} {f : Function} (h : p.functions[id]? = some f) :
    p.function id = f := by
  simp [function, Array.getD_eq_getD_getElem?, h]

theorem symbol_cases (p : Program) (id : SymbolId) :
    p.symbols[id]? = some (p.symbol id) ∨ p.symbol id = default := by
  cases h : p.symbols[id]? with
  | some s => exact .inl (by rw [symbol_eq h])
  | none => exact .inr (by simp [symbol, Array.getD_eq_getD_getElem?, h])

theorem function_cases (p : Program) (id : FunctionId) :
    p.functions[id]? = some (p.function id) ∨ p.function id = default := by
  cases h : p.functions[id]? with
  | some f => exact .inl (by rw [function_eq h])
  | none => exact .inr (by simp [function, Array.getD_eq_getD_getElem?, h])

/-- A function with code is in the table. -/
theorem function_of_compiled {p : Program} {id : FunctionId} {body : Stmt}
    (h : (p.function id).body = .compiled body) : p.functions[id]? = some (p.function id) := by
  refine (p.function_cases id).resolve_right fun hd => ?_
  rw [hd] at h
  cases h

theorem layout_eq {p : Program} {id : StructId} {l : Layout} (h : p.structs[id]? = some l) :
    p.layout id = l := by
  simp [layout, Array.getD_eq_getD_getElem?, h]

theorem layout_cases (p : Program) (id : StructId) :
    p.structs[id]? = some (p.layout id) ∨ p.layout id = default := by
  cases h : p.structs[id]? with
  | some l => exact .inl (by rw [layout_eq h])
  | none => exact .inr (by simp [layout, Array.getD_eq_getD_getElem?, h])

/-- Each map is the inverse of its table, and the globals are variables of the table. -/
structure Indexed (p : Program) : Prop where
  globals : p.globalNames.Indexes (p.globals.map fun id => ((p.symbol id).name, id))
  structs : p.structNames.Indexes (numbered Layout.name p.structs)
  functions : p.functionNames.Indexes (numbered Function.name p.functions)
  strings : p.stringIds.Indexes (numbered id p.strings)
  known : ∀ id ∈ p.globals, p.HasSymbol id

namespace Indexed
variable {p : Program} {name : String}

theorem global (h : p.Indexed) {id : SymbolId} (hid : p.global? name = some id) : id ∈ p.globals := by
  obtain ⟨_, hmem, ⟨⟩⟩ := List.mem_map.1 ((h.globals.found _ _).1 hid)
  exact hmem

theorem struct?_eq_some_iff (h : p.Indexed) {id : StructId} :
    p.struct? name = some id ↔ ∃ l, p.structs[id]? = some l ∧ l.name = name :=
  (h.structs.found _ _).trans mem_numbered

theorem function?_eq_some_iff (h : p.Indexed) {id : FunctionId} :
    p.function? name = some id ↔ ∃ f, p.functions[id]? = some f ∧ f.name = name :=
  (h.functions.found _ _).trans mem_numbered

theorem string?_eq_some_iff (h : p.Indexed) {text : String} {id : StringId} :
    p.string? text = some id ↔ p.strings[id]? = some text :=
  (h.strings.found _ _).trans (mem_numbered.trans ⟨fun ⟨_, hs, he⟩ => he ▸ hs, fun hs => ⟨_, hs, rfl⟩⟩)

theorem layout (h : p.Indexed) {id : StructId} (hs : p.struct? name = some id) :
    p.structs[id]? = some (p.layout id) ∧ (p.layout id).name = name := by
  obtain ⟨l, hl, hn⟩ := h.struct?_eq_some_iff.1 hs
  rw [layout_eq hl]
  exact ⟨hl, hn⟩

theorem function (h : p.Indexed) {id : FunctionId} (hf : p.function? name = some id) :
    p.functions[id]? = some (p.function id) ∧ (p.function id).name = name := by
  obtain ⟨f, hf, hn⟩ := h.function?_eq_some_iff.1 hf
  rw [function_eq hf]
  exact ⟨hf, hn⟩

end Indexed

namespace Extends
variable {p q r : Program}

theorem refl (p : Program) : p.Extends p :=
  ⟨id, List.prefix_refl _, id, fun h => ⟨_, h, .refl _⟩, id, id, id, id, id, id⟩

theorem trans (h : p.Extends q) (h' : q.Extends r) : p.Extends r where
  symbols hs := h'.symbols (h.symbols hs)
  globals := h.globals.trans h'.globals
  structs hs := h'.structs (h.structs hs)
  functions hf := by
    obtain ⟨f', hf', hc⟩ := h.functions hf
    obtain ⟨f'', hf'', hc'⟩ := h'.functions hf'
    exact ⟨f'', hf'', hc.trans hc'⟩
  strings hs := h'.strings (h.strings hs)
  global? hg := h'.global? (h.global? hg)
  struct? hs := h'.struct? (h.struct? hs)
  layout? hl := h'.layout? (h.layout? hl)
  function? hf := h'.function? (h.function? hf)
  string? hs := h'.string? (h.string? hs)

theorem hasSymbol (h : p.Extends q) {id : SymbolId} (hid : p.HasSymbol id) : q.HasSymbol id := by
  have := h.symbols (Array.getElem?_eq_getElem hid)
  exact (Array.getElem?_eq_some_iff.1 this).1

theorem symbol (h : p.Extends q) {id : SymbolId} (hid : p.HasSymbol id) :
    q.symbol id = p.symbol id := by
  have hp := Array.getElem?_eq_getElem hid
  rw [symbol_eq (h.symbols hp), symbol_eq hp]

theorem function (h : p.Extends q) {id : FunctionId} (hid : id < p.functions.size) :
    (p.function id).Continues (q.function id) := by
  have hp := Array.getElem?_eq_getElem hid
  obtain ⟨f', hf', hc⟩ := h.functions hp
  rwa [function_eq hf', function_eq hp]

theorem struct?_isSome (h : p.Extends q) {name : String} (hs : (p.struct? name).isSome) :
    (q.struct? name).isSome := by
  obtain ⟨id, hid⟩ := Option.isSome_iff_exists.1 hs
  rw [h.struct? hid]
  rfl

theorem layout (h : p.Extends q) {name : String} {id : StructId} (hs : p.struct? name = some id) :
    q.layout id = p.layout id := by
  have found : q.layout? name = some (p.layout id) := h.layout? (by rw [Program.layout?, hs]; rfl)
  rw [Program.layout?, h.struct? hs] at found
  exact Option.some.inj found

theorem sizeOf? (h : p.Extends q) {t : Ty} {n : Nat} (hs : p.sizeOf? t = some n) :
    q.sizeOf? t = some n := by
  unfold Program.sizeOf? at hs ⊢
  split
  · rename_i hf
    simpa [hf] using hs
  · rename_i hf
    simp only [hf] at hs
    split
    · rename_i name hb
      simp only [hb, Option.map_eq_some_iff] at hs ⊢
      obtain ⟨l, hl, rfl⟩ := hs
      exact ⟨l, h.layout? hl, rfl⟩
    · rename_i hb
      split at hs
      · rename_i hb'
        exact absurd hb' (hb _)
      · exact hs

end Extends

/-! ## What adds to a program -/

theorem getElem?_push_of_some {α : Type} {xs : Array α} {x y : α} {i : Nat} (h : xs[i]? = some x) :
    (xs.push y)[i]? = some x := by
  have hi := (Array.getElem?_eq_some_iff.1 h).1
  rw [Array.getElem?_push, if_neg (Nat.ne_of_lt hi), h]

/-- An array with one more entry has the entries that it had and the new one. -/
theorem getElem?_push_cases {α : Type} {xs : Array α} {x y : α} {i : Nat}
    (h : (xs.push y)[i]? = some x) : xs[i]? = some x ∨ x = y ∧ i = xs.size := by
  rw [Array.getElem?_push] at h
  split at h
  · exact .inr ⟨(Option.some.inj h).symm, ‹_›⟩
  · exact .inl h

theorem extends_addSymbol (p : Program) (s : Symbol) : p.Extends (p.addSymbol s).2 :=
  { Extends.refl p with symbols := fun h => getElem?_push_of_some h }

theorem extends_addGlobal {p : Program} {s : Symbol} (hn : p.global? s.name = none) :
    p.Extends (p.addGlobal s) :=
  { Extends.refl p with
    symbols := fun h => getElem?_push_of_some h
    globals := List.prefix_append ..
    global? := NameMap.find?_insert_of_none hn }

theorem extends_addStruct {p : Program} {l : Layout} (hp : p.Indexed) (hn : p.struct? l.name = none) :
    p.Extends (p.addStruct l).2 := by
  have names : ∀ {name id}, p.struct? name = some id → (p.addStruct l).2.struct? name = some id :=
    NameMap.find?_insert_of_none hn
  refine { Extends.refl p with
    structs := fun h => getElem?_push_of_some h
    struct? := names
    layout? := fun {name l'} h => ?_ }
  obtain ⟨id, hid, rfl⟩ := Option.map_eq_some_iff.1 h
  have entry : (p.addStruct l).2.structs[id]? = some (p.layout id) :=
    getElem?_push_of_some (hp.layout hid).1
  rw [layout?, names hid, Option.map_some, layout_eq entry]

/-- A structure that has been added is found. -/
theorem struct?_addStruct (p : Program) (l : Layout) :
    (p.addStruct l).2.struct? l.name = some p.structs.size := by
  rw [addStruct, struct?, NameMap.find?_insert, if_pos rfl]

theorem extends_addFunction {p : Program} {f : Function} (hn : p.function? f.name = none) :
    p.Extends (p.addFunction f).2 :=
  { Extends.refl p with
    functions := fun h => ⟨_, getElem?_push_of_some h, .refl _⟩
    function? := NameMap.find?_insert_of_none hn }

theorem extends_modifyFunction {p : Program} {id : FunctionId} {change : Function → Function}
    (h : ∀ f, p.functions[id]? = some f → f.Continues (change f)) :
    p.Extends (p.modifyFunction id change) := by
  refine { Extends.refl p with functions := fun {i f} hf => ?_ }
  rw [modifyFunction, Array.getElem?_modify]
  by_cases hi : id = i
  · subst hi
    exact ⟨change f, by simp [hf], h f hf⟩
  · exact ⟨f, by simp [hi, hf], .refl f⟩

theorem extends_internString (p : Program) (text : String) : p.Extends (p.internString text).2 := by
  unfold internString
  split
  · exact .refl p
  · exact { Extends.refl p with
      strings := fun h => getElem?_push_of_some h
      string? := NameMap.find?_insert_of_none ‹_› }

/-- Where a string literal is added, nothing else is. -/
theorem internString_strings (p : Program) (text : String) :
    ∃ strings stringIds, (p.internString text).2 = { p with strings, stringIds } := by
  unfold internString
  split
  · exact ⟨p.strings, p.stringIds, rfl⟩
  · exact ⟨_, _, rfl⟩

/-- The text of a string literal is found under the number that it has been given. -/
theorem string?_internString (p : Program) (text : String) :
    (p.internString text).2.string? text = some (p.internString text).1 := by
  unfold internString
  split
  · assumption
  · rw [string?, NameMap.find?_insert, if_pos rfl]

/-! ## What keeps the maps -/

namespace Indexed
variable {p : Program}

theorem empty : Program.empty.Indexed :=
  ⟨.nil, .nil, .nil, .nil, nofun⟩

/-- More variables do not change the names of the globals. -/
theorem withSymbols (h : p.Indexed) {symbols : Array Symbol}
    (hs : ∀ {i : Nat} {s}, p.symbols[i]? = some s → symbols[i]? = some s) :
    Indexed { p with symbols } := by
  have grows : p.Extends { p with symbols } := { Extends.refl p with symbols := hs }
  refine ⟨?_, h.structs, h.functions, h.strings, fun id hid => grows.hasSymbol (h.known id hid)⟩
  have names : (p.globals.map fun id => ((Program.symbol { p with symbols } id).name, id)) =
      p.globals.map fun id => ((p.symbol id).name, id) :=
    List.map_congr_left fun id hid => by rw [grows.symbol (h.known id hid)]
  exact names ▸ h.globals

theorem addSymbol (h : p.Indexed) (s : Symbol) : (p.addSymbol s).2.Indexed :=
  h.withSymbols getElem?_push_of_some

/-- A global with a name that no other has. -/
theorem addGlobal (h : p.Indexed) {s : Symbol} (hn : p.global? s.name = none) :
    (p.addGlobal s).Indexed := by
  have more := h.addSymbol s
  have new : (p.addSymbol s).2.symbols[p.symbols.size]? = some s := Array.getElem?_push_size
  refine ⟨?_, h.structs, h.functions, h.strings, fun id hid => ?_⟩
  · have entries : (p.globals ++ [p.symbols.size]).map
        (fun id => (((p.addSymbol s).2.symbol id).name, id)) =
        p.globals.map (fun id => (((p.addSymbol s).2.symbol id).name, id)) ++
          [(s.name, p.symbols.size)] := by
      rw [List.map_append, List.map_singleton, symbol_eq new]
    exact entries ▸ more.globals.insert hn p.symbols.size
  · rcases List.mem_append.1 hid with hid | hid
    · exact more.known id hid
    · exact List.mem_singleton.1 hid ▸ (Array.getElem?_eq_some_iff.1 new).1

/-- A structure with a name that no other has. -/
theorem addStruct (h : p.Indexed) {l : Layout} (hn : p.struct? l.name = none) :
    (p.addStruct l).2.Indexed :=
  { h with structs := numbered_push p.structs l ▸ h.structs.insert hn _ }

/-- A function with a name that no other has. -/
theorem addFunction (h : p.Indexed) {f : Function} (hn : p.function? f.name = none) :
    (p.addFunction f).2.Indexed :=
  { h with functions := numbered_push p.functions f ▸ h.functions.insert hn _ }

/-- A change to a function that keeps its name. -/
theorem modifyFunction (h : p.Indexed) (k : FunctionId) {change : Function → Function}
    (hn : ∀ f, (change f).name = f.name) : (p.modifyFunction k change).Indexed :=
  { h with functions := (numbered_modify hn p.functions k).symm ▸ h.functions }

theorem internString (h : p.Indexed) (text : String) : (p.internString text).2.Indexed := by
  unfold Program.internString
  split
  · exact h
  · exact { h with strings := numbered_push p.strings text ▸ h.strings.insert ‹_› _ }

end Indexed

end Program

/-! ## Completions -/

namespace Context

/-- The maps are right, and the structure being defined is not in the tables. -/
structure Mapped (c : Context) : Prop where
  maps : c.program.Indexed
  fresh : ∀ {s}, c.struct = some s → c.program.struct? s.name = none

/-- `q` is a program that lowering could arrive at from `c`. -/
structure Completes (c : Context) (q : Program) : Prop where
  extends_ : c.program.Extends q
  struct : ∀ s, c.struct = some s → (q.struct? s.name).isSome

/-- All that lowering could arrive at from `c'` it could arrive at from `c`. -/
def Precedes (c c' : Context) : Prop := ∀ q, c'.Completes q → c.Completes q

/-- The symbol of a name among the variables of the function being defined. -/
def local? (c : Context) (name : String) : Option SymbolId :=
  c.function.bind fun f => f.scopes.findSome? fun s => s.find? name

theorem find?_eq (c : Context) (name : String) :
    c.find? name = (c.local? name).or (c.program.global? name) := by
  rw [find?, local?]
  cases c.function.bind fun f => f.scopes.findSome? fun s => s.find? name <;> rfl

/-- A frozen context that sees a completion of `c` with the variables that `c` sees. -/
structure Agrees (c d : Context) : Prop where
  frozen : d.frozen = true
  struct : d.struct = none
  completes : c.Completes d.program
  local_ : ∀ name, d.local? name = c.local? name
  visible : d.visibleNames = c.visibleNames

theorem Agrees.of_precedes {c c' d : Context} (h : c'.Agrees d) (hp : c.Precedes c')
    (hf : c'.function = c.function) : c.Agrees d where
  frozen := h.frozen
  struct := h.struct
  completes := hp _ h.completes
  local_ name := by rw [h.local_, local?, local?, hf]
  visible := by rw [h.visible, visibleNames, visibleNames, hf]

/-! ### One flat scope -/

theorem lookup_filter_ne {s : Scope} {name other : String} (h : name ≠ other) :
    (s.filter fun entry => entry.1 ≠ other).lookup name = s.lookup name := by
  induction s with
  | nil => rfl
  | cons entry rest ih =>
    obtain ⟨n, id⟩ := entry
    by_cases hn : n = other
    · subst hn
      have hne : (name == n) = false := by simpa using h
      rw [List.filter_cons_of_neg (by simp), ih, List.lookup_cons, hne]
    · rw [List.filter_cons_of_pos (by simpa using hn), List.lookup_cons, List.lookup_cons, ih]

theorem lookup_distinct (name : String) (s : Scope) : (distinct s).lookup name = s.lookup name := by
  induction s with
  | nil => rfl
  | cons entry rest ih =>
    obtain ⟨n, id⟩ := entry
    rw [distinct, List.lookup_cons, List.lookup_cons]
    cases hn : name == n with
    | true => rfl
    | false =>
      simp only
      rw [lookup_filter_ne (by simpa using hn), ih]

theorem lookup_append (name : String) (s t : Scope) :
    (s ++ t).lookup name = (s.lookup name).or (t.lookup name) := by
  induction s with
  | nil => rfl
  | cons entry rest ih =>
    obtain ⟨n, id⟩ := entry
    rw [List.cons_append, List.lookup_cons, List.lookup_cons]
    cases name == n <;> simp [ih]

theorem lookup_flatten (name : String) (ss : List Scope) :
    ss.flatten.lookup name = ss.findSome? fun s => s.find? name := by
  induction ss with
  | nil => rfl
  | cons s ss ih =>
    rw [List.flatten_cons, lookup_append, ih, List.findSome?_cons, Scope.find?]
    cases s.lookup name <;> rfl

theorem distinct_filter (t : String) (s : Scope) :
    distinct (s.filter fun entry => entry.1 ≠ t) = (distinct s).filter fun entry => entry.1 ≠ t := by
  induction s with
  | nil => rfl
  | cons entry rest ih =>
    obtain ⟨n, id⟩ := entry
    by_cases hn : n = t
    · subst hn
      rw [List.filter_cons_of_neg (by simp), ih, distinct,
        List.filter_cons_of_neg (by simp), List.filter_filter]
      simp only [Bool.and_self]
    · rw [List.filter_cons_of_pos (by simpa using hn), distinct, ih, distinct,
        List.filter_cons_of_pos (by simpa using hn), List.filter_filter, List.filter_filter]
      simp only [Bool.and_comm]

theorem distinct_distinct (s : Scope) : distinct (distinct s) = distinct s := by
  induction s with
  | nil => rfl
  | cons entry rest ih =>
    rw [distinct, distinct, distinct_filter, ih, List.filter_filter]
    simp only [Bool.and_self]

/-- **A flat scope resolves names as the nested scopes do**, so a finished program in which the
visible names are the only scope agrees with the context that they were visible in. -/
theorem agrees_frozenIn {c : Context} {q : Program} (h : c.Completes q) (f : FunctionId) :
    c.Agrees (frozenIn q f c.visibleNames) where
  frozen := rfl
  struct := rfl
  completes := h
  local_ name := by
    have flat : c.visibleNames.lookup name = c.local? name := by
      rw [visibleNames, local?]
      cases c.function with
      | none => rfl
      | some f => rw [lookup_distinct, lookup_flatten, Option.bind_some]
    rw [← flat]
    simp only [local?, frozenIn, Option.bind_some, List.findSome?_cons, List.findSome?_nil, Scope.find?]
    cases c.visibleNames.lookup name <;> rfl
  visible := by
    simp only [visibleNames, frozenIn, List.flatten_cons, List.flatten_nil, List.append_nil]
    cases c.function with
    | none => rfl
    | some f => exact distinct_distinct _

end Context

end MiniC
