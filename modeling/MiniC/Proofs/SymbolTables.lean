/-
  Symbol tables.

  A context serves requests in any order: definitions may be begun in one another or never
  finished, scopes may be closed that nobody opened, and requests may fail.  Whatever is asked, the
  tables stay consistent, and what is in them stays where it is.

  * `Program.Consistent`: each map is the inverse of its table (`Program.Indexed`), and each variable
    has one owner.
  * `Context.Consistent`: the same with the definitions under way.
  * `Context.serve_served`: what serving one request can do (`Context.Served`).
  * `Context.Served.consistent` and `Context.Served.grows`: each of these changes keeps the tables
    consistent and only adds to them.
  * `Context.tables_consistent`: so does any sequence of requests.
-/
import MiniC.Proofs.LexicalScoping

namespace MiniC

/-! ## One entry of a list -/

section
variable {α β : Type} {change : α → α}

theorem map_modify_of_eq {f : α → β} (h : ∀ x, f (change x) = f x) (xs : List α) (i : Nat) :
    (xs.modify i change).map f = xs.map f := by
  induction xs generalizing i with
  | nil => simp
  | cons x xs ih => cases i <;> simp [h, ih]

/-- Something new at the end of one part is new in the whole. -/
theorem flatMap_modify_perm (change : α → α) {f : α → List β} {b : β}
    (h : ∀ x, f (change x) = f x ++ [b]) {xs : List α} {i : Nat} (hi : i < xs.length) :
    ((xs.modify i change).flatMap f).Perm (xs.flatMap f ++ [b]) := by
  induction xs generalizing i with
  | nil => cases hi
  | cons x xs ih =>
    cases i with
    | zero =>
      simp only [List.modify_zero_cons, List.flatMap_cons, h, List.append_assoc]
      exact List.perm_append_comm.append_left _
    | succ i =>
      simp only [List.modify_succ_cons, List.flatMap_cons, List.append_assoc]
      exact (ih (Nat.lt_of_succ_lt_succ hi)).append_left _

end

/-! ## What holds of the tables -/

/-- Each map is the inverse of its table, each variable is a global or a variable of one function, and
the parameters of a function are among its variables, in their order. -/
structure Program.Consistent (p : Program) : Prop extends p.Indexed where
  owned : (p.globals ++ p.functions.toList.flatMap Function.locals).Perm
    (List.range p.symbols.size)
  params : ∀ f ∈ p.functions, f.params.Sublist f.locals

/-- The tables are consistent, the scopes in sight hold variables of the function being defined, and
the structure being defined has a name that is not in the tables. -/
structure Context.Consistent (c : Context) : Prop where
  program : c.program.Consistent
  scopes : ∀ k, c.function = some k → ∃ f, c.program.functions[k.id]? = some f ∧
    ∀ scope ∈ k.scopes, ∀ entry ∈ scope, entry.2 ∈ f.locals
  fresh : ∀ s, c.struct = some s → c.program.struct? s.name = none

/-- The same function later on: it can have more variables, and a body. -/
structure Function.Grows (f g : Function) : Prop where
  name : g.name = f.name
  result : g.result = f.result
  definedAt : g.definedAt = f.definedAt
  params : f.params <+: g.params
  locals : f.locals <+: g.locals

/-- What is in the tables of `p` stands at the same place in those of `q`. -/
structure Program.Grows (p q : Program) : Prop where
  symbols : p.symbols.toList <+: q.symbols.toList
  globals : p.globals <+: q.globals
  structs : p.structs.toList <+: q.structs.toList
  functions : ∀ (i : Nat) f, p.functions[i]? = some f →
    ∃ g, q.functions[i]? = some g ∧ f.Grows g
  strings : p.strings.toList <+: q.strings.toList

theorem Function.Grows.refl (f : Function) : f.Grows f :=
  ⟨rfl, rfl, rfl, List.prefix_rfl, List.prefix_rfl⟩

theorem Function.Grows.trans {f g h : Function} (hg : f.Grows g) (hh : g.Grows h) : f.Grows h :=
  ⟨hh.name.trans hg.name, hh.result.trans hg.result, hh.definedAt.trans hg.definedAt,
    hg.params.trans hh.params, hg.locals.trans hh.locals⟩

namespace Program
variable {p q r : Program}

theorem Grows.refl (p : Program) : p.Grows p :=
  ⟨List.prefix_rfl, List.prefix_rfl, List.prefix_rfl, fun _ f hf => ⟨f, hf, .refl f⟩,
    List.prefix_rfl⟩

theorem Grows.trans (hq : p.Grows q) (hr : q.Grows r) : p.Grows r where
  symbols := hq.symbols.trans hr.symbols
  globals := hq.globals.trans hr.globals
  structs := hq.structs.trans hr.structs
  functions i f hf := by
    obtain ⟨g, hg, fg⟩ := hq.functions i f hf
    obtain ⟨h, hh, gh⟩ := hr.functions i g hg
    exact ⟨h, hh, fg.trans gh⟩
  strings := hq.strings.trans hr.strings

/-- A change to one function that adds to it. -/
theorem grows_modifyFunction {k : FunctionId} {change : Function → Function}
    (h : ∀ f : Function, f.Grows (change f)) : p.Grows (p.modifyFunction k change) := by
  refine ⟨List.prefix_rfl, List.prefix_rfl, List.prefix_rfl, fun i f hf => ?_, List.prefix_rfl⟩
  rw [modifyFunction, Array.getElem?_modify, hf]
  split
  · exact ⟨change f, rfl, h f⟩
  · exact ⟨f, rfl, .refl f⟩

theorem grows_addSymbol (p : Program) (s : Symbol) : p.Grows (p.addSymbol s).2 :=
  { Grows.refl p with symbols := ⟨[s], (Array.toList_push ..).symm⟩ }

namespace Consistent

theorem empty : Program.empty.Consistent :=
  { Indexed.empty with
    owned := .refl _
    params := by simp [Program.empty] }

/-- A global with a name that no other has. -/
theorem addGlobal (h : p.Consistent) {s : Symbol} (hn : p.global? s.name = none) :
    (p.addGlobal s).Consistent where
  toIndexed := h.toIndexed.addGlobal hn
  owned := by
    have last : List.range (p.symbols.size + 1) = List.range p.symbols.size ++ [p.symbols.size] :=
      List.range_succ
    change ((p.globals ++ [p.symbols.size]) ++ p.functions.toList.flatMap Function.locals).Perm
      (List.range (p.symbols.push s).size)
    rw [Array.size_push, last, List.append_assoc]
    exact (List.perm_append_comm.append_left _).trans
      (List.append_assoc .. ▸ h.owned.append_right _)
  params := h.params

/-- A structure with a name that no other has. -/
theorem addStruct (h : p.Consistent) {l : Layout} (hn : p.struct? l.name = none) :
    (p.addStruct l).2.Consistent :=
  { h.toIndexed.addStruct hn with owned := h.owned, params := h.params }

theorem internString (h : p.Consistent) (text : String) : (p.internString text).2.Consistent := by
  have maps := h.toIndexed.internString text
  obtain ⟨strings, stringIds, added⟩ := p.internString_strings text
  rw [added] at maps ⊢
  exact { maps with owned := h.owned, params := h.params }

/-- A function with a name that no other has, and without variables so far. -/
theorem addFunction (h : p.Consistent) {f : Function} (hn : p.function? f.name = none)
    (params : f.params = []) (locals : f.locals = []) : (p.addFunction f).2.Consistent :=
  { h.toIndexed.addFunction hn with
    owned := by
      have same : (p.functions.push f).toList.flatMap Function.locals =
          p.functions.toList.flatMap Function.locals := by simp [locals]
      exact same ▸ h.owned
    params := fun g hg => by
      rcases Array.mem_push.1 hg with hg | rfl
      · exact h.params g hg
      · rw [params, locals] }

theorem mem_modifyFunction {k : FunctionId} {change : Function → Function} {f : Function}
    (hf : f ∈ (p.modifyFunction k change).functions) :
    f ∈ p.functions ∨ ∃ g ∈ p.functions, f = change g := by
  obtain ⟨i, hi⟩ := Array.mem_iff_getElem?.1 hf
  rcases Context.functions_modify hi with ⟨-, hi⟩ | ⟨-, g, hg, rfl⟩
  · exact .inl (Array.mem_of_getElem? hi)
  · exact .inr ⟨g, Array.mem_of_getElem? hg, rfl⟩

/-- The body of a function. -/
theorem finishFunction (h : p.Consistent) (k : FunctionId) (body : Body) :
    (p.modifyFunction k fun f => { f with body := body }).Consistent where
  toIndexed := h.toIndexed.modifyFunction k fun _ => rfl
  owned := by
    have same : ∀ f : Function, { f with body := body }.locals = f.locals := fun _ => rfl
    rw [modifyFunction, Array.toList_modify, List.flatMap_def, map_modify_of_eq same]
    exact h.owned
  params f hf := by
    rcases mem_modifyFunction hf with hf | ⟨g, hg, rfl⟩
    · exact h.params f hf
    · exact h.params g hg

/-- A variable of a function. -/
theorem addLocal (h : p.Consistent) {k : FunctionId} (hk : k < p.functions.size) (s : Symbol)
    (isParam : Bool) :
    ((p.addSymbol s).2.modifyFunction k fun f =>
      { f with
        locals := f.locals ++ [p.symbols.size]
        params := if isParam then f.params ++ [p.symbols.size] else f.params }).Consistent where
  toIndexed := (h.toIndexed.addSymbol s).modifyFunction k fun _ => rfl
  owned := by
    have more : ((p.functions.toList.modify k _).flatMap Function.locals).Perm
        (p.functions.toList.flatMap Function.locals ++ [p.symbols.size]) :=
      flatMap_modify_perm (fun f : Function =>
        { f with
          locals := f.locals ++ [p.symbols.size]
          params := if isParam then f.params ++ [p.symbols.size] else f.params })
        (fun _ => rfl) hk
    rw [← Array.toList_modify] at more
    change (p.globals ++ _).Perm (List.range (p.symbols.push s).size)
    rw [Array.size_push, List.range_succ]
    exact (more.append_left _).trans (List.append_assoc .. ▸ h.owned.append_right _)
  params f hf := by
    rcases mem_modifyFunction hf with hf | ⟨g, hg, rfl⟩
    · exact h.params f hf
    · have before := h.params g hg
      cases isParam with
      | true => exact before.append (.refl _)
      | false => exact before.trans (List.sublist_append_left ..)

end Consistent

end Program

/-! ## Requests -/

namespace Context

/-- What a context can be asked to do. -/
inductive Request where
  | beginStruct (name : String) (loc : Location)
  | finishStruct (loc : Location)
  | beginFunction (name : String) (result : Ty) (loc : Location)
  | finishFunction (body : Stmt)
  | declare (name : String) (ty : Ty) (size : Nat) (array : Option ArraySpec) (isParam : Bool)
      (loc : Location)
  | enterScope
  | exitScope
  | enterLoop
  | exitLoop
  | internString (text : String) (loc : Location)
  | lookup (name : String) (loc : Location)
  | resolveType (base : Base) (stars : Nat) (loc : Location)

/-- The operation that serves a request. -/
def Request.run : Request → Lower Unit
  | beginStruct name loc => Lower.beginStruct name loc
  | finishStruct loc => discard (Lower.finishStruct loc)
  | beginFunction name result loc => discard (Lower.beginFunction name result loc)
  | finishFunction body => Lower.finishFunction body
  | declare name ty size array isParam loc => Lower.declare name ty size array isParam loc
  | enterScope => Lower.enterScope
  | exitScope => Lower.exitScope
  | enterLoop => Lower.enterLoop
  | exitLoop => Lower.exitLoop
  | internString text loc => discard (Lower.internString text loc)
  | lookup name loc => discard (Lower.lookup name loc)
  | resolveType base stars loc => discard (Lower.resolveType base stars loc)

/-- The context behind a request; one that fails leaves it as it is. -/
def serve (c : Context) (r : Request) : Context :=
  match r.run c with
  | .ok (_, c') => c'
  | .error _ => c

/-- The context behind requests, one after the other. -/
def serveAll (c : Context) (rs : List Request) : Context := rs.foldl serve c

/-- What serving a request can do. -/
inductive Served : Context → Context → Prop
  | same (c : Context) : Served c c
  | beginStruct {c : Context} {name : String} : c.program.struct? name = none →
    Served c { c with struct := some ⟨name, [], 0⟩ }
  | member {c : Context} {s : StructContext} (name : String) (ty : Ty) (size : Nat)
    (array : Option ArraySpec) : c.struct = some s → Served c (c.addMember s name ty size array)
  | finishStruct {c : Context} {s : StructContext} : c.struct = some s →
    Served c
      { c with
        program := (c.program.addStruct ⟨s.name, s.members, s.nextOffset⟩).2
        struct := none }
  | beginFunction {c : Context} {name : String} (result : Ty) (loc : Location) :
    c.program.function? name = none →
    Served c
      { c with
        program := (c.program.addFunction ⟨name, result, [], [], .declared, loc⟩).2
        function := some ⟨c.program.functions.size, result, [[]], 0⟩ }
  | finishFunction {c : Context} {k : FunctionContext} (body : Stmt) : c.function = some k →
    Served c
      { c with
        program := c.program.modifyFunction k.id fun f => { f with body := .compiled body }
        function := none }
  | scopes {c : Context} {k k' : FunctionContext} : c.function = some k → k'.id = k.id →
    (∀ scope ∈ k'.scopes, scope = [] ∨ scope ∈ k.scopes) →
    Served c { c with function := some k' }
  | global {c : Context} {s : Symbol} : c.program.global? s.name = none → Served c (c.addGlobal s)
  | variable_ {c : Context} {k : FunctionContext} (s : Symbol) (isParam : Bool) :
    c.function = some k → Served c (c.addLocal k s isParam)
  | string {c : Context} (text : String) :
    Served c { c with program := (c.program.internString text).2 }

variable {c c' : Context} {u : Unit}
open Lower

/-- What happens to the function being defined does not reach the tables. -/
theorem served_changeFunction {f : FunctionContext → FunctionContext}
    (h : changeFunction f c = .ok (u, c')) (hid : ∀ k, (f k).id = k.id)
    (hs : ∀ k, ∀ scope ∈ (f k).scopes, scope = [] ∨ scope ∈ k.scopes) : c.Served c' := by
  obtain rfl := change_eq_ok.1 h
  cases hk : c.function with
  | none =>
    have unchanged : { c with function := (none : Option FunctionContext).map f } = c := by
      rw [Option.map_none, ← hk]
    exact unchanged.symm ▸ .same c
  | some k => exact .scopes hk (hid k) (hs k)

theorem served_declare {name : String} {ty : Ty} {size : Nat} {array : Option ArraySpec}
    {isParam : Bool} {loc : Location}
    (h : declare name ty size array isParam loc c = .ok (u, c')) : c.Served c' := by
  rcases declare_cases h with ⟨s, hs, rfl⟩ | ⟨-, -, fresh, rfl⟩ | ⟨-, f, hf, rfl⟩
  · exact .member name ty size array hs
  · exact .global fresh
  · exact .variable_ _ isParam hf

theorem served_internString {text : String} {loc : Location} {id : StringId}
    (h : internString text loc c = .ok (id, c')) : c.Served c' := by
  cases hf : c.frozen with
  | true =>
    rw [internString_of_frozen hf] at h
    obtain ⟨-, rfl⟩ := require_eq_ok.1 h
    exact .same c
  | false =>
    rw [internString_of_building hf] at h
    cases h
    exact .string text

theorem served_exitScope (h : exitScope c = .ok (u, c')) : c.Served c' := by
  refine served_changeFunction h (fun k => ?_) (fun k scope hscope => ?_)
  · split <;> rfl
  · split at hscope
    case h_1 hk =>
      rw [hk]
      exact .inr (List.mem_cons_of_mem _ hscope)
    case h_2 => exact .inr hscope

/-- **What serving a request can do.** -/
theorem serve_served (c : Context) (r : Request) : c.Served (c.serve r) := by
  unfold serve
  split
  -- A request that is refused leaves the tables as they were.
  case h_2 => exact .same c
  case h_1 u c' h =>
    cases r with
    | beginStruct name loc =>
      obtain ⟨fresh, rfl⟩ := beginStruct_ok h
      exact .beginStruct fresh
    | finishStruct loc =>
      obtain ⟨id, h⟩ := discard_eq_ok.1 h
      obtain ⟨s, hs, rfl⟩ := finishStruct_ok h
      exact .finishStruct hs
    | beginFunction name result loc =>
      obtain ⟨id, h⟩ := discard_eq_ok.1 h
      obtain ⟨fresh, rfl⟩ := beginFunction_ok h
      exact .beginFunction result loc fresh
    | finishFunction body =>
      obtain ⟨k, hk, rfl⟩ := finishFunction_ok h
      exact .finishFunction body hk
    | declare name ty size array isParam loc => exact served_declare h
    | enterScope =>
      exact served_changeFunction h (fun _ => rfl) fun _ scope hscope => List.mem_cons.1 hscope
    | exitScope => exact served_exitScope h
    | enterLoop | exitLoop =>
      exact served_changeFunction h (fun _ => rfl) fun _ scope hscope => .inr hscope
    | internString text loc =>
      obtain ⟨id, h⟩ := discard_eq_ok.1 h
      exact served_internString h
    | lookup name loc =>
      obtain ⟨id, h⟩ := discard_eq_ok.1 h
      simp only [Lower.lookup, bind_eq_ok, ask_eq_ok, require_eq_ok] at h
      obtain ⟨_, _, ⟨rfl, rfl⟩, -, rfl⟩ := h
      exact .same c
    | resolveType base stars loc =>
      obtain ⟨ty, h⟩ := discard_eq_ok.1 h
      cases base with
      | int | char | void =>
        obtain ⟨-, rfl⟩ := pure_eq_ok.1 h
        exact .same c
      | struct name =>
        obtain ⟨-, rfl, -⟩ := resolveType_eq_ok.1 h
        exact .same c

/-! ## Tables behind requests -/

/-- **Each change keeps the tables consistent.** -/
theorem Served.consistent (h : c.Served c') (hc : c.Consistent) : c'.Consistent := by
  cases h with
  | same => exact hc
  | beginStruct fresh =>
    refine ⟨hc.program, hc.scopes, ?_⟩
    rintro _ ⟨⟩
    exact fresh
  | @member s name ty size array hs =>
    refine ⟨hc.program, hc.scopes, ?_⟩
    rintro _ ⟨⟩
    exact hc.fresh s hs
  | finishStruct hs => exact ⟨hc.program.addStruct (hc.fresh _ hs), hc.scopes, nofun⟩
  | beginFunction result loc fresh =>
    refine ⟨hc.program.addFunction fresh rfl rfl, ?_, hc.fresh⟩
    rintro _ ⟨⟩
    exact ⟨_, Array.getElem?_push_size, by simp⟩
  | finishFunction body hk => exact ⟨hc.program.finishFunction .., nofun, hc.fresh⟩
  | scopes hk hid hs =>
    refine ⟨hc.program, ?_, hc.fresh⟩
    rintro _ ⟨⟩
    obtain ⟨f, hf, held⟩ := hc.scopes _ hk
    refine ⟨f, hid ▸ hf, fun scope hscope entry hentry => ?_⟩
    -- A scope that is new holds no names.
    rcases hs scope hscope with rfl | hscope
    · cases hentry
    · exact held scope hscope entry hentry
  | global fresh => exact ⟨hc.program.addGlobal fresh, hc.scopes, hc.fresh⟩
  | @variable_ k s isParam hk =>
    -- The name goes to the innermost scope, and its variable to those of the function.
    obtain ⟨f, hf, held⟩ := hc.scopes _ hk
    have hlt := (Array.getElem?_eq_some_iff.1 hf).1
    refine ⟨hc.program.addLocal hlt s isParam, ?_, hc.fresh⟩
    rintro _ ⟨⟩
    refine ⟨{ f with
        locals := f.locals ++ [c.program.symbols.size]
        params := if isParam then f.params ++ [c.program.symbols.size] else f.params },
      ?_, fun scope hscope entry hentry => ?_⟩
    · simp [addLocal, Program.addSymbol, Program.modifyFunction, Array.getElem?_modify, hf]
    · rcases mem_headD_or_tail hscope hentry with rfl | ⟨old, hold, hentry⟩
      · simp
      · exact List.mem_append_left _ (held old hold entry hentry)
  | string text =>
    have program := hc.program.internString text
    obtain ⟨strings, stringIds, added⟩ := c.program.internString_strings text
    rw [added] at program ⊢
    exact ⟨program, hc.scopes, hc.fresh⟩

/-- **Each change only adds to the tables.** -/
theorem Served.grows (h : c.Served c') : c.program.Grows c'.program := by
  cases h with
  | same | beginStruct | member | scopes => exact .refl _
  | finishStruct =>
    exact { Program.Grows.refl c.program with structs := ⟨_, (Array.toList_push ..).symm⟩ }
  | @beginFunction name result loc =>
    refine { Program.Grows.refl c.program with functions := fun i f hf => ⟨f, ?_, .refl f⟩ }
    exact Program.getElem?_push_of_some hf
  | finishFunction body =>
    exact Program.grows_modifyFunction fun f => { Function.Grows.refl f with }
  | @global s =>
    exact { c.program.grows_addSymbol s with globals := List.prefix_append .. }
  | @variable_ k s isParam =>
    refine (c.program.grows_addSymbol s).trans (Program.grows_modifyFunction fun f => ?_)
    refine ⟨rfl, rfl, rfl, ?_, List.prefix_append ..⟩
    cases isParam with
    | true => exact List.prefix_append ..
    | false => exact List.prefix_rfl
  | string text =>
    unfold Program.internString
    split
    · exact .refl _
    · exact { Program.Grows.refl c.program with strings := ⟨_, (Array.toList_push ..).symm⟩ }

theorem consistent_empty : (building .empty).Consistent := ⟨.empty, nofun, nofun⟩

/-- Requests, one after the other, keep the tables consistent and only add to them. -/
theorem serveAll_consistent (hc : c.Consistent) (rs : List Request) :
    (c.serveAll rs).Consistent ∧ c.program.Grows (c.serveAll rs).program := by
  induction rs generalizing c with
  | nil => exact ⟨hc, .refl _⟩
  | cons r rs ih =>
    have served := c.serve_served r
    obtain ⟨consistent, grows⟩ := ih (served.consistent hc)
    exact ⟨consistent, served.grows.trans grows⟩

/-- **Symbol tables stay consistent under any use.**  Whatever a context over an empty program has
been asked, in any order and with failures, each map is the inverse of its table: every global,
function, structure and string is found under its own name or text with its own number, nothing else
is found, and no name or text occurs twice.  Each variable is a global or a variable of one function
and of no other, parameters are among their function's variables, the scopes in sight hold variables
of the function being defined; and nothing that is in a table is taken away or moved by what is asked
later. -/
theorem tables_consistent (rs later : List Request) :
    ((building .empty).serveAll rs).Consistent ∧
      ((building .empty).serveAll rs).program.Grows
        ((building .empty).serveAll (rs ++ later)).program := by
  have consistent := (serveAll_consistent consistent_empty rs).1
  have all : (building .empty).serveAll (rs ++ later) =
      ((building .empty).serveAll rs).serveAll later := List.foldl_append
  exact ⟨consistent, all ▸ (serveAll_consistent consistent later).2⟩

end Context

end MiniC
