/-
  Layouts.

  The members of a structure lie one behind the other, and each of them, like each variable, takes
  the storage of its type.  Lowering keeps this at every step (`Context.Step.laidOut`), so it holds of
  the program of any source (`Program.ofSource_laidOut`).  Selections of members that end in scalars
  then stay inside of the structure (`Program.Selects.within`) and never overlap unless they select
  the same (`Program.Selects.apart`).
-/
import MiniC.Proofs.LoweringSteps

namespace MiniC

variable {P : Location → Prop}

namespace Ty
variable {t : Ty}

theorem fixedSize?_of_isScalar (h : t.isScalar = true) : t.fixedSize? = some t.accessWidth := by
  obtain ⟨base, stars⟩ := t
  cases stars <;> cases base <;> simp_all [isScalar, isPointer, isArithmetic, isChar, fixedSize?,
    accessWidth, int, char]

theorem accessWidth_pos (t : Ty) : 0 < t.accessWidth := by
  unfold accessWidth
  split <;> decide

theorem eq_of_structName? {name : String} (h : t.structName? = some name) : t = ⟨.struct name, 0⟩ := by
  unfold structName? at h
  split at h
  · rw [Option.some.inj h]
  · cases h

end Ty

namespace Program
variable {p q : Program}

theorem sizeOf?_of_isScalar {t : Ty} (h : t.isScalar = true) : p.sizeOf? t = some t.accessWidth := by
  simp [sizeOf?, Ty.fixedSize?_of_isScalar h]

theorem sizeOf?_struct (name : String) :
    p.sizeOf? ⟨.struct name, 0⟩ = (p.layout? name).map Layout.size := rfl

/-- Only the structures and their names tell what a structure takes. -/
theorem sizeOf?_congr (h : q.structs = p.structs) (hn : q.structNames = p.structNames) (t : Ty) :
    q.sizeOf? t = p.sizeOf? t := by
  have layout : q.layout = p.layout := funext fun id => by rw [Program.layout, Program.layout, h]
  simp only [sizeOf?, layout?, struct?, layout, hn]

/-! ## Members one behind the other -/

theorem Measures.mono {ty : Ty} {size : Nat} {length : Option Nat} (h : p.Measures ty size length)
    (hq : ∀ t k, p.sizeOf? t = some k → q.sizeOf? t = some k) : q.Measures ty size length := by
  cases length with
  | none => exact hq _ _ h
  | some length =>
    obtain ⟨element, n, ht, hn, hrest⟩ := h
    exact ⟨element, n, ht, hq _ _ hn, hrest⟩

/-- Members that lie one behind the other and take `n` bytes together, each of them as many as its
type or its elements do. -/
inductive Lays (p : Program) : List Member → Nat → Prop
  | nil : Lays p [] 0
  | snoc {ms : List Member} {n : Nat} {m : Member} : Lays p ms n → m.offset = n →
    p.Measures m.ty m.size m.arrayLength → Lays p (ms ++ [m]) (n + m.size)

namespace Lays
variable {ms : List Member} {n : Nat} {m m' : Member}

theorem mono (h : p.Lays ms n) (hq : ∀ t k, p.sizeOf? t = some k → q.sizeOf? t = some k) :
    q.Lays ms n := by
  induction h with
  | nil => exact .nil
  | snoc _ ho hs ih => exact .snoc ih ho (hs.mono hq)

theorem within (h : p.Lays ms n) (hm : m ∈ ms) : m.offset + m.size ≤ n := by
  induction h with
  | nil => cases hm
  | snoc _ ho _ ih =>
    rcases List.mem_append.1 hm with hm | hm
    · exact Nat.le_add_right_of_le (ih hm)
    · obtain rfl := List.mem_singleton.1 hm
      exact Nat.le_of_eq (by rw [ho])

theorem measures (h : p.Lays ms n) (hm : m ∈ ms) : p.Measures m.ty m.size m.arrayLength := by
  induction h with
  | nil => cases hm
  | snoc _ _ hs ih =>
    rcases List.mem_append.1 hm with hm | hm
    · exact ih hm
    · rwa [List.mem_singleton.1 hm]

theorem sized (h : p.Lays ms n) (hm : m ∈ ms) (ha : m.arrayLength = none) :
    p.sizeOf? m.ty = some m.size := by
  have taken := h.measures hm
  rwa [ha] at taken

/-- Two members share no byte. -/
theorem apart (h : p.Lays ms n) (hm : m ∈ ms) (hm' : m' ∈ ms) (hne : m ≠ m') :
    m.offset + m.size ≤ m'.offset ∨ m'.offset + m'.size ≤ m.offset := by
  induction h with
  | nil => cases hm
  | snoc hl ho _ ih =>
    rcases List.mem_append.1 hm with hm | hm <;> rcases List.mem_append.1 hm' with hm' | hm'
    · exact ih hm hm'
    · rw [List.mem_singleton.1 hm', ho]
      exact .inl (hl.within hm)
    · rw [List.mem_singleton.1 hm, ho]
      exact .inr (hl.within hm')
    · exact absurd ((List.mem_singleton.1 hm).trans (List.mem_singleton.1 hm').symm) hne

end Lays

/-- Variables take the storage of their types or of their elements, the members of structures lie one
behind the other, and what is found by a name is an entry of this name. -/
structure LaidOut (p : Program) : Prop where
  maps : p.Indexed
  symbols : ∀ {i : Nat} {s}, p.symbols[i]? = some s →
    p.Measures s.ty s.size (s.array.map ArraySpec.length)
  structs : ∀ {i : Nat} {l}, p.structs[i]? = some l → p.Lays l.members l.size

theorem laidOut_initial : Program.initial.LaidOut where
  maps := initial_indexed
  symbols hs := by
    obtain ⟨array, size, -⟩ := initial_symbols hs
    rwa [array]
  structs hl := by
    simp [initial, installBuiltins, addBuiltin, addFunction, addParameter, addSymbol, empty] at hl

/-- A variable that is no array takes the storage of its type. -/
theorem LaidOut.single (h : p.LaidOut) {i : Nat} {s : Symbol} (hs : p.symbols[i]? = some s)
    (ha : s.array = none) : p.sizeOf? s.ty = some s.size := by
  have taken := h.symbols hs
  rwa [ha] at taken

theorem LaidOut.layout? (h : p.LaidOut) {name : String} {l : Layout} (hl : p.layout? name = some l) :
    p.Lays l.members l.size := by
  obtain ⟨id, hid, rfl⟩ := Option.map_eq_some_iff.1 hl
  exact h.structs (h.maps.layout hid).1

end Program

/-! ## Lowering -/

/-- The tables and the structure that is being defined are laid out. -/
structure Context.LaidOut (c : Context) : Prop where
  program : c.program.LaidOut
  struct : ∀ s, c.struct = some s → c.program.Lays s.members s.nextOffset

namespace Context
variable {c c' : Context}

/-- What has the same structures and no new variables is laid out as before. -/
theorem LaidOut.congr (h : c.LaidOut) (hm : c'.Mapped)
    (hs : c'.program.symbols = c.program.symbols) (ht : c'.program.structs = c.program.structs)
    (hn : c'.program.structNames = c.program.structNames) (hd : c'.struct = c.struct) :
    c'.LaidOut where
  program :=
    { maps := hm.maps
      symbols := fun hi => (h.program.symbols (hs ▸ hi)).mono fun t k hk => by
        rwa [Program.sizeOf?_congr ht hn]
      structs := fun hl => (h.program.structs (ht ▸ hl)).mono fun t k hk => by
        rwa [Program.sizeOf?_congr ht hn] }
  struct s hs' := (h.struct s (hd ▸ hs')).mono fun t k hk => by rwa [Program.sizeOf?_congr ht hn]

/-- One more variable. -/
theorem LaidOut.push (h : c.LaidOut) (hm : c'.Mapped) {s : Symbol}
    (hsize : c.program.Measures s.ty s.size (s.array.map ArraySpec.length))
    (hs : c'.program.symbols = c.program.symbols.push s)
    (ht : c'.program.structs = c.program.structs)
    (hn : c'.program.structNames = c.program.structNames) (hd : c'.struct = c.struct) :
    c'.LaidOut where
  program :=
    { maps := hm.maps
      symbols := fun {i t} hi => by
        refine Program.Measures.mono ?_ fun t k hk => by rwa [Program.sizeOf?_congr ht hn]
        rcases Program.getElem?_push_cases (hs ▸ hi) with hi | ⟨rfl, -⟩
        · exact h.program.symbols hi
        · exact hsize
      structs := fun hl => (h.program.structs (ht ▸ hl)).mono fun t k hk => by
        rwa [Program.sizeOf?_congr ht hn] }
  struct s hs' := (h.struct s (hd ▸ hs')).mono fun t k hk => by rwa [Program.sizeOf?_congr ht hn]

/-- **A step of lowering keeps layouts.** -/
theorem Step.laidOut (h : c.Step P c') (hm : c.Mapped) (hc : c.LaidOut) : c'.LaidOut := by
  have after := h.mapped hm
  cases h with
  | intern text =>
    obtain ⟨strings, stringIds, added⟩ := c.program.internString_strings text
    rw [added] at after ⊢
    exact hc.congr after rfl rfl rfl rfl
  | assign a es =>
    rw [noteAssigned] at after ⊢
    split
    · exact hc
    · exact hc.congr ⟨hm.maps, hm.fresh⟩ rfl rfl rfl rfl
  | scope | beginFunction | finishFunction => exact hc.congr after rfl rfl rfl rfl
  | beginStruct name =>
    refine ⟨hc.program, fun s hs => ?_⟩
    cases hs
    exact .nil
  | @finishStruct s hs =>
    have grows := Program.extends_addStruct hm.maps (hm.fresh hs)
      (l := ⟨s.name, s.members, s.nextOffset⟩)
    refine ⟨⟨after.maps, fun hi => (hc.program.symbols hi).mono fun t k => grows.sizeOf?, fun {i l} hl => ?_⟩,
      fun _ hs => by cases hs⟩
    refine Program.Lays.mono ?_ fun t k => grows.sizeOf?
    rcases Program.getElem?_push_cases hl with hl | ⟨rfl, -⟩
    · exact hc.program.structs hl
    · exact hc.struct s hs
  | @member s name ty size array hs _ hsize =>
    refine ⟨hc.program, fun s' hs' => ?_⟩
    cases hs'
    exact .snoc (hc.struct s hs) rfl hsize
  | global _ hsize => exact hc.push after hsize rfl rfl rfl rfl
  | variable_ _ hsize => exact hc.push after hsize rfl rfl rfl rfl

end Context

/-- **The program of a source is laid out.** -/
theorem Program.ofSource_laidOut {g : Grammar} {source : String} {p : Program}
    (h : Program.ofSource g source = .ok p) : p.LaidOut := by
  obtain ⟨root, l, c, hr, hl, rfl⟩ := Program.ofSource_eq_ok h
  have placed := (Node.ofSource_placed g .program source).1 root hr
  obtain ⟨steps, -⟩ := (lower_traces g placed (.building .initial)).1 l c hl
  exact (steps.keeps_of_mapped (I := Context.LaidOut) (fun hs => hs.laidOut) Context.building_initial
    ⟨laidOut_initial, fun _ hs => by cases hs⟩).program

/-! ## The variables of functions -/

/-- The variables of a function are numbered in the order of their declaration; its parameters are
some of them, and none is an array. -/
structure Function.Ordered (p : Program) (f : Function) : Prop where
  ascending : f.locals.Pairwise (· < ·)
  known : ∀ id ∈ f.locals, p.HasSymbol id
  params : f.params.Sublist f.locals
  single : ∀ id ∈ f.params, (p.symbol id).array = none

/-- The variables of all functions are in order. -/
def Program.Ordered (p : Program) : Prop :=
  ∀ (i : Nat) (f : Function), p.functions[i]? = some f → f.Ordered p

namespace Function.Ordered
variable {p q : Program} {f : Function}

/-- More variables in the table change nothing. -/
theorem extends_ (h : f.Ordered p) (he : p.Extends q) : f.Ordered q where
  ascending := h.ascending
  known id hid := he.hasSymbol (h.known id hid)
  params := h.params
  single id hid := by
    rw [he.symbol (h.known id (h.params.subset hid))]
    exact h.single id hid

/-- One more variable, which takes the next number. -/
theorem snoc (h : f.Ordered p) {s : Symbol} {isParam : Bool} (hs : isParam = true → s.array = none) :
    Ordered (p.addSymbol s).2
      { f with
        locals := f.locals ++ [p.symbols.size]
        params := if isParam then f.params ++ [p.symbols.size] else f.params } := by
  have later := h.extends_ (p.extends_addSymbol s)
  have added : (p.addSymbol s).2.symbols[p.symbols.size]? = some s := by simp [Program.addSymbol]
  refine ⟨?_, fun id hid => ?_, ?_, fun id hid => ?_⟩
  · refine List.pairwise_append.2 ⟨h.ascending, List.pairwise_singleton .., fun id hid new hnew => ?_⟩
    rw [List.mem_singleton.1 hnew]
    exact h.known id hid
  · rcases List.mem_append.1 hid with hid | hid
    · exact later.known id hid
    · rw [List.mem_singleton.1 hid]
      exact (Array.getElem?_eq_some_iff.1 added).1
  · cases isParam with
    | true => exact h.params.append (.refl _)
    | false => exact h.params.trans (List.sublist_append_left ..)
  · cases isParam with
    | true =>
      rcases List.mem_append.1 hid with hid | hid
      · exact later.single id hid
      · rw [List.mem_singleton.1 hid, Program.symbol_eq added]
        exact hs rfl
    | false => exact later.single id hid

end Function.Ordered

namespace Program
variable {p q : Program}

theorem Ordered.congr (h : p.Ordered) (hf : q.functions = p.functions) (he : p.Extends q) :
    q.Ordered := by
  intro i f hi
  rw [hf] at hi
  exact (h i f hi).extends_ he

theorem ordered_initial : Program.initial.Ordered := by
  intro i f hi
  have hmem : f ∈ Program.initial.functions.toList := Array.mem_def.1 (Array.mem_of_getElem? hi)
  have single : ∀ id ∈ f.params, (Program.initial.symbol id).array = none := by
    intro id _
    rcases Program.initial.symbol_cases id with hs | hs
    · exact (initial_symbols hs).1
    · rw [hs]
      rfl
  have tables : f.locals.Pairwise (· < ·) ∧ (∀ id ∈ f.locals, id < Program.initial.symbols.size) ∧
      f.params.Sublist f.locals := by
    simp only [initial, installBuiltins, addBuiltin, addFunction, addParameter, addSymbol, empty] at hmem
    simp at hmem
    rcases hmem with rfl | rfl | rfl | rfl
    all_goals exact ⟨by decide, by decide, .refl _⟩
  exact ⟨tables.1, tables.2.1, tables.2.2, single⟩

end Program

/-- **A step of lowering keeps the variables in order.** -/
theorem Context.Step.ordered {c c' : Context} (h : c.Step P c') (hm : c.Mapped)
    (hc : c.program.Ordered) : c'.program.Ordered := by
  cases h with
  | intern text =>
    refine hc.congr ?_ (c.program.extends_internString text)
    obtain ⟨strings, stringIds, added⟩ := c.program.internString_strings text
    rw [added]
  | assign a es =>
    rw [noteAssigned]
    split
    · exact hc
    · exact hc
  | scope | beginStruct | member => exact hc
  | finishStruct hs => exact hc.congr rfl (Program.extends_addStruct hm.maps (hm.fresh hs))
  | beginFunction name result hn =>
    -- A function begins without variables.
    intro i f hi
    rcases Program.getElem?_push_cases hi with hi | ⟨rfl, -⟩
    · exact (hc i f hi).extends_ (Program.extends_addFunction hn)
    · exact ⟨.nil, fun _ hv => absurd hv List.not_mem_nil, .refl _,
        fun _ hv => absurd hv List.not_mem_nil⟩
  | finishFunction =>
    intro i f hi
    rcases functions_modify hi with ⟨-, hi⟩ | ⟨-, g, hg, rfl⟩
    · have ordered := hc i f hi
      exact ⟨ordered.ascending, ordered.known, ordered.params, ordered.single⟩
    · have ordered := hc _ g hg
      exact ⟨ordered.ascending, ordered.known, ordered.params, ordered.single⟩
  | global hn => exact hc.congr rfl (Program.extends_addGlobal hn)
  | @variable_ k s isParam _ _ _ _ hs =>
    intro i f hi
    rcases functions_modify hi with ⟨-, hi⟩ | ⟨-, g, hg, rfl⟩
    · have ordered := (hc i f hi).extends_ (c.program.extends_addSymbol s)
      exact ⟨ordered.ascending, ordered.known, ordered.params, ordered.single⟩
    · have ordered := (hc _ g hg).snoc hs
      exact ⟨ordered.ascending, ordered.known, ordered.params, ordered.single⟩

/-- **The variables of every function of a source are in order.** -/
theorem Program.ofSource_ordered {g : Grammar} {source : String} {p : Program}
    (h : Program.ofSource g source = .ok p) : p.Ordered := by
  obtain ⟨root, l, c, hr, hl, rfl⟩ := Program.ofSource_eq_ok h
  have placed := (Node.ofSource_placed g .program source).1 root hr
  obtain ⟨steps, -⟩ := (lower_traces g placed (.building .initial)).1 l c hl
  exact steps.keeps_of_mapped (I := fun c => c.program.Ordered) (fun hs => hs.ordered)
    Context.building_initial ordered_initial

/-! ## Selections -/

namespace Program

/-- Selecting members that are no arrays, one inside of the other, leads from a type to a type at an
offset. -/
inductive Selects (p : Program) : Ty → List String → Nat → Ty → Prop
  | here {t : Ty} : Selects p t [] 0 t
  | member {t t' : Ty} {name field : String} {l : Layout} {m : Member} {fields : List String}
      {offset : Nat} : t.structName? = some name → p.layout? name = some l →
    l.member? field = some m → m.arrayLength = none → Selects p m.ty fields offset t' →
    Selects p t (field :: fields) (m.offset + offset) t'

namespace Selects
variable {p : Program} {t t₁ t₂ : Ty} {fs gs : List String} {i j n : Nat}

theorem snoc {name field : String} {l : Layout} {m : Member} (h : p.Selects t fs i t₁)
    (hn : t₁.structName? = some name) (hl : p.layout? name = some l) (hm : l.member? field = some m)
    (ha : m.arrayLength = none) : p.Selects t (fs ++ [field]) (i + m.offset) m.ty := by
  induction h with
  | here =>
    rw [Nat.add_comm]
    exact .member hn hl hm ha .here
  | member hn' hl' hm' ha' _ ih =>
    rw [Nat.add_assoc]
    exact .member hn' hl' hm' ha' (ih hn)

/-- **What is selected lies inside** of what it is selected from. -/
theorem within (hp : p.LaidOut) (h : p.Selects t fs i t₁) (hn : p.sizeOf? t = some n) :
    ∃ k, p.sizeOf? t₁ = some k ∧ i + k ≤ n := by
  induction h generalizing n with
  | here => exact ⟨n, hn, by omega⟩
  | @member t t' name field l m fields offset hs hl hm ha _ ih =>
    have lays := hp.layout? hl
    have mem : m ∈ l.members := List.mem_of_find?_eq_some hm
    obtain ⟨k, hk, hle⟩ := ih (lays.sized mem ha)
    have inside := lays.within mem
    rw [Ty.eq_of_structName? hs, sizeOf?_struct, hl] at hn
    cases hn
    exact ⟨k, hk, by omega⟩

/-- **Two selections of scalars that differ share no byte.** -/
theorem apart (hp : p.LaidOut) (h : p.Selects t fs i t₁) (h' : p.Selects t gs j t₂)
    (hs : t₁.isScalar = true) (hs' : t₂.isScalar = true) (hne : fs ≠ gs) :
    i + t₁.accessWidth ≤ j ∨ j + t₂.accessWidth ≤ i := by
  have whole : ∀ {t : Ty} {name : String}, t.structName? = some name → t.isScalar ≠ true := by
    rintro t name hn
    rw [Ty.eq_of_structName? hn]
    simp [Ty.isScalar, Ty.isPointer, Ty.isArithmetic, Ty.int, Ty.char]
  induction h generalizing gs j with
  | here =>
    cases h' with
    | here => exact absurd rfl hne
    | member hn => exact absurd hs (whole hn)
  | @member t t₁ name field l m fields offset hn hl hm ha hrest ih =>
    cases h' with
    | here => exact absurd hs' (whole hn)
    | @member _ _ name' field' l' m' fields' offset' hn' hl' hm' ha' hrest' =>
      cases hn.symm.trans hn'
      cases hl.symm.trans hl'
      by_cases hf : field = field'
      · subst hf
        cases hm.symm.trans hm'
        rcases ih hrest' hs fun he => hne (by rw [he]) with hlt | hlt
        · exact .inl (by omega)
        · exact .inr (by omega)
      · -- The members have different names, so the selections stay in different members.
        have mem : m ∈ l.members := List.mem_of_find?_eq_some hm
        have mem' : m' ∈ l.members := List.mem_of_find?_eq_some hm'
        have name_m : m.name = field := by simpa using List.find?_some hm
        have name_m' : m'.name = field' := by simpa using List.find?_some hm'
        have lays := hp.layout? hl
        obtain ⟨k, hk, hle⟩ := hrest.within hp (lays.sized mem ha)
        obtain ⟨k', hk', hle'⟩ := hrest'.within hp (lays.sized mem' ha')
        cases hk.symm.trans (sizeOf?_of_isScalar hs)
        cases hk'.symm.trans (sizeOf?_of_isScalar hs')
        rcases lays.apart mem mem' (fun he => hf (by rw [← name_m, ← name_m', he])) with hlt | hlt
        · exact .inl (by omega)
        · exact .inr (by omega)

end Selects

end Program

end MiniC
