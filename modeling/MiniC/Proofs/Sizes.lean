/-
  Storage.

  What a type takes is said by its own rules (`Program.Takes`): a pointer takes four bytes, an array
  all of its elements, a structure all of its members.  The rules lead from a structure only to
  structures that it contains by value, so where every structure and every variable has its storage
  by them, none contains itself.

  - `Context.Step.tidy`: structures have names of their own, and what they contain is older;
  - `Program.Tidy.not_contains_self`: hence no structure contains itself;
  - `Program.Tidy.takes`: and sizes are what the rules say;
  - `Session.layouts_exact`: the layouts of a program that has been compiled are exact, and none of
    its runs asks memory for a region of no bytes.
-/
import Mathlib.Algebra.GroupWithZero.Nat
import MiniC.Proofs.Layout
import MiniC.Proofs.TypeSoundness

namespace MiniC

variable {P : Location → Prop}

/-- The structure that a member holds, or that its elements are. -/
def Member.inner? (m : Member) : Option String :=
  match m.arrayLength with
  | none => m.ty.structName?
  | some _ => m.ty.pointee.bind Ty.structName?

/-- Members with names of their own, which lie one behind the other from the start of the structure
to its end. -/
structure Layout.Packed (l : Layout) : Prop where
  names : (l.members.map Member.name).Nodup
  offsets : ∀ {before m after}, l.members = before ++ m :: after →
    m.offset = (before.map Member.size).sum
  apart : l.members.Pairwise fun m m' => m.offset + m.size ≤ m'.offset
  size : l.size = (l.members.map Member.size).sum

namespace Program
variable {p q : Program}

/-- One structure holds another by value. -/
def Contains (p : Program) (outer inner : String) : Prop :=
  ∃ l m, p.layout? outer = some l ∧ m ∈ l.members ∧ m.inner? = some inner

/-- The bytes that a type takes, or an array with elements of that type. -/
inductive Takes (p : Program) : Ty → Option Nat → Nat → Prop
  | int : Takes p Ty.int none 4
  | char : Takes p Ty.char none 1
  | pointer (t : Ty) : Takes p t.pointer none 4
  | struct {name : String} {l : Layout} : p.layout? name = some l →
    (∀ m ∈ l.members, Takes p m.ty m.arrayLength m.size) →
    Takes p ⟨.struct name, 0⟩ none (l.members.map Member.size).sum
  | array {t : Ty} {length n : Nat} : Takes p t none n → 0 < length →
    Takes p t.pointer (some length) (length * n)

theorem Measures.inner {m : Member} (h : p.Measures m.ty m.size m.arrayLength) {name : String}
    (hn : m.inner? = some name) : (p.struct? name).isSome := by
  have known : ∀ {t : Ty} {n : Nat}, p.sizeOf? t = some n → t.structName? = some name →
      (p.struct? name).isSome := by
    intro t n hs ht
    rw [Ty.eq_of_structName? ht, sizeOf?_struct, layout?, Option.map_map] at hs
    exact Option.isSome_of_mem (Option.map_eq_some_iff.1 hs).choose_spec.1
  unfold Member.inner? at hn
  cases ha : m.arrayLength with
  | none =>
    rw [ha] at h hn
    exact known h hn
  | some length =>
    rw [ha] at h hn
    obtain ⟨element, n, ht, hs, -⟩ := h
    rw [ht, Ty.pointee_pointer, Option.bind_some] at hn
    exact known hs hn

/-! ## Structures in the order of their definitions -/

/-- Each structure has members that have names of their own and that hold only structures before it. -/
structure Tidy (p : Program) : Prop where
  names : ∀ {i : Nat} {l}, p.structs[i]? = some l → (l.members.map Member.name).Nodup
  older : ∀ {i : Nat} {l}, p.structs[i]? = some l → ∀ m ∈ l.members, ∀ name ∈ m.inner?,
    ∃ j < i, p.struct? name = some j

theorem Tidy.congr (h : p.Tidy) (hs : q.structs = p.structs) (hn : q.structNames = p.structNames) :
    q.Tidy := by
  have same : q.struct? = p.struct? := funext fun name => by rw [struct?, struct?, hn]
  refine ⟨fun hl => h.names (hs ▸ hl), fun hl => ?_⟩
  rw [same]
  exact h.older (hs ▸ hl)

/-- One more structure, with a name that is new. -/
theorem Tidy.addStruct (h : p.Tidy) (maps : p.Indexed) {l : Layout} (hn : p.struct? l.name = none)
    (names : (l.members.map Member.name).Nodup)
    (older : ∀ m ∈ l.members, ∀ name ∈ m.inner?, (p.struct? name).isSome) :
    (p.addStruct l).2.Tidy := by
  have grows := extends_addStruct maps hn
  refine ⟨fun hl' => ?_, fun hl' m hm name hname => ?_⟩
  · rcases getElem?_push_cases hl' with hl' | ⟨rfl, rfl⟩
    · exact h.names hl'
    · exact names
  · rcases getElem?_push_cases hl' with hl' | ⟨rfl, rfl⟩
    · obtain ⟨j, hj, hs⟩ := h.older hl' m hm name hname
      exact ⟨j, hj, grows.struct? hs⟩
    · obtain ⟨j, hj⟩ := Option.isSome_iff_exists.1 (older m hm name hname)
      exact ⟨j, (Array.getElem?_eq_some_iff.1 (maps.layout hj).1).1, grows.struct? hj⟩

/-- **No structure contains itself**, directly or through others: what it contains is older. -/
theorem Tidy.not_contains_self (h : p.Tidy) (maps : p.Indexed) (name : String) :
    ¬ Relation.TransGen p.Contains name name := by
  have older : ∀ {outer inner}, p.Contains outer inner →
      ∃ i j, p.struct? outer = some i ∧ p.struct? inner = some j ∧ j < i := by
    rintro outer inner ⟨l, m, hl, hm, hn⟩
    obtain ⟨i, hi, rfl⟩ := Option.map_eq_some_iff.1 hl
    obtain ⟨j, hj, hs⟩ := h.older (maps.layout hi).1 m hm inner hn
    exact ⟨i, j, hi, hs, hj⟩
  have descends : ∀ {inner}, Relation.TransGen p.Contains name inner →
      ∃ i j, p.struct? name = some i ∧ p.struct? inner = some j ∧ j < i := by
    intro inner hc
    induction hc with
    | single hs => exact older hs
    | tail _ hs ih =>
      obtain ⟨i, j, hi, hj, hlt⟩ := ih
      obtain ⟨j', k, hj', hk, hlt'⟩ := older hs
      cases hj.symm.trans hj'
      exact ⟨i, k, hi, hk, Nat.lt_trans hlt' hlt⟩
  intro hc
  obtain ⟨i, j, hi, hj, hlt⟩ := descends hc
  cases hi.symm.trans hj
  exact Nat.lt_irrefl i hlt

/-! ## Members one behind the other -/

theorem Lays.size {ms : List Member} {n : Nat} (h : p.Lays ms n) : n = (ms.map Member.size).sum := by
  induction h with
  | nil => rfl
  | snoc _ _ _ ih => simp [ih]

theorem Lays.offsets {ms : List Member} {n : Nat} (h : p.Lays ms n) {before after : List Member}
    {m : Member} (he : ms = before ++ m :: after) : m.offset = (before.map Member.size).sum := by
  induction h generalizing after with
  | nil => simp at he
  | @snoc ms n last hl ho _ ih =>
    rcases List.eq_nil_or_concat after with rfl | ⟨after, x, rfl⟩
    · obtain ⟨rfl, hm⟩ := List.append_inj' he rfl
      cases hm
      rw [ho, hl.size]
    · rw [List.concat_eq_append, ← List.cons_append, ← List.append_assoc] at he
      exact ih (List.append_inj' he rfl).1

theorem Lays.pairwise {ms : List Member} {n : Nat} (h : p.Lays ms n) :
    ms.Pairwise fun m m' => m.offset + m.size ≤ m'.offset := by
  induction h with
  | nil => exact .nil
  | snoc hl ho _ ih =>
    refine List.pairwise_append.2 ⟨ih, List.pairwise_singleton .., fun m hm last hlast => ?_⟩
    rw [List.mem_singleton.1 hlast, ho]
    exact hl.within hm

/-- A table that is laid out and tidy packs the members of its structures. -/
theorem Tidy.packed (h : p.Tidy) (hp : p.LaidOut) {i : Nat} {l : Layout}
    (hl : p.structs[i]? = some l) : l.Packed :=
  have lays := hp.structs hl
  ⟨h.names hl, lays.offsets, lays.pairwise, lays.size⟩

/-! ## Sizes by their rules -/

/-- A type has its storage by the rules if the structure that it may be has. -/
theorem takes_of_sizeOf? {t : Ty} {n : Nat} (hn : p.sizeOf? t = some n)
    (hs : ∀ name, t.structName? = some name → p.Takes t none n) : p.Takes t none n := by
  obtain ⟨base, stars⟩ := t
  cases stars with
  | succ stars =>
    cases hn
    exact .pointer ⟨base, stars⟩
  | zero =>
    cases base with
    | int => cases hn; exact .int
    | char => cases hn; exact .char
    | void => cases hn
    | struct name => exact hs name rfl

/-- A variable or a member has its storage by the rules if the structure that it may hold has. -/
theorem Measures.takes {ty : Ty} {size : Nat} {length : Option Nat} (h : p.Measures ty size length)
    (hs : ∀ t name n, t.structName? = some name → p.sizeOf? t = some n →
      (length = none ∧ ty = t ∨ length.isSome ∧ ty = t.pointer) → p.Takes t none n) :
    p.Takes ty length size := by
  cases length with
  | none => exact takes_of_sizeOf? h fun name hn => hs ty name size hn h (.inl ⟨rfl, rfl⟩)
  | some length =>
    obtain ⟨element, n, rfl, hn, pos, rfl, -⟩ := h
    refine .array (takes_of_sizeOf? hn fun name he => ?_) pos
    exact hs element name n he hn (.inr ⟨rfl, rfl⟩)

/-- Every structure takes what the rules say. -/
theorem Tidy.takes_struct (h : p.Tidy) (hp : p.LaidOut) {name : String} {i : StructId}
    (hi : p.struct? name = some i) : p.Takes ⟨.struct name, 0⟩ none (p.layout i).size := by
  -- What a structure contains is older, so this is an induction on its number.
  induction i using Nat.strongRecOn generalizing name with
  | ind i ih =>
    have entry := (hp.maps.layout hi).1
    have lays := hp.structs entry
    rw [lays.size]
    refine .struct (by rw [layout?, hi]; rfl) fun m hm => ?_
    refine (lays.measures hm).takes fun t inner n ht hn held => ?_
    have holds : m.inner? = some inner := by
      rcases held with ⟨hlen, hty⟩ | ⟨hlen, hty⟩
      · rw [Member.inner?, hlen, hty]
        exact ht
      · obtain ⟨length, hlen⟩ := Option.isSome_iff_exists.1 hlen
        rw [Member.inner?, hlen, hty, Ty.pointee_pointer]
        exact ht
    obtain ⟨j, hj, hinner⟩ := h.older entry m hm inner holds
    rw [Ty.eq_of_structName? ht, sizeOf?_struct, layout?, hinner] at hn
    cases hn
    rw [Ty.eq_of_structName? ht]
    exact ih j hj hinner

/-- **What has storage takes what the rules say.** -/
theorem Tidy.takes (h : p.Tidy) (hp : p.LaidOut) {ty : Ty} {size : Nat} {length : Option Nat}
    (hm : p.Measures ty size length) : p.Takes ty length size := by
  refine hm.takes fun t name n ht hn _ => ?_
  rw [Ty.eq_of_structName? ht, sizeOf?_struct] at hn
  obtain ⟨l, hl, rfl⟩ := Option.map_eq_some_iff.1 hn
  obtain ⟨i, hi, rfl⟩ := Option.map_eq_some_iff.1 hl
  rw [Ty.eq_of_structName? ht]
  exact h.takes_struct hp hi

end Program

/-! ## Lowering -/

/-- The tables are tidy, and so is the structure that is being defined. -/
structure Context.Tidy (c : Context) : Prop where
  program : c.program.Tidy
  names : ∀ s, c.struct = some s → (s.members.map Member.name).Nodup
  older : ∀ s, c.struct = some s → ∀ m ∈ s.members, ∀ name ∈ m.inner?, (c.program.struct? name).isSome

namespace Context
variable {c c' : Context}

/-- What has the same structures is as tidy as before. -/
theorem Tidy.congr (h : c.Tidy) (ht : c'.program.structs = c.program.structs)
    (hn : c'.program.structNames = c.program.structNames) (hd : c'.struct = c.struct) : c'.Tidy := by
  have same : c'.program.struct? = c.program.struct? :=
    funext fun name => by rw [Program.struct?, Program.struct?, hn]
  refine ⟨h.program.congr ht hn, ?_, ?_⟩ <;> rw [hd]
  · exact h.names
  · rw [same]
    exact h.older

/-- **A step of lowering keeps the tables tidy.** -/
theorem Step.tidy (h : c.Step P c') (hm : c.Mapped) (hc : c.Tidy) : c'.Tidy := by
  cases h with
  | intern text =>
    obtain ⟨strings, stringIds, added⟩ := c.program.internString_strings text
    rw [added]
    exact hc.congr rfl rfl rfl
  | assign a es =>
    rw [noteAssigned]
    split
    · exact hc
    · exact hc.congr rfl rfl rfl
  | scope | beginFunction | finishFunction | global | variable_ => exact hc.congr rfl rfl rfl
  | beginStruct name =>
    refine ⟨hc.program, ?_, ?_⟩ <;> rintro s ⟨⟩
    · exact List.nodup_nil
    · rintro _ ⟨⟩
  | @finishStruct s hs =>
    refine ⟨hc.program.addStruct hm.maps (hm.fresh hs) (hc.names s hs) (hc.older s hs), ?_, ?_⟩ <;>
      rintro _ ⟨⟩
  | @member s name ty size array hs hn hsize =>
    refine ⟨hc.program, ?_, ?_⟩ <;> rintro _ ⟨⟩
    · rw [List.map_append, List.nodup_append]
      refine ⟨hc.names s hs, List.nodup_singleton _, fun other ho new hnew => ?_⟩
      obtain ⟨m, hmem, rfl⟩ := List.mem_map.1 ho
      rw [List.mem_singleton.1 hnew]
      exact hn m hmem
    · intro m hmem inner hi
      -- The type of a member has been measured, so what it contains is defined already.
      rcases List.mem_append.1 hmem with hmem | hmem
      · exact hc.older s hs m hmem inner hi
      · rw [List.mem_singleton.1 hmem] at hi
        exact Program.Measures.inner (m := ⟨name, ty, size, s.nextOffset, array.map ArraySpec.length⟩)
          hsize hi

end Context

theorem Program.tidy_initial : Program.initial.Tidy := by
  have none_ : ∀ {i : Nat} {l : Layout}, Program.initial.structs[i]? ≠ some l := by
    simp [initial, installBuiltins, addBuiltin, addFunction, addParameter, addSymbol, empty]
  exact ⟨fun hl => absurd hl none_, fun hl => absurd hl none_⟩

/-- **The program of a source is tidy.** -/
theorem Program.ofSource_tidy {g : Grammar} {source : String} {p : Program}
    (h : Program.ofSource g source = .ok p) : p.Tidy := by
  obtain ⟨root, l, c, hr, hl, rfl⟩ := Program.ofSource_eq_ok h
  have placed := (Node.ofSource_placed g .program source).1 root hr
  obtain ⟨steps, -⟩ := (lower_traces g placed (.building .initial)).1 l c hl
  exact (steps.keeps_of_mapped (I := Context.Tidy) (fun hs => hs.tidy) Context.building_initial
    ⟨tidy_initial, nofun, nofun⟩).program

/-! ## Compiled programs -/

namespace Program
variable {p : Program}

/-- If structures take less than the address space has, then so does every type. -/
theorem sizeOf?_lt (hs : ∀ l ∈ p.structs, l.size < 4294967296) {t : Ty} {n : Nat}
    (hn : p.sizeOf? t = some n) : n < 4294967296 := by
  obtain ⟨base, stars⟩ := t
  cases stars with
  | succ stars => cases hn; decide
  | zero =>
    cases base with
    | int => cases hn; decide
    | char => cases hn; decide
    | void => cases hn
    | struct name =>
      obtain ⟨l, hl, rfl⟩ := Option.map_eq_some_iff.1 hn
      obtain ⟨i, hi, rfl⟩ := Option.map_eq_some_iff.1 hl
      rcases p.layout_cases i with entry | missing
      · exact hs _ (Array.mem_of_getElem? entry)
      · rw [missing]
        decide

theorem Measures.lt (hs : ∀ l ∈ p.structs, l.size < 4294967296) {ty : Ty} {size : Nat}
    {length : Option Nat} (h : p.Measures ty size length) : size < 4294967296 := by
  cases length with
  | none => exact sizeOf?_lt hs h
  | some length =>
    obtain ⟨_, _, -, -, -, -, hlt⟩ := h
    exact hlt

end Program

/-- What has storage takes at least one byte. -/
theorem Context.Finished.measures_pos {g : Grammar} {c : Context} (h : c.Finished g) {ty : Ty}
    {size : Nat} {length : Option Nat} (hm : c.program.Measures ty size length) : 0 < size := by
  cases length with
  | none => exact h.toSound.sizeOf?_pos hm
  | some length =>
    obtain ⟨element, n, -, hn, pos, rfl, -⟩ := hm
    exact Nat.mul_pos pos (h.toSound.sizeOf?_pos hn)

/-- What a program says of its storage. -/
structure Program.Exact (p : Program) : Prop where
  /-- Every structure has a name of its own, and its members fill it one behind the other. -/
  packed : ∀ l ∈ p.structs, p.layout? l.name = some l ∧ l.Packed
  /-- No structure contains itself, directly or through others. -/
  acyclic : ∀ name, ¬ Relation.TransGen p.Contains name name
  /-- Structures, members and variables take what the rules say, and never nothing. -/
  structs : ∀ l ∈ p.structs, p.Takes ⟨.struct l.name, 0⟩ none l.size ∧ 0 < l.size
  members : ∀ l ∈ p.structs, ∀ m ∈ l.members, p.Takes m.ty m.arrayLength m.size ∧ 0 < m.size
  symbols : ∀ v ∈ p.symbols, p.Takes v.ty (v.array.map ArraySpec.length) v.size ∧ 0 < v.size
  /-- Unless a structure is too large for the address space, nothing else is. -/
  bounded : (∀ l ∈ p.structs, (l.members.map Member.size).sum < 4294967296) →
    (∀ l ∈ p.structs, l.size < 4294967296 ∧ ∀ m ∈ l.members, m.size < 4294967296) ∧
    ∀ v ∈ p.symbols, v.size < 4294967296

theorem Program.ofSource_exact {g : Grammar} {source : String} {p : Program}
    (h : Program.ofSource g source = .ok p) : p.Exact := by
  have laid := Program.ofSource_laidOut h
  have tidy := Program.ofSource_tidy h
  obtain ⟨root, l, c, hroot, hlower, rfl⟩ := Program.ofSource_eq_ok h
  have hc := lower_finished hroot hlower
  have entry : ∀ l ∈ c.program.structs, ∃ i, c.program.structs[i]? = some l :=
    fun l hl => Array.mem_iff_getElem?.1 hl
  have found : ∀ {i : Nat} {l}, c.program.structs[i]? = some l → c.program.struct? l.name = some i :=
    fun hi => laid.maps.struct?_eq_some_iff.2 ⟨_, hi, rfl⟩
  refine ⟨fun l hl => ?_, tidy.not_contains_self laid.maps, fun l hl => ?_, fun l hl m hm => ?_, fun v hv => ?_,
    fun small => ?_⟩
  · obtain ⟨i, hi⟩ := entry l hl
    refine ⟨?_, tidy.packed laid hi⟩
    rw [Program.layout?, found hi, Option.map_some, Program.layout_eq hi]
  · obtain ⟨i, hi⟩ := entry l hl
    refine ⟨?_, (hc.tables.structs hi).stored⟩
    have taken := tidy.takes_struct laid (found hi)
    rwa [Program.layout_eq hi] at taken
  · obtain ⟨i, hi⟩ := entry l hl
    have measured := (laid.structs hi).measures hm
    exact ⟨tidy.takes laid measured, hc.measures_pos measured⟩
  · obtain ⟨i, hi⟩ := Array.mem_iff_getElem?.1 hv
    exact ⟨tidy.takes laid (laid.symbols hi), (hc.tables.symbols hi).stored⟩
  · have sizes : ∀ l ∈ c.program.structs, l.size < 4294967296 := by
      intro l hl
      obtain ⟨i, hi⟩ := entry l hl
      rw [(laid.structs hi).size]
      exact small l hl
    refine ⟨fun l hl => ⟨sizes l hl, fun m hm => ?_⟩, fun v hv => ?_⟩
    · obtain ⟨i, hi⟩ := entry l hl
      exact ((laid.structs hi).measures hm).lt sizes
    · obtain ⟨i, hi⟩ := Array.mem_iff_getElem?.1 hv
      exact (laid.symbols hi).lt sizes

namespace Session

/-- **Layouts are exact.**  The program of a session that has compiled a source says of its storage
what `Program.Exact` lists, and no run of it asks memory for a region of no bytes, whatever has become
of the machine, however long the run is and however it ends. -/
theorem layouts_exact {s t : Session} {source : String} (h : s.compile source = .ok t) :
    t.env.program.Exact ∧ ∀ u : Session, u.env = t.env → ∀ fuel name args loc,
      (u.callWithin fuel name args).1 ≠ .error (.fault (.memory .zeroSize loc)) := by
  obtain ⟨p, hp, rfl⟩ := compile_eq_ok.1 h
  refine ⟨Program.ofSource_exact hp, fun u hu fuel name args loc hf => ?_⟩
  obtain ⟨root, l, c, hroot, hlower, rfl⟩ := Program.ofSource_eq_ok hp
  have hr : Env.Runs { s.env with program := c.program } c := ⟨lower_finished hroot hlower, rfl⟩
  unfold callWithin at hf
  rw [hu] at hf
  split at hf
  · cases hf
  · rename_i stop machine hx
    cases hf
    cases Run.call_excludes hr hx

/-- Structures in structures and in arrays, with declarators that share a base type. -/
def nesting : String :=
  "struct Pair \x7b char tag; int *at, cells[3]; \x7d; "
    ++ "struct Tree \x7b struct Tree *left, *right; struct Pair pairs[2], own; char c; \x7d; "
    ++ "struct Tree forest[2]; int main() \x7b struct Pair p; return p.tag; \x7d"

theorem layouts_exact_nesting : ∃ t, (new .standard).compile nesting = .ok t ∧
    (t.env.program.layout? "Tree").map (fun l => (l.size, l.members.map fun m => (m.offset, m.size))) =
      some (60, [(0, 4), (4, 4), (8, 34), (42, 17), (59, 1)]) ∧
    t.env.program.Exact ∧ ∀ fuel name args loc,
      (t.callWithin fuel name args).1 ≠ .error (.fault (.memory .zeroSize loc)) := by
  have run : ((new .standard).compile nesting).toOption.map (fun t =>
      (t.env.program.layout? "Tree").map fun l => (l.size, l.members.map fun m => (m.offset, m.size))) =
      some (some (60, [(0, 4), (4, 4), (8, 34), (42, 17), (59, 1)])) := by
    rw [compile_of_toList nesting (toList_append_of_eq
      (toList_append_of_eq (String.ofList_eq.1 rfl) (String.ofList_eq.1 rfl)) (String.ofList_eq.1 rfl))]
    decide +kernel
  obtain ⟨t, ht, laid⟩ := Except.exists_ok_of_map run
  obtain ⟨exact_, never⟩ := layouts_exact ht
  exact ⟨t, ht, laid, exact_, never t rfl⟩

end Session

end MiniC
