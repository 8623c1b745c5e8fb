/-
  What a call does before its body runs.

  A call evaluates its arguments from left to right, opens a frame, gives each variable of the
  function a region of its own, stores the arguments in the parameters and tells of the frame.

  * `Engine.Solves`: arguments evaluated one after the other, with all that they tell of.
  * `Machine.Gives`: variables are given regions of zeros, and all bytes that were there stay.
  * `Machine.Bound`: each parameter holds its argument, and one write for each is heard of.
  * `Machine.Entered`: the machine on which the body of a function starts.
  * `Session.call_enters`: every call in a compiled program, in any state, comes to such a machine or
    stops before its body.
-/
import Mathlib.Data.List.Pairwise
import MiniC.Proofs.Cells
import MiniC.Proofs.FrameEvents

namespace MiniC

open Machine Run

/-! ## Arguments -/

/-- The expressions are evaluated one after the other, from the machine `m` to the machine `n`: each
on the machine that the one before it has left.  `told` is what they tell of, in this order. -/
inductive Engine.Solves (engine : Engine) :
    Machine → List Expr → List Value → List Event → Machine → Prop
  | nil {m : Machine} : Solves engine m [] [] [] m
  | cons {m m' n : Machine} {e : Expr} {es : List Expr} {v : Value} {vs : List Value}
      {told later : List Event} : engine.solve e m = .ok v m' → m'.events = m.events ++ told →
    Solves engine m' es vs later n → Solves engine m (e :: es) (v :: vs) (told ++ later) n

namespace Engine
variable {env : Env} {c : Context} {m n : Machine} {es : List Expr} {vs : List Value}

theorem Solves.length {engine : Engine} {told : List Event} (h : engine.Solves m es vs told n) :
    vs.length = es.length := by
  induction h with
  | nil => rfl
  | cons _ _ _ ih => rw [List.length_cons, List.length_cons, ih]

/-- What is observed only grows. -/
theorem solve_events (hr : env.Runs c) {fuel : Nat} {e : Expr} {v : Value}
    (h : (engine env fuel).solve e m = .ok v n) : ∃ told, n.events = m.events ++ told := by
  have like := (engine_framing hr fuel).execute e
  obtain ⟨r, n', told, run, -, hl, -⟩ := Likeness.solve like m
  have run : conclude (.ok v) n = conclude r n' := h.symm.trans run
  obtain ⟨-, rfl⟩ := conclude_inj run
  refine ⟨told, ?_⟩
  rw [Machine.events, hl, List.reverse_append, List.reverse_reverse]
  rfl

/-- **Arguments are evaluated from left to right**: all of them, or up to the first that stops. -/
theorem solveAll_spec (hr : env.Runs c) (fuel : Nat) (es : List Expr) (m : Machine) :
    (∃ vs told n, (engine env fuel).solveAll es m = .ok vs n ∧
      (engine env fuel).Solves m es vs told n) ∨
    ∃ before e after vs told n stop n', es = before ++ e :: after ∧
      (engine env fuel).Solves m before vs told n ∧ (engine env fuel).solve e n = .error stop n' ∧
      (engine env fuel).solveAll es m = .error stop n' := by
  induction es generalizing m with
  | nil => exact .inl ⟨[], [], m, rfl, .nil⟩
  | cons e es ih =>
    cases he : (engine env fuel).solve e m with
    | error stop n' =>
      exact .inr ⟨[], e, es, [], [], m, stop, n', rfl, .nil, he, bind_of_error he⟩
    | ok v m' =>
      obtain ⟨told, ht⟩ := solve_events hr he
      rcases ih m' with ⟨vs, later, n, run, solved⟩ | ⟨before, e', after, vs, later, n, stop, n', rfl,
        solved, stops, run⟩
      · refine .inl ⟨v :: vs, told ++ later, n, ?_, .cons he ht solved⟩
        exact bind_eq_ok.2 ⟨v, m', he, bind_eq_ok.2 ⟨vs, n, run, rfl⟩⟩
      · refine .inr ⟨e :: before, e', after, v :: vs, told ++ later, n, stop, n', rfl,
          .cons he ht solved, stops, ?_⟩
        exact (bind_of_ok he).trans (bind_of_error run)

end Engine

/-! ## Storage for variables -/

namespace Binding

/-- The address `x` lies in the storage that is bound. -/
def Covers (b : Binding) (x : Nat) : Prop :=
  b.address.toNat ≤ x ∧ x < b.address.toNat + b.size

/-- Two bindings share no byte. -/
def Apart (b b' : Binding) : Prop := ∀ x, b.Covers x → ¬ b'.Covers x

instance : Std.Symm Apart := ⟨fun _ _ h x hx hx' => h x hx' hx⟩

/-- What is told of a variable that has been given storage: the length of an array. -/
def shape? (p : Program) (b : Binding) : Option Event :=
  (p.symbol b.symbol).array.bind fun spec =>
    (p.symbol b.symbol).elementType?.map fun element => .array element b.address spec.length

end Binding

namespace Machine
variable {p : Program} {m m' m'' : Machine} {b : Binding} {bs bs' : List Binding}

/-- The string literals, the heap, the names of the active calls, the control and the way that control
goes are the same. -/
structure Alike (m m' : Machine) : Prop where
  strings : m'.strings = m.strings
  heap : m'.heap = m.heap
  callStack : m'.callStack = m.callStack
  pending : m'.pending = m.pending
  flow : m'.flow = m.flow
  control : m'.control = m.control

theorem Alike.refl (m : Machine) : m.Alike m := ⟨rfl, rfl, rfl, rfl, rfl, rfl⟩

theorem Alike.trans (h : m.Alike m') (h' : m'.Alike m'') : m.Alike m'' where
  strings := h'.strings.trans h.strings
  heap := h'.heap.trans h.heap
  callStack := h'.callStack.trans h.callStack
  pending := h'.pending.trans h.pending
  flow := h'.flow.trans h.flow
  control := h'.control.trans h.control

/-- Variables are bound in the innermost frame, in order, each to a new region of zeros of its size.
All bytes that were there stay, and arrays are told of. -/
structure Gives (p : Program) (m : Machine) (bs : List Binding) (m' : Machine) : Prop where
  frames : ∀ frame calls, m.frames.calls = frame :: calls → m'.frames =
    { m.frames with calls := { frame with latest := bs.reverse ++ frame.latest } :: calls }
  sizes : ∀ b ∈ bs, b.size = (p.symbol b.symbol).size
  fresh : ∀ b ∈ bs, ∀ x, b.Covers x → m.memory.view x = none
  zeros : ∀ b ∈ bs, ∀ x, b.Covers x → m'.memory.view x = some 0
  apart : bs.Pairwise Binding.Apart
  slots : ∀ b ∈ bs, (b.address, b.size) ∈ m'.memory.slots
  keptSlots : ∀ slot ∈ m.memory.slots, slot ∈ m'.memory.slots
  kept : ∀ x y, m.memory.view x = some y → m'.memory.view x = some y
  sound : m'.memory.Sound
  watched : m'.memory.watched = m.memory.watched
  events : m'.events = m.events ++ bs.filterMap (Binding.shape? p)
  alike : m.Alike m'

namespace Gives

theorem nil (h : m.memory.Sound) : m.Gives p [] m where
  frames _ _ hc := by
    rw [List.reverse_nil, List.nil_append, ← hc]
  sizes := nofun
  fresh := nofun
  zeros := nofun
  apart := .nil
  slots := nofun
  keptSlots _ hs := hs
  kept _ _ hy := hy
  sound := h
  watched := rfl
  events := (List.append_nil _).symm
  alike := .refl m

/-- Giving regions to some variables and then to others. -/
theorem append (h : m.Gives p bs m') (h' : m'.Gives p bs' m'') : m.Gives p (bs ++ bs') m'' where
  frames frame calls hc := by
    have first := h.frames frame calls hc
    rw [h'.frames _ _ (congrArg Frames.calls first), first]
    simp [List.append_assoc]
  sizes b hb := (List.mem_append.1 hb).elim (h.sizes b) (h'.sizes b)
  fresh b hb x hx := by
    rcases List.mem_append.1 hb with hb | hb
    · exact h.fresh b hb x hx
    · refine Option.eq_none_iff_forall_ne_some.2 fun y hy => ?_
      -- A byte that was not there behind the first part was not there in front of it.
      cases (h'.fresh b hb x hx).symm.trans (h.kept x y hy)
  zeros b hb x hx := by
    rcases List.mem_append.1 hb with hb | hb
    · exact h'.kept x 0 (h.zeros b hb x hx)
    · exact h'.zeros b hb x hx
  apart := by
    refine List.pairwise_append.2 ⟨h.apart, h'.apart, fun b hb b' hb' x hx hx' => ?_⟩
    cases (h'.fresh b' hb' x hx').symm.trans (h.zeros b hb x hx)
  slots b hb := by
    rcases List.mem_append.1 hb with hb | hb
    · exact h'.keptSlots _ (h.slots b hb)
    · exact h'.slots b hb
  keptSlots slot hs := h'.keptSlots slot (h.keptSlots slot hs)
  kept x y hy := h'.kept x y (h.kept x y hy)
  sound := h'.sound
  watched := h'.watched.trans h.watched
  events := by rw [h'.events, h.events, List.filterMap_append, List.append_assoc]
  alike := h.alike.trans h'.alike

end Gives

end Machine

namespace Engine
variable {env : Env} {engine : Engine} {m n : Machine} {id : SymbolId} {a : Address}

/-- An array that has been given storage is told of with its length, and nothing else happens. -/
theorem Folds.registerArray_eq_ok (h : engine.Folds) {p : Program} (size : Nat) {u : Unit}
    (hs : ∀ spec, (p.symbol id).array = some spec → spec.Measures p (p.symbol id))
    (hx : engine.registerArray (p.symbol id) a m = .ok u n) :
    n.memory = m.memory ∧ n.frames = m.frames ∧ m.Alike n ∧
      n.events = m.events ++ (Binding.shape? p ⟨id, a, size⟩).toList := by
  unfold registerArray at hx
  cases hspec : (p.symbol id).array with
  | none =>
    simp only [hspec, pure_eq_ok] at hx
    obtain ⟨-, rfl⟩ := hx
    refine ⟨rfl, rfl, .refl m, ?_⟩
    simp [Binding.shape?, hspec]
  | some spec =>
    have measures := hs spec hspec
    obtain ⟨w, hw, hlength⟩ := measures.constant
    obtain ⟨element, k, helement, -⟩ := measures.storage
    have element? : (p.symbol id).elementType? = some element := by
      rw [Symbol.elementType?, hspec]
      exact helement
    simp only [hspec, element?] at hx
    rcases h.solve hw m with hy | ⟨ty, hy⟩
    · rw [bind_of_error hy] at hx
      cases hx
    · rw [bind_of_ok hy] at hx
      obtain rfl := modify_eq_ok.1 hx
      refine ⟨rfl, rfl, ⟨rfl, rfl, rfl, rfl, rfl, rfl⟩, ?_⟩
      have length : w.toInt.toNat = spec.length := by omega
      simp [Binding.shape?, hspec, element?, Machine.events, Machine.tell, Machine.note, length]

/-- One variable is given a region. -/
theorem Folds.giveLocal_gives (h : engine.Folds) {memory : Memory} {u : Unit}
    (hs : ∀ spec, (env.program.symbol id).array = some spec →
      spec.Measures env.program (env.program.symbol id))
    (hm : m.memory.Sound)
    (ha : m.memory.allocate (env.program.symbol id).size = .ok (a, memory))
    (hx : engine.giveLocal env id a { m with memory } = .ok u n) :
    m.Gives env.program [⟨id, a, (env.program.symbol id).size⟩] n := by
  obtain ⟨_, k, hk, hx⟩ := bind_eq_ok.1 hx
  obtain ⟨frames, hb, rfl⟩ := bindLocal_eq_ok hk
  obtain ⟨hmemory, hframes, alike, events⟩ :=
    h.registerArray_eq_ok (env.program.symbol id).size hs hx
  have slots := hm.apart.slots_allocate ha
  obtain ⟨new, kept⟩ := hm.view_allocate ha
  exact
    { frames := fun frame calls hc => by
        rw [hframes]
        simp only [Frames.bind?, hc, Option.some.injEq] at hb
        exact hb.symm
      sizes := List.forall_mem_singleton.2 rfl
      fresh := List.forall_mem_singleton.2 fun x hx => (new x hx.1 hx.2).1
      zeros := List.forall_mem_singleton.2 fun x hx => hmemory ▸ (new x hx.1 hx.2).2
      apart := List.pairwise_singleton ..
      slots := List.forall_mem_singleton.2 (hmemory ▸ slots.mem_iff.2 List.mem_cons_self)
      keptSlots := fun slot hslot => hmemory ▸ slots.mem_iff.2 (List.mem_cons_of_mem _ hslot)
      kept := fun x y hy => hmemory ▸ kept x y hy
      sound := hmemory ▸ hm.allocate ha
      watched := hmemory ▸ (hm.placed ha).space.2
      events := by
        rw [events]
        cases hshape : Binding.shape? env.program ⟨id, a, (env.program.symbol id).size⟩ <;>
          simp [hshape] <;> rfl
      alike := ⟨alike.strings, alike.heap, alike.callStack, alike.pending, alike.flow, alike.control⟩ }

/-- **The variables of a function are given regions**, one after the other. -/
theorem Folds.allocateLocals_gives (h : engine.Folds) {ids : List SymbolId} {u : Unit}
    (hs : ∀ id ∈ ids, ∀ spec, (env.program.symbol id).array = some spec →
      spec.Measures env.program (env.program.symbol id))
    (hm : m.memory.Sound) (hx : engine.allocateLocals env ids m = .ok u n) :
    ∃ bs, bs.map Binding.symbol = ids ∧ m.Gives env.program bs n := by
  induction ids generalizing m with
  | nil =>
    obtain ⟨-, rfl⟩ := pure_eq_ok.1 hx
    exact ⟨[], rfl, .nil hm⟩
  | cons id ids ih =>
    rw [allocateLocals_cons_eq] at hx
    obtain ⟨a, k, ha, hx⟩ := bind_eq_ok.1 hx
    obtain ⟨memory, halloc, rfl⟩ := allocate_eq_ok.1 ha
    obtain ⟨_, k, hk, hx⟩ := bind_eq_ok.1 hx
    have first := h.giveLocal_gives (hs id List.mem_cons_self) hm halloc hk
    obtain ⟨bs, hbs, rest⟩ := ih (fun id' h' => hs id' (List.mem_cons_of_mem _ h')) first.sound hx
    exact ⟨_, by rw [List.singleton_append, List.map_cons, hbs], first.append rest⟩

end Engine

/-! ## Parameters -/

namespace Run
variable {m m' : Machine} {t : Ty} {a : Address} {loc : Location} {v : Value}

/-- A store changes memory and what has been observed. -/
theorem store_alike {u : Unit} (h : store ⟨a, t, false⟩ v loc m = .ok u m') : m.Alike m' := by
  rw [store_scalar] at h
  split at h
  · cases h
    unfold wrote
    split <;> exact ⟨rfl, rfl, rfl, rfl, rfl, rfl⟩
  · cases h

end Run

namespace Machine
variable {p : Program} {bs : List Binding} {m n : Machine}

/-- The parameters hold the values, each converted to the type of the parameter, at the addresses that
they have among the bindings `bs`.  `es` are the writes that put them there, one for each. -/
inductive Bound (p : Program) (bs : List Binding) (m : Machine) :
    List SymbolId → List Value → List Event → Prop
  | nil : Bound p bs m [] [] []
  | cons {b : Binding} {ids : List SymbolId} {v : Value} {vs : List Value} {es : List Event} :
    b ∈ bs → m.frames.address? b.symbol = some b.address →
    (∀ loc, loadPlace ⟨b.address, (p.symbol b.symbol).ty, false⟩ loc m =
      .ok (v.convert (p.symbol b.symbol).ty) m) →
    Bound p bs m ids vs es → Bound p bs m (b.symbol :: ids) (v :: vs)
      (.wrote b.address ((p.symbol b.symbol).ty.heard (v.convert (p.symbol b.symbol).ty).word) :: es)

theorem tell_events (m : Machine) (e : Event) : (m.tell e).events = m.events ++ [e] :=
  List.reverse_cons

/-- To tell of something leaves the parameters as they are. -/
theorem Bound.tell {ids : List SymbolId} {vs : List Value} {es : List Event}
    (h : m.Bound p bs ids vs es) (hs : ∀ id ∈ ids, (p.symbol id).ty.isScalar = true) (e : Event) :
    (m.tell e).Bound p bs ids vs es := by
  induction h with
  | nil => exact .nil
  | @cons b _ _ _ _ hb ha loads _ ih =>
    refine .cons hb ha (fun loc => ?_) (ih fun id hid => hs id (List.mem_cons_of_mem _ hid))
    have scalar := hs _ List.mem_cons_self
    have loaded := loads loc
    have same : (m.tell e).memory = m.memory := rfl
    rw [loadPlace_scalar scalar] at loaded ⊢
    rw [same]
    cases hw : m.memory.fetch b.address (p.symbol b.symbol).ty with
    | error e => simp [hw] at loaded
    | ok w =>
      simp only [hw] at loaded ⊢
      cases loaded
      rfl

/-- The binding of a parameter: a region that takes exactly one scalar of its type. -/
structure Takes (p : Program) (bs : List Binding) (m : Machine) (b : Binding) : Prop where
  mem : b ∈ bs
  address : m.frames.address? b.symbol = some b.address
  slot : (b.address, b.size) ∈ m.memory.slots
  scalar : (p.symbol b.symbol).ty.isScalar = true
  single : (p.symbol b.symbol).array = none
  size : b.size = (p.symbol b.symbol).ty.accessWidth

theorem Takes.whole {b : Binding} (h : m.Takes p bs b) :
    m.memory.Whole b.address (p.symbol b.symbol).ty.accessWidth :=
  Memory.whole_iff.2 ⟨b.address, b.size, h.slot, Nat.le_refl _, Nat.le_of_eq (by rw [h.size])⟩

theorem Takes.of_sameSlots {b : Binding} (h : m.Takes p bs b) (hf : n.frames = m.frames)
    (hs : m.memory.SameSlots n.memory) : n.Takes p bs b where
  mem := h.mem
  address := hf ▸ h.address
  slot := by rw [hs.slots]; exact h.slot
  scalar := h.scalar
  single := h.single
  size := h.size

/-- Values are put in parameters: their own bytes change, and nothing else does. -/
structure Passes (p : Program) (bs : List Binding) (m : Machine) (ids : List SymbolId)
    (vs : List Value) (n : Machine) : Prop where
  frames : n.frames = m.frames
  slots : m.memory.SameSlots n.memory
  sound : n.memory.Sound
  alike : m.Alike n
  others : ∀ x, (∀ b ∈ bs, b.symbol ∈ ids → ¬ b.Covers x) → n.memory.view x = m.memory.view x
  bound : ∃ es, n.Bound p bs ids vs es ∧
    n.events = m.events ++ if m.memory.watched then es else []

theorem Passes.nil (hm : m.memory.Sound) : m.Passes p bs [] [] m where
  frames := rfl
  slots := ⟨rfl, rfl, rfl⟩
  sound := hm
  alike := .refl m
  others _ _ := rfl
  bound := ⟨[], .nil, by rw [ite_self, List.append_nil]⟩

/-- One parameter is put before others that are apart from it. -/
theorem Passes.cons {k : Machine} {b : Binding} {ids : List SymbolId} {v : Value} {vs : List Value}
    (h : k.Passes p bs ids vs n) (hb : m.Takes p bs b) (alike : m.Alike k) (sound : k.memory.Sound)
    (puts : m.Puts b.address (p.symbol b.symbol).ty (v.convert (p.symbol b.symbol).ty).word k)
    (loads : ∀ loc, loadPlace ⟨b.address, (p.symbol b.symbol).ty, false⟩ loc k =
      .ok (v.convert (p.symbol b.symbol).ty) k)
    (apart : ∀ b' ∈ bs, b'.symbol ∈ ids → b.Apart b') :
    m.Passes p bs (b.symbol :: ids) (v :: vs) n := by
  have before := hb.of_sameSlots puts.frames puts.slots
  have after := before.of_sameSlots h.frames h.slots
  have loads' : ∀ loc, loadPlace ⟨b.address, (p.symbol b.symbol).ty, false⟩ loc n =
      .ok (v.convert (p.symbol b.symbol).ty) n := by
    intro loc
    refine loadPlace_of_same sound h.sound hb.scalar before.whole after.whole (fun x hle hlt => ?_)
      (loads loc)
    exact h.others x fun b' hb' hmem => apart b' hb' hmem x ⟨hle, by rw [hb.size]; exact hlt⟩
  obtain ⟨es, bound, events⟩ := h.bound
  exact
    { frames := h.frames.trans puts.frames
      slots := ⟨h.slots.slots.trans puts.slots.slots, h.slots.capacity.trans puts.slots.capacity,
        h.slots.watched.trans puts.slots.watched⟩
      sound := h.sound
      alike := alike.trans h.alike
      others := fun x hx => by
        rw [h.others x fun b' hb' hmem => hx b' hb' (List.mem_cons_of_mem _ hmem)]
        refine puts.bytes x ?_
        have outside := hx b hb.mem List.mem_cons_self
        unfold Binding.Covers at outside
        rw [hb.size] at outside
        omega
      bound := by
        refine ⟨_, .cons hb.mem after.address loads' bound, ?_⟩
        rw [events, puts.heard, puts.slots.watched]
        split <;> simp }

end Machine

namespace Engine
variable {env : Env} {bs : List Binding} {m : Machine}

/-- **The parameters get their arguments**, in order; none of them is refused. -/
theorem bindParams_passes {ids : List SymbolId} {vs : List Value} (hm : m.memory.Sound)
    (apart : ∀ b ∈ bs, ∀ b' ∈ bs, b.symbol ≠ b'.symbol → b.Apart b')
    (takes : ∀ id ∈ ids, ∃ b, b.symbol = id ∧ m.Takes env.program bs b) (hd : ids.Nodup)
    (hl : vs.length = ids.length) :
    ∃ n, bindParams env ids vs m = .ok () n ∧ m.Passes env.program bs ids vs n := by
  induction ids generalizing vs m with
  | nil =>
    obtain rfl := List.length_eq_zero_iff.1 hl
    exact ⟨m, rfl, .nil hm⟩
  | cons id ids ih =>
    obtain ⟨v, vs, rfl⟩ := List.exists_cons_of_length_eq_add_one hl
    obtain ⟨fresh, rest⟩ := List.nodup_cons.1 hd
    obtain ⟨b, rfl, hb⟩ := takes id List.mem_cons_self
    have isArray : (env.program.symbol b.symbol).isArray = false := by
      rw [Symbol.isArray, hb.single]
      rfl
    have place : variablePlace env b.symbol (env.program.symbol b.symbol).ty
        (env.program.symbol b.symbol).declaredAt m =
        .ok ⟨b.address, (env.program.symbol b.symbol).ty, false⟩ m := by
      simp [variablePlace, hb.address, isArray]
    obtain ⟨k, stored, sound, puts, loads⟩ := store_of_whole hm hb.scalar hb.whole v
      (env.program.symbol b.symbol).declaredAt
    obtain ⟨n, run, passes⟩ := ih sound (fun id' h' => by
      obtain ⟨b', hs', hb'⟩ := takes id' (List.mem_cons_of_mem _ h')
      exact ⟨b', hs', hb'.of_sameSlots puts.frames puts.slots⟩) rest (Nat.succ.inj hl)
    refine ⟨n, (bind_of_ok place).trans ((bind_of_ok stored).trans run), ?_⟩
    exact passes.cons hb (store_alike stored) sound puts loads fun b' hb' hmem =>
      apart b hb.mem b' hb' fun he => fresh (he ▸ hmem)

end Engine

/-! ## The start of a body -/

/-- `b` is the machine on which the body of `f` starts when it is called on the machine `n` with the
values `vs`.  Its frame has the bindings `bs`. -/
structure Machine.Entered (p : Program) (id : FunctionId) (f : Function) (vs : List Value)
    (bs : List Binding) (n b : Machine) : Prop where
  /-- One more frame is open. -/
  frames : b.frames = { n.frames with calls := ⟨id, f.name, bs.reverse⟩ :: n.frames.calls }
  /-- It binds the variables of the function, in the order of their declaration. -/
  locals : bs.map Binding.symbol = f.locals
  ascending : f.locals.Pairwise (· < ·)
  /-- Each has a region of its own that was not there before. -/
  sizes : ∀ x ∈ bs, x.size = (p.symbol x.symbol).size
  fresh : ∀ x ∈ bs, ∀ a, x.Covers a → n.memory.view a = none
  apart : bs.Pairwise Binding.Apart
  /-- All but the parameters are zero. -/
  zeros : ∀ x ∈ bs, x.symbol ∉ f.params → ∀ a, x.Covers a → b.memory.view a = some 0
  /-- No byte that was there has changed. -/
  kept : ∀ a y, n.memory.view a = some y → b.memory.view a = some y
  /-- The parameters hold the values.  First arrays are told of, then one write for each parameter is
  heard of, then the frame is told of. -/
  params : ∃ writes, b.Bound p bs f.params vs writes ∧
    b.events = n.events ++ bs.filterMap (Binding.shape? p) ++
      (if n.memory.watched then writes else []) ++
      [.enter f.name (n.frames.depth + 1) bs b.memory.allocatedBytes]
  /-- Nothing else has changed. -/
  alike : n.Alike b

/-- A variable of the innermost frame is found there. -/
theorem Frames.address?_of_mem {frames : Frames} {frame : Frame} {calls : List Frame} {b : Binding}
    (hc : frames.calls = frame :: calls) (hd : (frame.latest.map Binding.symbol).Nodup)
    (hb : b ∈ frame.latest) : frames.address? b.symbol = some b.address := by
  have found : frame.latest.find? (fun x => x.symbol = b.symbol) = some b := by
    cases hx : frame.latest.find? (fun x => x.symbol = b.symbol) with
    | none => exact absurd (List.find?_eq_none.1 hx b hb) (by simp)
    | some x =>
      have symbol : x.symbol = b.symbol := by simpa using List.find?_some hx
      rw [List.inj_on_of_nodup_map hd (List.mem_of_find?_eq_some hx) hb symbol]
  simp [Frames.address?, Frames.current?, Frame.address?, hc, found]

namespace Machine.Gives
variable {p : Program} {f : Function} {id : FunctionId} {bs : List Binding} {n m : Machine}

/-- In a new frame, the variables are found at the regions that they were given. -/
theorem address (h : Gives p { n with frames := n.frames.push id f.name } bs m)
    (hd : (bs.map Binding.symbol).Nodup) {b : Binding} (hb : b ∈ bs) :
    m.frames.address? b.symbol = some b.address := by
  have frames := h.frames ⟨id, f.name, []⟩ _ rfl
  rw [List.append_nil] at frames
  refine Frames.address?_of_mem (congrArg Frames.calls frames) ?_ (List.mem_reverse.2 hb)
  rw [List.map_reverse]
  exact List.nodup_reverse.2 hd

/-- The region of a parameter takes exactly one scalar of its type. -/
theorem takes (h : Gives p { n with frames := n.frames.push id f.name } bs m)
    (hbs : bs.map Binding.symbol = f.locals) (laid : p.LaidOut) (order : f.Ordered p)
    (scalar : ∀ v ∈ f.params, (p.symbol v).ty.isScalar = true) :
    ∀ v ∈ f.params, ∃ b, b.symbol = v ∧ m.Takes p bs b := by
  intro v hv
  have named := order.params.subset hv
  obtain ⟨b, hb, rfl⟩ := List.mem_map.1 (hbs ▸ named)
  have nodup : (bs.map Binding.symbol).Nodup := by
    rw [hbs]
    exact order.ascending.imp Nat.ne_of_lt
  have single := order.single _ hv
  have entry := Array.getElem?_eq_getElem (order.known _ named)
  rw [← Program.symbol_eq entry] at entry
  have size := laid.single entry single
  rw [Program.sizeOf?_of_isScalar (scalar _ hv)] at size
  exact ⟨b, rfl, hb, h.address nodup hb, h.slots b hb, scalar _ hv, single,
    (h.sizes b hb).trans (Option.some.inj size).symm⟩

end Machine.Gives

/-- The arrays among the variables of a function have the lengths that were declared. -/
theorem Env.Runs.measures {env : Env} {c : Context} {id : FunctionId} {f : Function}
    (hr : env.Runs c) (hf : env.program.functions[id]? = some f) {v : SymbolId} (hv : v ∈ f.locals)
    {spec : ArraySpec} (hs : (env.program.symbol v).array = some spec) :
    spec.Measures env.program (env.program.symbol v) := by
  have seen : c.Sees (some id) v :=
    .inr ⟨id, rfl, by rw [← hr.program, Program.function_eq hf]; exact hv⟩
  rw [hr.program] at hs ⊢
  exact (hr.finished.symbol seen).measures spec hs

namespace Engine
variable {env : Env} {c : Context} {m n : Machine} {id : FunctionId} {f : Function}
  {vs : List Value} {loc : Location}

/-- **A frame is set up**, unless a variable cannot be given a region. -/
theorem enterFrame_entered (fuel : Nat) (hr : env.Runs c) (laid : env.program.LaidOut)
    (ordered : env.program.Ordered) (hf : env.program.functions[id]? = some f) (hn : n.memory.Sound)
    (hl : vs.length = f.params.length) :
    (∃ stop k, (engine env fuel).allocateLocals env f.locals
        { n with frames := n.frames.push id f.name } = .error stop k ∧
      (engine env fuel).enterFrame env f vs { n with frames := n.frames.push id f.name } =
        .error stop k) ∨
    ∃ bs b, (engine env fuel).enterFrame env f vs { n with frames := n.frames.push id f.name } =
      .ok () b ∧ Entered env.program id f vs bs n b := by
  cases allocated : (engine env fuel).allocateLocals env f.locals
      { n with frames := n.frames.push id f.name } with
  | error stop k => exact .inl ⟨stop, k, rfl, bind_of_error allocated⟩
  | ok u m =>
    have order := ordered id f hf
    obtain ⟨bs, hbs, gives⟩ := (engine_folds env fuel).allocateLocals_gives
      (m := { n with frames := n.frames.push id f.name })
      (fun v hv spec hs => hr.measures hf hv hs) hn allocated
    have apart : ∀ b ∈ bs, ∀ b' ∈ bs, b.symbol ≠ b'.symbol → b.Apart b' := by
      intro b hb b' hb' hne
      exact gives.apart.forall hb hb' fun he => hne (by rw [he])
    have scalar : ∀ v ∈ f.params, (env.program.symbol v).ty.isScalar = true := by
      intro v hv
      rw [hr.program] at hf ⊢
      exact ((hr.finished.tables.functions hf).params v hv).2
    -- Parameters are written to regions of their own, so the other variables keep their zeros.
    obtain ⟨k, bound, passes⟩ := bindParams_passes gives.sound apart
      (gives.takes hbs laid order scalar)
      (order.params.nodup (order.ascending.imp Nat.ne_of_lt)) hl
    obtain ⟨writes, held, events⟩ := passes.bound
    have frames := passes.frames.trans (gives.frames ⟨id, f.name, []⟩ _ rfl)
    rw [List.append_nil] at frames
    have told : announceFrame k =
        .ok () (k.tell (.enter f.name (n.frames.depth + 1) bs k.memory.allocatedBytes)) := by
      simp [announceFrame, frames, Frames.current?, Frames.depth, Frame.bindings, Frames.push, emit]
    refine .inr ⟨bs, _, (bind_of_ok allocated).trans ((bind_of_ok bound).trans told), ?_⟩
    refine ⟨frames, hbs, order.ascending, gives.sizes, gives.fresh, gives.apart, ?_, ?_, ?_, ?_⟩
    · intro b hb hp x hx
      refine (passes.others x fun b' hb' hmem => ?_).trans (gives.zeros b hb x hx)
      exact apart b hb b' hb' (fun he => hp (he ▸ hmem)) x hx
    · intro x y hy
      refine (passes.others x fun b hb _ hx => ?_).trans (gives.kept x y hy)
      cases (gives.fresh b hb x hx).symm.trans hy
    · refine ⟨writes, held.tell scalar _, ?_⟩
      rw [tell_events, events, gives.events, gives.watched]
      rfl
    · have alike := (Alike.trans ⟨rfl, rfl, rfl, rfl, rfl, rfl⟩ gives.alike).trans passes.alike
      exact ⟨alike.strings, alike.heap, alike.callStack, alike.pending, alike.flow, alike.control⟩

/-! ## Calls -/

/-- How a body is closed depends on how it ends. -/
theorem closing_congr {x y : Run Unit} (h : x m = y n) : closing f x m = closing f y n := by
  have same : attempt x m = attempt y n := by rw [attempt, attempt, h]
  change EStateM.bind (attempt x) _ m = EStateM.bind (attempt y) _ n
  rw [EStateM.bind, EStateM.bind, same]

/-- A body that stops stops the call. -/
theorem closing_of_error {x : Run Unit} {stop : Stop} (h : x m = .error stop n) :
    ∃ n', closing f x m = .error stop n' := by
  obtain ⟨t, k, hk⟩ := leaveFrame_ok n
  exact ⟨_, closing_of_leave (r := .error stop) h hk⟩

end Engine

namespace Machine

/-- The machine in a call of the named function, which is without moments of its own so far. -/
def naming (m : Machine) (name : String) : Machine :=
  { m.afresh with callStack := name :: m.callStack }

/-- The machine after a call of `id` that was made on the machine `m` and has come to `n`. -/
def resumed (m : Machine) (id : FunctionId) (n : Machine) : Machine :=
  ended { n with callStack := n.callStack.tail } id m

end Machine

namespace Engine
variable {env : Env} {c : Context} {fuel : Nat} {m n : Machine} {id : FunctionId} {f : Function}
  {args : List Expr} {loc : Location}

/-- A call ends as its arguments and its body do. -/
theorem call_of {engine : Engine} {r : Except Stop (Option Value)}
    (h : (do let values ← engine.solveAll args
             engine.invoke env id values loc : Run (Option Value))
        (m.naming (env.program.function id).name) = conclude r n) :
    engine.call env id args loc m = conclude r (m.resumed id n) :=
  noted_conclude (named_conclude h)

/-- How a call of the function `f` goes on the machine `m`. -/
inductive Enters (env : Env) (engine : Engine) (id : FunctionId) (f : Function) (args : List Expr)
    (loc : Location) (m : Machine) : Prop
  /-- The arguments up to one are evaluated, this one stops, and so does the call. -/
  | argument {before after : List Expr} {e : Expr} {vs : List Value} {told : List Event}
      {n n' : Machine} {stop : Stop} : args = before ++ e :: after →
    engine.Solves (m.naming f.name) before vs told n → engine.solve e n = .error stop n' →
    engine.call env id args loc m = .error stop (m.resumed id n') → Enters env engine id f args loc m
  /-- All arguments are evaluated, and too many frames are open. -/
  | tooDeep {vs : List Value} {told : List Event} {n : Machine} :
    engine.Solves (m.naming f.name) args vs told n → env.config.maxDepth ≤ n.frames.depth →
    engine.call env id args loc m =
      .error (.fault (.stackOverflow env.config.maxDepth loc)) (m.resumed id n) →
    Enters env engine id f args loc m
  /-- All arguments are evaluated, and a variable cannot be given a region. -/
  | noRoom {vs : List Value} {told : List Event} {n k n' : Machine} {stop : Stop} :
    engine.Solves (m.naming f.name) args vs told n →
    engine.allocateLocals env f.locals { n with frames := n.frames.push id f.name } = .error stop k →
    engine.call env id args loc m = .error stop (m.resumed id n') → Enters env engine id f args loc m
  /-- All arguments are evaluated, the frame is set up, and the call ends as the body does that runs
  from there. -/
  | body {vs : List Value} {told : List Event} {bs : List Binding} {n b n' : Machine}
      {r : Except Stop (Option Value)} : engine.Solves (m.naming f.name) args vs told n →
    n.frames = m.frames → Entered env.program id f vs bs n b →
    closing f (engine.runBody env f loc) b = conclude r n' →
    engine.call env id args loc m = conclude r (m.resumed id n') → Enters env engine id f args loc m

theorem call_enters_of (hr : env.Runs c) (laid : env.program.LaidOut) (ordered : env.program.Ordered)
    (hf : env.program.functions[id]? = some f) (hl : args.length = f.params.length)
    (hm : m.memory.Sound) : Enters env (engine env fuel) id f args loc m := by
  have name : (env.program.function id).name = f.name := by rw [Program.function_eq hf]
  have run : ∀ {r n}, (do let values ← (engine env fuel).solveAll args
                          (engine env fuel).invoke env id values loc : Run (Option Value))
      (m.naming f.name) = conclude r n →
      (engine env fuel).call env id args loc m = conclude r (m.resumed id n) := by
    intro r n h
    exact call_of (name ▸ h)
  rcases solveAll_spec hr fuel args (m.naming f.name) with ⟨vs, told, n, solved, chain⟩ |
    ⟨before, e, after, vs, told, n, stop, n', parts, chain, stops, solved⟩
  · have kept := ((engine_calm env fuel).solveAll args).ok solved
    have blind : isolation.Like fun _ => (engine env fuel).solveAll args :=
      Likeness.solveAll fun _ _ => (engine_isolated env fuel).execute _
    have sound := (Blind.evolves_of_ok blind solved).sound hm
    have invoked : ∀ {r k}, (engine env fuel).invoke env id vs loc n = conclude r k →
        (engine env fuel).call env id args loc m = conclude r (m.resumed id k) := by
      intro r k h
      exact run ((bind_of_ok solved).trans h)
    rw [invoke_eq, Program.function_eq hf] at invoked
    by_cases deep : env.config.maxDepth ≤ n.frames.depth
    · exact .tooDeep chain deep (invoked (r := .error _) (framed_of_le deep))
    rw [framed_of_lt (Nat.not_le.1 deep)] at invoked
    have length : vs.length = f.params.length := chain.length.trans hl
    rcases enterFrame_entered fuel hr laid ordered hf sound length with
      ⟨stop, k, allocated, stops⟩ | ⟨bs, b, entered, entry⟩
    · obtain ⟨n', closed⟩ := closing_of_error (f := f) (bind_of_error stops)
      exact .noRoom chain allocated (invoked (r := .error _) closed)
    · rw [closing_congr (bind_of_ok entered)] at invoked
      cases hx : closing f ((engine env fuel).runBody env f loc) b with
      | ok v n' => exact .body (r := .ok v) chain kept.frames entry hx (invoked hx)
      | error stop n' => exact .body (r := .error stop) chain kept.frames entry hx (invoked hx)
  · exact .argument parts chain stops (run (r := .error stop) (bind_of_error solved))

end Engine

/-- The function and the arguments of a call. -/
def Expr.call? : Expr → Option (FunctionId × List Expr)
  | .mk (.call id args _) _ _ => some (id, args)
  | _ => none

theorem Expr.call?_eq_some {e : Expr} {id : FunctionId} {args : List Expr}
    (h : e.call? = some (id, args)) : ∃ allocates, e = .mk (.call id args allocates) e.ty e.loc := by
  unfold call? at h
  split at h
  · cases h
    exact ⟨_, rfl⟩
  · cases h

namespace Session

/-- **Call entry.**  Take a session that has compiled a source, any state of a run and any call in the
program.  The arguments are evaluated strictly from left to right,
each on the machine that the one before it has left, before anything else happens.  If one of them
stops, so does the call; the call also stops if too many frames are open or memory has no room for a
variable.  Else the body starts on a machine with one more frame, which binds the variables of the
function in the order of their declaration to new regions.  The parameters hold the values of the
arguments, converted to their types, all other variables are zero, no byte of any other region has
changed since the last argument was evaluated, and the writes that are heard of are one for each
parameter, in order. -/
theorem call_enters {config : Config} {s t u : Session} {source : String} {k : Option FunctionId}
    {m : Machine} {id : FunctionId} {args : List Expr} {allocates : Option StructId} {ty : Ty}
    {loc : Location} (hc : config.capacity.toNat ≤ 4294967296 - 4096) (hs : s.compile source = .ok t)
    (hu : u.Reachable config) (henv : u.env = t.env) (hm : u.Running k m)
    (he : u.env.program.Holds u.env.grammar (.mk (.call id args allocates) ty loc)) (fuel : Nat) :
    ∃ f, u.env.program.functions[id]? = some f ∧ args.length = f.params.length ∧
      Engine.Enters u.env (engine u.env fuel) id f args loc m := by
  obtain ⟨c, hr⟩ := runs_of_compile hs
  rw [← henv] at hr
  obtain ⟨p, hp, rfl⟩ := compile_eq_ok.1 hs
  have laid : u.env.program.LaidOut := henv ▸ Program.ofSource_laidOut hp
  have ordered : u.env.program.Ordered := henv ▸ Program.ofSource_ordered hp
  rw [hr.program] at he
  obtain ⟨j, typed⟩ := he.typed hr.finished
  cases typed with
  | call hf _ hargs _ =>
    rw [← hr.program] at hf
    exact ⟨_, hf, hargs.length_eq,
      Engine.call_enters_of hr laid ordered hf hargs.length_eq ((hm.spans hu).sound hc)⟩

/-- A function that has a number, a character and an array as variables and calls itself in an argument
of a call of itself. -/
def mixing : String :=
  "int mix(int n, char c) \x7b int a[2]; if (n) return mix(n - 1, mix(0, c)); return c; \x7d "
    ++ "int main() \x7b return mix(2, 300); \x7d"

theorem call_enters_mixing : ∃ t m args f vs told bs n b, (new .standard).compile mixing = .ok t ∧
    t.Running none m ∧ (f.locals, f.params) = ([6, 7, 8], [6, 7]) ∧
    (engine t.env 60).Solves (m.naming f.name) args vs told n ∧ vs.length = 2 ∧
    Entered t.env.program 4 f vs bs n b := by
  have run : ((new .standard).compile mixing).toOption.bind (fun t =>
      (t.env.program.functions[5]?.bind fun main => main.body.returned?).bind fun e =>
        e.call?.bind fun call => EStateM.run' (do
          Run.start t.env (engine t.env 9)
          let m ← get
          discard ((engine t.env 60).call t.env call.1 call.2 e.loc)
          pure (call.1, (t.env.program.function call.1).locals,
            (t.env.program.function call.1).params)) t.machine) =
        some (4, [6, 7, 8], [6, 7]) := by
    rw [compile_of_toList mixing
      (toList_append_of_eq (String.ofList_eq.1 rfl) (String.ofList_eq.1 rfl))]
    decide +kernel
  obtain ⟨t, compiled, run⟩ := Option.bind_eq_some_iff.1 run
  obtain ⟨e, returned, run⟩ := Option.bind_eq_some_iff.1 run
  obtain ⟨main, hmain, returned⟩ := Option.bind_eq_some_iff.1 returned
  obtain ⟨⟨id, args⟩, calls, run⟩ := Option.bind_eq_some_iff.1 run
  have ht := Except.eq_ok_of_toOption compiled
  obtain ⟨_, hx⟩ := run'_eq_some.1 run
  simp only [bind_eq_ok, get_eq_ok, pure_eq_ok, discard_eq_ok, Prod.mk.injEq] at hx
  obtain ⟨_, m, started, _, _, ⟨rfl, rfl⟩, _, n', ⟨v, called⟩, ⟨rfl, locals, params⟩, -⟩ := hx
  obtain ⟨allocates, heq⟩ := Expr.call?_eq_some calls
  have held : t.env.program.Holds t.env.grammar e := .returned hmain returned
  rw [heq] at held
  obtain ⟨f, hf, length, enters⟩ := call_enters (by decide) ht (.compile (.new .full) ht) rfl
    (.started started) held 60
  rw [Program.function_eq hf] at locals params
  cases enters with
  | argument _ _ _ stops | tooDeep _ _ stops | noRoom _ _ stops => cases called.symm.trans stops
  | body solved _ entered _ _ =>
    have two : args.length = 2 := by rw [length, params, List.length_cons, List.length_singleton]
    exact ⟨t, m, args, f, _, _, _, _, _, ht, .started started, by rw [locals, params], solved,
      solved.length.trans two, entered⟩

end Session

end MiniC
