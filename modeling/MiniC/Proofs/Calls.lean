/-
  Calls keep what is held.

  Whatever a call does and however it ends, the frame that it opens is closed again, its regions are
  given up and no others, and the string literals, the names of the active calls and all other
  frames stay as they are.  This is proved of each rule for an engine of which it is known, and then
  by induction on the fuel for the engine that runs (`engine_calm`).
-/
import MiniC.Proofs.Ownership
import MiniC.Proofs.Plain

namespace MiniC

namespace State
variable {s : State} {a : Address} {n : Nat}

/-- A new region goes to one new owner. -/
theorem Owned.allocate (h : s.Owned) (s' : State) (ha : s.memory.allocate n = .ok (a, s'.memory))
    (hs : (s'.held ++ s'.heap).Perm (a :: (s.held ++ s.heap)))
    (hb : ∀ b ∈ s'.bindings, b ∈ s.bindings ∨ b.address = a ∧ b.size = n) :
    s'.Owned := by
  have hp := h.apart.slots_allocate ha
  refine ⟨(h.apart.allocate ha).1, ?_, fun b hbs => ?_⟩
  · exact hs.trans ((h.shared.cons a).trans (Memory.starts_perm hp).symm)
  · rcases hb b hbs with hb | ⟨rfl, rfl⟩
    · exact hp.mem_iff.2 (List.mem_cons_of_mem _ (h.sized b hb))
    · exact hp.mem_iff.2 List.mem_cons_self

/-- The address of a new region is no owner's yet. -/
theorem Owned.fresh (h : s.Owned) {memory : Memory} (ha : s.memory.allocate n = .ok (a, memory)) :
    a ∉ s.held ++ s.heap :=
  fun hmem => h.apart.fresh ha (h.shared.mem_iff.1 hmem)

end State

namespace Machine
variable {m m' : Machine} {a : Address} {n : Nat}

/-- A new region that is not for the heap leaves all others as they are. -/
theorem Persists.of_allocate (h : m.Owned) (ha : m.memory.allocate n = .ok (a, m'.memory))
    (hh : m'.heap = m.heap) (hs : m'.seen = m.seen) : m.Persists m' where
  held _ _ _ hk := (h.apart.slots_allocate ha).mem_iff.2 (List.mem_cons_of_mem _ hk)
  seen x hx := hs ▸ hx
  came b k := by
    rintro ⟨hb, hk⟩
    rw [hh] at hb
    rcases List.mem_cons.1 ((h.apart.slots_allocate ha).mem_iff.1 hk) with he | hk
    · cases he
      exact absurd (List.mem_append_right _ hb) (h.fresh ha)
    · exact .inl ⟨hb, hk⟩
  went _ _ := fun ⟨hb, hk⟩ =>
    .inl ⟨hh ▸ hb, (h.apart.slots_allocate ha).mem_iff.2 (List.mem_cons_of_mem _ hk)⟩

/-- A region that is given out to the heap is noted. -/
theorem Persists.of_granted (h : m.Owned) (ha : m.memory.allocate n = .ok (a, m'.memory))
    (hh : m'.heap = a :: m.heap) (hs : m'.seen = (m.note (.changed (.granted a n))).seen) :
    m.Persists m' where
  held _ _ _ hk := (h.apart.slots_allocate ha).mem_iff.2 (List.mem_cons_of_mem _ hk)
  seen x hx := hs ▸ .inr hx
  came b k := by
    rintro ⟨hb, hk⟩
    rw [hh] at hb
    rcases List.mem_cons.1 ((h.apart.slots_allocate ha).mem_iff.1 hk) with he | hk
    · cases he
      exact .inr (hs ▸ .inl rfl)
    · have hne : b ≠ a := by
        rintro rfl
        exact h.fresh ha (h.shared.mem_iff.2 (State.mem_starts.2 ⟨k, hk⟩))
      exact .inl ⟨(List.mem_cons.1 hb).resolve_left hne, hk⟩
  went _ _ := fun ⟨hb, hk⟩ => .inl ⟨hh ▸ List.mem_cons_of_mem _ hb,
    (h.apart.slots_allocate ha).mem_iff.2 (List.mem_cons_of_mem _ hk)⟩

end Machine

namespace Run
variable {m m' : Machine} {a : Address}
open Machine

/-! ## Regions -/

theorem allocate_eq_ok {size : Nat} {loc : Location} : allocate size loc m = .ok a m' ↔
    ∃ memory, m.memory.allocate size = .ok (a, memory) ∧ { m with memory } = m' := by
  simp only [allocate, bind_eq_ok, get_eq_ok]
  constructor
  · rintro ⟨_, _, ⟨rfl, rfl⟩, h⟩
    cases ha : m.memory.allocate size with
    | ok p =>
      obtain ⟨b, memory⟩ := p
      simp only [ha, bind_eq_ok, set_eq_ok, pure_eq_ok] at h
      obtain ⟨_, _, rfl, rfl, rfl⟩ := h
      exact ⟨memory, rfl, rfl⟩
    | error e => simp [ha] at h
  · rintro ⟨memory, ha, rfl⟩
    exact ⟨m, m, ⟨rfl, rfl⟩, by simp [ha]⟩

theorem allocate_error {size : Nat} {loc : Location} {e : Stop}
    (h : allocate size loc m = .error e m') : m' = m := by
  simp only [allocate, bind_eq_error, get_eq_ok, get_ne_error, false_or] at h
  obtain ⟨_, _, ⟨rfl, rfl⟩, h⟩ := h
  cases ha : m.memory.allocate size <;> simp [ha] at h
  exact h.2.symm

/-- A release changes memory, and notes where it is refused. -/
theorem release_frame (a : Address) (m : Machine) :
    ∃ t memory seen, release a m = .ok t { m with memory, seen } := by
  cases h : m.memory.free a with
  | ok memory => exact ⟨none, memory, m.seen, by simp [release, h]⟩
  | error e => exact ⟨some e, m.memory, (m.note (.refused a)).seen, by simp [release, h, note]⟩

/-- Whatever happens, giving up regions changes only memory. -/
theorem releaseAll_frame (as : List Address) (m : Machine) :
    ∃ t memory seen, releaseAll as m = .ok t { m with memory, seen } := by
  induction as generalizing m with
  | nil => exact ⟨none, m.memory, m.seen, rfl⟩
  | cons a as ih =>
    obtain ⟨t, memory, seen, h⟩ := release_frame a m
    obtain ⟨t', memory', seen', h'⟩ := ih { m with memory, seen }
    exact ⟨t.or t', memory', seen', by simp [releaseAll, h, h']⟩

theorem release_orderly {t : Option MemoryError} (h : release a m = .ok t m') (hm : m.Orderly) :
    m'.Orderly := by
  cases hf : m.memory.free a with
  | ok memory =>
    simp [release, hf] at h
    exact h.1 ▸ hm
  | error e =>
    simp [release, hf] at h
    exact h.1 ▸ hm.note (x := .refused a) fun _ _ _ _ he => by cases he

/-- Giving up regions makes no calls. -/
theorem releaseAll_orderly {as : List Address} {t : Option MemoryError}
    (h : releaseAll as m = .ok t m') (hm : m.Orderly) : m'.Orderly := by
  induction as generalizing m t with
  | nil =>
    obtain ⟨-, rfl⟩ := pure_eq_ok.1 h
    exact hm
  | cons a as ih =>
    simp only [releaseAll, bind_eq_ok, pure_eq_ok] at h
    obtain ⟨_, n, hn, _, k, hk, -, rfl⟩ := h
    exact ih hk (release_orderly hn hm)

/-- A region that is there is given up, and only this one. -/
theorem release_ok {rest : List Address} (hm : m.memory.Apart)
    (h : (a :: rest).Perm m.memory.starts) :
    ∃ memory, release a m = .ok none { m with memory } ∧ memory.Apart ∧
      rest.Perm memory.starts ∧ ∀ b ∈ rest, ∀ n, (b, n) ∈ memory.slots ↔ (b, n) ∈ m.memory.slots := by
  obtain ⟨memory, n, hf, hs, hp⟩ := hm.free (h.mem_iff.1 List.mem_cons_self)
  have hstarts := Memory.starts_perm hp
  have hd : (a :: rest).Nodup := h.nodup_iff.2 hm.nodup_starts
  refine ⟨memory, by simp [release, hf], hs, (h.trans hstarts).cons_inv, fun b hb k =>
    ⟨fun hk => hp.mem_iff.2 (List.mem_cons_of_mem _ hk), fun hk => ?_⟩⟩
  rcases List.mem_cons.1 (hp.mem_iff.1 hk) with he | hk
  · cases he
    exact absurd hb (List.nodup_cons.1 hd).1
  · exact hk

/-- **Regions that are there are given up, none is refused, and all others stay.** -/
theorem releaseAll_ok {as rest : List Address} (hm : m.memory.Apart)
    (h : (as ++ rest).Perm m.memory.starts) :
    ∃ memory, releaseAll as m = .ok none { m with memory } ∧ memory.Apart ∧
      rest.Perm memory.starts ∧ ∀ b ∈ rest, ∀ n, (b, n) ∈ memory.slots ↔ (b, n) ∈ m.memory.slots := by
  induction as generalizing m with
  | nil => exact ⟨m.memory, rfl, hm, h, fun _ _ _ => .rfl⟩
  | cons a as ih =>
    obtain ⟨memory, h1, hs, hp, hk⟩ := release_ok hm h
    obtain ⟨memory', h1', hs', hp', hk'⟩ := ih (m := { m with memory }) hs hp
    refine ⟨memory', by simp [releaseAll, h1, h1'], hs', hp', fun b hb n => ?_⟩
    exact (hk' b hb n).trans (hk b (List.mem_append_right _ hb) n)

end Run

open Machine Run

/-! ## Builtin functions -/

namespace Engine

theorem calm_malloc (size : Word) (loc : Location) : (malloc size loc).Calm fun _ => True := by
  unfold malloc
  refine calm_guard fun _ => ⟨fun {m _ m'} h => ?_, fun {m e m'} h => ?_⟩
  · simp only [bind_eq_ok, allocate_eq_ok, modify_eq_ok] at h
    obtain ⟨a, _, ⟨memory, ha, rfl⟩, rfl⟩ := h
    refine ⟨rfl, rfl, rfl, fun _ => trivial,
      fun _ ho => ho.note (x := .changed _) (fun _ _ _ _ he => by cases he), fun hl _ => ?_⟩
    have hfresh : a ∉ m.heap := fun hmem => hl.owned.fresh ha (List.mem_append_right _ hmem)
    have ho := hl.owned.allocate { m.toState with memory, heap := a :: m.heap }
      ha List.perm_middle fun b hb => .inl hb
    simp only [if_neg hfresh]
    refine ⟨⟨⟨ho.apart, ho.shared, ho.sized⟩, ?_⟩, .of_granted hl.owned ha rfl rfl⟩
    rintro x (rfl | hx)
    · trivial
    · exact hl.good x hx
  · simp only [bind_eq_error, modify_ne_error, and_false, exists_false, or_false] at h
    exact allocate_error h ▸ .refl m

/-- A heap block that is given up was the heap's own. -/
theorem kept_free (m : Machine) (ha : a ∈ m.heap) : ∃ t m', release a
    { m.note (.changed (.freed a)) with heap := m.heap.filter fun b => b ≠ a } = .ok t m' ∧
      Kept State.Quiet m m' := by
  obtain ⟨t, memory, seen, h⟩ := release_frame a
    { m.note (.changed (.freed a)) with heap := m.heap.filter fun b => b ≠ a }
  refine ⟨t, _, h, rfl, rfl, rfl, id, fun _ ho => release_orderly h
    (ho.note (x := .changed _) fun _ _ _ _ he => by cases he), fun hl _ => ?_⟩
  have hd : (m.held ++ m.heap).Nodup := hl.owned.shared.nodup_iff.2 hl.owned.apart.nodup_starts
  have hheap : m.heap.Perm (a :: m.heap.filter fun b => b ≠ a) := by
    have := List.perm_cons_erase ha
    rw [(List.nodup_append.1 hd).2.1.erase_eq_filter] at this
    simpa [bne, beq_eq_decide] using this
  have hp : (a :: (m.held ++ m.heap.filter fun b => b ≠ a)).Perm m.memory.starts :=
    (List.perm_middle.symm.trans (hheap.symm.append_left _)).trans hl.owned.shared
  obtain ⟨memory', h', hs, hp', hk⟩ :=
    release_ok (m := { m.note (.changed (.freed a)) with heap := m.heap.filter fun b => b ≠ a })
      hl.owned.apart hp
  rw [h'] at h
  cases h
  refine ⟨⟨⟨hs, hp', fun b hb => ?_⟩, ?_⟩, ⟨fun b hb n hn => ?_, fun x hx => .inr hx, ?_, ?_⟩⟩
  · exact (hk _ (List.mem_append_left _ (List.mem_append_left _ (List.mem_map_of_mem hb))) _).2
      (hl.owned.sized b hb)
  · rintro x (rfl | hx)
    · trivial
    · exact hl.good x hx
  · exact (hk b (List.mem_append_left _ hb) n).2 hn
  · rintro b n ⟨hb, hn⟩
    exact .inl ⟨(List.mem_filter.1 hb).1, (hk b (List.mem_append_right _ hb) n).1 hn⟩
  · rintro b n ⟨hb, hn⟩
    by_cases he : b = a
    · exact .inr (.inl (by rw [he]))
    · have hb' : b ∈ m.heap.filter fun b => b ≠ a := List.mem_filter.2 ⟨hb, by simpa using he⟩
      exact .inl ⟨hb', (hk b (List.mem_append_right _ hb') n).2 hn⟩

theorem calm_free (a : Address) (loc : Location) : (free a loc).Calm State.Quiet := by
  unfold free
  refine calm_ite (calm_pure _) ⟨fun {m _ m'} h => ?_, fun {m e m'} h => ?_⟩
  · simp only [bind_eq_ok, get_eq_ok] at h
    obtain ⟨_, _, ⟨rfl, rfl⟩, h⟩ := h
    by_cases ha : a ∈ m.heap
    · obtain ⟨t, n, hr, hk⟩ := kept_free m ha
      simp only [ha, not_true_eq_false, if_false, bind_eq_ok, modify_eq_ok, exists_eq_left', hr] at h
      cases t <;> simp at h
      exact h ▸ hk
    · simp [ha] at h
  · simp only [bind_eq_error, get_eq_ok, get_ne_error, false_or] at h
    obtain ⟨_, _, ⟨rfl, rfl⟩, h⟩ := h
    by_cases ha : a ∈ m.heap
    · obtain ⟨t, n, hr, hk⟩ := kept_free m ha
      simp only [ha, not_true_eq_false, if_false, bind_eq_error, modify_eq_ok, modify_ne_error,
        false_or, exists_eq_left', hr] at h
      cases t <;> simp at h
      exact h.2 ▸ hk
    · simp [ha] at h
      exact h.2 ▸ .refl m

section
variable {env : Env}

theorem calm_variablePlace (id : SymbolId) (ty : Ty) (loc : Location) :
    (variablePlace env id ty loc).Calm State.Quiet :=
  calm_get_bind fun _ => (calm_require ..).bind fun _ => calm_pure _

theorem calm_argument (id : SymbolId) (loc : Location) :
    (argument env id loc).Calm State.Quiet :=
  (calm_variablePlace ..).bind fun _ => calm_loadPlace ..

theorem calm_builtin (b : Builtin) (loc : Location) :
    (builtin env b loc).Calm fun _ => True := by
  have any : ∀ s : State, s.Quiet → True := fun _ _ => trivial
  cases b with
  | highlightIndex array index color =>
    exact (calm_argument ..).bind fun _ => (calm_argument ..).bind fun _ =>
      (calm_argument ..).bind fun _ => calm_get_bind fun _ => (calm_emit _).mono any
  | clearHighlight array => exact (calm_argument ..).bind fun _ => (calm_emit _).mono any
  | malloc size => exact (calm_argument ..).bind fun _ => calm_malloc ..
  | free pointer => exact (calm_argument ..).bind fun _ => (calm_free ..).mono any

theorem calm_bindParams (ids : List SymbolId) (vs : List Value) :
    (bindParams env ids vs).Calm State.Quiet := by
  induction ids generalizing vs with
  | nil => exact calm_pure _
  | cons id ids ih =>
    cases vs with
    | nil => exact calm_pure _
    | cons v vs => exact (calm_variablePlace ..).bind fun _ => (calm_store ..).bind fun _ => ih vs

theorem calm_announceFrame : announceFrame.Calm State.Quiet := by
  refine calm_get_bind fun m => ?_
  split
  · exact calm_pure _
  · exact calm_emit _

end

/-! ## Expressions -/

/-- An engine whose parts keep what is held. -/
structure Calm (engine : Engine) : Prop where
  execute : ∀ e, (engine.execute e).Calm State.Quiet
  perform : ∀ s, (engine.perform s).Calm State.Settled
  iterate : ∀ l, (engine.iterate l).Calm State.Settled

namespace Calm
variable {env : Env} {engine : Engine} (h : engine.Calm)
include h

theorem solve (e : Expr) : (engine.solve e).Calm State.Quiet :=
  (h.execute e).bind fun _ => calm_load ..

theorem place (e : Expr) : (engine.place e).Calm State.Quiet := by
  refine (h.execute e).bind fun r => ?_
  cases r with
  | value v => exact calm_fault _
  | place p => exact calm_pure p

theorem registerArray (symbol : Symbol) (a : Address) :
    (engine.registerArray symbol a).Calm State.Quiet := by
  unfold Engine.registerArray
  split
  · exact (h.solve _).bind fun _ => calm_emit _
  · exact calm_pure _

theorem binary (op : BinaryOp) (left right : Expr) (loc : Location) :
    (engine.binary op left right loc).Calm State.Quiet := by
  refine (h.solve left).bind fun l => ?_
  simp only
  split
  · exact calm_pure _
  · exact (h.solve right).bind fun _ => calm_guard fun _ => calm_require ..

theorem assign (dst src : Expr) (loc : Location) :
    (engine.assign env dst src loc).Calm State.Quiet := by
  unfold Engine.assign copyStruct storeValue
  refine calm_ite ((calm_require ..).bind fun _ => ?_) ?_
  · exact (h.place src).bind fun _ => (h.place dst).bind fun _ => (calm_readBytes ..).bind fun _ =>
      (calm_writeBytes ..).bind fun _ => calm_pure _
  · exact (h.solve src).bind fun _ => (h.place dst).bind fun _ => (calm_store ..).bind fun _ =>
      calm_pure _

theorem storeElements (f : FunctionId) (scope : Scope) (base : Address) (element : Ty)
    (nodes : List Node) (i : Nat) :
    (engine.storeElements env f scope base element i nodes).Calm State.Quiet := by
  induction nodes generalizing i with
  | nil => exact calm_pure _
  | cons node nodes ih =>
    unfold Engine.storeElements
    split
    · exact calm_fault _
    · exact (h.solve _).bind fun _ => (calm_displaced ..).bind fun _ => (calm_store ..).bind fun _ =>
        ih (i + 1)

theorem arrayAssign (dst : Expr) (values : List Node) (scope : Scope) (loc : Location) :
    (engine.arrayAssign env dst values scope loc).Calm State.Quiet := by
  refine (h.execute dst).bind fun r => ?_
  split
  · refine calm_get_bind fun m => ?_
    split
    · exact calm_fault _
    · exact (h.storeElements ..).bind fun _ => calm_pure _
  · exact calm_fault _

theorem solveAll (es : List Expr) : (engine.solveAll es).Calm State.Quiet := by
  induction es with
  | nil => exact calm_pure _
  | cons e es ih => exact (h.solve e).bind fun _ => ih.bind fun _ => calm_pure _

theorem runBody (env : Env) (f : Function) (loc : Location) :
    (engine.runBody env f loc).Calm fun _ => True := by
  unfold Engine.runBody
  split
  · exact (h.perform _).mono fun _ _ => trivial
  · exact calm_builtin ..
  · exact calm_fault _

end Calm

end Engine

/-! ## Frames -/

namespace Machine
variable {Q : State → Prop} {base m m' : Machine} {f : FunctionId} {name : String}

/-- `m` is inside a call that `base` has made: it has one frame more. -/
structure Within (Q : State → Prop) (base : Machine) (f : FunctionId) (name : String) (m : Machine) :
    Prop where
  frames : ∃ latest, m.frames = { base.frames with calls := ⟨f, name, latest⟩ :: base.frames.calls }
  strings : m.strings = base.strings
  callStack : m.callStack = base.callStack
  quiet : base.Quiet → Q m.toState
  orderly : base.Quiet → base.Orderly → m.Orderly
  persists : base.Lawful → base.Quiet → m.Lawful ∧ base.Persists m

theorem Within.lawful (h : Within Q base f name m) (hl : base.Lawful) (hq : base.Quiet) :
    m.Lawful ∧ Q m.toState ∧ base.Persists m := by
  obtain ⟨h1, h2⟩ := h.persists hl hq
  exact ⟨h1, h.quiet hq, h2⟩

theorem within_push (base : Machine) (f : FunctionId) (name : String) :
    Within State.Quiet base f name { base with frames := base.frames.push f name } where
  frames := ⟨[], rfl⟩
  strings := rfl
  callStack := rfl
  quiet hq := hq
  orderly _ ho := ho
  persists hl _ := by
    have ho : State.Owned { base.toState with frames := base.frames.push f name } :=
      ⟨hl.owned.apart, hl.owned.shared, hl.owned.sized⟩
    exact ⟨⟨ho, hl.good⟩, .of_slots rfl rfl fun _ => id⟩

theorem Within.held_subset (h : Within Q base f name m) : base.held ⊆ m.held := by
  obtain ⟨latest, hf⟩ := h.frames
  intro a ha
  simp only [State.held, State.bindings, hf, h.strings, List.flatMap_cons, List.map_append,
    List.mem_append] at ha ⊢
  tauto

theorem Within.step (h : Within State.Quiet base f name m) (k : Kept Q m m') :
    Within Q base f name m' where
  frames := by
    obtain ⟨latest, hf⟩ := h.frames
    exact ⟨latest, k.frames.trans hf⟩
  strings := k.strings.trans h.strings
  callStack := k.callStack.trans h.callStack
  quiet hq := k.quiet (h.quiet hq)
  orderly hq ho := k.orderly (h.quiet hq) (h.orderly hq ho)
  persists hl hq := by
    obtain ⟨h1, h2⟩ := h.persists hl hq
    obtain ⟨k1, k2⟩ := k.persists h1 (h.quiet hq)
    exact ⟨k1, h2.trans k2 h.held_subset⟩

/-- One more variable of the innermost frame has its region. -/
theorem Within.bind (h : Within State.Quiet base f name m) {id : SymbolId} {n : Nat} {a : Address}
    {memory : Memory} (ha : m.memory.allocate n = .ok (a, memory)) :
    ∃ frames, m.frames.bind? id a n = some frames ∧
      Within State.Quiet base f name { m with memory, frames } := by
  obtain ⟨latest, hf⟩ := h.frames
  refine ⟨_, by rw [hf]; rfl, ⟨⟨_, rfl⟩, h.strings, h.callStack, h.quiet, h.orderly, fun hl hq => ?_⟩⟩
  obtain ⟨h1, h2⟩ := h.persists hl hq
  have ho := h1.owned.allocate
    { m.toState with
      memory
      frames :=
        { base.frames with
          calls := ⟨f, name, ⟨id, a, n⟩ :: latest⟩ :: base.frames.calls } } ha
    (by
      simp only [State.held, State.bindings, hf, List.flatMap_cons, List.map_append, List.map_cons,
        List.append_assoc, List.cons_append]
      exact List.perm_middle)
    (fun b hb => by
      simp only [State.bindings, hf, List.flatMap_cons, List.mem_append, List.mem_cons,
        List.cons_append] at hb ⊢
      rcases hb with hb | rfl | hb
      · exact .inl (.inl hb)
      · exact .inr ⟨rfl, rfl⟩
      · exact .inl (.inr hb))
  exact ⟨⟨⟨ho.apart, ho.shared, ho.sized⟩, h1.good⟩,
    h2.trans (.of_allocate h1.owned ha rfl rfl) h.held_subset⟩

/-- The regions of the innermost frame are given up, none is refused, and all others stay. -/
theorem Within.released (h : Within Q base f name m) (hl : base.Lawful) (hq : base.Quiet)
    {latest : List Binding}
    (hf : m.frames = { base.frames with calls := ⟨f, name, latest⟩ :: base.frames.calls }) :
    ∃ memory, releaseAll (latest.map Binding.address) { m with frames := base.frames } =
        .ok none { m with frames := base.frames, memory } ∧
      Lawful { m with frames := base.frames, memory } ∧
      base.Persists { m with frames := base.frames, memory } := by
  obtain ⟨h1, h2⟩ := h.persists hl hq
  have hp : (latest.map Binding.address ++ (base.held ++ m.heap)).Perm m.memory.starts := by
    refine .trans ?_ h1.owned.shared
    simp only [State.held, State.bindings, hf, h.strings, List.flatMap_cons, List.map_append,
      ← List.append_assoc]
    exact (List.perm_append_comm.append_right _).append_right _ |>.append_right _
  obtain ⟨memory, hr, hs, hp', hk⟩ :=
    releaseAll_ok (m := { m with frames := base.frames }) h1.owned.apart hp
  have heap : ∀ a ∈ m.heap, ∀ n, (a, n) ∈ memory.slots ↔ (a, n) ∈ m.memory.slots :=
    fun a ha n => hk a (List.mem_append_right _ ha) n
  refine ⟨memory, hr, ⟨⟨hs, ?_, fun b hb => ?_⟩, h1.good⟩, ⟨fun a ha n hn => ?_, h2.seen, ?_, ?_⟩⟩
  · simpa only [State.held, State.bindings, h.strings] using hp'
  · refine (hk _ (List.mem_append_left _ (List.mem_append_left _ (List.mem_map_of_mem hb))) _).2 ?_
    exact h1.owned.sized b (by
      simp only [State.bindings, hf, List.flatMap_cons, List.mem_append] at hb ⊢
      tauto)
  · exact (hk a (List.mem_append_left _ ha) n).2 (h2.held a ha n hn)
  · exact fun a n hb => h2.came a n ⟨hb.1, (heap a hb.1 n).1 hb.2⟩
  · exact fun a n hb => (h2.went a n hb).imp_left fun hm => ⟨hm.1, (heap a hm.1 n).2 hm.2⟩

/-- **Closing a frame gives up its regions and no others.**  It leaves what a `return` has left. -/
theorem Within.leave (h : Within Q base f name m) :
    ∃ t m', Engine.leaveFrame m = .ok t m' ∧ m'.pending = m.pending ∧
      (base.Lawful → base.Quiet → t = none) ∧ Kept (fun _ => True) base m' := by
  obtain ⟨latest, hf⟩ := h.frames
  obtain ⟨t, memory, seen, hr⟩ :=
    releaseAll_frame (latest.map Binding.address) { m with frames := base.frames }
  refine ⟨t, tell { m with frames := base.frames, memory, seen } (.exit name), ?_, rfl,
    fun hl hq => ?_, ⟨rfl, h.strings, h.callStack, fun _ => trivial,
      fun hq ho => (releaseAll_orderly hr (h.orderly hq ho)).tell _, fun hl hq => ?_⟩⟩
  · simp [Engine.leaveFrame, Frames.pop, hf, hr, emit]
  · obtain ⟨memory', hr', -⟩ := h.released hl hq hf
    rw [hr'] at hr
    cases hr
    rfl
  · obtain ⟨memory', hr', hlaw, hk⟩ := h.released hl hq hf
    rw [hr'] at hr
    cases hr
    have hheld : State.held { m.toState with frames := base.frames, memory } = base.held :=
      State.held_congr rfl h.strings
    exact ⟨hlaw.tell _, hk.trans (.of_slots rfl rfl fun _ => .inr) fun a ha => hheld.symm ▸ ha⟩

end Machine

/-! ## Calls -/

namespace Engine.Calm
variable {env : Env} {engine : Engine} (h : engine.Calm)
include h

/-- However far the allocation of variables gets, the call is still under way. -/
theorem allocateLocals (env : Env) {base : Machine} {f : FunctionId} {name : String} (ids : List SymbolId) :
    ∀ {m : Machine}, Within State.Quiet base f name m →
      (∀ {u m'}, engine.allocateLocals env ids m = .ok u m' → Within State.Quiet base f name m') ∧
      ∀ {e m'}, engine.allocateLocals env ids m = .error e m' → Within State.Quiet base f name m' := by
  induction ids with
  | nil =>
    intro m hw
    simp only [Engine.allocateLocals, pure_eq_ok, pure_ne_error, false_imp_iff, implies_true, and_true]
    rintro _ _ ⟨-, rfl⟩
    exact hw
  | cons id ids ih =>
    intro m hw
    have step : ∀ {a n}, Run.allocate (env.program.symbol id).size (env.program.symbol id).declaredAt m =
        .ok a n → ∃ frames, n.frames.bind? id a (env.program.symbol id).size = some frames ∧
          Within State.Quiet base f name { n with frames } := by
      intro a n ha
      obtain ⟨memory, hm, rfl⟩ := allocate_eq_ok.1 ha
      exact hw.bind hm
    constructor
    · intro u m' hm
      simp only [Engine.allocateLocals, bind_eq_ok, get_eq_ok] at hm
      obtain ⟨a, n, ha, _, _, ⟨rfl, rfl⟩, hm⟩ := hm
      obtain ⟨frames, hb, hw'⟩ := step ha
      simp only [hb, bind_eq_ok, modify_eq_ok] at hm
      obtain ⟨_, _, rfl, _, k, hk, hm⟩ := hm
      exact (ih (hw'.step ((h.registerArray ..).ok hk))).1 hm
    · intro e m' hm
      simp only [Engine.allocateLocals, bind_eq_error, get_eq_ok, get_ne_error, false_or] at hm
      rcases hm with hm | ⟨a, n, ha, _, _, ⟨rfl, rfl⟩, hm⟩
      · exact allocate_error hm ▸ hw
      · obtain ⟨frames, hb, hw'⟩ := step ha
        simp only [hb, bind_eq_error, modify_eq_ok, modify_ne_error, false_or] at hm
        obtain ⟨_, _, rfl, hm | ⟨_, k, hk, hm⟩⟩ := hm
        · exact hw'.step ((h.registerArray ..).error hm)
        · exact (ih (hw'.step ((h.registerArray ..).ok hk))).2 hm

/-- A frame is set up, and the call is under way. -/
theorem within_enterFrame {f : Function} {id : FunctionId} {args : List Value} {m m' : Machine}
    {u : Unit} (hx : engine.enterFrame env f args { m with frames := m.frames.push id f.name } =
      .ok u m') : Within State.Quiet m id f.name m' := by
  obtain ⟨_, n, hn, hx⟩ := bind_eq_ok.1 hx
  have rest : (do bindParams env f.params args; announceFrame : Run Unit).Calm State.Quiet :=
    (calm_bindParams ..).bind fun _ => calm_announceFrame
  exact ((h.allocateLocals env f.locals (within_push m id f.name)).1 hn).step (rest.ok hx)

/-- However the body ends, the call is still under way. -/
theorem body {f : Function} {id : FunctionId} {args : List Value} {loc : Location} {m m' : Machine}
    {r : Except Stop Unit}
    (hr : Run.attempt (do engine.enterFrame env f args; engine.runBody env f loc)
      { m with frames := m.frames.push id f.name } = .ok r m') :
    Within (fun _ => True) m id f.name m' := by
  have locals := h.allocateLocals env f.locals (within_push m id f.name)
  have rest : (do bindParams env f.params args; announceFrame : Run Unit).Calm State.Quiet :=
    (calm_bindParams ..).bind fun _ => calm_announceFrame
  have run := h.runBody env f loc
  have any : ∀ {n}, Kept State.Quiet n m' → Kept (fun _ => True) n m' :=
    fun hk => hk.mono fun _ _ => trivial
  simp only [attempt_eq_ok, bind_eq_ok, bind_eq_error, enterFrame] at hr
  rcases hr with ⟨_, ⟨_, k, ⟨_, n, hl, hk⟩, hb⟩, -⟩ | ⟨e, (hl | ⟨_, n, hl, hk⟩) | ⟨_, k, ⟨_, n, hl, hk⟩, hb⟩, -⟩
  · exact ((locals.1 hl).step (rest.ok (bind_eq_ok.2 hk))).step (run.ok hb)
  · exact (locals.2 hl).step (any (.refl _))
  · exact (locals.1 hl).step (any (rest.error (bind_eq_error.2 hk)))
  · exact ((locals.1 hl).step (rest.ok (bind_eq_ok.2 hk))).step (any (run.error hb))

/-- **A call keeps what is held**, however it ends: no frame, too few bytes for its variables, a
fault in its body, no value. -/
theorem invoke (id : FunctionId) (args : List Value) (loc : Location) :
    (engine.invoke env id args loc).Calm State.Quiet := by
  refine calm_of_kept fun m => ?_
  rw [invoke_eq]
  by_cases deep : env.config.maxDepth ≤ m.frames.depth
  · exact ⟨.error (.fault _), m, framed_of_le deep, .refl m⟩
  rw [framed_of_lt (Nat.not_le.1 deep)]
  obtain ⟨r, n, ended⟩ := exists_conclude (do
    engine.enterFrame env (env.program.function id) args
    engine.runBody env (env.program.function id) loc)
    { m with frames := m.frames.push id (env.program.function id).name }
  obtain ⟨t, k, left, -, -, hm⟩ := (h.body (attempt_conclude ended)).leave
  refine ⟨_, _, closing_of_leave ended left, hm.frames, hm.strings, hm.callStack, fun _ => ⟨rfl, rfl⟩,
    hm.orderly, fun hl hq => ?_⟩
  obtain ⟨h1, h2⟩ := hm.persists hl hq
  exact ⟨h1.congr rfl rfl rfl rfl rfl, h2.congr rfl rfl rfl⟩

omit h in
theorem named {α : Type} {x : Run α} (name : String) (hx : x.Calm State.Quiet) :
    (Engine.named name x).Calm State.Quiet := by
  have outer : ∀ {m n : Machine}, Kept State.Quiet { m with callStack := name :: m.callStack } n →
      Kept State.Quiet m { n with callStack := n.callStack.tail } := by
    intro m n hk
    refine ⟨hk.frames, hk.strings, by rw [hk.callStack, List.tail_cons], hk.quiet, hk.orderly,
      fun hl hq => ?_⟩
    obtain ⟨h1, h2⟩ := hk.persists (hl.congr rfl rfl rfl rfl rfl) hq
    exact ⟨h1.congr rfl rfl rfl rfl rfl, h2.held, h2.seen, h2.came, h2.went⟩
  constructor
  · intro m a m' hm
    obtain ⟨n, hn, rfl⟩ := named_eq_ok.1 hm
    exact outer (hx.ok hn)
  · intro m e m' hm
    obtain ⟨n, hn, rfl⟩ := named_eq_error.1 hm
    exact outer (hx.error hn)

omit h in
/-- What is noted of a call that keeps what is held is good. -/
theorem noted {α : Type} {x : Run α} (f : FunctionId) (hx : x.Calm State.Quiet) :
    (Run.noted f x).Calm State.Quiet := by
  have note : ∀ {m n : Machine}, Kept State.Quiet m.afresh n → Kept State.Quiet m (n.ended f m) := by
    intro m n hk
    refine ⟨hk.frames, hk.strings, hk.callStack, hk.quiet, fun hq ho => ?_, fun hl hq => ?_⟩
    · rintro g before after meanwhile (he | hs | hs)
      · cases he
        exact hq
      · exact hk.orderly hq (fun _ _ _ _ hn => hn.elim) g before after meanwhile hs
      · exact ho g before after meanwhile hs
    have ho : m.afresh.Owned := ⟨hl.owned.apart, hl.owned.shared, hl.owned.sized⟩
    obtain ⟨h1, h2, h3⟩ := hk.lawful ⟨ho, fun _ hn => hn.elim⟩ hq
    have neutral : State.Neutral m.toState n.toState fun c => n.seen (.changed c) :=
      { frames := hk.frames
        strings := hk.strings
        callStack := hk.callStack
        quiet := h2
        outside := ho.outside_iff h1.owned hk.held h3.held
        came := h3.came
        went := h3.went }
    refine ⟨⟨⟨h1.owned.apart, h1.owned.shared, h1.owned.sized⟩, ?_⟩, ⟨h3.held, fun _ hx => .inr (.inr hx),
      fun a k hb => (h3.came a k hb).imp_right fun hx => .inr (.inl hx),
      fun a k hb => (h3.went a k hb).imp_right fun hx => .inr (.inl hx)⟩⟩
    rintro x (rfl | hx | hx)
    · exact neutral
    · exact h1.good x hx
    · exact hl.good x hx
  constructor
  · intro m a m' hm
    obtain ⟨n, hn, rfl⟩ := noted_eq_ok.1 hm
    exact note (hx.ok hn)
  · intro m e m' hm
    obtain ⟨n, hn, rfl⟩ := noted_eq_error.1 hm
    exact note (hx.error hn)

theorem call (id : FunctionId) (args : List Expr) (loc : Location) :
    (engine.call env id args loc).Calm State.Quiet :=
  noted id (named _ ((h.solveAll args).bind fun _ => h.invoke ..))

omit h in
theorem announceStruct (allocates : Option StructId) (returned : Option Value) :
    (announceStruct env allocates returned).Calm State.Quiet := by
  unfold Engine.announceStruct
  split
  · exact calm_ite (calm_emit _) (calm_pure _)
  · exact calm_pure _

/-- The rule of every expression keeps what is held. -/
theorem executeRule (e : Expr) : (executeRule env engine e).Calm State.Quiet := by
  obtain ⟨op, ty, loc⟩ := e
  unfold Engine.executeRule
  cases op with
  | const w => exact calm_pure _
  | str id => exact calm_get_bind fun _ => (calm_require ..).bind fun _ => calm_pure _
  | var id => exact (calm_variablePlace ..).bind fun _ => calm_pure _
  | member object offset array =>
    exact (h.place _).bind fun _ => (calm_displaced ..).bind fun _ => calm_pure _
  | deref pointer => exact (h.solve _).bind fun _ => calm_guard fun _ => calm_pure _
  | index base index scale =>
    exact (h.solve _).bind fun _ => (h.solve _).bind fun _ => calm_guard fun _ =>
      (calm_offsetAddress ..).bind fun _ => calm_pure _
  | addressOf place => exact (h.place _).bind fun _ => calm_pure _
  | unary op operand =>
    exact (h.solve _).bind fun _ => (calm_require ..).bind fun _ => calm_pure _
  | binary op left right => exact (h.binary ..).bind fun _ => calm_pure _
  | pointerOffset pointer offset scale subtract =>
    exact (h.solve _).bind fun _ => (h.solve _).bind fun _ =>
      (calm_offsetAddress ..).bind fun _ => calm_pure _
  | pointerDiff left right scale =>
    exact (h.solve _).bind fun _ => (h.solve _).bind fun _ => (calm_require ..).bind fun _ =>
      calm_pure _
  | call id args allocates =>
    exact (h.call ..).bind fun _ => (announceStruct ..).bind fun _ => calm_pure _
  | assign dst src => exact h.assign ..
  | arrayAssign dst values scope => exact (h.arrayAssign ..).bind fun _ => calm_pure _

/-! ## Statements -/

theorem performAll (ss : List Stmt) : (engine.performAll ss).Calm State.Settled := by
  induction ss with
  | nil => exact (calm_pure _).settled
  | cons s ss ih =>
    -- The statements behind `s` run only if it lets control go on, and then no value is left.
    have quiet : ∀ {n : Machine}, n.flow = .normal → n.Settled → n.Quiet := fun hf hs =>
      ⟨hs (by rw [hf]; simp), hf⟩
    constructor
    · intro m a m' hm
      simp only [Engine.performAll, bind_eq_ok, get_eq_ok] at hm
      obtain ⟨_, n, hn, _, _, ⟨rfl, rfl⟩, hm⟩ := hm
      have hk := (h.perform s).ok hn
      split at hm
      · exact hk.then_ (ih.ok hm) (quiet ‹_›)
      · cases hm
        exact hk
    · intro m e m' hm
      simp only [Engine.performAll, bind_eq_error, get_eq_ok, get_ne_error, false_or] at hm
      rcases hm with hm | ⟨_, n, hn, _, _, ⟨rfl, rfl⟩, hm⟩
      · exact (h.perform s).error hm
      · split at hm
        · exact ((h.perform s).ok hn).then_ (ih.error hm) (quiet ‹_›)
        · cases hm

/-- A round that lets the loop go on has ended quiet. -/
theorem round (body : Stmt) {m m' : Machine} {b : Bool} (hm : engine.round body m = .ok b m') :
    Kept State.Settled m m' ∧ (b = true → Kept State.Quiet m m') := by
  simp only [Engine.round, bind_eq_ok, get_eq_ok] at hm
  obtain ⟨_, n, hn, _, _, ⟨rfl, rfl⟩, hm⟩ := hm
  have hk := (h.perform body).ok hn
  have onward : n.flow ≠ .returns → Kept State.Quiet m { n with flow := .normal } := fun hf =>
    ⟨hk.frames, hk.strings, hk.callStack, fun hq => ⟨hk.quiet hq hf, rfl⟩, hk.orderly, fun hl hq => by
      obtain ⟨h1, h2⟩ := hk.persists hl hq
      exact ⟨h1.congr rfl rfl rfl rfl rfl, h2.congr rfl rfl rfl⟩⟩
  cases hf : n.flow <;> simp only [hf, bind_eq_ok, modify_eq_ok, pure_eq_ok] at hm
  · obtain ⟨rfl, rfl⟩ := hm
    have hq : Kept State.Quiet m n := by
      have := onward (by rw [hf]; simp)
      rwa [← hf] at this
    exact ⟨hk, fun _ => hq⟩
  · obtain ⟨_, _, rfl, rfl, rfl⟩ := hm
    exact ⟨(onward (by rw [hf]; simp)).mono fun _ => State.Quiet.settled, by simp⟩
  · obtain ⟨_, _, rfl, rfl, rfl⟩ := hm
    have hq := onward (by rw [hf]; simp)
    exact ⟨hq.mono fun _ => State.Quiet.settled, fun _ => hq⟩
  · obtain ⟨rfl, rfl⟩ := hm
    exact ⟨hk, by simp⟩

theorem round_error (body : Stmt) {m m' : Machine} {e : Stop}
    (hm : engine.round body m = .error e m') : Kept State.Quiet m m' := by
  simp only [Engine.round, bind_eq_error, get_eq_ok, get_ne_error, false_or] at hm
  rcases hm with hm | ⟨_, n, hn, _, _, ⟨rfl, rfl⟩, hm⟩
  · exact (h.perform body).error hm
  · cases hf : n.flow <;> simp [hf] at hm

/-- After a round comes what follows it, if the loop goes on. -/
theorem round_then (body : Stmt) {next : Run Unit} (hn : next.Calm State.Settled) :
    (do if ← engine.round body then next : Run Unit).Calm State.Settled := by
  constructor
  · intro m a m' hm
    obtain ⟨b, n, hb, hm⟩ := bind_eq_ok.1 hm
    obtain ⟨h1, h2⟩ := h.round body hb
    cases b with
    | true => exact (h2 rfl).trans (hn.ok hm)
    | false =>
      cases hm
      exact h1
  · intro m e m' hm
    rcases bind_eq_error.1 hm with hm | ⟨b, n, hb, hm⟩
    · exact h.round_error body hm
    · obtain ⟨h1, h2⟩ := h.round body hb
      cases b with
      | true => exact (h2 rfl).trans (hn.error hm)
      | false => cases hm

theorem holds (condition : Option Expr) : (engine.holds condition).Calm State.Quiet := by
  cases condition with
  | none => exact calm_pure _
  | some e => exact (h.solve e).bind fun _ => calm_pure _

theorem executeOption (e? : Option Expr) : (engine.executeOption e?).Calm State.Quiet := by
  cases e? with
  | none => exact calm_pure _
  | some e => exact calm_discard (h.execute e)

theorem iterateRule (l : Loop) : (iterateRule engine l).Calm State.Settled :=
  (h.holds _).bind fun _ => calm_ite
    (h.round_then _ ((h.executeOption _).bind fun _ => h.iterate l)) (calm_pure _).settled

theorem act (a : Action) : (engine.act a).Calm State.Settled := by
  have jump : ∀ pending flow, (flow ≠ .returns → pending = none) → ∀ m : Machine,
      Kept State.Settled m { m with pending, flow } := fun _ _ hp _ =>
    ⟨rfl, rfl, rfl, fun _ => hp, fun _ ho => ho, fun hl _ =>
      ⟨hl.congr rfl rfl rfl rfl rfl, .of_slots rfl rfl fun _ => id⟩⟩
  have leave : ∀ flow, flow ≠ .returns → ∀ m : Machine, Kept State.Settled m { m with flow } :=
    fun flow _ m => ⟨rfl, rfl, rfl, fun hq _ => hq.1, fun _ ho => ho, fun hl _ =>
      ⟨hl.congr rfl rfl rfl rfl rfl, .of_slots rfl rfl fun _ => id⟩⟩
  cases a with
  | expr e => exact (calm_discard (h.execute e)).settled
  | block body => exact h.performAll body
  | ifElse condition thenBranch elseBranch =>
    refine (h.solve condition).bind fun _ => calm_ite (h.perform thenBranch) ?_
    cases elseBranch with
    | none => exact (calm_pure _).settled
    | some s => exact h.perform s
  | whileLoop condition body => exact h.iterate _
  | doWhile body condition => exact h.round_then body (h.iterate _)
  | forLoop init condition increment body => exact (h.executeOption init).bind fun _ => h.iterate _
  | returns value =>
    cases value with
    | none => exact calm_modify (jump none .returns fun hr => absurd rfl hr)
    | some e =>
      exact (h.solve e).bind fun v => calm_modify (jump (some v) .returns fun hr => absurd rfl hr)
  | breaks => exact calm_modify (leave .breaks (by simp))
  | continues => exact calm_modify (leave .continues (by simp))
  | empty => exact (calm_pure _).settled

theorem performRule (s : Stmt) : (performRule engine s).Calm State.Settled := by
  unfold Engine.performRule
  split
  · exact h.performAll _
  · exact (calm_checkpoint _).bind fun _ => h.act _

end Engine.Calm

/-- **Whatever a run executes keeps what is held.** -/
theorem engine_calm (env : Env) (fuel : Nat) : (engine env fuel).Calm := by
  induction fuel with
  | zero => exact ⟨fun _ => calm_throw _, fun _ => calm_throw _, fun _ => calm_throw _⟩
  | succ n ih => exact ⟨ih.executeRule, ih.performRule, ih.iterateRule⟩

end MiniC
