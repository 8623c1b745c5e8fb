/-
  States inside of running functions.

  A run sets up the globals and the string literals and enters a function.  From then on the function
  acts (it executes expressions, performs statements, writes, tells of events), lets control go
  elsewhere, or enters another function, in any order (`Session.Running`).  This says nothing of
  which code belongs to which function: it takes in every state that a run comes to, and more.

  In all of them the live regions are shared out, every binding is as large as its variable, and all
  that the function can name has storage (`Session.Running.inside`).  Whatever the capacity of memory,
  its regions follow each other (`Session.Running.spans`).
-/
import MiniC.Proofs.Isolation
import MiniC.Proofs.Shapes

namespace MiniC

open Machine Run

/-- What a running function does without leaving its frame for good. -/
inductive Env.Acts (env : Env) : ∀ {α : Type}, Run α → Prop
  | execute (fuel : Nat) (e : Expr) : Acts env ((engine env fuel).execute e)
  | perform (fuel : Nat) (s : Stmt) : Acts env ((engine env fuel).perform s)
  | iterate (fuel : Nat) (l : Loop) : Acts env ((engine env fuel).iterate l)
  | builtin (b : Builtin) (loc : Location) : Acts env (Engine.builtin env b loc)
  | writeByte (a : Address) (b : UInt8) (loc : Location) : Acts env (writeByte a b loc)
  | writeWord (a : Address) (w : Word) (loc : Location) : Acts env (writeWord a w loc)
  | checkpoint (loc : Location) : Acts env (checkpoint loc)
  | emit (e : Event) : Acts env (emit e)

theorem Env.Acts.calm {env : Env} {α : Type} {x : Run α} (h : env.Acts x) : x.Calm fun _ => True := by
  have any : ∀ {Q : State → Prop} {β : Type} {y : Run β}, y.Calm Q → y.Calm fun _ => True :=
    fun hy => hy.mono fun _ _ => trivial
  cases h with
  | execute fuel e => exact any ((engine_calm env fuel).execute e)
  | perform fuel s => exact any ((engine_calm env fuel).perform s)
  | iterate fuel l => exact any ((engine_calm env fuel).iterate l)
  | builtin b loc => exact Engine.calm_builtin b loc
  | writeByte a b loc => exact any (calm_writeByte a b loc)
  | writeWord a w loc => exact any (calm_writeWord a w loc)
  | checkpoint loc => exact any (calm_checkpoint loc)
  | emit e => exact any (calm_emit e)

namespace Session

/-- The machines that runs of a session come to, in no function yet or inside of one.  A function
acts, and enters others, only while control goes on as usual. -/
inductive Running (u : Session) : Option FunctionId → Machine → Prop
  | started {fuel : Nat} {m : Machine} :
    Run.start u.env (engine u.env fuel) u.machine = .ok () m → Running u none m
  | entered {k : Option FunctionId} {m m' : Machine} {id : FunctionId} {f : Function} {fuel : Nat}
      {args : List Value} : Running u k m → m.Quiet → u.env.program.functions[id]? = some f →
    (engine u.env fuel).enterFrame u.env f args { m with frames := m.frames.push id f.name } =
      .ok () m' → Running u (some id) m'
  | acted {k : Option FunctionId} {m m' : Machine} {α : Type} {x : Run α} {a : α} :
    Running u k m → m.Quiet → u.env.Acts x → x m = .ok a m' → Running u k m'
  | turned {k : Option FunctionId} {m : Machine} (callStack : List String) (pending : Option Value)
      (flow : Flow) (control : Control) :
    Running u k m → Running u k { m with callStack, pending, flow, control }

end Session

/-! ## The space of memory -/

/-- A memory of the given capacity whose regions follow each other, by addresses of 32 bits if memories
of this capacity have no others. -/
structure Memory.Spans (n : UInt32) (m : Memory) : Prop where
  capacity : m.capacity = n
  apart : m.Apart
  sound : n.toNat ≤ 4294967296 - addressSpaceStart → m.Sound

theorem Memory.Spans.evolve {capacity : UInt32} {m m' : Memory} (h : m.Spans capacity)
    (he : m.Evolves m') : m'.Spans capacity :=
  ⟨he.capacity.trans h.capacity, he.apart h.apart, fun hc => he.sound (h.sound hc)⟩

theorem Run.Blind.evolves_of_ok {α : Type} {x : Run α} (hx : x.Blind) {m m' : Machine} {a : α}
    (h : x m = .ok a m') : m.memory.Evolves m'.memory := by
  obtain ⟨q, n, told, -, evolves, run⟩ := hx m
  obtain ⟨seen, hq⟩ := run m.log m.seen
  have ended : x m = conclude (.ok a) m' := h
  obtain ⟨-, rfl⟩ := conclude_inj (ended.symm.trans hq)
  exact evolves

theorem Env.Acts.blind {env : Env} {α : Type} {x : Run α} (h : env.Acts x) : x.Blind := by
  cases h with
  | execute fuel e => exact (engine_isolated env fuel).execute e
  | perform fuel s => exact (engine_isolated env fuel).perform s
  | iterate fuel l => exact (engine_isolated env fuel).iterate l
  | builtin b loc => exact isolation.builtin env b loc
  | writeByte a b loc => exact isolation.writeByte a b loc
  | writeWord a w loc => exact isolation.writeWord a w loc
  | checkpoint loc => exact blind_checkpoint loc
  | emit e => exact blind_emit e

namespace Session
variable {config : Config} {u : Session} {k : Option FunctionId} {m : Machine}

theorem Reachable.spans (h : u.Reachable config) : u.machine.memory.Spans config.capacity := by
  induction h with
  | new g => exact ⟨rfl, Memory.apart_empty _, Memory.sound_empty⟩
  | compile _ hs ih =>
    obtain ⟨p, -, rfl⟩ := compile_eq_ok.1 hs
    exact ⟨ih.capacity, Memory.apart_clear _, fun hc => (ih.sound hc).clear⟩
  | call fuel name args _ ih =>
    obtain ⟨m, hm, evolves⟩ := callWithin_keeps _ fuel name args
    rw [hm]
    exact ih.evolve evolves
  | reset _ ih => exact ⟨ih.capacity, Memory.apart_clear _, fun hc => (ih.sound hc).clear⟩
  | watching watched _ ih =>
    exact ⟨ih.capacity, ih.apart.watched watched, fun hc => (ih.sound hc).watched watched⟩
  | controlled _ _ ih | pictured _ _ ih | observe _ ih => exact ih

/-- **Inside of running functions memory spans what it does in the session.** -/
theorem Running.spans (hu : u.Reachable config) (h : u.Running k m) :
    m.memory.Spans config.capacity := by
  induction h with
  | @started fuel m hx =>
    have blind : isolation.Like fun _ => start u.env (engine u.env fuel) :=
      Likeness.start fun _ _ _ _ => (engine_isolated u.env fuel).execute _
    exact hu.spans.evolve (Blind.evolves_of_ok blind hx)
  | @entered k m m' id f fuel args _ _ _ hx ih =>
    have like := engine_isolated u.env fuel
    have locals : isolation.Like fun _ => (engine u.env fuel).allocateLocals u.env f.locals :=
      Likeness.allocateLocals fun _ _ _ _ => like.execute _
    have entry : isolation.Like fun _ => (engine u.env fuel).enterFrame u.env f args :=
      isolation.bind locals fun _ => isolation.bind (isolation.bindParams u.env f.params args) fun _ =>
        isolation.framed.announce
    have evolves := Blind.evolves_of_ok entry hx
    exact ih.evolve evolves
  | acted _ _ ha hx ih => exact ih.evolve (ha.blind.evolves_of_ok hx)
  | turned _ _ _ _ _ ih => exact ih

end Session

/-! ## Bindings and variables -/

/-- Every binding is as large as its variable. -/
def Machine.Sized (p : Program) (m : Machine) : Prop :=
  ∀ b ∈ m.bindings, b.size = (p.symbol b.symbol).size

namespace Machine
variable {p : Program} {m m' : Machine}

theorem Sized.of_frames (h : m.Sized p) (hf : m'.frames = m.frames) : m'.Sized p := by
  intro b hb
  rw [State.bindings, hf] at hb
  exact h b hb

theorem Sized.bind (h : m.Sized p) {id : SymbolId} {a : Address} {frames : Frames}
    (hb : m.frames.bind? id a (p.symbol id).size = some frames) : Sized p { m with frames } := by
  unfold Frames.bind? at hb
  split at hb
  · cases hb
  · rename_i frame calls hc
    cases hb
    intro b hb
    simp only [State.bindings, List.flatMap_cons, List.mem_append, List.mem_cons] at hb
    have old : b ∈ m.bindings → b.size = (p.symbol b.symbol).size := h b
    simp only [State.bindings, hc, List.flatMap_cons, List.mem_append] at old
    rcases hb with hb | (rfl | hb) | hb
    · exact old (.inl hb)
    · rfl
    · exact old (.inr (.inl hb))
    · exact old (.inr (.inr hb))

theorem Sized.bindGlobal (h : m.Sized p) (id : SymbolId) (a : Address) :
    Sized p { m with frames := m.frames.bindGlobal id a (p.symbol id).size } := by
  intro b hb
  simp only [State.bindings, Frames.bindGlobal, List.mem_append, List.mem_singleton] at hb
  rcases hb with (hb | rfl) | hb
  · exact h b (List.mem_append_left _ hb)
  · rfl
  · exact h b (List.mem_append_right _ hb)

end Machine

namespace Engine
variable {env : Env} {engine : Engine} {m m' : Machine}

theorem Calm.allocateLocals_sized (h : engine.Calm) {ids : List SymbolId} {u : Unit}
    (hx : engine.allocateLocals env ids m = .ok u m') (hm : m.Sized env.program) :
    m'.Sized env.program := by
  induction ids generalizing m with
  | nil => exact (pure_eq_ok.1 hx).2 ▸ hm
  | cons id ids ih =>
    simp only [allocateLocals_cons_eq, giveLocal, bind_eq_ok] at hx
    obtain ⟨a, n, ha, _, n', ⟨_, k, hk, hn'⟩, hx⟩ := hx
    obtain ⟨memory, -, rfl⟩ := allocate_eq_ok.1 ha
    obtain ⟨frames, hb, rfl⟩ := bindLocal_eq_ok hk
    have bound : Sized env.program { m with memory, frames } :=
      Sized.bind (m := { m with memory }) hm hb
    exact ih hx (bound.of_frames ((h.registerArray ..).ok hn').frames)

/-- What sets up a frame leaves the bindings as large as their variables. -/
theorem Calm.enterFrame_sized (h : engine.Calm) {f : Function} {args : List Value} {u : Unit}
    (hx : engine.enterFrame env f args m = .ok u m') (hm : m.Sized env.program) :
    m'.Sized env.program := by
  obtain ⟨_, n, hn, hx⟩ := bind_eq_ok.1 hx
  have kept := ((calm_bindParams f.params args).bind fun _ => calm_announceFrame).ok hx
  exact (h.allocateLocals_sized hn hm).of_frames kept.frames

end Engine

namespace Run
variable {env : Env} {engine : Engine} {m m' : Machine}

theorem allocateGlobals_sized (h : engine.Calm) {ids : List SymbolId} {u : Unit}
    (hx : allocateGlobals env engine ids m = .ok u m') (hm : m.Sized env.program) :
    m'.Sized env.program := by
  induction ids generalizing m with
  | nil => exact (pure_eq_ok.1 hx).2 ▸ hm
  | cons id ids ih =>
    simp only [allocateGlobals_cons, Engine.giveGlobal, bind_eq_ok, modify_eq_ok] at hx
    obtain ⟨a, k, ha, _, k', ⟨_, _, rfl, hk'⟩, hx⟩ := hx
    obtain ⟨memory, -, rfl⟩ := allocate_eq_ok.1 ha
    have bound := Sized.bindGlobal (m := { m with memory }) hm id a
    exact ih hx (bound.of_frames ((h.registerArray ..).ok hk').frames)

theorem start_sized (h : engine.Calm) {u : Unit} (hx : start env engine m = .ok u m')
    (hm : m.Sized env.program) : m'.Sized env.program := by
  obtain ⟨_, n, hn, hx⟩ := bind_eq_ok.1 hx
  exact (allocateGlobals_sized h hn hm).of_frames (allocateStrings_supplies.1 hx).1

end Run

/-! ## The invariant -/

/-- On a lawful machine all bindings are as large as their variables, and all that the function `k`
names has storage. -/
structure Machine.Inside (c : Context) (k : Option FunctionId) (m : Machine) : Prop where
  lawful : m.Lawful
  sized : m.Sized c.program
  supplied : m.Supplied c
  ready : ∀ f, k = some f → m.Ready c f

/-- **What holds inside of running functions.** -/
theorem Session.Running.inside {u : Session} {c : Context} {k : Option FunctionId} {m : Machine}
    (hr : u.env.Runs c) (hu : u.machine.Rested) (h : u.Running k m) : m.Inside c k := by
  induction h with
  | @started fuel m hx =>
    have calm := engine_calm u.env fuel
    have sized : u.machine.Sized u.env.program := by
      intro b hb
      rw [State.bindings, hu.frames] at hb
      cases hb
    refine ⟨((sets_start u.env calm).ok hu.based hx).lawful, ?_, ?_,
      fun _ hk => by cases hk⟩
    · exact hr.program ▸ start_sized calm hx sized
    · exact (start_supplies hr (engine_safe hr fuel)).1 hx
  | @entered k m m' id f fuel args _ hq hf hx ih =>
    have calm := engine_calm u.env fuel
    have ready := (Engine.Safe.enterFrame hr (engine_safe hr fuel) args f.name (hr.program ▸ hf)
      ih.supplied).1 hx
    have sized : Sized u.env.program { m with frames := m.frames.push id f.name } :=
      hr.program ▸ fun b hb => ih.sized b hb
    refine ⟨((calm.within_enterFrame hx).lawful ih.lawful hq).1, ?_, ready.toSupplied, ?_⟩
    · exact hr.program ▸ calm.enterFrame_sized hx sized
    · rintro _ ⟨⟩
      exact ready
  | acted _ hq ha hx ih =>
    -- Code leaves the frames as they were, so the storage of the names is where it was.
    have kept := ha.calm.ok hx
    refine ⟨(kept.lawful ih.lawful hq).1, ih.sized.of_frames kept.frames, ?_, fun f hf => ?_⟩
    · exact stable_supplied c _ _ kept.frames kept.strings ih.supplied
    · exact stable_ready c f _ _ kept.frames kept.strings (ih.ready f hf)
  | @turned k m _ _ _ _ _ ih =>
    refine ⟨ih.lawful.congr rfl rfl rfl rfl rfl, ih.sized, ?_, fun f hf => ?_⟩
    · exact stable_supplied c m _ rfl rfl ih.supplied
    · exact stable_ready c f m _ rfl rfl (ih.ready f hf)

/-! ## Reaching a function -/

namespace Session

/-- A run is set up, enters the function `id` without arguments and performs a statement. -/
def enters (u : Session) (fuel : Nat) (id : FunctionId) (f : Function) (first : Stmt) : Run Unit := do
  start u.env (engine u.env fuel)
  modify fun m => { m with frames := m.frames.push id f.name }
  (engine u.env fuel).enterFrame u.env f []
  (engine u.env fuel).perform first

theorem Running.of_enters {u : Session} {m : Machine} {fuel : Nat} {id : FunctionId} {f : Function}
    {first : Stmt} (hu : u.machine.Rested) (hf : u.env.program.functions[id]? = some f)
    (hx : u.enters fuel id f first u.machine = .ok () m) : u.Running (some id) m := by
  simp only [enters, bind_eq_ok, modify_eq_ok] at hx
  obtain ⟨_, n, hn, _, _, rfl, _, n', hn', hx⟩ := hx
  have calm := engine_calm u.env fuel
  have quiet := ((sets_start u.env calm).ok hu.based hn).quiet
  have quiet' := (calm.within_enterFrame hn').quiet quiet
  exact .acted (.entered (.started hn) quiet hf hn') quiet' (.perform fuel first) hx

end Session

end MiniC
