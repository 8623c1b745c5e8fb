/-
  Storage over the life of a session.

  Whatever a session has compiled and run, and however much memory it has, the live regions are shared
  out among the globals, the frames, the string literals and the heap whenever something outside can
  look, and no region is given up that is not there (`storage_owned`).  Calls leave all but the heap as
  it was, and of the heap only blocks that are given out or given up meanwhile come or go; between runs
  only the heap is left (`calls_neutral`).
-/
import Mathlib.Data.List.Perm.Basic
import MiniC.Session
import MiniC.Proofs.Calls
import MiniC.Proofs.SourceText

namespace MiniC

open Machine Run

namespace Machine

/-- No call is under way on a lawful machine. -/
structure Based (m : Machine) : Prop where
  lawful : m.Lawful
  quiet : m.Quiet
  calls : m.frames.calls = []
  callStack : m.callStack = []

/-- Nothing runs on a lawful machine: only heap blocks are allocated. -/
structure Rested (m : Machine) : Prop where
  lawful : m.Lawful
  quiet : m.Quiet
  frames : m.frames = .empty
  strings : m.strings = #[]
  callStack : m.callStack = []

variable {m m' : Machine}

theorem Rested.based (h : m.Rested) : m.Based :=
  ⟨h.lawful, h.quiet, by rw [h.frames]; rfl, h.callStack⟩

theorem Based.step (h : m.Based) (k : Kept State.Quiet m m') : m'.Based := by
  obtain ⟨h1, h2, -⟩ := k.lawful h.lawful h.quiet
  exact ⟨h1, h2, by rw [k.frames, h.calls], by rw [k.callStack, h.callStack]⟩

theorem rested_idle (capacity : UInt32) : (idle capacity).Rested where
  lawful :=
    { owned := ⟨Memory.apart_empty capacity, .nil, by simp [State.bindings, idle, Frames.empty]⟩
      good := fun _ hx => hx.elim }
  quiet := ⟨rfl, rfl⟩
  frames := rfl
  strings := rfl
  callStack := rfl

theorem Rested.reset (h : m.Rested) : m.reset.Rested where
  lawful := by
    refine ⟨⟨Memory.apart_clear _, .refl _, ?_⟩, h.lawful.good⟩
    simp [State.bindings, Machine.reset, Frames.empty]
  quiet := ⟨rfl, rfl⟩
  frames := rfl
  strings := rfl
  callStack := rfl

end Machine

namespace Run
variable {m m' : Machine}

/-! ## Setting up a run -/

/-- A part of the set-up of a run, however it ends. -/
structure Sets {α : Type} (x : Run α) : Prop where
  ok : ∀ {m a m'}, m.Based → x m = .ok a m' → m'.Based
  error : ∀ {m e m'}, m.Based → x m = .error e m' → m'.Based

theorem sets_of_calm {α : Type} {x : Run α} (h : x.Calm State.Quiet) : x.Sets :=
  ⟨fun hm hx => hm.step (h.ok hx), fun hm hx => hm.step (h.error hx)⟩

theorem Sets.bind {α β : Type} {x : Run α} {f : α → Run β} (hx : x.Sets) (hf : ∀ a, (f a).Sets) :
    (x >>= f).Sets where
  ok hm h := by
    obtain ⟨a, n, h1, h2⟩ := bind_eq_ok.1 h
    exact (hf a).ok (hx.ok hm h1) h2
  error hm h := by
    rcases bind_eq_error.1 h with h1 | ⟨a, n, h1, h2⟩
    · exact hx.error hm h1
    · exact (hf a).error (hx.ok hm h1) h2

/-- A new region goes to the owner that `owner` adds to the machine. -/
theorem sets_allocate {size : Nat} {loc : Location} {owner : Address → Machine → Machine}
    {next : Address → Run Unit} (hn : ∀ a, (next a).Sets)
    (ho : ∀ {m : Machine} {a memory}, m.Based → m.memory.allocate size = .ok (a, memory) →
      (owner a { m with memory }).Based) :
    (do let a ← allocate size loc; modify (owner a); next a : Run Unit).Sets where
  ok hm h := by
    simp only [bind_eq_ok, allocate_eq_ok, modify_eq_ok] at h
    obtain ⟨a, _, ⟨memory, ha, rfl⟩, _, _, rfl, h⟩ := h
    exact (hn a).ok (ho hm ha) h
  error hm h := by
    simp only [bind_eq_error, allocate_eq_ok, modify_eq_ok, modify_ne_error, false_or] at h
    rcases h with h | ⟨a, _, ⟨memory, ha, rfl⟩, _, _, rfl, h⟩
    · exact allocate_error h ▸ hm
    · exact (hn a).error (ho hm ha) h

theorem sets_allocateGlobals (env : Env) {engine : Engine} (h : engine.Calm) (ids : List SymbolId) :
    (allocateGlobals env engine ids).Sets := by
  induction ids with
  | nil => exact sets_of_calm (calm_pure _)
  | cons id ids ih =>
    refine sets_allocate (fun _ => (sets_of_calm (h.registerArray ..)).bind fun _ => ih) ?_
    intro m a memory hm ha
    have ho := hm.lawful.owned.allocate
      { m.toState with
        memory
        frames := m.frames.bindGlobal id a (env.program.symbol id).size } ha
      (by
        simp only [State.held, State.bindings, Frames.bindGlobal, hm.calls, List.flatMap_nil,
          List.append_nil, List.map_append, List.map_cons, List.map_nil, List.append_assoc,
          List.cons_append, List.nil_append]
        exact List.perm_middle)
      (fun b hb => by
        simp only [State.bindings, Frames.bindGlobal, List.mem_append, List.mem_singleton] at hb ⊢
        rcases hb with (hb | rfl) | hb
        · exact .inl (.inl hb)
        · exact .inr ⟨rfl, rfl⟩
        · exact .inl (.inr hb))
    exact ⟨⟨⟨ho.apart, ho.shared, ho.sized⟩, hm.lawful.good⟩, hm.quiet, hm.calls, hm.callStack⟩

theorem sets_allocateStrings (texts : List String) : (allocateStrings texts).Sets := by
  induction texts with
  | nil => exact sets_of_calm (calm_pure _)
  | cons text texts ih =>
    refine sets_allocate (fun _ => (sets_of_calm (calm_writeBytes ..)).bind fun _ => ih) ?_
    intro m a memory hm ha
    have ho := hm.lawful.owned.allocate
      { m.toState with memory, strings := m.strings.push a } ha
      (by
        simp only [State.held, State.bindings, Array.toList_push, List.append_assoc]
        refine .trans (.append_left _ ?_) List.perm_middle
        exact List.perm_middle)
      (fun b hb => .inl hb)
    exact ⟨⟨⟨ho.apart, ho.shared, ho.sized⟩, hm.lawful.good⟩, hm.quiet, hm.calls, hm.callStack⟩

theorem sets_start (env : Env) {engine : Engine} (h : engine.Calm) : (start env engine).Sets :=
  (sets_allocateGlobals env h _).bind fun _ => sets_allocateStrings _

/-! ## The end of a run -/

/-- **The end of a run gives up all but the heap.** -/
theorem finish_rests (hm : m.Based) :
    ∃ m', finish m = .ok () m' ∧ m'.Rested ∧ m'.heap = m.heap ∧ m'.seen = m.seen := by
  have hglobals : (m.frames.globals.reverse.map Binding.address ++ (m.strings.toList ++ m.heap)).Perm
      m.memory.starts := by
    have := hm.lawful.owned.shared
    simp only [State.held, State.bindings, hm.calls, List.flatMap_nil, List.append_nil,
      List.append_assoc] at this
    exact .trans (((List.reverse_perm _).map _).append_right _) this
  obtain ⟨memory, h1, s1, p1, -⟩ :=
    releaseAll_ok (m := { m with frames := m.frames.dropGlobals }) hm.lawful.owned.apart hglobals
  obtain ⟨memory', h2, s2, p2, -⟩ :=
    releaseAll_ok (m := { m with frames := m.frames.dropGlobals, memory, strings := #[] }) s1 p1
  have hcalls : m.frames.dropGlobals = .empty := by
    rw [Frames.dropGlobals, hm.calls]
    rfl
  refine ⟨{ m with
    frames := m.frames.dropGlobals, memory := memory', strings := #[], callStack := []
    pending := none, flow := .normal }, ?_, ?_, rfl, rfl⟩
  · simp only [finish, bind_eq_ok, get_eq_ok, modify_eq_ok, discard_eq_ok]
    exact ⟨m, m, ⟨rfl, rfl⟩, (), _, rfl, (), _, ⟨none, h1⟩, _, _, ⟨rfl, rfl⟩, (), _, rfl, (), _,
      ⟨none, h2⟩, rfl⟩
  · refine ⟨⟨⟨s2, ?_, ?_⟩, hm.lawful.good⟩, ⟨rfl, rfl⟩, hcalls, rfl, rfl⟩
    · simp only [State.held, State.bindings, hcalls]
      exact p2
    · simp [State.bindings, hcalls, Frames.empty]

/-- The call that a run makes keeps what is held. -/
theorem calm_outermost (env : Env) (fuel : Nat) (id : FunctionId) (values : List Value) (f : Function) :
    (noted id (Engine.named f.name ((engine env fuel).invoke env id values f.definedAt))).Calm
      State.Quiet :=
  Engine.Calm.noted id (Engine.Calm.named f.name ((engine_calm env fuel).invoke id values f.definedAt))

/-- A run that is set up ends as its call does, with storage given up. -/
theorem call_eq_conclude {env : Env} {fuel : Nat} {name : String} {args : List Word} {id : FunctionId}
    {m₁ n k : Machine} {q : Except Stop (Option Value)} (hid : env.program.function? name = some id)
    (hargs : (env.program.function id).params.length = args.length)
    (hstart : start env (engine env fuel) m = .ok () m₁)
    (called : noted id (Engine.named (env.program.function id).name ((engine env fuel).invoke env id
      (List.zipWith (fun p w => Value.mk (env.program.symbol p).ty w)
        (env.program.function id).params args) (env.program.function id).definedAt)) m₁ = conclude q n)
    (finished : finish n = .ok () k) :
    call env fuel name args m = conclude (q.map (Option.map Value.word)) k := by
  rw [call, bind_of_ok (require_eq_ok.2 ⟨hid, rfl⟩)]
  simp only [hargs, ne_eq, not_true_eq_false, if_false]
  rw [bind_of_ok (attempt_conclude ((bind_of_ok hstart).trans called)), bind_of_ok finished]
  cases q <;> rfl

/-- A run that is refused at once does nothing, and any other one gives up what it has set up. -/
theorem call_rests {env : Env} {fuel : Nat} {name : String} {args : List Word} (hm : m.Rested) :
    (∀ {w m'}, call env fuel name args m = .ok w m' → m'.Rested) ∧
      ∀ {e m'}, call env fuel name args m = .error e m' → m'.Rested := by
  -- However the run ends, no call is under way then, so `finish` finds all that is to be given up.
  have run : ∀ {id values r n} {f : Function}, attempt (do
      start env (engine env fuel)
      noted id (Engine.named f.name ((engine env fuel).invoke env id values f.definedAt))) m =
      .ok r n → n.Based := by
    intro id values r n f hr
    have hs := (sets_start env (engine_calm env fuel)).bind fun _ =>
      sets_of_calm (calm_outermost env fuel id values f)
    rcases attempt_eq_ok.1 hr with ⟨_, hr, -⟩ | ⟨_, hr, -⟩
    · exact hs.ok hm.based hr
    · exact hs.error hm.based hr
  constructor
  · intro w m' h
    simp only [call, bind_eq_ok, require_eq_ok] at h
    obtain ⟨id, _, ⟨-, rfl⟩, h⟩ := h
    split at h
    · simp at h
    · simp only [bind_eq_ok, conclude_eq_ok, pure_eq_ok] at h
      obtain ⟨r, n, hr, _, k, hk, _, _, ⟨-, rfl⟩, -, rfl⟩ := h
      obtain ⟨k', hk', hrest, -⟩ := finish_rests (run hr)
      cases hk.symm.trans hk'
      exact hrest
  · intro e m' h
    simp only [call, bind_eq_error, require_eq_ok, require_eq_error] at h
    rcases h with ⟨-, -, rfl⟩ | ⟨id, _, ⟨-, rfl⟩, h⟩
    · exact hm
    · split at h
      · simp only [bind_eq_error, fault_eq_error, fault_ne_ok, false_and, exists_false, or_false] at h
        exact h.2 ▸ hm
      · simp only [bind_eq_error, attempt_ne_error, false_or, conclude_eq_error, pure_ne_error,
          and_false, exists_false, or_false] at h
        obtain ⟨r, n, hr, h⟩ := h
        obtain ⟨k, hk, hrest, -⟩ := finish_rests (run hr)
        simp only [hk, reduceCtorEq, false_or, EStateM.Result.ok.injEq] at h
        obtain ⟨_, _, ⟨-, rfl⟩, -, rfl⟩ := h
        exact hrest

end Run

/-! ## What a run has seen -/

namespace Engine
variable {env : Env} {engine : Engine} {m n k : Machine}

/-- A frame that has been set up is told of with the bindings that it has. -/
theorem enterFrame_told {f : Function} {args : List Value} {frame : Frame}
    (h : engine.enterFrame env f args m = .ok () n) (hf : n.frames.current? = some frame) :
    ∃ st : State, st.frames = n.frames ∧
      n.seen (.told (.enter frame.name n.frames.depth frame.bindings n.memory.allocatedBytes) st) := by
  obtain ⟨_, _, -, h⟩ := bind_eq_ok.1 h
  obtain ⟨_, k, -, h⟩ := bind_eq_ok.1 h
  obtain ⟨_, _, hk, h⟩ := bind_eq_ok.1 h
  obtain ⟨rfl, rfl⟩ := get_eq_ok.1 hk
  cases hc : k.frames.current? with
  | none =>
    rw [hc] at h
    cases h
    exact absurd hf (by simp [hc])
  | some top =>
    rw [hc] at h
    cases h
    obtain rfl := Option.some.inj (hc.symm.trans hf)
    exact ⟨k.toState, rfl, .inl rfl⟩

/-- What is seen while the frame of a call is set up has been seen when the call ends. -/
theorem Calm.invoke_seen (h : engine.Calm) {id : FunctionId} {args : List Value} {loc : Location}
    {r : Except Stop (Option Value)} (hl : m.Lawful) (hq : m.Quiet)
    (shallow : m.frames.depth < env.config.maxDepth)
    (entered : engine.enterFrame env (env.program.function id) args
      { m with frames := m.frames.push id (env.program.function id).name } = .ok () n)
    (run : engine.invoke env id args loc m = conclude r k) {y : Moment} (hy : n.seen y) : k.seen y := by
  have within := h.within_enterFrame entered
  obtain ⟨hl', hq', -⟩ := within.lawful hl hq
  obtain ⟨q, b, body⟩ := exists_conclude (engine.runBody env (env.program.function id) loc) n
  have kept : b.frames = n.frames ∧ b.seen y := by
    have calm := h.runBody env (env.program.function id) loc
    cases q with
    | ok u => exact ⟨(calm.ok body).frames, ((calm.ok body).persists hl' hq').2.seen y hy⟩
    | error e => exact ⟨(calm.error body).frames, ((calm.error body).persists hl' hq').2.seen y hy⟩
  obtain ⟨latest, hf⟩ := within.frames
  obtain ⟨t, k', -, -, leaves⟩ := leaveFrame_under (congrArg Frames.calls (kept.1.trans hf))
  obtain ⟨seen, gains, left⟩ := leaves b.control b.log b.seen
  rw [invoke_eq, framed_of_lt shallow,
    closing_of_leave ((bind_of_ok entered).trans body) left] at run
  obtain ⟨-, rfl⟩ := conclude_inj run
  exact gains.keeps y kept.2

end Engine

/-- The call that a run makes is noted with the state that the set-up has come to, and so is what is
seen while its frame is set up. -/
theorem Run.call_seen {env : Env} {fuel : Nat} {name : String} {args : List Word} {id : FunctionId}
    {m m₁ m' : Machine} {r : Except Stop (Option Word)} (hm : m.Rested)
    (hid : env.program.function? name = some id)
    (hargs : (env.program.function id).params.length = args.length)
    (hstart : start env (engine env fuel) m = .ok () m₁)
    (run : call env fuel name args m = conclude r m') :
    (∃ after meanwhile, after.heap = m'.heap ∧ m'.seen (.called id m₁.toState after meanwhile)) ∧
    ∀ n, (engine env fuel).enterFrame env (env.program.function id)
        (List.zipWith (fun p w => Value.mk (env.program.symbol p).ty w)
          (env.program.function id).params args)
        { m₁.afresh with
          callStack := (env.program.function id).name :: m₁.callStack
          frames := m₁.frames.push id (env.program.function id).name } = .ok () n →
      0 < env.config.maxDepth → ∀ y, n.seen y → m'.seen y := by
  have calm := engine_calm env fuel
  have based := (sets_start env calm).ok hm.based hstart
  let values := List.zipWith (fun p w => Value.mk (env.program.symbol p).ty w)
    (env.program.function id).params args
  let f := env.program.function id
  obtain ⟨q, n, invoked⟩ := exists_conclude ((engine env fuel).invoke env id values f.definedAt)
    { m₁.afresh with callStack := f.name :: m₁.callStack }
  have called := noted_conclude (f := id) (m := m₁) (Engine.named_conclude invoked)
  -- The end of the run gives up storage and forgets no moment.
  have rests : (Machine.ended { n with callStack := n.callStack.tail } id m₁).Based := by
    cases q with
    | ok v => exact based.step ((calm_outermost env fuel id values f).ok called)
    | error e => exact based.step ((calm_outermost env fuel id values f).error called)
  obtain ⟨k, finished, -, heap, seen⟩ := finish_rests rests
  obtain ⟨-, rfl⟩ := conclude_inj (run.symm.trans (call_eq_conclude hid hargs hstart called finished))
  rw [seen]
  refine ⟨⟨{ n with callStack := n.callStack.tail }, _, heap.symm, .inl rfl⟩,
    fun n' entered positive y hy => .inr (.inl ?_)⟩
  have shallow : m₁.frames.depth < env.config.maxDepth := by
    rw [Frames.depth, based.calls]
    exact positive
  have owned : m₁.afresh.Owned :=
    ⟨based.lawful.owned.apart, based.lawful.owned.shared, based.lawful.owned.sized⟩
  have fresh : m₁.afresh.Lawful := ⟨owned, fun _ hx => hx.elim⟩
  exact calm.invoke_seen (m := { m₁.afresh with callStack := f.name :: m₁.callStack })
    (fresh.congr rfl rfl rfl rfl rfl) based.quiet shallow entered invoked hy

/-! ## Sessions -/

namespace Session

/-- The sessions that come from compiling, calling and forgetting, in any order and with any control,
on a machine of the given configuration. -/
inductive Reachable (config : Config) : Session → Prop
  | new (g : Grammar) : Reachable config { new config with env := ⟨g, config, .initial⟩ }
  | compile {s s' : Session} {source : String} :
    Reachable config s → s.compile source = .ok s' → Reachable config s'
  | call {s : Session} (fuel : Nat) (name : String) (args : List Word) :
    Reachable config s → Reachable config (s.callWithin fuel name args).2
  | reset {s : Session} : Reachable config s → Reachable config s.reset
  | controlled {s : Session} (control : Control) :
    Reachable config s → Reachable config (s.controlled control)
  | watching {s : Session} (watched : Bool) :
    Reachable config s → Reachable config (s.watching watched)
  | pictured {s : Session} (pictured : Bool) :
    Reachable config s → Reachable config { s with pictured }
  | observe {s : Session} : Reachable config s → Reachable config s.observe.2

theorem rested_callWithin {s : Session} (h : s.machine.Rested) (fuel : Nat) (name : String)
    (args : List Word) : (s.callWithin fuel name args).2.machine.Rested := by
  unfold callWithin
  split
  · exact (call_rests h).1 ‹_›
  · exact (call_rests h).2 ‹_›

theorem callWithin_eq {s u : Session} {fuel : Nat} {name : String} {args : List Word}
    {r : Except Stop (Option Word)} (h : s.callWithin fuel name args = (r, u)) :
    Run.call s.env fuel name args s.machine = Run.conclude r u.machine := by
  unfold callWithin at h
  split at h <;> cases h <;> assumption

theorem compile_eq_ok {s s' : Session} {source : String} : s.compile source = .ok s' ↔
    ∃ p, Program.ofSource s.env.grammar source = .ok p ∧ { s.load p with source } = s' := by
  unfold Session.compile
  cases Program.ofSource s.env.grammar source <;> simp [bind, Except.bind, pure, Except.pure]

theorem compile_of_toList {s : Session} (source : String) {cs : List Char} (h : cs = source.toList) :
    s.compile source = (Program.ofChars s.env.grammar cs).map fun p => { s.load p with source } := by
  rw [Session.compile, Program.ofSource_of_toList source h]
  cases Program.ofChars s.env.grammar cs <;> rfl

/-- **Between runs only heap blocks stay allocated**, and all that has been seen was good. -/
theorem Reachable.rested {config : Config} {s : Session} (h : Reachable config s) :
    s.machine.Rested := by
  induction h with
  | new g => exact rested_idle _
  | compile _ hs ih =>
    obtain ⟨p, -, rfl⟩ := compile_eq_ok.1 hs
    exact ih.reset
  | call fuel name args _ ih => exact rested_callWithin ih fuel name args
  | reset _ ih => exact ih.reset
  | controlled control _ ih =>
    exact ⟨ih.lawful.congr rfl rfl rfl rfl rfl, ih.quiet, ih.frames, ih.strings, ih.callStack⟩
  | watching watched _ ih =>
    exact ⟨⟨⟨ih.lawful.owned.apart.watched watched, ih.lawful.owned.shared, ih.lawful.owned.sized⟩,
      ih.lawful.good⟩, ih.quiet, ih.frames, ih.strings, ih.callStack⟩
  | pictured _ _ ih => exact ih
  | observe _ ih =>
    exact ⟨ih.lawful.congr rfl rfl rfl rfl rfl, ih.quiet, ih.frames, ih.strings, ih.callStack⟩

/-- The live addresses of a symbol are addresses of bindings. -/
theorem nodup_liveAddresses {s : State} (h : s.Owned) (id : SymbolId) :
    (s.frames.liveAddresses id).Nodup := by
  have hall : (s.held ++ s.heap).Nodup := h.shared.nodup_iff.2 h.apart.nodup_starts
  have hd : (s.bindings.map Binding.address).Nodup :=
    (List.nodup_append.1 (List.nodup_append.1 hall).1).1
  have hp : (s.frames.globals ++ s.frames.calls.reverse.flatMap Frame.bindings).Perm s.bindings :=
    .append_left _ (.flatMap (List.reverse_perm _) fun f _ => List.reverse_perm _)
  exact ((hp.map _).nodup_iff.2 hd).sublist (List.filter_sublist.map _)

theorem mem_starts_iff {m : Memory} {a : Address} : a ∈ m.starts ↔ ∃ r ∈ m.regions, r.start = a := by
  simp [Memory.starts]

theorem mem_slots_iff {m : Memory} {a : Address} {n : Nat} :
    (a, n) ∈ m.slots ↔ ∃ r ∈ m.regions, r.start = a ∧ r.size = n := by
  simp [Memory.slots]

/-- **The live regions are shared out.**  Whatever a session has done on a memory of any capacity,
whenever something outside is told of an event and between any two uses of the session: the bindings
of the globals and of all frames, the string literals and the heap blocks have distinct addresses,
these are the addresses of the live regions, each binding is as large as its region, and the live
calls have each variable at an address of their own.  No region has been asked for back that was not
there. -/
theorem storage_owned {config : Config} {s : Session} (h : s.Reachable config) :
    (∀ st : State, (st = s.machine.toState ∨ ∃ e, s.machine.seen (.told e st)) →
      (st.bindings.map Binding.address ++ st.strings.toList ++ st.heap).Nodup ∧
      (∀ a, a ∈ st.bindings.map Binding.address ++ st.strings.toList ++ st.heap ↔
        ∃ r ∈ st.memory.regions, r.start = a) ∧
      (∀ b ∈ st.bindings, ∃ r ∈ st.memory.regions, r.start = b.address ∧ r.size = b.size) ∧
      ∀ id, (st.frames.liveAddresses id).Nodup) ∧
    ∀ a, ¬ s.machine.seen (.refused a) := by
  have hr := h.rested
  refine ⟨fun st hst => ?_, fun a ha => hr.lawful.good _ ha⟩
  have ho : st.Owned := by
    rcases hst with rfl | ⟨e, he⟩
    · exact hr.lawful.owned
    · exact hr.lawful.good _ he
  refine ⟨ho.shared.nodup_iff.2 ho.apart.nodup_starts, fun a => ?_, fun b hb => ?_,
    nodup_liveAddresses ho⟩
  · exact ho.shared.mem_iff.trans mem_starts_iff
  · exact mem_slots_iff.1 (ho.sized b hb)

/-- A program that allocates at each depth of a recursion and fails at the bottom. -/
def descent : String :=
  "int down(int n) \x7b int *p; p = malloc(n + 1); if (n == 0) \x7b return 1 / n; \x7d "
    ++ "return down(n - 1); \x7d int main() \x7b int k; k = 2; return down(k); \x7d"

/-- The run allocates three heap blocks; its first call begins with none, in a frame with one variable. -/
theorem descent_allocates : ∃ s id m n frame, (new .standard).compile descent = .ok s ∧
    (s.callWithin 100 "main" []).2.machine.heap.length = 3 ∧
    s.env.program.function? "main" = some id ∧ (s.env.program.function id).params = [] ∧
    Run.start s.env (engine s.env 100) s.machine = .ok () m ∧ m.heap = [] ∧
    (engine s.env 100).enterFrame s.env (s.env.program.function id) []
      { m.afresh with
        callStack := (s.env.program.function id).name :: m.callStack
        frames := m.frames.push id (s.env.program.function id).name } = .ok () n ∧
    n.frames.current? = some frame ∧ frame.bindings.length = 1 := by
  have run : ((new .standard).compile descent).toOption.map (fun s =>
      (s.callWithin 100 "main" []).2.machine.heap.length == 3 &&
        (s.env.program.function? "main").any fun id =>
          (s.env.program.function id).params.isEmpty &&
          match Run.start s.env (engine s.env 100) s.machine with
          | .error _ _ => false
          | .ok _ m => m.heap.isEmpty &&
            match (engine s.env 100).enterFrame s.env (s.env.program.function id) []
              { m.afresh with
                callStack := (s.env.program.function id).name :: m.callStack
                frames := m.frames.push id (s.env.program.function id).name } with
            | .error _ _ => false
            | .ok _ n => n.frames.current?.any (·.bindings.length == 1)) = some true := by
    rw [compile_of_toList descent
      (toList_append_of_eq (String.ofList_eq.1 rfl) (String.ofList_eq.1 rfl))]
    decide +kernel
  obtain ⟨s, hs, found⟩ := Except.exists_ok_of_map run
  simp only [Bool.and_eq_true, beq_iff_eq, Option.any_eq_true, List.isEmpty_iff] at found
  obtain ⟨heap, id, hid, params, found⟩ := found
  split at found
  · cases found
  · rename_i m hm
    simp only [Bool.and_eq_true, List.isEmpty_iff] at found
    obtain ⟨empty, found⟩ := found
    split at found
    · cases found
    · rename_i n hn
      obtain ⟨frame, hframe, one⟩ := (Option.any_eq_true _ _).1 found
      exact ⟨s, id, m, n, frame, hs, heap, hid, params, hm, empty, hn, hframe, eq_of_beq one⟩

theorem storage_owned_descent : ∃ s t : Session, (new .standard).compile descent = .ok s ∧
    (s.callWithin 100 "main" []).2 = t ∧ t.machine.heap.length = 3 ∧
    (∀ a, a ∈ t.machine.heap ↔ ∃ r ∈ t.machine.memory.regions, r.start = a) ∧
    (∀ a, ¬ t.machine.seen (.refused a)) ∧
    ∃ e st frame b, t.machine.seen (.told e st) ∧ st.frames.current? = some frame ∧
      b ∈ frame.bindings ∧ ∃ r ∈ st.memory.regions, r.start = b.address ∧ r.size = b.size := by
  obtain ⟨s, id, m, n, frame, hs, hheap, hid, params, started, -, entered, top, one⟩ :=
    descent_allocates
  have compiled : s.Reachable .standard := .compile (.new .full) hs
  have reached : Reachable .standard (s.callWithin 100 "main" []).2 := .call 100 "main" [] compiled
  obtain ⟨owned, free⟩ := storage_owned reached
  obtain ⟨-, exact_, -⟩ := owned _ (.inl rfl)
  have rested := reached.rested
  simp only [State.bindings, rested.frames, rested.strings] at exact_
  refine ⟨s, _, hs, rfl, hheap, exact_, free, ?_⟩
  -- The frame of the first call is told of, with its variable.
  obtain ⟨st, hst, told⟩ := Engine.enterFrame_told entered top
  have ran : s.callWithin 100 "main" [] = (_, _) := rfl
  obtain ⟨-, seen⟩ := Run.call_seen compiled.rested hid (by rw [params]; rfl) started
    (callWithin_eq ran)
  have positive : 0 < s.env.config.maxDepth := by
    obtain ⟨p, -, rfl⟩ := compile_eq_ok.1 hs
    exact (by decide : 0 < 512)
  have hseen := seen n (by rw [params]; exact entered) positive _ told
  obtain ⟨b, hb⟩ := List.exists_mem_of_length_pos (l := frame.bindings) (by omega)
  obtain ⟨-, -, sized, -⟩ := owned st (.inr ⟨_, hseen⟩)
  have hframe : st.frames.current? = some frame := hst ▸ top
  refine ⟨_, st, frame, b, hseen, hframe, hb, sized b ?_⟩
  exact List.mem_append_right _ (List.mem_flatMap.2
    ⟨frame, List.mem_of_mem_head? hframe, List.mem_reverse.1 hb⟩)

/-- **Calls are neutral.**  Whatever a session has done on a memory of any capacity, each call that has
ended in it, at any depth and in any way, has left the frames with their bindings, the globals, the
string literals and the names of the active calls as they were, no value and no jump, and the same
regions outside of the heap.  Each heap block that is there after the call and was not before it, or not
in this size, has been given out during the call; each one that was there before and is not any more,
or not in this size, has been given up during it.  A call of the session itself leaves nothing but heap
blocks. -/
theorem calls_neutral {config : Config} {s : Session} (h : s.Reachable config) :
    (∀ f before after meanwhile, s.machine.seen (.called f before after meanwhile) →
      after.frames = before.frames ∧ after.strings = before.strings ∧
      after.callStack = before.callStack ∧ after.pending = none ∧ after.flow = .normal ∧
      (∀ a n, (a ∉ after.heap ∧ ∃ r ∈ after.memory.regions, r.start = a ∧ r.size = n) ↔
        a ∉ before.heap ∧ ∃ r ∈ before.memory.regions, r.start = a ∧ r.size = n) ∧
      (∀ a n, (a ∈ after.heap ∧ ∃ r ∈ after.memory.regions, r.start = a ∧ r.size = n) →
        (a ∈ before.heap ∧ ∃ r ∈ before.memory.regions, r.start = a ∧ r.size = n) ∨
          meanwhile (.granted a n)) ∧
      ∀ a n, (a ∈ before.heap ∧ ∃ r ∈ before.memory.regions, r.start = a ∧ r.size = n) →
        (a ∈ after.heap ∧ ∃ r ∈ after.memory.regions, r.start = a ∧ r.size = n) ∨
          meanwhile (.freed a)) ∧
    ∀ fuel name args st, st = (s.callWithin fuel name args).2.machine.toState →
      st.frames.calls = [] ∧ st.frames.globals = [] ∧ st.strings = #[] ∧ st.callStack = [] ∧
      st.pending = none ∧ st.flow = .normal ∧
      ∀ a, a ∈ st.heap ↔ ∃ r ∈ st.memory.regions, r.start = a := by
  have hr := h.rested
  constructor
  · intro f before after meanwhile hs
    have hn : before.Neutral after meanwhile := hr.lawful.good _ hs
    refine ⟨hn.frames, hn.strings, hn.callStack, hn.quiet.1, hn.quiet.2, ?_⟩
    simp only [← mem_slots_iff]
    exact ⟨hn.outside, hn.came, hn.went⟩
  · rintro fuel name args st rfl
    have hm := rested_callWithin hr fuel name args
    refine ⟨by rw [hm.frames]; rfl, by rw [hm.frames]; rfl, hm.strings, hm.callStack, hm.quiet.1,
      hm.quiet.2, fun a => ?_⟩
    have hshared := hm.lawful.owned.shared
    rw [State.held, State.bindings, hm.frames, hm.strings] at hshared
    exact hshared.mem_iff.trans mem_starts_iff

theorem calls_neutral_descent : ∃ (s t : Session) (id : FunctionId) (before after : State)
    (meanwhile : HeapChange → Prop), (new .standard).compile descent = .ok s ∧
    (s.callWithin 100 "main" []).2 = t ∧ t.machine.seen (.called id before after meanwhile) ∧
    before.heap = [] ∧ after.heap.length = 3 ∧ after.frames = before.frames ∧
    after.callStack = before.callStack ∧ after.flow = .normal ∧
    (∀ a n, a ∈ after.heap → (∃ r ∈ after.memory.regions, r.start = a ∧ r.size = n) →
      meanwhile (.granted a n)) ∧
    t.machine.callStack = [] ∧
    ∀ a, a ∈ t.machine.heap ↔ ∃ r ∈ t.machine.memory.regions, r.start = a := by
  obtain ⟨s, id, m, n, frame, hs, hheap, hid, params, started, empty, -⟩ := descent_allocates
  have compiled : s.Reachable .standard := .compile (.new .full) hs
  have ran : s.callWithin 100 "main" [] = (_, _) := rfl
  obtain ⟨⟨after, meanwhile, heap, seen⟩, -⟩ := Run.call_seen compiled.rested hid
    (by rw [params]; rfl) started (callWithin_eq ran)
  obtain ⟨neutral, -⟩ := calls_neutral (Reachable.call 100 "main" [] compiled)
  obtain ⟨frames, -, callStack, -, flow, -, came, -⟩ := neutral id _ after meanwhile seen
  obtain ⟨-, ends⟩ := calls_neutral compiled
  obtain ⟨-, -, -, stack, -, -, blocks⟩ := ends 100 "main" [] _ rfl
  refine ⟨s, _, id, _, after, meanwhile, hs, rfl, seen, empty, heap ▸ hheap, frames, callStack, flow,
    fun a k ha hk => ?_, stack, blocks⟩
  refine (came a k ⟨ha, hk⟩).resolve_left fun old => ?_
  rw [empty] at old
  cases old.1

end Session

end MiniC
