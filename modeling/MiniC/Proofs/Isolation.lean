/-
  Runs are isolated from each other.

  What has been observed before a run has no part in it: whatever the log and the moments of a machine
  are, the same code does the same on it and tells of the same events (`Run.Blind`).  No run changes
  the space of memory, and a run that has ended leaves nothing but heap blocks.  So a machine whose heap
  is empty is, but for its past, the machine that it was when its program was loaded
  (`Machine.Rested.eq_under`), and each call on it is as if it were the first one (`Session.isolated`).
-/
import MiniC.Proofs.Fuel

namespace MiniC

namespace Run
variable {α β : Type}

/-- Neither the log nor the moments have a part in what `x` does and tells of; it leaves the frames that
are open and the space of memory as they are. -/
def Blind (x : Run α) : Prop :=
  ∀ m : Machine, ∃ (r : Except Stop α) (m' : Machine) (told : List Event),
    m'.frames.names = m.frames.names ∧ m.memory.Evolves m'.memory ∧
    ∀ log seen, ∃ seen', x (m.under m.control log seen) =
      conclude r (m'.under m'.control (told ++ log) seen')

theorem Plain.blind {x : Run α} (hx : x.Plain) : x.Blind := by
  intro m
  obtain ⟨r, m', hm, run⟩ := hx.run m
  refine ⟨r.mapError .fault, m'.under m.control m'.log m'.seen, [], hm.names, hm.memory, ?_⟩
  intro log seen
  obtain ⟨seen', -, h⟩ := run m.control log seen
  exact ⟨seen', h⟩

theorem Blind.bind {x : Run α} {f : α → Run β} (hx : x.Blind) (hf : ∀ a, (f a).Blind) :
    (x >>= f).Blind := by
  intro m
  obtain ⟨r, n, told, hn, hm, run⟩ := hx m
  cases r with
  | error e =>
    refine ⟨.error e, n, told, hn, hm, fun log seen => ?_⟩
    obtain ⟨seen', h⟩ := run log seen
    exact ⟨seen', bind_of_error h⟩
  | ok a =>
    obtain ⟨r, n', told', hn', hm', run'⟩ := hf a n
    refine ⟨r, n', told' ++ told, hn'.trans hn, hm.trans hm', fun log seen => ?_⟩
    obtain ⟨seen', h⟩ := run log seen
    obtain ⟨seen'', h'⟩ := run' (told ++ log) seen'
    refine ⟨seen'', ?_⟩
    rw [bind_of_ok h, List.append_assoc]
    exact h'

theorem blind_emit (e : Event) : (emit e).Blind :=
  fun m => ⟨.ok (), m, [e], rfl, .refl _, fun _ _ => ⟨_, rfl⟩⟩

theorem Blind.noted {x : Run α} (f : FunctionId) (hx : x.Blind) : (noted f x).Blind := by
  intro m
  obtain ⟨r, n, told, hn, hm, run⟩ := hx m
  refine ⟨r, n, told, hn, hm, fun log seen => ?_⟩
  obtain ⟨seen', h⟩ := run log fun _ => False
  obtain ⟨seen'', -, h'⟩ := noted_under f h seen
  exact ⟨seen'', h'⟩

theorem Blind.lastly {x : Run α} {y : Run Unit} (hx : x.Blind) (hy : y.Plain)
    (total : ∀ m, ∃ m', y m = .ok () m') : (lastly x y).Blind := by
  intro m
  obtain ⟨r, n, told, hn, hm, run⟩ := hx m
  obtain ⟨n', ha, ends⟩ := hy.lastly_eq (α := α) total n
  refine ⟨r, n'.under n.control n'.log n'.seen, told, ha.names.trans hn, hm.trans ha.memory, ?_⟩
  intro log seen
  obtain ⟨seen', h⟩ := run log seen
  obtain ⟨seen'', -, h'⟩ := ends n.control (told ++ log) seen'
  exact ⟨seen'', h' h⟩

theorem blind_checkpoint (loc : Location) : (checkpoint loc).Blind := by
  intro m
  refine ⟨if m.control.checkpoint.1 = .proceed then .ok () else .error .aborted,
    { m with control := m.control.checkpoint.2 }, [.checkpoint loc], rfl, .refl _, fun log seen => ?_⟩
  exact ⟨_, checkpoint_eq loc (m.under m.control log seen)⟩

/-- A call opens a frame and closes it again, whatever has been observed. -/
theorem Blind.framed {x : Run Unit} (hx : x.Blind) (limit : Nat) (loc : Location) (id : FunctionId)
    (f : Function) : (Engine.framed limit loc id f x).Blind := by
  intro m
  by_cases hd : limit ≤ m.frames.depth
  · exact ⟨.error (.fault _), m, [], rfl, .refl _, fun _ seen => ⟨seen, Engine.framed_of_le hd⟩⟩
  · let pushed : Machine := { m with frames := m.frames.push id f.name }
    obtain ⟨r, n, told, hn, hm, run⟩ := hx pushed
    obtain ⟨q, n', hn', ⟨-, hm'⟩, closes⟩ := Engine.closing_eq f hn
    refine ⟨r.bind fun _ => q.mapError .fault, n'.under n.control n'.log n'.seen,
      .exit f.name :: told, hn', hm.trans hm', fun log seen => ?_⟩
    obtain ⟨seen', h⟩ := run log seen
    obtain ⟨seen'', -, h'⟩ := closes n.control (told ++ log) seen'
    exact ⟨seen'', (Engine.framed_under (Nat.not_le.1 hd) ..).trans (h' h)⟩

end Run

open Run

/-- A run beside itself, with another past. -/
def isolation : Likeness Unit where
  Like x := (x ()).Blind
  plain hx := hx.blind
  bind hx hf := hx.bind hf
  tell _ _ := blind_emit _
  noted f hx := hx.noted f
  lastly hx hy total := hx.lastly hy total

namespace isolation

instance : isolation.Shaped := ⟨fun _ => blind_emit _⟩

theorem paced : isolation.Paced where
  checkpoint loc := blind_checkpoint loc
  jump {f} ho hn hk m := by
    have hm : f m = (f m).under m.control m.log m.seen := ho m m.control m.log m.seen
    have hc : (f m).control = m.control := congrArg (·.control) hm
    refine ⟨.ok (), f m, [], hn m, ?_, fun log seen => ⟨seen, ?_⟩⟩
    · rw [hk m]
      exact .refl _
    · rw [hc]
      exact congrArg (EStateM.Result.ok PUnit.unit) (ho m m.control log seen)

theorem framed : isolation.Framed where
  announce := by
    refine isolation.look (fun _ _ _ _ _ => rfl) fun m => ?_
    cases m.frames.current? with
    | none => exact isolation.pure _
    | some frame => exact blind_emit _
  framed limit loc id f hx := hx.framed limit loc id f

end isolation

theorem engine_isolated (env : Env) (fuel : Nat) : Engine.Like isolation fun _ => engine env fuel := by
  induction fuel with
  | zero =>
    have spent : ∀ {α : Type}, (throw .exhausted : Run α).Blind := fun m =>
      ⟨.error .exhausted, m, [], rfl, .refl _, fun _ seen => ⟨seen, rfl⟩⟩
    exact ⟨fun _ => spent, fun _ => spent, fun _ => spent⟩
  | succ n ih =>
    exact ih.next isolation.paced fun id args loc =>
      isolation.framed.invoke (fun _ _ _ _ => ih.execute _) fun _ _ => ih.perform _

/-- **No run looks at what has been observed before it.** -/
theorem Run.call_blind (env : Env) (fuel : Nat) (name : String) (args : List Word) :
    (Run.call env fuel name args).Blind := by
  have like := engine_isolated env fuel
  change isolation.Like fun _ => Run.call env fuel name args
  refine Likeness.call fun id _ => ?_
  refine isolation.bind (Likeness.start fun _ _ _ _ => like.execute _) fun _ => ?_
  refine isolation.noted id (isolation.named _ ?_)
  exact isolation.framed.invoke (fun _ _ _ _ => like.execute _) fun _ _ => like.perform _

/-! ## Sessions -/

/-- Machines on which nothing runs and nothing is allocated differ in their control and their past only,
if their memories have the same space. -/
theorem Machine.Rested.eq_under {m n : Machine} (hm : m.Rested) (hn : n.Rested) (heap : m.heap = [])
    (heap' : n.heap = []) (space : n.memory.Evolves m.memory) :
    m = n.under m.control m.log m.seen := by
  have bare : ∀ {k : Machine}, k.Rested → k.heap = [] → k.memory.regions = [] := by
    intro k hk h
    have shared := hk.lawful.owned.shared
    simp only [State.held, State.bindings, hk.frames, hk.strings, h] at shared
    exact List.map_eq_nil_iff.1 shared.symm.eq_nil
  have memory : m.memory = n.memory := by
    have hr := (bare hm heap).trans (bare hn heap').symm
    rw [show m.memory = ⟨m.memory.capacity, m.memory.regions, m.memory.watched⟩ from rfl,
      space.capacity, space.watched, hr]
  have rest : m.toState = ⟨n.memory, n.frames, n.strings, n.heap, n.callStack, n.pending, n.flow,
      m.control, m.log⟩ := by
    rw [← memory, hn.frames.trans hm.frames.symm, hn.strings.trans hm.strings.symm,
      heap'.trans heap.symm, hn.callStack.trans hm.callStack.symm, hn.quiet.1.trans hm.quiet.1.symm,
      hn.quiet.2.trans hm.quiet.2.symm]
  exact congrArg (Machine.mk · m.seen) rest

namespace Session

/-- Compile a source, or stay with the program that there is. -/
def attempted (s : Session) (source : String) : Session :=
  (s.compile source).toOption.getD s

/-- The sessions that `t` becomes by calls, under any controls and however they end, by compiling what
does not compile, and by looking at what has been observed. -/
inductive Later (t : Session) : Session → Prop
  | here : Later t t
  | call {u : Session} (control : Control) (fuel : Nat) (name : String) (args : List Word) :
    Later t u → Later t ((u.controlled control).callWithin fuel name args).2
  | attempted {u : Session} {source : String} {e : BuildError} :
    Later t u → u.compile source = .error e → Later t (u.attempted source)
  | observe {u : Session} : Later t u → Later t u.observe.2

theorem attempted_of_error {s : Session} {source : String} {e : BuildError}
    (h : s.compile source = .error e) : s.attempted source = s := by
  rw [attempted, h]
  rfl

theorem callWithin_of_eq {s : Session} {fuel : Nat} {name : String} {args : List Word}
    {r : Except Stop (Option Word)} {m : Machine}
    (h : Run.call s.env fuel name args s.machine = conclude r m) :
    s.callWithin fuel name args = (r, { s with machine := m }) := by
  rw [callWithin, h]
  cases r <;> rfl

/-- A call changes nothing of a session but its machine, and not the space of memory. -/
theorem callWithin_keeps (s : Session) (fuel : Nat) (name : String) (args : List Word) :
    ∃ m, (s.callWithin fuel name args).2 = { s with machine := m } ∧
      s.machine.memory.Evolves m.memory := by
  obtain ⟨r, m, told, -, space, run⟩ := Run.call_blind s.env fuel name args s.machine
  obtain ⟨seen, hx⟩ := run s.machine.log s.machine.seen
  exact ⟨_, congrArg Prod.snd (callWithin_of_eq hx), space⟩

namespace Later
variable {t u : Session}

theorem reachable {config : Config} (ht : t.Reachable config) (h : t.Later u) :
    u.Reachable config := by
  induction h with
  | here => exact ht
  | call control fuel name args _ ih => exact .call fuel name args (.controlled control ih)
  | attempted _ he ih => rwa [attempted_of_error he]
  | observe _ ih => exact .observe ih

/-- Nothing of a session changes but its machine, and not the space of memory. -/
theorem keeps (h : t.Later u) : u = { t with machine := u.machine } ∧
    t.machine.memory.Evolves u.machine.memory := by
  induction h with
  | here => exact ⟨rfl, .refl _⟩
  | @call u control fuel name args _ ih =>
    obtain ⟨m, hm, space⟩ := callWithin_keeps (u.controlled control) fuel name args
    rw [hm]
    refine ⟨?_, ih.2.trans space⟩
    rw [ih.1]
    rfl
  | attempted _ he ih => rwa [attempted_of_error he]
  | observe _ ih =>
    refine ⟨?_, ih.2⟩
    rw [ih.1]
    rfl

end Later

/-- **Runs are isolated from each other.**  After any calls of a compiled program, under any controls and
however they have ended, and after any sources that did not compile: if no heap block is left, each
further call has the result that it would have had right after the program was compiled, tells of the
same events in the same order, and leaves the same session but for what had been observed before it. -/
theorem isolated {config : Config} {s t u : Session} {source : String} (hs : s.Reachable config)
    (ht : s.compile source = .ok t) (hu : t.Later u) (heap : u.machine.heap = [])
    (control : Control) (fuel : Nat) (name : String) (args : List Word) :
    ∃ r a b told,
      (t.controlled control).callWithin fuel name args = (r, a) ∧
      (u.controlled control).callWithin fuel name args = (r, b) ∧
      a.machine.events = t.machine.events ++ told ∧ b.machine.events = u.machine.events ++ told ∧
      b = { a with machine := { a.machine with log := b.machine.log, seen := b.machine.seen } } := by
  have compiled : t.Reachable config := .compile hs ht
  obtain ⟨same, space⟩ := hu.keeps
  have blank : t.machine.heap = [] := by
    obtain ⟨p, -, rfl⟩ := compile_eq_ok.1 ht
    rfl
  have past : u.machine = t.machine.under u.machine.control u.machine.log u.machine.seen :=
    (hu.reachable compiled).rested.eq_under compiled.rested heap blank space
  obtain ⟨r, m, told, -, -, run⟩ :=
    Run.call_blind t.env fuel name args (t.controlled control).machine
  obtain ⟨seen, ha⟩ := run t.machine.log t.machine.seen
  obtain ⟨seen', hb⟩ := run u.machine.log u.machine.seen
  have hb' : Run.call (u.controlled control).env fuel name args (u.controlled control).machine =
      conclude r (m.under m.control (told ++ u.machine.log) seen') := by
    rw [show (u.controlled control).machine = ((t.controlled control).machine).under control
      u.machine.log u.machine.seen from by rw [controlled, past]; rfl, same]
    exact hb
  refine ⟨r, _, _, told.reverse, callWithin_of_eq (s := t.controlled control) ha,
    callWithin_of_eq hb', ?_, ?_, ?_⟩
  · exact List.reverse_append
  · exact List.reverse_append
  · rw [same]
    rfl

/-- A program with a global array that gives back the block it allocates. -/
def halves : String :=
  "int g[2]; int half(int n) \x7b g[1] = 10 / n; return g[1]; \x7d "
    ++ "int main() \x7b int *p; g[0] = half(2); p = malloc(4); *p = g[0]; free(p); return g[1]; \x7d"

theorem isolated_halves : ∃ t u v, (new .standard).compile halves = .ok t ∧
    (t.controlled .unlimited).callWithin 100 "half" [0] =
      (.error (.fault (.divisionByZero ⟨35, 1, 36⟩)), u) ∧
    (u.controlled ⟨.free, some 1⟩).callWithin 100 "main" [] = (.error .aborted, v) ∧
    (∃ e, v.compile "int" = .error e) ∧
    (((v.attempted "int").controlled .unlimited).callWithin 100 "main" []).1 = .ok (some 5) := by
  have run : ((new .standard).compile halves).toOption.map (fun t =>
      let half := (t.controlled .unlimited).callWithin 100 "half" [0]
      let main := (half.2.controlled ⟨.free, some 1⟩).callWithin 100 "main" []
      ([half.1, main.1, ((t.controlled .unlimited).callWithin 100 "main" []).1],
        (main.2.compile "int").isOk, main.2.machine.heap)) =
      some ([.error (.fault (.divisionByZero ⟨35, 1, 36⟩)), .error .aborted, .ok (some 5)],
        false, []) := by
    rw [compile_of_toList halves
      (toList_append_of_eq (String.ofList_eq.1 rfl) (String.ofList_eq.1 rfl))]
    decide +kernel
  obtain ⟨t, ht, found⟩ := Except.exists_ok_of_map run
  simp only [Prod.mk.injEq, List.cons.injEq, and_true] at found
  obtain ⟨⟨hr, hq, result⟩, hv, heap⟩ := found
  let u := ((t.controlled .unlimited).callWithin 100 "half" [0]).2
  let v := ((u.controlled ⟨.free, some 1⟩).callWithin 100 "main" []).2
  cases he : v.compile "int" with
  | ok w =>
    have : (v.compile "int").isOk = false := hv
    simp [he, Except.isOk, Except.toBool] at this
  | error e =>
    -- The session has run two calls, one of them stopped, and refused a source.
    have later : t.Later (v.attempted "int") :=
      .attempted (.call ⟨.free, some 1⟩ 100 "main" [] (.call .unlimited 100 "half" [0] .here)) he
    have bare : (v.attempted "int").machine.heap = [] := by
      rw [attempted_of_error he]
      exact heap
    obtain ⟨r, a, b, told, ha, hb, -⟩ :=
      isolated (.new .full) ht later bare .unlimited 100 "main" []
    refine ⟨t, u, v, ht, Prod.ext hr rfl, Prod.ext hq rfl, ⟨e, he⟩, ?_⟩
    rw [hb]
    rw [ha] at result
    exact result

end Session

end MiniC
