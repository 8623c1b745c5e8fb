/-
  Aborted runs.

  The control decides nothing but where a run stops.  Two runs of the same code from the same state,
  under budgets of `n` and of `n + d` checkpoints, do the same as long as the smaller budget lasts
  (`Agrees`).  Where it is spent, the first run is stopped at a checkpoint: what has been observed up
  to it is also observed of the second run, and after it nothing is but the closing of the frames that
  are open there (`Stopped`).  Each step of a run has one of the two properties, and so has each run.
-/
import MiniC.Proofs.Fuel

namespace MiniC

/-- The control that admits `n` checkpoints and aborts at all later ones. -/
def Control.upTo (n : Nat) : Control := ⟨.free, some n⟩

/-- Whether an event tells of a statement that is about to run. -/
def Event.isCheckpoint : Event → Bool
  | checkpoint _ => true
  | _ => false

/-- The number of statements that a log tells of. -/
def checkpoints (log : List Event) : Nat := log.countP Event.isCheckpoint

theorem checkpoints_append (l l' : List Event) : checkpoints (l ++ l') = checkpoints l + checkpoints l' :=
  List.countP_append

namespace Run
variable {α β : Type}

/-- The place where a run from a machine with these frames and this log is stopped when it has passed
`n` checkpoints: the statement at `loc`, in the state `s`, with the frames `opened` since then. -/
structure Stops (names : List String) (log : List Event) (n : Nat) (loc : Location) (s : State)
    (opened : List String) : Prop where
  frames : s.frames.names = opened ++ names
  passed : ∃ told, s.log = told ++ log ∧ checkpoints told = n

/-- What is observed of a run that is stopped at `loc` in the state `s`. -/
def stoppedLog (loc : Location) (s : State) (opened : List String) : List Event :=
  (opened.map Event.exit).reverse ++ .checkpoint loc :: s.log

/-- How far a run under a budget has come, with some part of its log. -/
structure Reaches (names : List String) (log : List Event) (m : Machine) : Prop where
  names : m.frames.names = names
  control : ∃ k, m.control = .upTo k
  log : log <:+ m.log

/-- Under both budgets `x` ends in the same way, within the smaller one. -/
def Agrees (x : Run α) (m : Machine) (n d : Nat) (log : List Event) (seen seen₂ : Moment → Prop) :
    Prop :=
  ∃ (r : Except Stop α) (m' : Machine) (k : Nat) (told : List Event) (seen' seen₂' : Moment → Prop),
    r ≠ .error .aborted ∧ m'.frames.names = m.frames.names ∧ checkpoints told + k = n ∧
    x (m.under (.upTo n) log seen) = conclude r (m'.under (.upTo k) (told ++ log) seen') ∧
    x (m.under (.upTo (n + d)) log seen₂) =
      conclude r (m'.under (.upTo (k + d)) (told ++ log) seen₂')

/-- Under the smaller budget `x` is stopped at a checkpoint, which it also comes to under the other. -/
def Stopped (x : Run α) (m : Machine) (n d : Nat) (log : List Event) (seen seen₂ : Moment → Prop) :
    Prop :=
  ∃ (m' : Machine) (loc : Location) (s : State) (opened : List String) (seen' : Moment → Prop),
    Stops m.frames.names log n loc s opened ∧ seen' (.told (.checkpoint loc) s) ∧
    m'.frames.names = m.frames.names ∧
    x (m.under (.upTo n) log seen) =
      .error .aborted (m'.under (.upTo 0) (stoppedLog loc s opened) seen') ∧
    ∃ r m₂, x (m.under (.upTo (n + d)) log seen₂) = conclude r m₂ ∧
      Reaches m.frames.names (.checkpoint loc :: s.log) m₂

/-- A smaller budget only cuts `x` short. -/
def Truncates (x : Run α) : Prop :=
  ∀ m n d log seen seen₂, x.Agrees m n d log seen seen₂ ∨ x.Stopped m n d log seen seen₂

/-- What has been observed stays observed. -/
theorem Truncates.goes {x : Run α} (hx : x.Truncates) {m : Machine} {names : List String} {log : List Event}
    (h : Reaches names log m) : ∃ r m', x m = conclude r m' ∧ Reaches names log m' := by
  obtain ⟨hn, ⟨k, hk⟩, hl⟩ := h
  have hm : m = m.under (.upTo k) m.log m.seen := by rw [← hk]; rfl
  rcases hx m k 0 m.log m.seen m.seen with ⟨r, m', k', told, seen', -, -, hn', -, run, -⟩ |
    ⟨m', loc, s, opened, seen', ⟨-, told, hs, -⟩, -, hn', run, -⟩
  · rw [hm]
    exact ⟨r, _, run, hn'.trans hn, ⟨k', rfl⟩, hl.trans (List.suffix_append ..)⟩
  · rw [hm]
    refine ⟨.error .aborted, _, run, hn'.trans hn, ⟨0, rfl⟩, hl.trans ?_⟩
    change m.log <:+ stoppedLog loc s opened
    rw [stoppedLog, hs]
    exact ((List.suffix_append ..).trans (List.suffix_cons ..)).trans (List.suffix_append ..)

/-! ## Steps -/

theorem Plain.truncates {x : Run α} (hx : x.Plain) : x.Truncates := by
  intro m n d log seen seen₂
  obtain ⟨r, m', hm, run⟩ := hx.run m
  obtain ⟨seen', -, h⟩ := run (.upTo n) log seen
  obtain ⟨seen₂', -, h₂⟩ := run (.upTo (n + d)) log seen₂
  refine .inl ⟨_, m', n, [], seen', seen₂', ?_, hm.names, Nat.zero_add n, h, h₂⟩
  cases r <;> simp [Except.mapError]

theorem truncates_emit {e : Event} (he : e.isCheckpoint = false) : (emit e).Truncates := by
  intro m n d log seen seen₂
  refine .inl ⟨.ok (), m, n, [e], _, _, by simp, rfl, ?_, rfl, rfl⟩
  simp [checkpoints, he]

/-- The control is asked, and its answer decides whether the run goes on. -/
theorem truncates_checkpoint (loc : Location) : (checkpoint loc).Truncates := by
  intro m n d log seen seen₂
  cases n with
  | succ n =>
    have passes : ∀ k seen, checkpoint loc (m.under (.upTo (k + 1)) log seen) = .ok ()
        (m.under (.upTo k) (.checkpoint loc :: log)
          ((m.under (.upTo (k + 1)) log seen).tell (.checkpoint loc)).seen) := fun _ _ => rfl
    have passes₂ := passes (n + d) seen₂
    rw [Nat.add_right_comm] at passes₂
    refine .inl ⟨.ok (), m, n, [.checkpoint loc], _, _, by simp, rfl, ?_, passes n seen, passes₂⟩
    simp [checkpoints, Event.isCheckpoint, Nat.add_comm]
  | zero =>
    refine .inr ⟨m, loc, (m.under (.upTo 0) log seen).toState, [], _, ⟨rfl, [], rfl, rfl⟩, .inl rfl, rfl,
      rfl, ?_⟩
    rw [Nat.zero_add]
    cases d with
    | zero => exact ⟨.error .aborted, _, rfl, rfl, ⟨0, rfl⟩, List.suffix_refl _⟩
    | succ d => exact ⟨.ok (), _, rfl, rfl, ⟨d, rfl⟩, List.suffix_refl _⟩

theorem Truncates.bind {x : Run α} {f : α → Run β} (hx : x.Truncates) (hf : ∀ a, (f a).Truncates) :
    (x >>= f).Truncates := by
  intro m n d log seen seen₂
  rcases hx m n d log seen seen₂ with
    ⟨r, m', k, told, seen', seen₂', hr, hn, hk, run, run₂⟩ |
    ⟨m', loc, s, opened, seen', hs, hseen, hn, run, r, m₂, run₂, reached⟩
  · cases r with
    | error e =>
      refine .inl ⟨.error e, m', k, told, seen', seen₂', ?_, hn, hk, bind_of_error run,
        bind_of_error run₂⟩
      rintro ⟨⟩
      exact hr rfl
    | ok a =>
      -- The first part leaves `k` of the smaller budget, and the second part has as much.
      unfold Agrees Stopped
      rw [bind_of_ok run, bind_of_ok run₂]
      rcases hf a m' k d (told ++ log) seen' seen₂' with
        ⟨r, m'', k', told', seen'', seen₂'', hr', hn', hk', run', run₂'⟩ |
        ⟨m'', loc, s, opened, seen'', ⟨hfs, told', hl, hc⟩, hseen, hn', run', r, m₂, run₂', reached⟩
      · refine .inl ⟨r, m'', k', told' ++ told, seen'', seen₂'', hr', hn'.trans hn, ?_, ?_, ?_⟩
        · rw [checkpoints_append]
          omega
        · rw [run', List.append_assoc]
        · rw [run₂', List.append_assoc]
      · have stops : Stops m.frames.names log n loc s opened := by
          refine ⟨hn ▸ hfs, told' ++ told, by rw [hl, List.append_assoc], ?_⟩
          rw [checkpoints_append]
          omega
        exact .inr ⟨m'', loc, s, opened, seen'', stops, hseen, hn'.trans hn, run', r, m₂, run₂',
          hn ▸ reached⟩
  · -- The run is stopped in its first part; the other goes on from what it has come to there.
    refine .inr ⟨m', loc, s, opened, seen', hs, hseen, hn, bind_of_error run, ?_⟩
    cases r with
    | error e => exact ⟨.error e, m₂, bind_of_error run₂, reached⟩
    | ok a =>
      rw [bind_of_ok run₂]
      exact (hf a).goes reached

theorem Truncates.noted {x : Run α} (hx : x.Truncates) (f : FunctionId) :
    (noted f x).Truncates := by
  intro m n d log seen seen₂
  rcases hx m n d log (fun _ => False) (fun _ => False) with
    ⟨r, m', k, told, seen', seen₂', hr, hn, hk, run, run₂⟩ |
    ⟨m', loc, s, opened, seen', hs, hseen, hn, run, r, m₂, run₂, reached⟩
  · obtain ⟨_, -, h⟩ := noted_under f run seen
    obtain ⟨_, -, h₂⟩ := noted_under f run₂ seen₂
    exact .inl ⟨r, m', k, told, _, _, hr, hn, hk, h, h₂⟩
  · obtain ⟨_, hsub, h⟩ := noted_under (r := .error .aborted) f run seen
    refine .inr ⟨m', loc, s, opened, _, hs, hsub _ hseen, hn, h, r, _, noted_conclude run₂, ?_⟩
    exact ⟨reached.names, reached.control, reached.log⟩

theorem Truncates.lastly {x : Run α} {y : Run Unit} (hx : x.Truncates) (hy : y.Plain)
    (total : ∀ m, ∃ m', y m = .ok () m') : (lastly x y).Truncates := by
  intro m n d log seen seen₂
  rcases hx m n d log seen seen₂ with
    ⟨r, m', k, told, seen', seen₂', hr, hn, hk, run, run₂⟩ |
    ⟨m', loc, s, opened, seen', hs, hseen, hn, run, r, m₂, run₂, reached⟩
  · obtain ⟨m'', hm, ends⟩ := hy.lastly_eq (α := α) total m'
    obtain ⟨_, -, h⟩ := ends (.upTo k) (told ++ log) seen'
    obtain ⟨_, -, h₂⟩ := ends (.upTo (k + d)) (told ++ log) seen₂'
    exact .inl ⟨r, m'', k, told, _, _, hr, hm.names.trans hn, hk, h run, h₂ run₂⟩
  · obtain ⟨m'', hm, ends⟩ := hy.lastly_eq (α := α) total m'
    obtain ⟨_, hsub, h⟩ := ends (.upTo 0) (stoppedLog loc s opened) seen'
    obtain ⟨m₂', hm₂, ends₂⟩ := hy.lastly_eq (α := α) total m₂
    obtain ⟨_, -, h₂⟩ := ends₂ m₂.control m₂.log m₂.seen
    refine .inr ⟨m'', loc, s, opened, _, hs, hsub.keeps _ hseen, hm.names.trans hn,
      h (r := .error .aborted) run, r, _, h₂ run₂, ?_⟩
    exact ⟨hm₂.names.trans reached.names, reached.control, reached.log⟩

theorem stoppedLog_append (loc : Location) (s : State) (opened : List String) (name : String) :
    stoppedLog loc s (opened ++ [name]) = .exit name :: stoppedLog loc s opened := by
  simp [stoppedLog]

section
variable {x : Run Unit} {m : Machine} {n d limit : Nat} {log : List Event} {seen seen₂ : Moment → Prop}
  {loc : Location} {id : FunctionId} {f : Function}

/-- A frame is closed in the same way under both budgets. -/
theorem Agrees.framed (hd : m.frames.depth < limit)
    (h : x.Agrees { m with frames := m.frames.push id f.name } n d log seen seen₂) :
    (Engine.framed limit loc id f x).Agrees m n d log seen seen₂ := by
  obtain ⟨r, m', k, told, seen', seen₂', hr, hn, hk, run, run₂⟩ := h
  obtain ⟨q, m'', hm, -, closes⟩ := Engine.closing_eq f hn
  obtain ⟨_, -, closed⟩ := closes (.upTo k) (told ++ log) seen'
  obtain ⟨_, -, closed₂⟩ := closes (.upTo (k + d)) (told ++ log) seen₂'
  refine ⟨_, m'', k, .exit f.name :: told, _, _, ?_, hm, ?_,
    (Engine.framed_under hd ..).trans (closed run), (Engine.framed_under hd ..).trans (closed₂ run₂)⟩
  · cases r with
    | error e => simpa [Except.bind] using hr
    | ok u => cases q <;> simp [Except.bind, Except.mapError]
  · rw [← hk]
    rfl

/-- Of the frames that are open where a run is stopped, that of the call is closed last. -/
theorem Stopped.framed (hd : m.frames.depth < limit)
    (h : x.Stopped { m with frames := m.frames.push id f.name } n d log seen seen₂) :
    (Engine.framed limit loc id f x).Stopped m n d log seen seen₂ := by
  obtain ⟨m', at_, s, opened, seen', ⟨hs, hpassed⟩, hseen, hn, run, r, m₂, run₂, reached⟩ := h
  obtain ⟨q, m'', hm, -, closes⟩ := Engine.closing_eq f hn
  obtain ⟨_, hsub, closed⟩ := closes (.upTo 0) (stoppedLog at_ s opened) seen'
  obtain ⟨q₂, m₂', hm₂, -, closes₂⟩ := Engine.closing_eq f reached.names
  obtain ⟨_, -, closed₂⟩ := closes₂ m₂.control m₂.log m₂.seen
  refine ⟨m'', at_, s, opened ++ [f.name], _, ⟨?_, hpassed⟩, hsub.keeps _ hseen, hm, ?_, _, _,
    (Engine.framed_under hd ..).trans (closed₂ run₂), ?_⟩
  · rw [hs, List.append_assoc]
    rfl
  · rw [stoppedLog_append]
    exact (Engine.framed_under hd ..).trans (closed (r := .error .aborted) run)
  · exact ⟨hm₂, reached.control, reached.log.trans (List.suffix_cons ..)⟩

end

theorem Truncates.framed {x : Run Unit} (hx : x.Truncates) (limit : Nat) (loc : Location)
    (id : FunctionId) (f : Function) : (Engine.framed limit loc id f x).Truncates := by
  intro m n d log seen seen₂
  by_cases hd : limit ≤ m.frames.depth
  · have deep : ∀ control log seen, Engine.framed limit loc id f x (m.under control log seen) =
        .error (.fault (.stackOverflow limit loc)) (m.under control log seen) :=
      fun _ _ _ => Engine.framed_of_le hd
    exact .inl ⟨.error (.fault _), m, n, [], seen, seen₂, by simp, rfl, Nat.zero_add n, deep .., deep ..⟩
  · replace hd := Nat.not_le.1 hd
    exact (hx _ n d log seen seen₂).imp (·.framed hd) (·.framed hd)

end Run

/-! ## Runs -/

/-- A run under two budgets. -/
def truncation : Likeness Unit where
  Like x := (x ()).Truncates
  plain hx := hx.truncates
  bind hx hf := hx.bind hf
  tell {e} he _ := Run.truncates_emit (by cases e <;> first | rfl | cases he)
  noted f hx := hx.noted f
  lastly hx hy total := hx.lastly hy total

namespace truncation

instance : truncation.Shaped where
  shape {e} he := Run.truncates_emit (by cases e <;> first | rfl | cases he)

theorem paced : truncation.Paced where
  checkpoint loc := Run.truncates_checkpoint loc
  jump {f} ho hn _ := by
    intro m n d log seen seen₂
    have run : ∀ control log seen, (modify f : Run PUnit) (m.under control log seen) =
        .ok () ((f m).under control log seen) := fun _ _ _ => congrArg _ (ho ..)
    exact .inl ⟨.ok (), f m, n, [], seen, seen₂, by simp, hn m, Nat.zero_add n, run .., run ..⟩

theorem framed : truncation.Framed where
  announce := by
    refine truncation.look (fun _ _ _ _ _ => rfl) fun m => ?_
    cases m.frames.current? with
    | none => exact truncation.pure _
    | some frame => exact Run.truncates_emit rfl
  framed limit loc id f hx := hx.framed limit loc id f

end truncation

theorem engine_truncates (env : Env) (fuel : Nat) : Engine.Like truncation fun _ => engine env fuel := by
  induction fuel with
  | zero =>
    have spent : ∀ {α : Type}, (throw .exhausted : Run α).Truncates := fun m n d log seen seen₂ =>
      .inl ⟨.error .exhausted, m, n, [], seen, seen₂, by simp, rfl, Nat.zero_add n, rfl, rfl⟩
    exact ⟨fun _ => spent, fun _ => spent, fun _ => spent⟩
  | succ n ih =>
    exact ih.next truncation.paced fun id args loc =>
      truncation.framed.invoke (fun _ _ _ _ => ih.execute _) fun _ _ => ih.perform _

theorem Run.call_truncates (env : Env) (fuel : Nat) (name : String) (args : List Word) :
    (Run.call env fuel name args).Truncates := by
  have like := engine_truncates env fuel
  change truncation.Like fun _ => Run.call env fuel name args
  refine Likeness.call fun id _ => ?_
  refine truncation.bind (Likeness.start fun _ _ _ _ => like.execute _) fun _ => ?_
  refine truncation.noted id (truncation.named _ ?_)
  exact truncation.framed.invoke (fun _ _ _ _ => like.execute _) fun _ _ => like.perform _

namespace Session

/-- A run that has not ended for want of fuel ends in the same way with more. -/
theorem callWithin_fuel {s u : Session} {fuel more : Nat} {name : String} {args : List Word}
    {r : Except Stop (Option Word)} (h : s.callWithin fuel name args = (r, u))
    (hr : r ≠ .error .exhausted) (hle : fuel ≤ more) :
    Run.call s.env more name args s.machine = Run.conclude r u.machine := by
  have hx := callWithin_eq h
  rw [Run.call_fuel ?_ hle, hx]
  rintro ⟨m, spent⟩
  rw [hx] at spent
  exact hr (Run.conclude_inj (r := .error .exhausted) spent).1

/-- **Aborting only cuts a run short.**  Let a session call a function once under a control that admits
`n` checkpoints and once, from the same state, under one that admits `n'`, neither run ending for want
of fuel.  If the first run is not aborted, both have the same result and leave the same state but for
the control, and so the same events.  If it is, it has been stopped in some state, when something
outside was told of a checkpoint: up to it exactly `n` checkpoints have been passed, all that has been
observed up to it is observed of the other run first, and after it the frames that are open there are
closed, the innermost first, and nothing else is observed. -/
theorem aborting_truncates {s u u' : Session} {name : String} {args : List Word}
    {n n' fuel fuel' : Nat} {r r' : Except Stop (Option Word)} (hle : n ≤ n')
    (h : (s.controlled (.upTo n)).callWithin fuel name args = (r, u))
    (h' : (s.controlled (.upTo n')).callWithin fuel' name args = (r', u'))
    (hr : r ≠ .error .exhausted) (hr' : r' ≠ .error .exhausted) :
    (r ≠ .error .aborted → r' = r ∧
      u'.machine.toState = { u.machine.toState with control := u'.machine.control }) ∧
    (r = .error .aborted → ∃ (loc : Location) (stopped : State) (passed : List Event)
      (opened : List String), u.machine.seen (.told (.checkpoint loc) stopped) ∧
        stopped.log.reverse = s.machine.events ++ passed ∧ checkpoints passed = n ∧
        stopped.frames.names = opened ++ s.machine.frames.names ∧
        u.machine.events = s.machine.events ++ (passed ++ [.checkpoint loc]) ++ opened.map .exit ∧
        s.machine.events ++ (passed ++ [.checkpoint loc]) <+: u'.machine.events) := by
  obtain ⟨d, rfl⟩ := Nat.exists_eq_add_of_le hle
  have run := callWithin_fuel h hr (Nat.le_max_left fuel fuel')
  have run' := callWithin_fuel h' hr' (Nat.le_max_right fuel fuel')
  have cut := Run.call_truncates s.env (max fuel fuel') name args s.machine n d s.machine.log
    s.machine.seen s.machine.seen
  rcases cut with ⟨q, m, k, told, seen, seen', hq, -, -, hm, hm'⟩ |
    ⟨m, loc, stopped, opened, seen, ⟨hframes, told, hlog, hpassed⟩, hseen, -, hm, q, m', hm', reached⟩
  · obtain ⟨rfl, hu⟩ := Run.conclude_inj (run.symm.trans hm)
    obtain ⟨rfl, hu'⟩ := Run.conclude_inj (run'.symm.trans hm')
    refine ⟨fun _ => ⟨rfl, ?_⟩, fun ha => absurd ha hq⟩
    rw [hu, hu']
    rfl
  · obtain ⟨rfl, hu⟩ := Run.conclude_inj (r := .error .aborted) (run.symm.trans hm)
    obtain ⟨rfl, hu'⟩ := Run.conclude_inj (run'.symm.trans hm')
    refine ⟨fun ha => absurd rfl ha, fun _ => ⟨loc, stopped, told.reverse, opened, ?_, ?_, ?_, hframes,
      ?_, ?_⟩⟩
    · rw [hu]
      exact hseen
    · rw [hlog, List.reverse_append]
      rfl
    · rw [← hpassed]
      exact List.countP_reverse
    · rw [hu]
      change (Run.stoppedLog loc stopped opened).reverse = _
      simp [Run.stoppedLog, hlog, Machine.events]
    · rw [hu', Machine.events, Machine.events]
      have prior := List.reverse_prefix.2 reached.log
      rwa [hlog, List.reverse_cons, List.reverse_append, List.append_assoc] at prior

/-- A program whose second statement runs in a frame inside another one. -/
def nested : String := "int f(int n) \x7b return n; \x7d int main() \x7b return f(3); \x7d"

theorem aborting_truncates_nested : ∃ t u u', (new .standard).compile nested = .ok t ∧
    (t.controlled (.upTo 1)).callWithin 100 "main" [] = (.error .aborted, u) ∧
    (t.controlled (.upTo 2)).callWithin 100 "main" [] = (.ok (some 3), u') ∧
    ∃ (loc : Location) (passed : List Event) (opened : List String), checkpoints passed = 1 ∧
      u.machine.events = t.machine.events ++ (passed ++ [.checkpoint loc]) ++ opened.map .exit ∧
      t.machine.events ++ (passed ++ [.checkpoint loc]) <+: u'.machine.events := by
  have run : ((new .standard).compile nested).toOption.map (fun t =>
      (((t.controlled (.upTo 1)).callWithin 100 "main" []).1,
        ((t.controlled (.upTo 2)).callWithin 100 "main" []).1)) =
      some (.error .aborted, .ok (some 3)) := by
    rw [compile_of_toList nested (String.ofList_eq.1 rfl)]
    decide +kernel
  obtain ⟨t, ht, found⟩ := Except.exists_ok_of_map run
  obtain ⟨aborts, ends⟩ := Prod.mk.inj found
  have h : (t.controlled (.upTo 1)).callWithin 100 "main" [] = (.error .aborted, _) :=
    Prod.ext aborts rfl
  have h' : (t.controlled (.upTo 2)).callWithin 100 "main" [] = (.ok (some 3), _) :=
    Prod.ext ends rfl
  have cut := aborting_truncates (by decide) h h' (by simp) (by simp)
  obtain ⟨loc, _, passed, opened, -, -, hp, -, hu, hu'⟩ := cut.2 rfl
  exact ⟨t, _, _, ht, h, h', loc, passed, opened, hp, hu, hu'⟩

end Session

end MiniC
