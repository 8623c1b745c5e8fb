/-
  Frames as they are told of.

  A call tells that its frame is closed however it ends, but that the frame is open only when it has
  been set up.  So the frames that a run tells of are bracketed, one inside the other, unless a frame
  cannot be set up (`frames_bracketed`): memory has no room for a variable of the function, and then
  the first frame that is told to be closed has never been told to be open.  The frames that are open
  at that point are still closed in their order, and nothing else is told of.
-/
import MiniC.Proofs.Likeness

namespace MiniC

/-! ## Brackets -/

/-- The frames that are open after an event, the innermost first; a frame can only be closed if it is
the innermost one. -/
def Event.track (opened : List String) : Event → Option (List String)
  | enter f .. => some (f :: opened)
  | exit f =>
    match opened with
    | g :: rest => if g = f then some rest else none
    | [] => none
  | _ => some opened

/-- The frames that are open after events, in their order, if each of them closes the innermost. -/
def openAfter (events : List Event) (opened : List String) : Option (List String) :=
  events.foldlM Event.track opened

/-- Each frame that is told to be closed is the innermost of those that are open, and none is left. -/
def Bracketed (events : List Event) : Prop := openAfter events [] = some []

instance (events : List Event) : Decidable (Bracketed events) := inferInstanceAs (Decidable (_ = _))

theorem openAfter_append (t t' : List Event) (opened : List String) :
    openAfter (t ++ t') opened = (openAfter t opened).bind (openAfter t') :=
  List.foldlM_append

theorem openAfter_cons (e : Event) (t : List Event) (opened : List String) :
    openAfter (e :: t) opened = (e.track opened).bind (openAfter t) := rfl

theorem track_data {e : Event} (he : e.isData = true) (opened : List String) :
    e.track opened = some opened := by
  cases e <;> first | rfl | cases he

/-- What tells of data changes nothing about frames. -/
theorem openAfter_data {t : List Event} (h : ∀ e ∈ t, e.isData = true) (opened : List String) :
    openAfter t opened = some opened := by
  induction t with
  | nil => rfl
  | cons e t ih =>
    rw [openAfter_cons, track_data (h e (by simp)), Option.bind_some]
    exact ih fun e' h' => h e' (by simp [h'])

/-- As many frames are closed as there are fewer afterwards. -/
theorem length_of_exits {names opened left : List String}
    (h : openAfter (names.map .exit) opened = some left) : names.length + left.length = opened.length := by
  induction names generalizing opened with
  | nil =>
    obtain rfl := Option.some.inj h
    exact Nat.zero_add _
  | cons name names ih =>
    cases opened with
    | nil => cases h
    | cons g rest =>
      rw [List.map_cons, openAfter_cons] at h
      by_cases hg : g = name
      · have := ih (by simpa [Event.track, hg] using h)
        simp only [List.length_cons]
        omega
      · simp [Event.track, hg] at h

/-! ## What runs tell of -/

/-- How a run has ended before its end, if it has. -/
def ending {α : Type} : Except Stop α → Option Stop
  | .ok _ => none
  | .error e => some e

/-- A property of the end of a run and of what it tells of, in order, that runs which follow each other
add up to. -/
structure Telling (P : Option Stop → List Event → Prop) : Prop where
  still : P none []
  fails : ∀ f, P (some (.fault f)) []
  data : ∀ {e : Event}, e.isData = true → P none [e]
  append : ∀ {r t t'}, P none t → P r t' → P r (t ++ t')

namespace Run
variable {α β : Type} {P : Option Stop → List Event → Prop}

/-- Whatever machine `x` begins on, `P` holds of its end and of what it tells of. -/
def Tells (P : Option Stop → List Event → Prop) (x : Run α) : Prop :=
  ∀ m, ∃ r m' told, x m = conclude r m' ∧ m'.frames.names = m.frames.names ∧
    m'.log = told.reverse ++ m.log ∧ P (ending r) told

theorem Plain.tells (hP : Telling P) {x : Run α} (hx : x.Plain) : x.Tells P := by
  intro m
  obtain ⟨r, m', hm, run⟩ := hx.run m
  obtain ⟨seen, -, h⟩ := run m.control m.log m.seen
  refine ⟨_, _, [], h, hm.names, rfl, ?_⟩
  cases r with
  | ok a => exact hP.still
  | error f => exact hP.fails f

theorem Tells.bind (hP : Telling P) {x : Run α} {f : α → Run β} (hx : x.Tells P)
    (hf : ∀ a, (f a).Tells P) : (x >>= f).Tells P := by
  intro m
  obtain ⟨r, n, told, run, hn, hl, hp⟩ := hx m
  cases r with
  | error e => exact ⟨.error e, n, told, bind_of_error run, hn, hl, hp⟩
  | ok a =>
    obtain ⟨r, n', told', run', hn', hl', hp'⟩ := hf a n
    refine ⟨r, n', told ++ told', ?_, hn'.trans hn, ?_, hP.append hp hp'⟩
    · rw [bind_of_ok run, run']
    · rw [hl', hl, List.reverse_append, List.append_assoc]

theorem Tells.lastly {x : Run α} {y : Run Unit} (hx : x.Tells P) (hy : y.Plain)
    (total : ∀ m, ∃ m', y m = .ok () m') : (lastly x y).Tells P := by
  intro m
  obtain ⟨r, n, told, run, hn, hl, hp⟩ := hx m
  obtain ⟨n', hm, ends⟩ := hy.lastly_eq (α := α) total n
  obtain ⟨seen, -, h⟩ := ends n.control n.log n.seen
  exact ⟨r, _, told, h run, hm.names.trans hn, hl, hp⟩

end Run

/-- What runs tell of, as a likeness. -/
def Telling.likeness {P : Option Stop → List Event → Prop} (hP : Telling P) : Likeness Unit where
  Like x := (x ()).Tells P
  plain hx := hx.tells hP
  bind hx hf := hx.bind hP hf
  tell {e} he _ m := ⟨.ok (), _, [e], rfl, rfl, rfl, hP.data he⟩
  noted f hx m := by
    obtain ⟨r, n, told, run, hn, hl, hp⟩ := hx m.afresh
    exact ⟨r, _, told, Run.noted_conclude run, hn, hl, hp⟩
  lastly hx hy total := hx.lastly hy total

instance {P : Option Stop → List Event → Prop} (hP : Telling P) : hP.likeness.Shaped where
  shape {e} he _ := ⟨.ok (), _, [e], rfl, rfl, rfl, hP.data (Event.isData_of_isShape he)⟩

/-- Code that only tells of data. -/
theorem telling_data : Telling fun _ t => ∀ e ∈ t, e.isData = true where
  still := by simp
  fails _ := by simp
  data he := by simpa using he
  append h h' := by
    intro e he
    rcases List.mem_append.1 he with he | he
    · exact h e he
    · exact h' e he

/-! ## Frames that cannot be set up -/

/-- Why the frame of a function cannot be set up: there is no room for one of its variables, or the
machine is not fit for the program, or the fuel is spent. -/
inductive Unfit (p : Program) (f : Function) : Stop → Prop
  | memory {v e} : v ∈ f.locals → Unfit p f (.fault (.memory e (p.symbol v).declaredAt))
  | internal {x} : x.isInternal = true → Unfit p f (.fault x)
  | exhausted : Unfit p f .exhausted

/-- What is told of when the frame of a function cannot be set up: it is closed, and then the frames
that are open are. -/
def Strays (f : Function) (opened : List String) (pre t : List Event) : Prop :=
  t = pre ++ .exit f.name :: opened.map .exit

/-- A run that tells of frames in brackets, or that ends in a call whose frame cannot be set up. -/
def Framing (p : Program) (r : Option Stop) (t : List Event) : Prop :=
  (∀ opened, openAfter t opened = some opened) ∨
  ∃ e id pre closed, r = some e ∧ Unfit p (p.function id) e ∧ Strays (p.function id) closed pre t ∧
    ∀ opened, openAfter pre opened = some (closed ++ opened)

theorem telling_framing (p : Program) : Telling (Framing p) where
  still := .inl fun _ => rfl
  fails _ := .inl fun _ => rfl
  data he := .inl fun opened => openAfter_data (by simpa using he) opened
  append {r t t'} h h' := by
    rcases h with h | ⟨e, id, pre, closed, hr, -⟩
    · rcases h' with h' | ⟨e, id, pre, closed, hr, hu, ht, hp⟩
      · left
        intro opened
        rw [openAfter_append, h, Option.bind_some, h']
      · refine .inr ⟨e, id, t ++ pre, closed, hr, hu, ?_, fun opened => ?_⟩
        · rw [Strays, ht, List.append_assoc]
        · rw [openAfter_append, h, Option.bind_some, hp]
    · cases hr

/-- What is told of inside a frame, with what tells of the frame around it. -/
theorem Framing.enclose {p : Program} {name : String} {r q : Option Stop} {pre t : List Event}
    (h : Framing p r t) (hpre : ∀ opened, openAfter pre opened = some (name :: opened))
    (hq : ∀ e, r = some e → q = some e) : Framing p q (pre ++ t ++ [.exit name]) := by
  rcases h with h | ⟨e, id, pre', left, hr, hu, ht, hp⟩
  · left
    intro opened
    rw [openAfter_append, openAfter_append, hpre, Option.bind_some, h, Option.bind_some]
    simp [openAfter, Event.track]
  · refine .inr ⟨e, id, pre ++ pre', left ++ [name], hq e hr, hu, ?_, fun opened => ?_⟩
    · rw [Strays, ht]
      simp
    · rw [openAfter_append, hpre, Option.bind_some, hp]
      simp

/-- A frame that cannot be set up is told of as closed only. -/
theorem Unfit.framing {p : Program} {id : FunctionId} {e : Stop} {t : List Event}
    (h : Unfit p (p.function id) e) (ht : ∀ x ∈ t, x.isData = true) :
    Framing p (some e) (t ++ [.exit (p.function id).name]) :=
  .inr ⟨e, id, t, [], rfl, h, rfl, openAfter_data ht⟩

/-! ## Setting up a frame -/

namespace Run
variable {m m' : Machine} {e : Stop} {loc : Location}

theorem allocate_error_eq {size : Nat} (h : allocate size loc m = .error e m') :
    ∃ x, e = .fault (.memory x loc) := by
  simp only [allocate, bind_eq_error, get_eq_ok, get_ne_error, false_or] at h
  obtain ⟨_, _, ⟨rfl, rfl⟩, h⟩ := h
  cases ha : m.memory.allocate size <;> simp [ha] at h
  exact ⟨_, h.1.symm⟩

theorem store_error_eq {p : Place} {v : Value} (h : store p v loc m = .error e m') :
    ∃ x, e = .fault (.memory x loc) := by
  unfold store at h
  by_cases hc : p.ty.isChar
  · rw [if_pos hc] at h
    cases hw : m.memory.write p.address v.word.lowByte <;> simp [writeByte, written, hw] at h
    exact ⟨_, h.1.symm⟩
  · rw [if_neg hc] at h
    cases hw : m.memory.writeWord p.address v.word <;> simp [writeWord, written, hw] at h
    exact ⟨_, h.1.symm⟩

end Run

namespace Engine
variable {env : Env} {c : Context} {engine : Engine} {f : Function} {m m' : Machine} {e : Stop}
open Run

/-- The length of an array is read off without a trace. -/
theorem Folds.tells_data (h : engine.Folds) {e : Expr} (he : e.constant?.isSome) :
    telling_data.likeness.Like fun _ => engine.execute e := by
  intro m
  obtain ⟨w, hw⟩ := Option.isSome_iff_exists.1 he
  rcases h.execute hw m with hx | ⟨ty, hx⟩
  · exact ⟨.error .exhausted, m, [], hx, rfl, rfl, by simp⟩
  · exact ⟨.ok _, m, [], hx, rfl, rfl, by simp⟩

theorem bindLocal_error {symbol : Symbol} {id : SymbolId} {a : Address}
    (h : bindLocal symbol id a m = .error e m') :
    e = .fault (.unbound symbol.name symbol.declaredAt) := by
  simp only [bindLocal, bind_eq_error, get_eq_ok, get_ne_error, false_or] at h
  obtain ⟨_, _, ⟨rfl, rfl⟩, h⟩ := h
  cases hb : m.frames.bind? id a symbol.size with
  | some frames => simp [hb] at h
  | none =>
    obtain ⟨t, memory, seen, hd⟩ := release_frame a m
    simp [hb, hd] at h
    exact h.1.symm

theorem registerArray_error (h : engine.Folds) {symbol : Symbol} {a : Address}
    (hs : ∀ spec, symbol.array = some spec → spec.lengthExpr.constant?.isSome)
    (hx : engine.registerArray symbol a m = .error e m') : e = .exhausted := by
  unfold Engine.registerArray at hx
  cases hspec : symbol.array with
  | none => simp [hspec] at hx
  | some spec =>
    obtain ⟨w, hw⟩ := Option.isSome_iff_exists.1 (hs spec hspec)
    cases helement : symbol.elementType? with
    | none => simp [hspec, helement] at hx
    | some element =>
      rcases h.solve hw m with hy | ⟨ty, hy⟩
      · simp [hspec, helement, hy] at hx
        exact hx.1.symm
      · simp [hspec, helement, hy, emit] at hx

theorem allocateLocals_error (h : engine.Folds) {ids : List SymbolId} (hi : ∀ id ∈ ids, id ∈ f.locals)
    (hs : ∀ id ∈ ids, ∀ spec, (env.program.symbol id).array = some spec →
      spec.lengthExpr.constant?.isSome)
    (hx : engine.allocateLocals env ids m = .error e m') : Unfit env.program f e := by
  induction ids generalizing m with
  | nil => exact absurd hx pure_ne_error
  | cons id ids ih =>
    rw [allocateLocals_cons] at hx
    rcases bind_eq_error.1 hx with hx | ⟨a, n, -, hx⟩
    · obtain ⟨x, rfl⟩ := allocate_error_eq hx
      exact .memory (hi id (by simp))
    rcases bind_eq_error.1 hx with hx | ⟨_, n, -, hx⟩
    · rw [bindLocal_error hx]
      exact .internal rfl
    rcases bind_eq_error.1 hx with hx | ⟨_, n, -, hx⟩
    · rw [registerArray_error h (hs id (by simp)) hx]
      exact .exhausted
    · exact ih (fun id' h' => hi id' (by simp [h'])) (fun id' h' => hs id' (by simp [h'])) hx

theorem bindParams_error {ids : List SymbolId} {vs : List Value} (hi : ∀ id ∈ ids, id ∈ f.locals)
    (hx : bindParams env ids vs m = .error e m') : Unfit env.program f e := by
  induction ids generalizing vs m with
  | nil => exact absurd hx pure_ne_error
  | cons id ids ih =>
    cases vs with
    | nil => exact absurd hx pure_ne_error
    | cons v vs =>
      rcases bind_eq_error.1 hx with hx | ⟨p, n, -, hx⟩
      · simp only [variablePlace, bind_eq_error, get_eq_ok, get_ne_error, false_or, require_eq_error,
          pure_ne_error, and_false, exists_false, or_false] at hx
        obtain ⟨_, _, ⟨rfl, rfl⟩, -, rfl, -⟩ := hx
        exact .internal rfl
      rcases bind_eq_error.1 hx with hx | ⟨_, n, -, hx⟩
      · obtain ⟨x, rfl⟩ := store_error_eq hx
        exact .memory (hi id (by simp))
      · exact ih (fun id' h' => hi id' (by simp [h'])) hx

/-- The parameters of a function are variables of its frame. -/
theorem params_local (hr : env.Runs c) {id : FunctionId} {p : SymbolId}
    (hp : p ∈ (env.program.function id).params) : p ∈ (env.program.function id).locals := by
  rw [hr.program] at hp ⊢
  rcases c.program.function_cases id with hf | hf
  · exact ((hr.finished.tables.functions hf).params p hp).1
  · rw [hf] at hp
    cases hp

/-- The lengths of the arrays of a frame are constants. -/
theorem locals_constant (hr : env.Runs c) {id : FunctionId} {v : SymbolId}
    (hv : v ∈ (env.program.function id).locals) {spec : ArraySpec}
    (hs : (env.program.symbol v).array = some spec) : spec.lengthExpr.constant?.isSome := by
  rw [hr.program] at hv hs
  exact ((hr.finished.symbol (k := some id) (.inr ⟨id, rfl, hv⟩)).array spec hs).2.1

/-- The innermost frame is told of as open. -/
theorem announceFrame_tells {name : String} {names : List String} (hm : m.frames.names = name :: names) :
    ∃ depth bindings bytes, announceFrame m = .ok () (m.tell (.enter name depth bindings bytes)) := by
  obtain ⟨frame, calls, hc, rfl, -⟩ := Frames.calls_of_names hm
  refine ⟨m.frames.depth, frame.bindings, m.memory.allocatedBytes, bind_eq_ok.2 ⟨m, m, rfl, ?_⟩⟩
  rw [Frames.current?, hc]
  rfl

/-- A frame that is set up is told of as open; one that cannot be is not told of. -/
theorem enterFrame_tells (hr : env.Runs c) (h : engine.Folds) (id : FunctionId) (args : List Value)
    {names : List String} (hm : m.frames.names = (env.program.function id).name :: names) :
    ∃ r m' told, engine.enterFrame env (env.program.function id) args m = conclude r m' ∧
      m'.frames.names = m.frames.names ∧ m'.log = told.reverse ++ m.log ∧
      match r with
      | .ok _ => ∀ opened, openAfter told opened = some ((env.program.function id).name :: opened)
      | .error e => (∀ x ∈ told, x.isData = true) ∧ Unfit env.program (env.program.function id) e := by
  have setUp : (engine.allocateLocals env (env.program.function id).locals >>= fun _ =>
      bindParams env (env.program.function id).params args).Tells fun _ t => ∀ e ∈ t, e.isData = true := by
    have hl : telling_data.likeness.Like fun _ =>
        engine.allocateLocals env (env.program.function id).locals :=
      Likeness.allocateLocals fun v hv spec hs => h.tells_data (locals_constant hr hv hs)
    exact hl.bind telling_data fun _ => telling_data.likeness.bindParams _ _ _
  have enter : engine.enterFrame env (env.program.function id) args =
      (engine.allocateLocals env (env.program.function id).locals >>= fun _ =>
        bindParams env (env.program.function id).params args) >>= fun _ => announceFrame := by
    rw [bind_assoc]
    rfl
  -- Up to the announcement only data is told of.
  obtain ⟨r, n, told, run, hn, hl, hd⟩ := setUp m
  cases r with
  | error e =>
    refine ⟨.error e, n, told, by rw [enter]; exact bind_of_error run, hn, hl, hd, ?_⟩
    rcases bind_eq_error.1 (show _ = EStateM.Result.error e n from run) with hx | ⟨_, _, -, hx⟩
    · exact allocateLocals_error h (fun _ hv => hv) (fun _ hv _ hs => locals_constant hr hv hs) hx
    · exact bindParams_error (fun _ hp => params_local hr hp) hx
  | ok u =>
    obtain ⟨depth, bindings, bytes, announced⟩ := announceFrame_tells (hn.trans hm)
    let entered : Event := .enter (env.program.function id).name depth bindings bytes
    refine ⟨.ok (), n.tell entered, told ++ [entered], ?_, hn, ?_, fun opened => ?_⟩
    · rw [enter, bind_of_ok run, announced]
      rfl
    · rw [List.reverse_append, List.append_assoc, ← hl]
      rfl
    · rw [openAfter_append, openAfter_data hd, Option.bind_some]
      rfl

/-- However the code of a frame ends, the frame is told of as closed after it. -/
theorem closing_tells {x : Run Unit} {n k : Machine} {r : Except Stop Unit} {names : List String}
    (hx : x n = conclude r k) (hk : k.frames.names = f.name :: names) :
    ∃ q m', closing f x n = conclude q m' ∧ m'.frames.names = names ∧ m'.log = .exit f.name :: k.log ∧
      ∀ e, ending r = some e → ending q = some e := by
  obtain ⟨q, k', hk', -, closed⟩ := closing_eq f hk
  obtain ⟨seen, -, hclose⟩ := closed k.control k.log k.seen
  refine ⟨_, _, hclose hx, hk', rfl, fun e he => ?_⟩
  cases r with
  | ok a => cases he
  | error e' => exact he

/-- A call tells of its frame in brackets around what its body tells of, if the frame is set up. -/
theorem invoke_tells (hr : env.Runs c) (h : engine.Folds) {id : FunctionId} {args : List Value}
    {loc : Location} (hb : (engine.runBody env (env.program.function id) loc).Tells
      (Framing env.program)) : (engine.invoke env id args loc).Tells (Framing env.program) := by
  intro m
  rw [invoke_eq]
  by_cases hd : env.config.maxDepth ≤ m.frames.depth
  · exact ⟨.error (.fault _), m, [], framed_of_le hd, rfl, rfl, .inl fun _ => rfl⟩
  rw [framed_of_lt (Nat.not_le.1 hd)]
  obtain ⟨r, n, told, run, hn, hl, ht⟩ := enterFrame_tells hr h id args
    (m := { m with frames := m.frames.push id (env.program.function id).name }) rfl
  cases r with
  | error e =>
    -- A frame that could not be set up is told of as closed all the same.
    obtain ⟨q, m', closed, hm', hl', hq⟩ := closing_tells (r := .error e) (bind_of_error run) hn
    refine ⟨q, m', told ++ [.exit (env.program.function id).name], closed, hm', ?_, ?_⟩
    · rw [hl', hl, List.reverse_append]
      rfl
    · rw [hq e rfl]
      exact ht.2.framing ht.1
  | ok u =>
    obtain ⟨r, k, told', run', hk, hl', hp⟩ := hb n
    have whole : (engine.enterFrame env (env.program.function id) args >>= fun _ =>
        engine.runBody env (env.program.function id) loc)
        { m with frames := m.frames.push id (env.program.function id).name } = conclude r k :=
      (bind_of_ok run).trans run'
    obtain ⟨q, m', closed, hm', hl'', hq⟩ := closing_tells whole (hk.trans hn)
    refine ⟨q, m', told ++ told' ++ [.exit (env.program.function id).name], closed, hm', ?_,
      hp.enclose ht hq⟩
    rw [hl'', hl', hl]
    simp

end Engine

/-! ## Runs -/

theorem paced_framing (p : Program) : (telling_framing p).likeness.Paced where
  checkpoint loc m :=
    ⟨_, _, [.checkpoint loc], Run.checkpoint_eq loc m, rfl, rfl, .inl fun _ => rfl⟩
  jump {f} ho hn _ m := by
    have hm : f m = (f m).under m.control m.log m.seen := ho m m.control m.log m.seen
    exact ⟨.ok (), f m, [], rfl, hn m, congrArg (·.log) hm, .inl fun _ => rfl⟩

theorem engine_framing {env : Env} {c : Context} (hr : env.Runs c) (fuel : Nat) :
    Engine.Like (telling_framing env.program).likeness fun _ => engine env fuel := by
  induction fuel with
  | zero =>
    have spent : ∀ {α : Type}, (throw .exhausted : Run α).Tells (Framing env.program) :=
      fun m => ⟨.error .exhausted, m, [], rfl, rfl, rfl, .inl fun _ => rfl⟩
    exact ⟨fun _ => spent, fun _ => spent, fun _ => spent⟩
  | succ n ih =>
    refine ih.next (paced_framing env.program) fun id args loc => ?_
    exact Engine.invoke_tells hr (engine_folds env n) (Likeness.runBody fun s _ => ih.perform s)

theorem Run.call_framing {env : Env} {c : Context} (hr : env.Runs c) (fuel : Nat) (name : String)
    (args : List Word) : (Run.call env fuel name args).Tells (Framing env.program) := by
  let S := (telling_framing env.program).likeness
  have like := engine_framing hr fuel
  change S.Like fun _ => Run.call env fuel name args
  refine Likeness.call fun id _ => ?_
  refine S.bind (Likeness.start fun _ _ _ _ => like.execute _) fun _ => S.noted id (S.named _ ?_)
  exact Engine.invoke_tells hr (engine_folds env fuel) (Likeness.runBody fun s _ => like.perform s)

/-- A frame that has never been told to be open makes brackets impossible. -/
theorem Strays.not_bracketed {f : Function} {opened : List String} {pre t : List Event}
    (h : Strays f opened pre t) (hp : openAfter pre [] = some opened) : ¬ Bracketed t := by
  intro hb
  rw [Bracketed, h, openAfter_append, hp, Option.bind_some, openAfter_cons] at hb
  cases opened with
  | nil => cases hb
  | cons g rest =>
    by_cases hg : g = f.name
    · rw [Event.track, if_pos hg, Option.bind_some] at hb
      have := length_of_exits hb
      simp only [List.length_cons, List.length_nil] at this
      omega
    · simp [Event.track, hg] at hb

namespace Session

/-- **Frames are told of in brackets, unless one cannot be set up.**  Let a session run the program
that has been compiled from a source, whatever has become of its machine since and whatever the
control says, and let the run not end for want of fuel.  Then in what the run tells of, each frame
that is told to be closed is the innermost that has been told to be open, and none is left open; or
the run has failed because memory had no room for a variable `v` of a function while its frame was set
up.  In this case the frame of that function is told to be closed although it has never been told to
be open, then the frames that are open are closed in their order, and nothing follows. -/
theorem frames_bracketed {s t u u' : Session} {source : String} (h : s.compile source = .ok t)
    (hu : u.env = t.env) {fuel : Nat} {name : String} {args : List Word}
    {r : Except Stop (Option Word)} (hx : u.callWithin fuel name args = (r, u'))
    (hr : r ≠ .error .exhausted) : ∃ told, u'.machine.events = u.machine.events ++ told ∧
      (Bracketed told ∨ ¬ Bracketed told ∧ ∃ id pre opened v e,
        v ∈ (t.env.program.function id).locals ∧
        r = .error (.fault (.memory e (t.env.program.symbol v).declaredAt)) ∧
        told = pre ++ .exit (t.env.program.function id).name :: opened.map .exit ∧
        openAfter pre [] = some opened) := by
  obtain ⟨c, runs⟩ := runs_of_compile h
  have run := callWithin_eq hx
  rw [hu] at run
  obtain ⟨r', m, told, run', -, hl, ht⟩ := Run.call_framing runs fuel name args u.machine
  obtain ⟨rfl, hm⟩ := Run.conclude_inj (run.symm.trans run')
  refine ⟨told, ?_, ?_⟩
  · rw [hm, Machine.events, hl, List.reverse_append, List.reverse_reverse]
    rfl
  · rcases ht with ht | ⟨e, id, pre, opened, he, unfit, strays, hpre⟩
    · exact .inl (ht [])
    · have hopen : openAfter pre [] = some opened := by rw [hpre, List.append_nil]
      refine .inr ⟨strays.not_bracketed hopen, id, pre, opened, ?_⟩
      cases r with
      | ok w => cases he
      | error e' =>
        cases he
        cases unfit with
        | memory hv => exact ⟨_, _, hv, rfl, strays, hopen⟩
        | internal hi =>
          have safe := Run.call_safe runs (show Run.call _ _ _ _ _ = .error _ _ from run)
          exact absurd hi (by simp [safe])
        | exhausted => exact absurd rfl hr

/-- A function that calls itself. -/
def recursive : String :=
  "int f(int n) \x7b if (n) return f(n - 1); return 0; \x7d int main() \x7b return f(2); \x7d"

theorem frames_bracketed_recursive : ∃ t u told, (new .standard).compile recursive = .ok t ∧
    (t.controlled ⟨.free, some 4⟩).callWithin 100 "main" [] = (.error .aborted, u) ∧
    u.machine.events = (t.controlled ⟨.free, some 4⟩).machine.events ++ told ∧ Bracketed told := by
  have run : ((new .standard).compile recursive).toOption.map
      (fun t => ((t.controlled ⟨.free, some 4⟩).callWithin 100 "main" []).1) =
        some (.error .aborted) := by
    rw [compile_of_toList recursive (String.ofList_eq.1 rfl)]
    decide +kernel
  obtain ⟨t, ht, aborts⟩ := Except.exists_ok_of_map run
  have h : (t.controlled ⟨.free, some 4⟩).callWithin 100 "main" [] = (.error .aborted, _) :=
    Prod.ext aborts rfl
  have same : (t.controlled ⟨.free, some 4⟩).env = t.env := rfl
  obtain ⟨told, hl, hb | ⟨-, _, _, _, _, _, -, hr, -⟩⟩ := frames_bracketed ht same h (by simp)
  · exact ⟨t, _, told, ht, h, hl, hb⟩
  · cases hr

/-- A session whose memory has 64 bytes. -/
def cramped : Session := new ⟨64, 512, "main"⟩

/-- **A frame can be told to be closed that has never been told to be open**: the variable `big` of
`main` does not fit into memory. -/
theorem unbracketed_cramped :
    ∃ t u, cramped.compile "int main() \x7b int big[100]; return 0; \x7d" = .ok t ∧
      (∃ f, t.callWithin 100 "main" [] = (.error (.fault f), u)) ∧ t.machine.events = [] ∧
      u.machine.events = [.exit "main"] ∧ ¬ Bracketed u.machine.events := by
  have run : (cramped.compile "int main() \x7b int big[100]; return 0; \x7d").toOption.map (fun t =>
      match t.callWithin 100 "main" [] with
      | (.error (.fault _), u) => (t.machine.events, u.machine.events)
      | _ => ([], [])) = some ([], [.exit "main"]) := by
    rw [compile_of_toList "int main() \x7b int big[100]; return 0; \x7d"
      (String.ofList_eq.1 rfl)]
    decide +kernel
  obtain ⟨t, ht, told⟩ := Except.exists_ok_of_map run
  split at told
  · rename_i f u hu
    obtain ⟨before, after⟩ := Prod.mk.inj told
    refine ⟨t, u, ht, ⟨f, hu⟩, before, after, ?_⟩
    rw [after]
    decide
  · cases told

end Session

end MiniC
