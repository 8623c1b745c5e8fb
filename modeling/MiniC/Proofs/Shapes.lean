/-
  Shapes are told truly.

  A run tells of each array when it has been given its storage and of each structure that a call of
  `malloc` has allocated.  What is told is computed apart from the storage: the length of an array is
  evaluated again, and a structure is told of because of the form of the call.  A run is honest
  (`Run.Honest`) if all that it tells of shapes is true where it is told (`Moment.Truthful`) and each
  of its events has been told at some moment.

  * `Engine.invoke_allocator`: a call of `malloc` comes to a heap block of the size it was given.
  * `engine_honest`: well-typed code is honest, whatever it does.
  * `Session.shapes_truthful`: so is every run of a compiled program.
-/
import MiniC.Proofs.Likeness

namespace MiniC

/-! ## Honest runs -/

/-- What a moment tells of an array or of a structure is so: the array is a variable that is bound to
the address and has as many elements as its declaration says, and the structure is a live heap block
of its size. -/
def Moment.Truthful (p : Program) : Moment → Prop
  | told (.array element a length) s => ∃ id spec, (p.symbol id).array = some spec ∧
      spec.Measures p (p.symbol id) ∧ (p.symbol id).ty.pointee = some element ∧
      spec.length = length ∧ ⟨id, a, (p.symbol id).size⟩ ∈ s.bindings
  | told (.struct name a) s =>
      ∃ l, p.layout? name = some l ∧ a ∈ s.heap ∧ (a, l.size) ∈ s.memory.slots
  | _ => True

/-- All that has been seen on `m'` but not on `m` is truthful, each event has been told of at a
moment, and the regions follow each other. -/
structure Machine.Honest (p : Program) (m m' : Machine) : Prop where
  apart : m'.memory.Apart
  keeps : ∀ y, m.seen y → m'.seen y
  truthful : ∀ y, m'.seen y → m.seen y ∨ y.Truthful p
  logged : ∃ told, m'.log = told ++ m.log ∧ ∀ e ∈ told, ∃ s, m'.seen (.told e s)

namespace Machine.Honest
variable {p : Program} {m n k : Machine}

theorem refl (h : m.memory.Apart) : m.Honest p m :=
  ⟨h, fun _ => id, fun _ => .inl, [], rfl, nofun⟩

theorem trans (h : m.Honest p n) (h' : n.Honest p k) : m.Honest p k where
  apart := h'.apart
  keeps y hy := h'.keeps y (h.keeps y hy)
  truthful y hy := by
    rcases h'.truthful y hy with hy | hy
    · exact h.truthful y hy
    · exact .inr hy
  logged := by
    obtain ⟨told, hl, ht⟩ := h.logged
    obtain ⟨told', hl', ht'⟩ := h'.logged
    refine ⟨told' ++ told, by rw [hl', hl, List.append_assoc], fun e he => ?_⟩
    rcases List.mem_append.1 he with he | he
    · exact ht' e he
    · exact (ht e he).imp fun s hs => h'.keeps _ hs

theorem note {x : Moment} (hm : m.memory.Apart) (hx : x.Truthful p) : m.Honest p (m.note x) where
  apart := hm
  keeps _ hy := .inr hy
  truthful y hy := by
    rcases hy with rfl | hy
    · exact .inr hx
    · exact .inl hy
  logged := ⟨[], rfl, nofun⟩

theorem tell {e : Event} (hm : m.memory.Apart) (he : (Moment.told e m.toState).Truthful p) :
    m.Honest p (m.tell e) where
  apart := hm
  keeps := (note hm he).keeps
  truthful := (note hm he).truthful
  logged := ⟨[e], rfl, fun x hx => ⟨m.toState, .inl (by rw [List.mem_singleton.1 hx])⟩⟩

end Machine.Honest

namespace Run
variable {α β : Type} {p : Program}

/-- Where the regions follow each other, `x` tells of shapes truly and leaves it so. -/
def Honest (p : Program) (x : Run α) : Prop :=
  ∀ m : Machine, m.memory.Apart → ∃ r m', x m = conclude r m' ∧ m.Honest p m'

theorem honest_modify {f : Machine → Machine} (hm : ∀ m, (f m).memory = m.memory)
    (hs : ∀ m, (f m).seen = m.seen) (hl : ∀ m, (f m).log = m.log) :
    (modify f : Run PUnit).Honest p := by
  refine fun m h => ⟨.ok (), f m, rfl, ?_, fun y hy => ?_, fun y hy => .inl ?_, [], hl m, nofun⟩
  · rwa [hm]
  · rwa [hs]
  · rwa [hs] at hy

theorem honest_throw (e : Stop) : (throw e : Run α).Honest p :=
  fun m h => ⟨.error e, m, rfl, .refl h⟩

theorem Plain.honest {x : Run α} (hx : x.Plain) : x.Honest p := by
  intro m h
  obtain ⟨r, m', hm, run⟩ := hx.run m
  obtain ⟨seen, gains, hx⟩ := run m.control m.log m.seen
  refine ⟨_, _, hx, hm.memory.apart h, gains.keeps, fun y hy => ?_, [], rfl, nofun⟩
  refine (gains.asides y hy).imp_right fun aside => ?_
  cases aside <;> trivial

theorem Honest.bind {x : Run α} {f : α → Run β} (hx : x.Honest p) (hf : ∀ a, (f a).Honest p) :
    (x >>= f).Honest p := by
  intro m h
  obtain ⟨r, n, run, hn⟩ := hx m h
  cases r with
  | error e => exact ⟨.error e, n, bind_of_error run, hn⟩
  | ok a =>
    obtain ⟨r', n', run', hn'⟩ := hf a n hn.apart
    exact ⟨r', n', (bind_of_ok run).trans run', hn.trans hn'⟩

theorem Honest.attempt {x : Run α} (hx : x.Honest p) : (attempt x).Honest p := by
  intro m h
  obtain ⟨r, n, run, hn⟩ := hx m h
  exact ⟨.ok r, n, attempt_conclude run, hn⟩

theorem honest_conclude (r : Except Stop α) : (conclude r).Honest p :=
  fun m h => ⟨r, m, rfl, .refl h⟩

theorem Honest.noted {x : Run α} (f : FunctionId) (hx : x.Honest p) : (noted f x).Honest p := by
  intro m h
  obtain ⟨r, n, run, hn⟩ := hx m.afresh h
  refine ⟨r, _, noted_conclude run, hn.apart, fun y hy => .inr (.inr hy), fun y hy => ?_, ?_⟩
  · rcases hy with rfl | hy | hy
    · exact .inr trivial
    · exact .inr ((hn.truthful y hy).resolve_left id)
    · exact .inl hy
  · obtain ⟨told, hl, ht⟩ := hn.logged
    exact ⟨told, hl, fun e he => (ht e he).imp fun s hs => .inr (.inl hs)⟩

/-- What is told of is told truly if it is true on the machine that it is told on. -/
theorem tell_honest {e : Event} {m : Machine} (h : m.memory.Apart)
    (he : (Moment.told e m.toState).Truthful p) :
    ∃ r m', emit e m = conclude r m' ∧ m.Honest p m' :=
  ⟨.ok (), m.tell e, rfl, .tell h he⟩

theorem honest_emit {e : Event} (he : e.isShape = false) : (emit e).Honest p := by
  refine fun m h => tell_honest h ?_
  cases e <;> trivial

end Run

open Run

/-- A run that tells of shapes truly. -/
def honesty (p : Program) : Likeness Unit where
  Like x := (x ()).Honest p
  plain hx := hx.honest
  bind hx hf := hx.bind hf
  tell _ he := honest_emit he
  noted f hx := hx.noted f
  lastly hx hy _ := hx.attempt.bind fun _ => hy.honest.bind fun _ => honest_conclude _

namespace honesty
variable (p : Program)

theorem paced : (honesty p).Paced where
  checkpoint loc m h := by
    have told : m.Honest p (m.tell (.checkpoint loc)) := .tell h trivial
    exact ⟨_, _, checkpoint_eq loc m, told.apart, told.keeps, told.truthful, told.logged⟩
  jump {f} ho _ hk := by
    refine honest_modify hk (fun m => ?_) fun m => ?_
    · exact congrArg (·.seen) (ho m m.control m.log m.seen)
    · exact congrArg (·.log) (ho m m.control m.log m.seen)

theorem announceFrame : (honesty p).Like fun _ => Engine.announceFrame := by
  refine (honesty p).look (fun _ _ _ _ _ => rfl) fun m => ?_
  cases m.frames.current? with
  | none => exact (honesty p).pure _
  | some frame => exact honest_emit rfl

theorem leaveFrame : (honesty p).Like fun _ => Engine.leaveFrame := by
  refine (honesty p).look (fun _ _ _ _ _ => rfl) fun m => ?_
  cases m.frames.pop with
  | none => exact (honesty p).pure _
  | some popped =>
    refine Honest.bind (honest_modify (fun _ => rfl) (fun _ => rfl) fun _ => rfl) fun _ => ?_
    refine (plain_releaseAll _).honest.bind fun trouble => ?_
    exact (honest_emit rfl).bind fun _ => (plain_pure trouble).honest

theorem framed : (honesty p).Framed where
  announce := announceFrame p
  framed {x} limit loc id f hx := by
    have result : ∀ returned, (Engine.callResult f returned).Plain := by
      intro returned
      refine plain_ite (plain_pure _) ?_
      cases returned with
      | some v => exact plain_pure _
      | none => exact plain_fault _
    have taken : Engine.takeReturn.Honest p := fun m h =>
      ⟨.ok m.pending, { m with pending := none, flow := .normal }, rfl, h, fun _ hy => hy,
        fun _ => .inl, [], rfl, nofun⟩
    have closes : (Engine.closing f (x ())).Honest p := by
      refine hx.attempt.bind fun outcome => (leaveFrame p).bind fun trouble => ?_
      refine taken.bind fun returned => (honest_conclude outcome).bind fun _ => ?_
      cases trouble with
      | some e => exact (plain_fault _).honest
      | none => exact (result returned).honest
    refine (honesty p).look (fun _ _ _ _ _ => rfl) fun m => ?_
    have opens := Honest.bind (honest_modify (p := p)
      (f := fun m => { m with frames := m.frames.push id f.name }) (fun _ => rfl) (fun _ => rfl)
      fun _ => rfl) fun _ => closes
    exact (honesty p).ite (((honesty p).fault _).bind fun _ => opens) opens

end honesty

/-! ## Arrays -/

namespace Engine
variable {env : Env} {engine : Engine} {m n : Machine} {id : SymbolId} {a : Address}

theorem bindLocal_eq_ok {symbol : Symbol} {u : Unit} (h : bindLocal symbol id a m = .ok u n) :
    ∃ frames, m.frames.bind? id a symbol.size = some frames ∧ { m with frames } = n := by
  simp only [bindLocal, bind_eq_ok, get_eq_ok] at h
  obtain ⟨_, _, ⟨rfl, rfl⟩, h⟩ := h
  cases hb : m.frames.bind? id a symbol.size with
  | none => simp [hb] at h
  | some frames => exact ⟨frames, rfl, modify_eq_ok.1 (by simpa only [hb] using h)⟩

theorem mem_bindings_of_bind? {frames : Frames} {size : Nat}
    (h : m.frames.bind? id a size = some frames) :
    ⟨id, a, size⟩ ∈ State.bindings { m.toState with frames } := by
  unfold Frames.bind? at h
  split at h
  · cases h
  · cases h
    simp [State.bindings]

/-- An array is told of with the length that its storage was measured by. -/
theorem Folds.registerArray_honest (h : engine.Folds) {p : Program}
    (hs : ∀ spec, (p.symbol id).array = some spec → spec.Measures p (p.symbol id))
    (hb : ⟨id, a, (p.symbol id).size⟩ ∈ m.toState.bindings) (hm : m.memory.Apart) :
    ∃ r n, engine.registerArray (p.symbol id) a m = conclude r n ∧ m.Honest p n := by
  unfold registerArray
  cases hspec : (p.symbol id).array with
  | none => exact (plain_pure ()).honest m hm
  | some spec =>
    have measures := hs spec hspec
    obtain ⟨w, hw, hlength⟩ := measures.constant
    obtain ⟨element, k, helement, -⟩ := measures.storage
    have element? : (p.symbol id).elementType? = some element := by
      rw [Symbol.elementType?, hspec]
      exact helement
    simp only [element?]
    rcases h.solve hw m with hx | ⟨ty, hx⟩
    · exact ⟨.error .exhausted, m, bind_of_error hx, .refl hm⟩
    · rw [bind_of_ok hx]
      refine tell_honest hm ⟨id, spec, hspec, measures, helement, ?_, hb⟩
      rw [hlength]
      rfl

variable (h : engine.Folds) (hs : ∀ spec, (env.program.symbol id).array = some spec →
  spec.Measures env.program (env.program.symbol id)) (a)
include h hs

theorem Folds.giveLocal_honest : (engine.giveLocal env id a).Honest env.program := by
  intro m hm
  obtain ⟨r, n, hx, hn⟩ := (plain_bindLocal (env.program.symbol id) id a).honest (p := env.program) m hm
  cases r with
  | error e => exact ⟨.error e, n, bind_of_error hx, hn⟩
  | ok u =>
    obtain ⟨frames, hb, rfl⟩ := bindLocal_eq_ok hx
    obtain ⟨r, k, hy, hk⟩ := h.registerArray_honest (m := { m with frames }) hs
      (mem_bindings_of_bind? (m := m) hb) hm
    exact ⟨r, k, (bind_of_ok hx).trans hy, hk.apart, hk.keeps, hk.truthful, hk.logged⟩

theorem Folds.giveGlobal_honest : (engine.giveGlobal env id a).Honest env.program := by
  intro m hm
  let bound : Machine :=
    { m with frames := m.frames.bindGlobal id a (env.program.symbol id).size }
  have hb : ⟨id, a, (env.program.symbol id).size⟩ ∈ bound.toState.bindings := by
    simp [bound, State.bindings, Frames.bindGlobal]
  obtain ⟨r, k, hy, hk⟩ := h.registerArray_honest hs hb hm
  exact ⟨r, k, hy, hk.apart, hk.keeps, hk.truthful, hk.logged⟩

end Engine

/-! ## Calls of `malloc` -/

/-- Notices are told of, and nothing else happens. -/
theorem Machine.notices_keep (m : Machine) (notices : List (Address × Word)) :
    (notices.foldl (fun m (a, w) => m.tell (.wrote a w)) m).memory = m.memory ∧
      (notices.foldl (fun m (a, w) => m.tell (.wrote a w)) m).frames = m.frames := by
  induction notices generalizing m with
  | nil => exact ⟨rfl, rfl⟩
  | cons x xs ih => exact ih (m.tell (.wrote x.1 x.2))

/-- A write of a word changes memory and no frame. -/
theorem Run.writeWord_ok {m n : Machine} {a : Address} {w : Word} {loc : Location} {u : Unit}
    (h : writeWord a w loc m = .ok u n) :
    m.memory.writeWord a w = .ok n.memory ∧ n.frames = m.frames := by
  simp only [writeWord, bind_eq_ok, get_eq_ok] at h
  obtain ⟨_, _, ⟨rfl, rfl⟩, h⟩ := h
  cases hw : m.memory.writeWord a w with
  | error e => simp [hw] at h
  | ok memory =>
    simp only [hw, written, modify_eq_ok] at h
    obtain ⟨hm, hf⟩ := Machine.notices_keep { m with memory } (memory.notices a w)
    rw [h] at hm hf
    exact ⟨by rw [hm], hf⟩

namespace Engine
variable {env : Env} {engine : Engine} {m n : Machine} {size : SymbolId} {loc : Location}

theorem variablePlace_eq_ok {id : SymbolId} {ty : Ty} {q : Place}
    (h : variablePlace env id ty loc m = .ok q n) :
    ∃ a, m.frames.address? id = some a ∧ q = ⟨a, ty, (env.program.symbol id).isArray⟩ ∧ n = m := by
  simp only [variablePlace, bind_eq_ok, get_eq_ok, require_eq_ok, pure_eq_ok] at h
  obtain ⟨_, _, ⟨rfl, rfl⟩, a, _, ⟨ha, rfl⟩, rfl, rfl⟩ := h
  exact ⟨a, ha, rfl, rfl⟩

theorem announceFrame_ok {u : Unit} (h : announceFrame m = .ok u n) :
    n.memory = m.memory ∧ n.frames = m.frames := by
  simp only [announceFrame, bind_eq_ok, get_eq_ok] at h
  obtain ⟨_, _, ⟨rfl, rfl⟩, h⟩ := h
  cases hc : m.frames.current? with
  | none =>
    simp only [hc, pure_eq_ok] at h
    exact h.2 ▸ ⟨rfl, rfl⟩
  | some frame =>
    simp only [hc, emit, modify_eq_ok] at h
    exact h ▸ ⟨rfl, rfl⟩

/-- The innermost frame has one variable, which lies at `a` and holds the word `w`. -/
structure Argued (m : Machine) (size : SymbolId) (a : Address) (w : Word) : Prop where
  frame : ∃ frame calls k, m.frames.calls = frame :: calls ∧ frame.latest = [⟨size, a, k⟩]
  apart : m.memory.Apart
  mapped : a ∈ m.memory.starts
  holds : m.memory.readWord a = .ok w

theorem Argued.address {a : Address} {w : Word} (h : Argued m size a w) :
    m.frames.address? size = some a := by
  obtain ⟨frame, calls, k, hc, hl⟩ := h.frame
  simp [Frames.address?, Frames.current?, Frame.address?, hc, hl]

/-- The frame of an allocator gets its one variable, and the argument is stored there. -/
theorem enterFrame_argued {f : Function} {v : Value} {frame : Frame} {calls : List Frame} {u : Unit}
    (hp : f.params = [size]) (hl : f.locals = [size]) (hty : (env.program.symbol size).ty = Ty.int)
    (harray : (env.program.symbol size).array = none) (h : engine.enterFrame env f [v] m = .ok u n)
    (hm : m.memory.Apart) (hc : m.frames.calls = frame :: calls) (hf : frame.latest = []) :
    ∃ a, Argued n size a v.word := by
  have shapeless : ∀ a, engine.registerArray (env.program.symbol size) a = pure () := by
    intro a
    rw [registerArray, harray]
  rw [enterFrame, hp, hl, allocateLocals_cons] at h
  simp only [shapeless, allocateLocals, bindParams, bind_eq_ok, pure_eq_ok, allocate_eq_ok] at h
  obtain ⟨_, _, ⟨a, _, ⟨memory, halloc, rfl⟩, _, _, hbind, _, _, ⟨-, rfl⟩, -, rfl⟩, _, _,
    ⟨q, _, hplace, _, _, hstore, -, rfl⟩, hannounce⟩ := h
  obtain ⟨frames, hb, rfl⟩ := bindLocal_eq_ok hbind
  obtain ⟨a', ha, rfl, rfl⟩ := variablePlace_eq_ok hplace
  -- The frame holds the argument and nothing else.
  have bound : frames.calls = { frame with latest := [⟨size, a, (env.program.symbol size).size⟩] } ::
      calls := by
    simp only [Frames.bind?, hc, hf, Option.some.injEq] at hb
    rw [← hb]
  obtain rfl : a = a' := by
    simpa [Frames.address?, Frames.current?, Frame.address?, bound] using ha
  rw [hty, Run.store, if_neg (show ¬ Ty.int.isChar = true by decide)] at hstore
  obtain ⟨hwrite, hframes⟩ := writeWord_ok hstore
  obtain ⟨hmemory, hframes'⟩ := announceFrame_ok hannounce
  obtain ⟨apart, -⟩ := hm.allocate halloc
  have slots := hm.slots_allocate halloc
  obtain ⟨slots', apart', -⟩ := Memory.writeBytes_slots hwrite
  refine ⟨a, ⟨_, calls, _, by rw [hframes', hframes]; exact bound, rfl⟩, ?_, ?_, ?_⟩
  · rw [hmemory]
    exact apart' apart
  · rw [hmemory, State.mem_starts]
    exact ⟨_, by rw [slots', slots.mem_iff]; exact List.mem_cons_self⟩
  · rw [hmemory]
    exact apart.readWord_writeWord hwrite

theorem malloc_eq_ok {w : Word} {u : Unit} (h : malloc w loc m = .ok u n) :
    0 < w.toInt ∧ ∃ b memory, m.memory.allocate w.toInt.toNat = .ok (b, memory) ∧ n =
      { m.note (.changed (.granted b w.toInt.toNat)) with
        memory
        heap := if b ∈ m.heap then m.heap else b :: m.heap
        pending := some (.pointer Ty.voidPointer b) } := by
  unfold malloc at h
  by_cases hw : w.toInt ≤ 0
  · simp [hw] at h
  · simp only [hw, if_false, bind_eq_ok, allocate_eq_ok, modify_eq_ok] at h
    obtain ⟨b, _, ⟨memory, ha, rfl⟩, rfl⟩ := h
    exact ⟨Int.not_le.1 hw, b, memory, ha, rfl⟩

section
variable (hty : (env.program.symbol size).ty = Ty.int)
  (harray : (env.program.symbol size).array = none)
include hty harray

/-- The argument is read as it was stored. -/
theorem Argued.argument {a : Address} {w : Word} (h : Argued m size a w) :
    argument env size loc m = .ok ⟨Ty.int, w⟩ m := by
  have isArray : (env.program.symbol size).isArray = false := by rw [Symbol.isArray, harray]; rfl
  have found : variablePlace env size Ty.int loc m = .ok ⟨a, Ty.int, false⟩ m := by
    simp [variablePlace, h.address, isArray]
  have read : readWord a loc m = .ok w m := by
    simp [readWord, h.holds]
  rw [Engine.argument, hty, bind_of_ok found]
  exact bind_eq_ok.2 ⟨w, m, read, rfl⟩

/-- On the argument `w`, the allocator finds a block of `w` bytes apart from the argument. -/
theorem Argued.malloc {a : Address} {w : Word} {u : Unit} (h : Argued m size a w)
    (hx : builtin env (.malloc size) loc m = .ok u n) :
    0 < w.toInt ∧ n.frames = m.frames ∧ ∃ b rest, n.pending = some (.pointer Ty.voidPointer b) ∧
      b ∈ n.heap ∧ (b, w.toInt.toNat) ∈ n.memory.slots ∧ n.memory.Apart ∧
      (a :: rest).Perm n.memory.starts ∧ b ∈ rest := by
  have run : Engine.malloc w loc m = .ok u n := by
    simp only [builtin] at hx
    rwa [bind_of_ok (h.argument hty harray)] at hx
  obtain ⟨hpos, b, memory, ha, rfl⟩ := malloc_eq_ok run
  have slots := h.apart.slots_allocate ha
  have starts := Memory.starts_perm slots
  have others : (a :: b :: m.memory.starts.erase a).Perm memory.starts :=
    (List.Perm.swap ..).trans (((List.perm_cons_erase h.mapped).symm.cons b).trans starts.symm)
  refine ⟨hpos, rfl, b, _, rfl, ?_, slots.mem_iff.2 List.mem_cons_self, (h.apart.allocate ha).1,
    others, List.mem_cons_self⟩
  split
  · assumption
  · exact List.mem_cons_self

end

/-- Closing a frame gives up its regions and no others. -/
theorem leaveFrame_keeps {frame : Frame} {calls : List Frame} {rest : List Address}
    {t : Option MemoryError} (hc : m.frames.calls = frame :: calls) (hm : m.memory.Apart)
    (hr : (frame.latest.map Binding.address ++ rest).Perm m.memory.starts)
    (h : leaveFrame m = .ok t n) : n.heap = m.heap ∧ n.pending = m.pending ∧
      ∀ b ∈ rest, ∀ k, (b, k) ∈ m.memory.slots → (b, k) ∈ n.memory.slots := by
  obtain ⟨memory, hrelease, -, -, keeps⟩ :=
    releaseAll_ok (m := { m with frames := { m.frames with calls } }) hm hr
  have hpop : m.frames.pop = some (frame, { m.frames with calls }) := by rw [Frames.pop, hc]
  simp only [leaveFrame, bind_eq_ok, get_eq_ok] at h
  obtain ⟨_, _, ⟨rfl, rfl⟩, h⟩ := h
  simp only [hpop, bind_eq_ok, modify_eq_ok, emit, pure_eq_ok] at h
  obtain ⟨_, _, rfl, _, _, hx, _, _, rfl, -, rfl⟩ := h
  cases hrelease.symm.trans hx
  exact ⟨rfl, rfl, fun b hb k => (keeps b hb k).2⟩

/-- A call that has come to a value has come to what its body left. -/
theorem closing_eq_ok {f : Function} {x : Run Unit} {q : Value} (h : closing f x m = .ok (some q) n) :
    ∃ u k k' v, x m = .ok u k ∧ leaveFrame k = .ok none k' ∧ k'.pending = some v ∧
      q = v.convert f.result ∧ n = { k' with pending := none, flow := .normal } := by
  simp only [closing, bind_eq_ok, attempt_eq_ok, conclude_eq_ok] at h
  obtain ⟨_, k, ⟨u, hx, rfl⟩ | ⟨_, -, rfl⟩, trouble, k', hleave, returned, _, htake, _, _,
    ⟨hu, rfl⟩, h⟩ := h
  · cases htake
    cases trouble with
    | some e => simp at h
    | none =>
      by_cases hv : f.returnsValue = true
      · cases hp : k'.pending with
        | none => simp [callResult, hv, hp] at h
        | some v =>
          simp only [callResult, hv, hp, not_true, if_false, pure_eq_ok, Option.some.injEq] at h
          exact ⟨u, k, k', v, hx, hleave, hp, h.1.symm, h.2.symm⟩
      · simp [callResult, hv] at h
  · cases hu

/-- **A call of `malloc` comes to a heap block of the size it is given.** -/
theorem invoke_allocator {id : FunctionId} {v q : Value}
    (hf : (env.program.function id).IsAllocator env.program)
    (h : engine.invoke env id [v] loc m = .ok (some q) n) (hm : m.memory.Apart) :
    0 < v.word.toInt ∧ q.address ∈ n.heap ∧ (q.address, v.word.toInt.toNat) ∈ n.memory.slots := by
  obtain ⟨size, hbody, hparams, hlocals, hresult, hty, harray⟩ := hf
  rw [invoke_eq] at h
  by_cases hd : env.config.maxDepth ≤ m.frames.depth
  · rw [framed_of_le hd] at h
    cases h
  · rw [framed_of_lt (Nat.not_le.1 hd)] at h
    obtain ⟨u, k, k', r, hx, hleave, hreturned, rfl, rfl⟩ := closing_eq_ok h
    obtain ⟨_, k₀, henter, hrun⟩ := bind_eq_ok.1 hx
    obtain ⟨a, argued⟩ := enterFrame_argued hparams hlocals hty harray henter hm rfl rfl
    rw [runBody, hbody] at hrun
    obtain ⟨hpos, hframes, b, rest, hpending, hb, hslot, hapart, hperm, hrest⟩ :=
      argued.malloc hty harray hrun
    obtain ⟨frame, calls, l, hcalls, hlatest⟩ := argued.frame
    rw [← hframes] at hcalls
    obtain ⟨hheap, hkept, keeps⟩ := leaveFrame_keeps hcalls hapart (by rw [hlatest]; exact hperm) hleave
    -- The block is told apart from the argument's region, so it outlives the frame.
    obtain rfl : r = .pointer Ty.voidPointer b :=
      Option.some.inj ((hreturned.symm.trans hkept).trans hpending)
    have address : ((Value.pointer Ty.voidPointer b).convert (env.program.function id).result).address =
        b := by
      rw [hresult]
      rfl
    rw [address]
    exact ⟨hpos, hheap ▸ hb, keeps b hrest _ hslot⟩

/-- The arguments of a call that allocates a structure come to its size. -/
theorem Folds.solveAll_const (h : engine.Folds) {w : Word} {ty : Ty} {loc : Location} {vs : List Value}
    (hx : engine.solveAll [.mk (.const w) ty loc] m = .ok vs n) :
    ∃ ty', vs = [⟨ty', w⟩] ∧ n = m := by
  simp only [solveAll, bind_eq_ok, pure_eq_ok] at hx
  obtain ⟨v, k, hv, _, _, ⟨rfl, rfl⟩, rfl, rfl⟩ := hx
  rcases h.solve (e := .mk (.const w) ty loc) rfl m with hs | ⟨ty', hs⟩
  · cases hs.symm.trans hv
  · cases hs.symm.trans hv
    exact ⟨ty', rfl, rfl⟩

/-- A call that allocates a structure comes to a heap block of its size. -/
theorem Folds.call_allocator (h : engine.Folds) {id : FunctionId} {w : Word} {ty : Ty} {at_ : Location}
    {q : Value} (hf : (env.program.function id).IsAllocator env.program) (hm : m.memory.Apart)
    (hx : engine.call env id [.mk (.const w) ty at_] loc m = .ok (some q) n) :
    0 < w.toInt ∧ q.address ∈ n.heap ∧ (q.address, w.toInt.toNat) ∈ n.memory.slots := by
  obtain ⟨k, hk, rfl⟩ := noted_eq_ok.1 hx
  obtain ⟨k', hk', rfl⟩ := named_eq_ok.1 hk
  obtain ⟨vs, k₀, hvs, hinvoke⟩ := bind_eq_ok.1 hk'
  obtain ⟨ty', rfl, rfl⟩ := h.solveAll_const hvs
  exact invoke_allocator hf hinvoke hm

end Engine

/-! ## Well-typed code -/

/-- A number of 32 bits that is positive as a word is the word's value. -/
theorem Word.toNat_ofNat_of_pos {n : Nat} (hn : n < 4294967296) (h : 0 < (Int32.ofNat n).toInt) :
    (Int32.ofNat n).toInt.toNat = n := by
  rw [Int32.toInt_ofNat'] at h ⊢
  simp only [Int.bmod, Int32.size] at h ⊢
  split at h <;> omega

/-- A call that allocates a structure calls the allocator with nothing but the size of the structure. -/
theorem Expr.Typed.allocates {g : Grammar} {c : Context} (h : c.Finished g) {k : Option FunctionId}
    {id : FunctionId} {args : List Expr} {s : StructId} {ty : Ty} {loc : Location}
    (he : (Expr.mk (.call id args (some s)) ty loc).Typed c k) :
    (c.program.function id).IsAllocator c.program ∧
      c.program.layout? (c.program.layout s).name = some (c.program.layout s) ∧
      ∃ loc, args = [.mk (.const (.ofNat (c.program.layout s).size)) Ty.int loc] := by
  cases he with
  | @call _ f _ _ _ hf _ hargs hallocates =>
    obtain ⟨hb, hn, hstruct, at_, hhead⟩ := hallocates s rfl
    have allocator := (h.tables.functions hf).malloc hb hn
    refine ⟨?_, ?_, at_, ?_⟩
    · rwa [Program.function_eq hf]
    · rw [Program.layout?, hstruct]
      rfl
    · obtain ⟨size, -, hparams, -⟩ := allocator
      rw [hparams] at hargs
      obtain ⟨a, as, -, hnil, rfl⟩ := List.forall₂_cons_right_iff.1 hargs
      cases hnil
      cases hhead
      rfl

/-- The loop of a well-typed statement is well typed. -/
theorem Stmt.Typed.loop {c : Context} {k : FunctionId} {result : Option Ty} {s : Stmt} {l : Loop}
    (hs : s.Typed c (some k) result) (hl : l ∈ s.action.loop?) : l.Typed c k result := by
  cases hs <;> cases hl
  case whileLoop hc hscalar hb | doWhile hc hscalar hb =>
    exact ⟨fun _ he => Option.some.inj he ▸ ⟨hc, hscalar⟩, nofun, hb⟩
  case forLoop _ hc hn hb => exact ⟨hc, hn, hb⟩

/-- An engine that tells of shapes truly in well-typed code. -/
structure Engine.Honest (c : Context) (engine : Engine) : Prop where
  folds : engine.Folds
  execute : ∀ {k e}, Expr.Typed c k e → (honesty c.program).Like fun _ => engine.execute e
  perform : ∀ {k result s}, Stmt.Typed c (some k) result s →
    (honesty c.program).Like fun _ => engine.perform s
  iterate : ∀ {k result l}, Loop.Typed c k result l →
    (honesty c.program).Like fun _ => engine.iterate l

namespace Engine.Honest
variable {env : Env} {c : Context} {engine : Engine}

section
variable (hr : env.Runs c)
include hr

/-- What the rule of an expression asks for is as well typed as the expression. -/
theorem typed_of_asks {k : Option FunctionId} {e e' : Expr} (he : e.Typed c k) (ha : e.Asks env e') :
    e'.Typed c k := by
  cases ha with
  | operand hm => exact he.operand hm
  | deferred hv hl =>
    rw [hr.program] at hl
    exact he.deferred hr.finished hv hl

variable (h : engine.Honest c)
include h

theorem invoke (id : FunctionId) (args : List Value) (loc : Location) :
    (honesty c.program).Like fun _ => engine.invoke env id args loc := by
  refine (honesty.framed c.program).invoke_of_given (fun v hv a => ?_) fun s hs => ?_
  · have given : (engine.giveLocal env v a).Honest env.program := by
      refine h.folds.giveLocal_honest a fun spec hs => ?_
      rw [hr.program] at hv hs ⊢
      exact (hr.finished.symbol (k := some id) (.inr ⟨id, rfl, hv⟩)).measures spec hs
    rwa [hr.program] at given
  · rw [hr.program] at hs
    exact h.perform (hr.finished.compiled (Program.function_of_compiled hs) hs)

/-- A structure is told of on the machine that the call has left which allocates it. -/
theorem announceStruct_honest {k : Option FunctionId} {id : FunctionId} {args : List Expr}
    {s : StructId} {ty : Ty} {loc : Location} {m n : Machine} {returned : Option Value}
    (hsize : ∀ l ∈ c.program.structs, l.size < 4294967296)
    (he : (Expr.mk (.call id args (some s)) ty loc).Typed c k) (hm : m.memory.Apart)
    (hx : engine.call env id args loc m = .ok returned n) (hn : n.memory.Apart) :
    ∃ r n', Engine.announceStruct env (some s) returned n = conclude r n' ∧ n.Honest c.program n' := by
  cases returned with
  | none => exact (plain_pure ()).honest n hn
  | some q =>
    obtain ⟨allocator, hlayout, at_, rfl⟩ := he.allocates hr.finished
    rw [← hr.program] at allocator
    obtain ⟨hpos, hheap, hslot⟩ := h.folds.call_allocator allocator hm hx
    have small : (c.program.layout s).size < 4294967296 := by
      obtain ⟨t, ht, heq⟩ := Option.map_eq_some_iff.1 hlayout
      exact hsize _ (heq ▸ Array.mem_of_getElem? (hr.finished.ranged.maps.layout ht).1)
    rw [Word.toNat_ofNat_of_pos small hpos] at hslot
    rw [Engine.announceStruct, hr.program]
    split
    · exact tell_honest hn ⟨_, hlayout, hheap, hslot⟩
    · exact (plain_pure ()).honest n hn

theorem callTold {k : Option FunctionId} {id : FunctionId} {args : List Expr}
    {allocates : Option StructId} {ty : Ty} {loc : Location}
    (hsize : ∀ l ∈ c.program.structs, l.size < 4294967296)
    (he : (Expr.mk (.call id args allocates) ty loc).Typed c k) :
    (honesty c.program).Like fun _ => engine.callTold env id args allocates loc := by
  have called : (honesty c.program).Like fun _ => engine.call env id args loc :=
    Likeness.calls (fun e hm => h.execute (he.operand hm)) fun values => h.invoke hr id values loc
  cases allocates with
  | none => exact (honesty c.program).bind called fun _ => (honesty c.program).pure _
  | some s =>
    intro m hm
    obtain ⟨r, n, hx, hn⟩ := called m hm
    cases r with
    | error e => exact ⟨.error e, n, bind_of_error hx, hn⟩
    | ok returned =>
      obtain ⟨r, n', ht, hn'⟩ := h.announceStruct_honest hr hsize he hm hx hn.apart
      refine ⟨r.map fun _ => returned, n', (bind_of_ok hx).trans ?_, hn.trans hn'⟩
      cases r with
      | error e => exact bind_of_error ht
      | ok u => exact bind_of_ok ht

end

/-- The rules keep engines honest. -/
theorem next (hr : env.Runs c) (hsize : ∀ l ∈ c.program.structs, l.size < 4294967296)
    (h : engine.Honest c) : (engine.next env).Honest c where
  folds := ⟨fun he m => Engine.folds_executeRule h.folds he m⟩
  execute {k e} he := by
    refine Likeness.executeRule_of_told (fun e' ha => h.execute (typed_of_asks hr he ha)) ?_
    intro id args allocates ho
    obtain ⟨op, ty, loc⟩ := e
    cases ho
    exact h.callTold hr hsize he
  perform {k result s} hs := by
    exact (honesty.paced c.program).performRule (fun e he => h.execute (hs.expr_of_mem he))
      (fun t ht => h.perform (hs.part ht)) fun l hl => h.iterate (hs.loop hl)
  iterate {k result l} hl := by
    exact (honesty.paced c.program).iterateRule (fun e he => h.execute (hl.condition e he).1)
      (fun e he => h.execute (hl.increment e he)) (h.perform hl.body) (h.iterate hl)

end Engine.Honest

section
variable {env : Env} {c : Context} (hr : env.Runs c)
  (hsize : ∀ l ∈ c.program.structs, l.size < 4294967296)
include hr hsize

/-- **Well-typed code tells of shapes truly.** -/
theorem engine_honest (fuel : Nat) : (engine env fuel).Honest c := by
  induction fuel with
  | zero =>
    exact ⟨engine_folds env 0, fun _ => honest_throw _, fun _ => honest_throw _,
      fun _ => honest_throw _⟩
  | succ n ih =>
    have next := ih.next hr hsize
    exact ⟨engine_folds env (n + 1), next.execute, next.perform, next.iterate⟩

theorem Run.call_honest (fuel : Nat) (name : String) (args : List Word) :
    (Run.call env fuel name args).Honest c.program := by
  have honest := engine_honest hr hsize fuel
  let S := honesty c.program
  change S.Like fun _ => Run.call env fuel name args
  refine Likeness.call fun id _ => ?_
  refine S.bind (Likeness.start_of_given fun v hv a => ?_) fun _ => ?_
  · have given : ((engine env fuel).giveGlobal env v a).Honest env.program := by
      refine honest.folds.giveGlobal_honest a fun spec hs => ?_
      rw [hr.program] at hv hs ⊢
      exact (hr.finished.symbol (k := none) (.inl hv)).measures spec hs
    rwa [hr.program] at given
  · exact S.noted id (S.named _ (honest.invoke hr id _ _))

end

namespace Session

/-- A session that remembers no moments but those in `before`. -/
def remembering (s : Session) (before : Moment → Prop) : Session :=
  { s with machine := { s.machine with seen := before } }

theorem rested_remembering {s : Session} {before : Moment → Prop} (h : s.machine.Rested)
    (hb : ∀ y, before y → s.machine.seen y) : (s.remembering before).machine.Rested where
  lawful := ⟨h.lawful.owned, fun y hy => h.lawful.good y (hb y hy)⟩
  quiet := h.quiet
  frames := h.frames
  strings := h.strings
  callStack := h.callStack

/-- **Shapes are told truly.**  In every run of a compiled program whose structures are each smaller than
2^32 bytes, whatever has run before and whichever of the moments before it are remembered, each event
is told of at a moment of the run.  Wherever an array is told of, a variable of the program is bound
to a live region at this address, the length is the constant that its declaration was checked for,
and the region holds exactly so many elements.  Wherever a structure is told of, a live heap block at
this address has exactly its size. -/
theorem shapes_truthful {config : Config} {s t u v : Session} {source : String} (hs : s.compile source = .ok t)
    (hsize : ∀ l ∈ t.env.program.structs, l.size < 4294967296) (hu : u.Reachable config)
    (henv : u.env = t.env) (before : Moment → Prop) (hbefore : ∀ y, before y → u.machine.seen y)
    (fuel : Nat) (name : String) (args : List Word) (r : Except Stop (Option Word))
    (hv : (u.remembering before).callWithin fuel name args = (r, v)) :
    (∃ told, v.machine.events = u.machine.events ++ told ∧
      ∀ e ∈ told, ∃ st, v.machine.seen (.told e st)) ∧
    (∀ element a n st, v.machine.seen (.told (.array element a n) st) →
      before (.told (.array element a n) st) ∨
      ∃ id spec w k, (t.env.program.symbol id).array = some spec ∧ spec.length = n ∧ 0 < n ∧
        spec.lengthExpr.constant? = some w ∧ w.toInt = n ∧
        (t.env.program.symbol id).ty.pointee = some element ∧
        t.env.program.sizeOf? element = some k ∧ (∃ b ∈ st.bindings, b.symbol = id ∧ b.address = a) ∧
        ∃ r ∈ st.memory.regions, r.start = a ∧ r.size = n * k) ∧
    ∀ struct a st, v.machine.seen (.told (.struct struct a) st) →
      before (.told (.struct struct a) st) ∨
      a ∈ st.heap ∧ ∃ l, t.env.program.layout? struct = some l ∧
        ∃ r ∈ st.memory.regions, r.start = a ∧ r.size = l.size := by
  obtain ⟨c, hr⟩ := runs_of_compile hs
  have rested := rested_remembering hu.rested hbefore
  have ends := rested_callWithin rested fuel name args
  have run := callWithin_eq hv
  rw [hv] at ends
  rw [show (u.remembering before).env = t.env from henv] at run
  rw [hr.program] at hsize ⊢
  obtain ⟨_, m, run', honest⟩ := Run.call_honest hr hsize fuel name args _ rested.lawful.owned.apart
  obtain ⟨-, rfl⟩ := Run.conclude_inj (run.symm.trans run')
  refine ⟨?_, fun element a n st hst => ?_, fun struct a st hst => ?_⟩
  · obtain ⟨told, hl, ht⟩ := honest.logged
    refine ⟨told.reverse, ?_, fun e he => ht e (List.mem_reverse.1 he)⟩
    rw [Machine.events, hl, List.reverse_append]
    rfl
  · refine (honest.truthful _ hst).imp_right ?_
    rintro ⟨id, spec, hspec, measures, helement, rfl, hb⟩
    obtain ⟨w, hw, hlength⟩ := measures.constant
    obtain ⟨_, k, helement', hk, hstorage⟩ := measures.storage
    obtain rfl := Option.some.inj (helement.symm.trans helement')
    have owned : st.Owned := ends.lawful.good _ hst
    refine ⟨id, spec, w, k, hspec, rfl, measures.positive, hw, hlength, helement, hk,
      ⟨_, hb, rfl, rfl⟩, ?_⟩
    rw [← hstorage]
    exact mem_slots_iff.1 (owned.sized _ hb)
  · refine (honest.truthful _ hst).imp_right ?_
    rintro ⟨l, hl, hheap, hslot⟩
    exact ⟨hheap, l, hl, mem_slots_iff.1 hslot⟩

/-- A program with an array and with a structure that it allocates. -/
def weighing : String :=
  "struct Pair \x7b char tag; int weight; \x7d; int g[1 + 2]; "
    ++ "int main() \x7b struct Pair *p; p = malloc(sizeof(struct Pair)); p->weight = 7; "
    ++ "g[2] = p->weight; return g[2]; \x7d"

theorem shapes_truthful_weighing : ∃ t v, (new .standard).compile weighing = .ok t ∧
    (∀ l ∈ t.env.program.structs, l.size < 4294967296) ∧
    (t.remembering fun _ => False).callWithin 100 "main" [] = (.ok (some 7), v) ∧
    (∃ st, v.machine.seen (.told (.array Ty.int 4096 3) st) ∧
      ∃ r ∈ st.memory.regions, r.start = 4096 ∧ r.size = 12) ∧
    ∃ st, v.machine.seen (.told (.struct "Pair" 4116) st) ∧ 4116 ∈ st.heap ∧
      ∃ r ∈ st.memory.regions, r.start = 4116 ∧ r.size = 5 := by
  have run : ((new .standard).compile weighing).toOption.map (fun t =>
      let ran := (t.remembering fun _ => False).callWithin 100 "main" []
      (ran.1, ran.2.machine.events.filter Event.isShape, t.machine.events,
        t.env.program.structs.toList.all (·.size < 4294967296),
        (t.env.program.layout? "Pair").map Layout.size)) =
      some (.ok (some 7), [.array Ty.int 4096 3, .struct "Pair" 4116], [], true, some 5) := by
    rw [compile_of_toList weighing (toList_append_of_eq
      (toList_append_of_eq (String.ofList_eq.1 rfl) (String.ofList_eq.1 rfl)) (String.ofList_eq.1 rfl))]
    decide +kernel
  obtain ⟨t, ht, found⟩ := Except.exists_ok_of_map run
  simp only [Prod.mk.injEq] at found
  obtain ⟨hr, hshapes, hpast, hstructs, hpair⟩ := found
  have hsize : ∀ l ∈ t.env.program.structs, l.size < 4294967296 := by
    intro l hl
    simpa using List.all_eq_true.1 hstructs l hl.val
  cases hv : (t.remembering fun _ => False).callWithin 100 "main" [] with
  | mk r v =>
  rw [hv] at hr hshapes
  obtain rfl : r = .ok (some 7) := hr
  have reachable : t.Reachable .standard := .compile (.new .full) ht
  obtain ⟨⟨told, hevents, htold⟩, arrays, structs⟩ := shapes_truthful ht hsize
    reachable rfl (fun _ => False) (fun _ => False.elim) 100 "main" [] _ hv
  have shape : ∀ e ∈ [Event.array Ty.int 4096 3, .struct "Pair" 4116], e ∈ told := by
    intro e he
    rw [← show v.machine.events.filter Event.isShape = _ from hshapes, hevents, hpast] at he
    exact List.mem_of_mem_filter he
  refine ⟨t, v, ht, hsize, hv, ?_, ?_⟩
  · obtain ⟨st, hst⟩ := htold _ (shape _ List.mem_cons_self)
    obtain ⟨id, spec, w, k, -, -, -, -, -, -, hk, -, region⟩ := (arrays _ _ _ _ hst).resolve_left id
    obtain rfl : 4 = k := Option.some.inj hk
    exact ⟨st, hst, region⟩
  · obtain ⟨st, hst⟩ := htold _ (shape _ (List.mem_cons_of_mem _ List.mem_cons_self))
    obtain ⟨heap, l, hl, region⟩ := (structs _ _ _ hst).resolve_left id
    rw [hl] at hpair
    rw [show l.size = 5 from Option.some.inj hpair] at region
    exact ⟨st, hst, heap, region⟩

end Session

end MiniC
