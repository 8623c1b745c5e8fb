/-
  Plain parts of runs.

  Most of what happens in a run neither asks the control nor tells of anything: it changes memory and
  bindings, and it fails or not, in a way that neither the control nor the log has a part in.  The
  lemmas here say so of each such part, and of what a call does when its body has ended: the frame is
  closed, one event tells of it, and the rest is plain.
-/
import MiniC.Proofs.Outcome
import MiniC.Proofs.Regions

namespace MiniC

/-- The names of the open frames, the innermost first. -/
def Frames.names (f : Frames) : List String := f.calls.map Frame.name

/-- The machine under another control, with another log and other moments. -/
def Machine.under (m : Machine) (control : Control) (log : List Event) (seen : Moment → Prop) :
    Machine :=
  { m with control, log, seen }

/-- Whether an event tells of data, not of a frame or of a statement. -/
def Event.isData : Event → Bool
  | enter .. | exit _ | checkpoint _ => false
  | _ => true

/-- Moments that come with giving out and giving up regions: a refusal, a change of the heap, or a
frame that is told of as closed. -/
inductive Moment.Aside : Moment → Prop
  | refused (a : Address) : Aside (.refused a)
  | changed (c : HeapChange) : Aside (.changed c)
  | exit (name : String) (s : State) : Aside (.told (.exit name) s)

/-- The moments of `seen'` are those of `seen` and some that come with regions. -/
structure Moment.Gains (seen seen' : Moment → Prop) : Prop where
  keeps : ∀ y, seen y → seen' y
  asides : ∀ y, seen' y → seen y ∨ y.Aside

namespace Moment.Gains
variable {seen seen' seen'' : Moment → Prop}

theorem refl (seen : Moment → Prop) : Gains seen seen := ⟨fun _ => id, fun _ => .inl⟩

theorem trans (h : Gains seen seen') (h' : Gains seen' seen'') : Gains seen seen'' where
  keeps y hy := h'.keeps y (h.keeps y hy)
  asides y hy := by
    rcases h'.asides y hy with hy | hy
    · exact h.asides y hy
    · exact .inr hy

theorem note {x : Moment} (hx : x.Aside) (seen : Moment → Prop) :
    Gains seen fun y => y = x ∨ seen y where
  keeps _ hy := .inr hy
  asides y hy := by
    rcases hy with rfl | hy
    · exact .inr hx
    · exact .inl hy

end Moment.Gains

/-! ## Plain parts of runs -/

namespace Run
variable {α β : Type}

theorem bind_of_ok {x : Run α} {f : α → Run β} {m m' : Machine} {a : α} (h : x m = .ok a m') :
    (x >>= f) m = f a m' := by
  change EStateM.bind x f m = _
  rw [EStateM.bind, h]

theorem bind_of_error {x : Run α} {f : α → Run β} {m m' : Machine} {e : Stop}
    (h : x m = .error e m') : (x >>= f) m = .error e m' :=
  bind_eq_error.2 (.inl h)

theorem conclude_inj {q r : Except Stop α} {m n : Machine} (h : conclude q m = conclude r n) :
    q = r ∧ m = n := by
  cases q <;> cases r <;> cases h <;> exact ⟨rfl, rfl⟩

theorem attempt_conclude {x : Run α} {m m' : Machine} {r : Except Stop α}
    (h : x m = conclude r m') : attempt x m = .ok r m' := by
  unfold attempt
  rw [h]
  cases r <;> rfl

/-- A call has all moments of what it runs, however the machine has come to be. -/
theorem noted_under {x : Run α} (f : FunctionId) {r : Except Stop α} {m m' : Machine}
    {control control' : Control} {log log' : List Event} {seen' : Moment → Prop}
    (h : x (m.under control log fun _ => False) = conclude r (m'.under control' log' seen'))
    (seen : Moment → Prop) : ∃ seen'', (∀ y, seen' y → seen'' y) ∧
      noted f x (m.under control log seen) = conclude r (m'.under control' log' seen'') :=
  ⟨((m'.under control' log' seen').ended f (m.under control log seen)).seen,
    fun _ hy => .inr (.inl hy), noted_conclude (m := m.under control log seen) h⟩

/-- What a plain part of a run leaves as it is: the frames that are open, a normal flow, and the space
of memory. -/
structure Alike (m m' : Machine) : Prop where
  names : m'.frames.names = m.frames.names
  flow : m.flow = .normal → m'.flow = .normal
  memory : m.memory.Evolves m'.memory

theorem Alike.refl (m : Machine) : Alike m m := ⟨rfl, id, .refl _⟩

theorem Alike.trans {m m' m'' : Machine} (h : Alike m m') (h' : Alike m' m'') : Alike m m'' :=
  ⟨h'.names.trans h.names, fun hm => h'.flow (h.flow hm), h.memory.trans h'.memory⟩

/-- A part of a run that neither looks at the control, the log and the moments nor changes the first
two, that opens and closes no frame and that does not send control elsewhere. -/
structure Plain (x : Run α) : Prop where
  run : ∀ m : Machine, ∃ (r : Except Fault α) (m' : Machine), Alike m m' ∧
    ∀ control log seen, ∃ seen', Moment.Gains seen seen' ∧
      x (m.under control log seen) = conclude (r.mapError .fault) (m'.under control log seen')

theorem plain_pure (a : α) : (pure a : Run α).Plain :=
  ⟨fun m => ⟨.ok a, m, .refl m, fun _ _ seen => ⟨seen, .refl seen, rfl⟩⟩⟩

theorem plain_fault (f : Fault) : (fault f : Run α).Plain :=
  ⟨fun m => ⟨.error f, m, .refl m, fun _ _ seen => ⟨seen, .refl seen, rfl⟩⟩⟩

theorem Plain.bind {x : Run α} {f : α → Run β} (hx : x.Plain) (hf : ∀ a, (f a).Plain) :
    (x >>= f).Plain := by
  refine ⟨fun m => ?_⟩
  obtain ⟨r, n, hn, run⟩ := hx.run m
  cases r with
  | error e =>
    refine ⟨.error e, n, hn, fun control log seen => ?_⟩
    obtain ⟨seen', hs, h⟩ := run control log seen
    exact ⟨seen', hs, bind_of_error h⟩
  | ok a =>
    obtain ⟨r, n', hn', run'⟩ := (hf a).run n
    refine ⟨r, n', hn.trans hn', fun control log seen => ?_⟩
    obtain ⟨seen', hs, h⟩ := run control log seen
    obtain ⟨seen'', hs', h'⟩ := run' control log seen'
    refine ⟨seen'', hs.trans hs', ?_⟩
    rw [← h']
    exact bind_of_ok h

theorem plain_discard {x : Run α} (hx : x.Plain) : (discard x).Plain := by
  have hd : discard x = x >>= fun _ => pure PUnit.unit := map_eq_pure_bind (fun _ => PUnit.unit) x
  rw [hd]
  exact hx.bind fun _ => plain_pure _

theorem plain_ite {p : Prop} [Decidable p] {x y : Run α} (hx : x.Plain) (hy : y.Plain) :
    (if p then x else y).Plain := by
  by_cases h : p
  · rwa [if_pos h]
  · rwa [if_neg h]

/-- A check in front of `x`. -/
theorem plain_guard {p : Prop} [Decidable p] {f : Fault} {x : PUnit → Run α}
    (hx : ∀ u, (x u).Plain) : (if p then fault f >>= x else x ()).Plain :=
  plain_ite ((plain_fault f).bind hx) (hx ())

theorem plain_require (o : Option α) (f : Fault) : (require o f).Plain := by
  cases o with
  | none => exact plain_fault f
  | some a => exact plain_pure a

/-- What looks at the machine, but not at its control, its log and its moments. -/
theorem plain_get_bind {f : Machine → Run β} (hf : ∀ m, (f m).Plain)
    (ho : ∀ m control log seen, f (m.under control log seen) = f m) : (get >>= f).Plain := by
  refine ⟨fun m => ?_⟩
  obtain ⟨r, n, hn, run⟩ := (hf m).run m
  refine ⟨r, n, hn, fun control log seen => ?_⟩
  obtain ⟨seen', hs, h⟩ := run control log seen
  refine ⟨seen', hs, ?_⟩
  rw [← h, ← ho m control log seen]
  rfl

theorem plain_modify {f : Machine → Machine}
    (ho : ∀ m control log seen, f (m.under control log seen) = (f m).under control log seen)
    (hm : ∀ m, Alike m (f m)) : (modify f : Run PUnit).Plain := by
  refine ⟨fun m => ⟨.ok (), f m, hm m, fun control log seen => ⟨seen, .refl seen, ?_⟩⟩⟩
  rw [← ho m control log seen]
  rfl

/-- A change that is noted together with a moment that comes with regions. -/
theorem plain_modify_note {f : Machine → Machine} {x : Moment} (hx : x.Aside)
    (ho : ∀ m control log seen, f (m.under control log seen) =
      (f m).under control log fun y => y = x ∨ seen y)
    (hm : ∀ m, Alike m (f m)) : (modify f : Run PUnit).Plain := by
  refine ⟨fun m => ⟨.ok (), f m, hm m, fun control log seen => ⟨_, .note hx seen, ?_⟩⟩⟩
  rw [← ho m control log seen]
  rfl

/-- A checkpoint is told of, and the control says whether the run goes on. -/
theorem checkpoint_eq (loc : Location) (m : Machine) : checkpoint loc m =
    conclude (if m.control.checkpoint.1 = .proceed then .ok () else .error .aborted)
      { m.tell (.checkpoint loc) with control := m.control.checkpoint.2 } := by
  have told : emit (.checkpoint loc) m = .ok () (m.tell (.checkpoint loc)) := rfl
  have read : (get : Run Machine) (m.tell (.checkpoint loc)) = .ok (m.tell (.checkpoint loc)) _ := rfl
  rw [checkpoint, bind_of_ok told, bind_of_ok read,
    show (m.tell (.checkpoint loc)).control = m.control from rfl]
  obtain ⟨verdict, control⟩ := m.control.checkpoint
  cases verdict <;> rfl

/-! ## Storage -/

theorem plain_allocate (size : Nat) (loc : Location) : (allocate size loc).Plain := by
  refine ⟨fun m => ?_⟩
  cases h : m.memory.allocate size with
  | ok r =>
    obtain ⟨a, memory⟩ := r
    refine ⟨.ok a, { m with memory }, ⟨rfl, id, .of_allocate h⟩, fun control log seen => ⟨seen, .refl seen, ?_⟩⟩
    have hm : (m.under control log seen).memory.allocate size = .ok (a, memory) := h
    exact bind_eq_ok.2 ⟨_, _, get_eq_ok.2 ⟨rfl, rfl⟩, by rw [hm]; rfl⟩
  | error e =>
    refine ⟨.error (.memory e loc), m, .refl m, fun control log seen => ⟨seen, .refl seen, ?_⟩⟩
    have hm : (m.under control log seen).memory.allocate size = .error e := h
    exact bind_eq_error.2 (.inr ⟨_, _, get_eq_ok.2 ⟨rfl, rfl⟩, by rw [hm]; rfl⟩)

/-- Giving up a region never fails and touches nothing but memory. -/
theorem release_under (a : Address) (m : Machine) : ∃ (t : Option MemoryError) (m' : Machine),
    m'.frames = m.frames ∧ m'.flow = m.flow ∧ m.memory.Evolves m'.memory ∧
    ∀ control log seen, ∃ seen', Moment.Gains seen seen' ∧
      release a (m.under control log seen) = .ok t (m'.under control log seen') := by
  cases h : m.memory.free a with
  | ok memory =>
    refine ⟨none, { m with memory }, rfl, rfl, .of_free h, fun control log seen => ⟨seen, .refl seen, ?_⟩⟩
    have hm : (m.under control log seen).memory.free a = .ok memory := h
    exact bind_eq_ok.2 ⟨_, _, get_eq_ok.2 ⟨rfl, rfl⟩, by rw [hm]; rfl⟩
  | error e =>
    refine ⟨some e, m, rfl, rfl, .refl _, fun control log seen =>
      ⟨fun y => y = .refused a ∨ seen y, .note (.refused a) seen, ?_⟩⟩
    have hm : (m.under control log seen).memory.free a = .error e := h
    exact bind_eq_ok.2 ⟨_, _, get_eq_ok.2 ⟨rfl, rfl⟩, by rw [hm]; rfl⟩

theorem releaseAll_under (as : List Address) (m : Machine) : ∃ (t : Option MemoryError) (m' : Machine),
    m'.frames = m.frames ∧ m'.flow = m.flow ∧ m.memory.Evolves m'.memory ∧
    ∀ control log seen, ∃ seen', Moment.Gains seen seen' ∧
      releaseAll as (m.under control log seen) = .ok t (m'.under control log seen') := by
  induction as generalizing m with
  | nil => exact ⟨none, m, rfl, rfl, .refl _, fun _ _ seen => ⟨seen, .refl seen, rfl⟩⟩
  | cons a as ih =>
    obtain ⟨t, n, hf, hl, hm, first⟩ := release_under a m
    obtain ⟨t', n', hf', hl', hm', later⟩ := ih n
    refine ⟨t.or t', n', hf'.trans hf, hl'.trans hl, hm.trans hm', fun control log seen => ?_⟩
    obtain ⟨seen', hs, h⟩ := first control log seen
    obtain ⟨seen'', hs', h'⟩ := later control log seen'
    refine ⟨seen'', hs.trans hs', ?_⟩
    exact bind_eq_ok.2 ⟨_, _, h, bind_eq_ok.2 ⟨_, _, h', rfl⟩⟩

theorem plain_releaseAll (as : List Address) : (releaseAll as).Plain := by
  refine ⟨fun m => ?_⟩
  obtain ⟨t, n, hf, hl, hm, released⟩ := releaseAll_under as m
  exact ⟨.ok t, n, ⟨congrArg Frames.names hf, hl.trans, hm⟩, released⟩

theorem plain_release (a : Address) : (release a).Plain := by
  refine ⟨fun m => ?_⟩
  obtain ⟨t, n, hf, hl, hm, released⟩ := release_under a m
  exact ⟨.ok t, n, ⟨congrArg Frames.names hf, hl.trans, hm⟩, released⟩

/-- Change memory by a write of `w` at `a`, and say what its watcher is to be told. -/
def changing (change : Memory → Except MemoryError Memory) (a : Address) (w : Word) (loc : Location) :
    Run (List (Address × Word)) := do
  match change (← get).memory with
  | .ok memory =>
    modify fun m => { m with memory }
    return memory.notices a w
  | .error e => fault (.memory e loc)

/-- Tell of writes, in order. -/
def tellWrites (notices : List (Address × Word)) : Run Unit :=
  modify fun m => notices.foldl (fun m n => m.tell (.wrote n.1 n.2)) m

theorem plain_changing {change : Memory → Except MemoryError Memory} (a : Address) (w : Word)
    (loc : Location) (evolves : ∀ {m m'}, change m = .ok m' → m.Evolves m') :
    (changing change a w loc).Plain := by
  refine ⟨fun m => ?_⟩
  cases hc : change m.memory with
  | ok memory =>
    refine ⟨.ok (memory.notices a w), { m with memory }, ⟨rfl, id, evolves hc⟩, fun control log seen =>
      ⟨seen, .refl seen, ?_⟩⟩
    have hm : change (m.under control log seen).memory = .ok memory := hc
    exact bind_eq_ok.2 ⟨_, _, get_eq_ok.2 ⟨rfl, rfl⟩, by rw [hm]; rfl⟩
  | error e =>
    refine ⟨.error (.memory e loc), m, .refl m, fun control log seen => ⟨seen, .refl seen, ?_⟩⟩
    have hm : change (m.under control log seen).memory = .error e := hc
    exact bind_eq_error.2 (.inr ⟨_, _, get_eq_ok.2 ⟨rfl, rfl⟩, by rw [hm]; rfl⟩)

/-- A write changes memory, and then its watcher is told. -/
theorem written_eq (change : Memory → Except MemoryError Memory) (a : Address) (w : Word)
    (loc : Location) : (do
      match change (← get).memory with
      | .ok memory => written memory a w
      | .error e => fault (.memory e loc) : Run Unit) =
        changing change a w loc >>= tellWrites := by
  unfold changing
  rw [bind_assoc]
  refine bind_congr fun m => ?_
  cases change m.memory with
  | ok memory => rfl
  | error e => rfl

theorem writeByte_eq (a : Address) (b : UInt8) (loc : Location) : writeByte a b loc =
    changing (fun m => m.write a b) a (Word.ofByte b) loc >>= tellWrites :=
  written_eq (fun m => m.write a b) a (Word.ofByte b) loc

theorem writeWord_eq (a : Address) (w : Word) (loc : Location) : writeWord a w loc =
    changing (fun m => m.writeWord a w) a w loc >>= tellWrites :=
  written_eq (fun m => m.writeWord a w) a w loc

theorem plain_readByte (a : Address) (loc : Location) : (readByte a loc).Plain := by
  refine plain_get_bind (fun m => ?_) fun _ _ _ _ => rfl
  cases m.memory.read a with
  | ok b => exact plain_pure b
  | error e => exact plain_fault _

theorem plain_readWord (a : Address) (loc : Location) : (readWord a loc).Plain := by
  refine plain_get_bind (fun m => ?_) fun _ _ _ _ => rfl
  cases m.memory.readWord a with
  | ok w => exact plain_pure w
  | error e => exact plain_fault _

theorem plain_loadPlace (p : Place) (loc : Location) : (loadPlace p loc).Plain := by
  refine plain_ite (plain_pure _) (plain_guard fun _ => plain_ite ?_ ?_)
  · exact (plain_readByte ..).bind fun _ => plain_pure _
  · exact (plain_readWord ..).bind fun _ => plain_pure _

theorem plain_load (r : Resolved) (loc : Location) : (load r loc).Plain := by
  cases r with
  | value v => exact plain_pure v
  | place p => exact plain_loadPlace p loc

theorem plain_displaced (base : Address) (offset : Nat) (e : MemoryError) (loc : Location) :
    (displaced base offset e loc).Plain :=
  plain_ite (plain_pure _) (plain_fault _)

theorem plain_offsetAddress (base : Value) (index : Word) (scale : Nat) (subtract : Bool)
    (loc : Location) : (offsetAddress base index scale subtract loc).Plain :=
  plain_require _ _

theorem plain_readBytes (base : Address) (loc : Location) (size : Nat) :
    (readBytes base loc size).Plain := by
  have go : ∀ n i, (readBytes.go base loc i n).Plain := by
    intro n
    induction n with
    | zero => exact fun i => plain_pure _
    | succ n ih =>
      exact fun i => (plain_displaced ..).bind fun _ => (plain_readByte ..).bind fun _ =>
        (ih (i + 1)).bind fun _ => plain_pure _
  exact go size 0

end Run

/-! ## Builtin functions and frames -/

/-- The innermost of the frames with the given names. -/
theorem Frames.calls_of_names {f : Frames} {name : String} {names : List String}
    (h : f.names = name :: names) : ∃ frame calls, f.calls = frame :: calls ∧ frame.name = name ∧
      calls.map Frame.name = names := by
  obtain ⟨frame, calls, hc, hf, hn⟩ := List.map_eq_cons_iff.1 h
  exact ⟨frame, calls, hc, hf, hn⟩

namespace Engine
open Run

theorem plain_variablePlace (env : Env) (id : SymbolId) (ty : Ty) (loc : Location) :
    (variablePlace env id ty loc).Plain :=
  plain_get_bind (fun _ => (plain_require ..).bind fun _ => plain_pure _) fun _ _ _ _ => rfl

theorem plain_argument (env : Env) (id : SymbolId) (loc : Location) : (argument env id loc).Plain :=
  (plain_variablePlace ..).bind fun _ => plain_loadPlace ..

theorem plain_malloc (size : Word) (loc : Location) : (malloc size loc).Plain := by
  have keep : ∀ a : Address, (modify fun m => { m.note (.changed (.granted a size.toInt.toNat)) with
      heap := if a ∈ m.heap then m.heap else a :: m.heap
      pending := some (.pointer Ty.voidPointer a) } : Run PUnit).Plain :=
    fun a => plain_modify_note (.changed _) (fun _ _ _ _ => rfl) fun _ => ⟨rfl, id, .refl _⟩
  exact plain_guard fun _ => (plain_allocate ..).bind fun a => keep a

theorem plain_free (a : Address) (loc : Location) : (free a loc).Plain := by
  refine plain_ite (plain_pure _) (plain_get_bind (fun m => plain_guard fun _ => ?_) fun _ _ _ _ => rfl)
  have drop : (modify fun m => { m.note (.changed (.freed a)) with
      heap := m.heap.filter fun b => b ≠ a } : Run PUnit).Plain :=
    plain_modify_note (.changed _) (fun _ _ _ _ => rfl) fun _ => ⟨rfl, id, .refl _⟩
  refine drop.bind fun _ => (plain_release a).bind fun o => ?_
  cases o with
  | none => exact plain_pure _
  | some e => exact plain_fault _

/-- A call is named on the stack of the active calls for as long as it takes. -/
theorem named_conclude {α : Type} {x : Run α} {name : String} {m n : Machine} {r : Except Stop α}
    (h : x { m with callStack := name :: m.callStack } = conclude r n) :
    named name x m = conclude r { n with callStack := n.callStack.tail } := by
  have pushed : (modify fun m : Machine => { m with callStack := name :: m.callStack } : Run PUnit) m =
      .ok () { m with callStack := name :: m.callStack } := rfl
  rw [named, bind_of_ok pushed, bind_of_ok (attempt_conclude h)]
  rfl

theorem named_eq_ok {α : Type} {x : Run α} {name : String} {m m' : Machine} {a : α} :
    named name x m = .ok a m' ↔ ∃ n, x { m with callStack := name :: m.callStack } = .ok a n ∧
      { n with callStack := n.callStack.tail } = m' := by
  obtain ⟨r, n, hx⟩ := exists_conclude x { m with callStack := name :: m.callStack }
  rw [named_conclude hx, hx]
  cases r <;> simp [conclude, and_assoc]

theorem named_eq_error {α : Type} {x : Run α} {name : String} {m m' : Machine} {e : Stop} :
    named name x m = .error e m' ↔ ∃ n, x { m with callStack := name :: m.callStack } = .error e n ∧
      { n with callStack := n.callStack.tail } = m' := by
  obtain ⟨r, n, hx⟩ := exists_conclude x { m with callStack := name :: m.callStack }
  rw [named_conclude hx, hx]
  cases r <;> simp [conclude, and_assoc]

/-- Bind a local variable in the innermost frame. -/
def bindLocal (symbol : Symbol) (id : SymbolId) (a : Address) : Run Unit := do
  match (← get).frames.bind? id a symbol.size with
  | none =>
    discard (release a)
    fault (.unbound symbol.name symbol.declaredAt)
  | some frames => modify fun m => { m with frames }

/-- Each local variable is given a region, bound to it and, if it is an array, told of. -/
theorem allocateLocals_cons (env : Env) (engine : Engine) (id : SymbolId) (ids : List SymbolId) :
    engine.allocateLocals env (id :: ids) = (do
      let a ← allocate (env.program.symbol id).size (env.program.symbol id).declaredAt
      bindLocal (env.program.symbol id) id a
      engine.registerArray (env.program.symbol id) a
      engine.allocateLocals env ids) := by
  rw [Engine.allocateLocals]
  simp only [bindLocal, bind_assoc]
  refine bind_congr fun a => bind_congr fun m => ?_
  cases m.frames.bind? id a (env.program.symbol id).size with
  | none => simp only [bind_assoc]; rfl
  | some frames => rfl

theorem plain_bindLocal (symbol : Symbol) (id : SymbolId) (a : Address) :
    (bindLocal symbol id a).Plain := by
  refine ⟨fun m => ?_⟩
  have seen : ∀ control log seen, bindLocal symbol id a (m.under control log seen) =
      (match m.frames.bind? id a symbol.size with
      | none => do
        discard (release a)
        fault (.unbound symbol.name symbol.declaredAt)
      | some frames => modify fun m => { m with frames } : Run Unit) (m.under control log seen) :=
    fun _ _ _ => rfl
  simp only [seen]
  cases hb : m.frames.bind? id a symbol.size with
  | none => exact ((plain_discard (plain_release a)).bind fun _ => plain_fault _).run m
  | some frames =>
    refine ⟨.ok (), { m with frames }, ⟨?_, fun h => h, .refl _⟩, fun _ _ seen => ⟨seen, .refl seen, rfl⟩⟩
    unfold Frames.bind? at hb
    split at hb
    · cases hb
    · rename_i frame calls hc
      cases hb
      simp [Frames.names, hc]

/-! ## The end of a call -/

/-- Run the body of a call in its frame, close the frame and come to the result. -/
def closing (f : Function) (x : Run Unit) : Run (Option Value) := do
  let outcome ← attempt x
  let trouble ← leaveFrame
  let returned ← takeReturn
  conclude outcome
  match trouble with
  | some e => fault (.memory e f.definedAt)
  | none => callResult f returned

/-- Run `x` as the body of a call: in a frame of its own, unless `limit` frames are open. -/
def framed (limit : Nat) (loc : Location) (id : FunctionId) (f : Function) (x : Run Unit) :
    Run (Option Value) := do
  if limit ≤ (← get).frames.depth then fault (.stackOverflow limit loc)
  modify fun m => { m with frames := m.frames.push id f.name }
  closing f x

/-- In its frame, a call sets the frame up and runs the body. -/
theorem invoke_eq (env : Env) (engine : Engine) (id : FunctionId) (args : List Value)
    (loc : Location) : engine.invoke env id args loc =
      framed env.config.maxDepth loc id (env.program.function id) (do
        engine.enterFrame env (env.program.function id) args
        engine.runBody env (env.program.function id) loc) := rfl

/-- Closing a frame gives up its storage, and one event tells of it. -/
theorem leaveFrame_under {m : Machine} {frame : Frame} {calls : List Frame}
    (h : m.frames.calls = frame :: calls) : ∃ (t : Option MemoryError) (m' : Machine),
      m'.frames.calls = calls ∧ m.memory.Evolves m'.memory ∧
      ∀ control log seen, ∃ seen', Moment.Gains seen seen' ∧
        leaveFrame (m.under control log seen) =
          .ok t (m'.under control (.exit frame.name :: log) seen') := by
  obtain ⟨t, n, hf, -, hm, released⟩ := releaseAll_under (frame.latest.map Binding.address)
    { m with frames := { m.frames with calls } }
  refine ⟨t, n, congrArg Frames.calls hf, hm, fun control log seen => ?_⟩
  obtain ⟨seen', hs, hr⟩ := released control log seen
  have hpop : (m.under control log seen).frames.pop = some (frame, { m.frames with calls }) := by
    simp [Machine.under, Frames.pop, h]
  refine ⟨((n.under control log seen').tell (.exit frame.name)).seen,
    hs.trans (.note (.exit ..) seen'), ?_⟩
  refine bind_eq_ok.2 ⟨_, _, get_eq_ok.2 ⟨rfl, rfl⟩, ?_⟩
  rw [hpop]
  refine bind_eq_ok.2 ⟨(), _, modify_eq_ok.2 rfl, bind_eq_ok.2 ⟨t, _, hr, ?_⟩⟩
  exact bind_eq_ok.2 ⟨(), _, modify_eq_ok.2 rfl, rfl⟩

theorem leaveFrame_ok (m : Machine) : ∃ t m', leaveFrame m = .ok t m' := by
  cases hc : m.frames.calls with
  | nil =>
    have hp : m.frames.pop = none := by rw [Frames.pop, hc]
    exact ⟨none, m, bind_eq_ok.2 ⟨_, _, get_eq_ok.2 ⟨rfl, rfl⟩, by rw [hp]; rfl⟩⟩
  | cons frame calls =>
    obtain ⟨t, n, -, -, leaves⟩ := leaveFrame_under hc
    obtain ⟨seen, -, hl⟩ := leaves m.control m.log m.seen
    exact ⟨t, _, hl⟩

/-- What a call comes to whose body ran to its end, by what was wrong in giving up its storage and by
what its body returned. -/
def callOutcome (f : Function) : Option MemoryError → Option Value → Except Fault (Option Value)
  | some e, _ => .error (.memory e f.definedAt)
  | none, some v => .ok (if f.returnsValue then some (v.convert f.result) else none)
  | none, none => if f.returnsValue then .error (.missingReturn f.name) else .ok none

/-- How a call ends, by how its body has ended and by what closing its frame comes to. -/
theorem closing_of_leave {f : Function} {x : Run Unit} {m n k : Machine} {r : Except Stop Unit}
    {t : Option MemoryError} (hx : x m = conclude r n) (hl : leaveFrame n = .ok t k) :
    closing f x m = conclude (r.bind fun _ => (callOutcome f t k.pending).mapError .fault)
      { k with pending := none, flow := .normal } := by
  have taken : takeReturn k = .ok k.pending { k with pending := none, flow := .normal } := rfl
  rw [closing, bind_of_ok (attempt_conclude hx), bind_of_ok hl, bind_of_ok taken]
  cases r with
  | error e => rfl
  | ok u =>
    rw [bind_of_ok (show conclude (.ok u) _ = .ok u _ from rfl)]
    cases t with
    | some e => rfl
    | none =>
      cases hv : f.returnsValue <;> cases k.pending <;>
        simp only [callOutcome, callResult, hv, Bool.false_eq_true, not_true, not_false_iff, if_false,
          if_true] <;> rfl

/-- The frame of a call is closed whatever its body has done: one event tells of it, and the rest is
as if there were neither a control nor a log. -/
theorem closing_eq (f : Function) {m : Machine} {name : String} {names : List String}
    (h : m.frames.names = name :: names) : ∃ (q : Except Fault (Option Value)) (m' : Machine),
      m'.frames.names = names ∧ (m'.flow = .normal ∧ m.memory.Evolves m'.memory) ∧
      ∀ control log seen, ∃ seen', Moment.Gains seen seen' ∧ ∀ {x : Run Unit} {n r},
        x n = conclude r (m.under control log seen) → closing f x n =
          conclude (r.bind fun _ => q.mapError .fault)
            (m'.under control (.exit name :: log) seen') := by
  obtain ⟨frame, calls, hc, rfl, rfl⟩ := Frames.calls_of_names h
  obtain ⟨t, n, hn, hm, leaves⟩ := leaveFrame_under hc
  refine ⟨callOutcome f t n.pending, { n with pending := none, flow := .normal },
    congrArg (List.map Frame.name) hn, ⟨rfl, hm⟩, fun control log seen => ?_⟩
  obtain ⟨seen', hs, hl⟩ := leaves control log seen
  exact ⟨seen', hs, fun hx => closing_of_leave hx hl⟩

theorem framed_of_le {limit : Nat} {loc : Location} {id : FunctionId} {f : Function} {x : Run Unit}
    {m : Machine} (h : limit ≤ m.frames.depth) :
    framed limit loc id f x m = .error (.fault (.stackOverflow limit loc)) m := by
  refine bind_eq_error.2 (.inr ⟨m, m, rfl, ?_⟩)
  rw [if_pos h]
  rfl

theorem framed_of_lt {limit : Nat} {loc : Location} {id : FunctionId} {f : Function} {x : Run Unit}
    {m : Machine} (h : m.frames.depth < limit) : framed limit loc id f x m =
      closing f x { m with frames := m.frames.push id f.name } := by
  change (if limit ≤ m.frames.depth then _ else _ : Run (Option Value)) m = _
  rw [if_neg (Nat.not_le.2 h)]
  rfl

theorem framed_under {limit : Nat} {loc : Location} {id : FunctionId} {f : Function} {x : Run Unit}
    {m : Machine} (h : m.frames.depth < limit) (control : Control) (log : List Event)
    (seen : Moment → Prop) : framed limit loc id f x (m.under control log seen) =
      closing f x (Machine.under { m with frames := m.frames.push id f.name } control log seen) :=
  framed_of_lt h

end Engine

end MiniC
