/-
  Values that are assigned to an array.

  The assignment of a list of values to an array first finds the array, and then evaluates and stores
  one value after the other.  Nothing is checked while it does: that all stores stay inside of the
  array follows from what was checked when the assignment was lowered (`Program.Initializes`), and
  that no address wraps around from the stores that have succeeded before.

  - `Engine.Fills`: how values go to the elements of an array, and how this ends;
  - `Session.Running.fills`: this is what the loop does, from any element on;
  - `Machine.Filled`: values have gone to the first elements, and nowhere else;
  - `Session.Running.filled`: so it is all along if no value has an effect of its own;
  - `Expr.Effectless`: what neither calls nor assigns has none;
  - `Expr.DirectArray`: an array that is a variable, or a member selected from one, lies in the region
    of this variable, so all of its elements are there.
-/
import MiniC.Proofs.Sizeof
import MiniC.Proofs.StructCopy

namespace MiniC

open Machine Run

/-! ## Parts of runs that change nothing -/

namespace Run
variable {α β : Type} {m m' : Machine}

/-- However `x` ends, it leaves the machine as it is. -/
structure Still (x : Run α) : Prop where
  ends : ∀ m, ∃ r, x m = conclude r m

theorem Still.eq_of_ok {x : Run α} {a : α} (h : x.Still) (hx : x m = .ok a m') : m' = m := by
  obtain ⟨r, hr⟩ := h.ends m
  exact (conclude_eq_ok.1 (hr.symm.trans hx)).2.symm

theorem still_pure (a : α) : (pure a : Run α).Still := ⟨fun _ => ⟨.ok a, rfl⟩⟩

theorem still_throw (e : Stop) : (throw e : Run α).Still := ⟨fun _ => ⟨.error e, rfl⟩⟩

theorem still_fault (f : Fault) : (fault f : Run α).Still := still_throw _

theorem Still.bind {x : Run α} {f : α → Run β} (hx : x.Still) (hf : ∀ a, (f a).Still) :
    (x >>= f).Still := by
  refine ⟨fun m => ?_⟩
  obtain ⟨r, hr⟩ := hx.ends m
  cases r with
  | ok a =>
    obtain ⟨r, h⟩ := (hf a).ends m
    exact ⟨r, (bind_of_ok hr).trans h⟩
  | error e => exact ⟨.error e, bind_of_error hr⟩

theorem still_require (o : Option α) (f : Fault) : (require o f).Still := by
  cases o with
  | none => exact still_fault f
  | some a => exact still_pure a

theorem still_ite {p : Prop} [Decidable p] {x y : Run α} (hx : x.Still) (hy : y.Still) :
    (if p then x else y).Still := by
  by_cases h : p <;> simp only [h, if_true, if_false] <;> assumption

theorem still_guard {p : Prop} [Decidable p] {f : Fault} {x : PUnit → Run α}
    (hx : ∀ u, (x u).Still) : (if p then fault f >>= x else x ()).Still :=
  still_ite ((still_fault f).bind hx) (hx ())

theorem still_get_bind {f : Machine → Run β} (hf : ∀ m, (f m).Still) : (get >>= f).Still :=
  ⟨fun m => (hf m).ends m⟩

theorem still_readByte (a : Address) (loc : Location) : (readByte a loc).Still := by
  refine ⟨fun m => ?_⟩
  rw [readByte_run]
  cases m.memory.read a with
  | ok b => exact ⟨.ok b, rfl⟩
  | error e => exact ⟨.error _, rfl⟩

theorem still_readWord (a : Address) (loc : Location) : (readWord a loc).Still := by
  refine ⟨fun m => ?_⟩
  rw [readWord_run]
  cases m.memory.readWord a with
  | ok w => exact ⟨.ok w, rfl⟩
  | error e => exact ⟨.error _, rfl⟩

theorem still_loadPlace (p : Place) (loc : Location) : (loadPlace p loc).Still := by
  refine still_ite (still_pure _) (still_guard fun _ => still_ite ?_ ?_)
  · exact (still_readByte ..).bind fun _ => still_pure _
  · exact (still_readWord ..).bind fun _ => still_pure _

theorem still_load (r : Resolved) (loc : Location) : (load r loc).Still := by
  cases r with
  | value v => exact still_pure v
  | place p => exact still_loadPlace p loc

theorem still_displaced (base : Address) (offset : Nat) (e : MemoryError) (loc : Location) :
    (displaced base offset e loc).Still :=
  still_ite (still_pure _) (still_fault _)

end Run

/-! ## Expressions without effects -/

/-- Whether an operation may change something. -/
def Operation.acts : Operation → Bool
  | call .. | assign .. | arrayAssign .. => true
  | _ => false

/-- An expression that neither calls nor assigns. -/
inductive Expr.Effectless : Expr → Prop
  | mk {op : Operation} {ty : Ty} {loc : Location} : op.acts = false →
    (∀ e ∈ op.operands, Effectless e) → Effectless (.mk op ty loc)

/-- Whether an expression of at most the given depth neither calls nor assigns. -/
def Expr.isEffectless : Nat → Expr → Bool
  | 0, _ => false
  | depth + 1, e => !e.op.acts && e.op.operands.all (isEffectless depth)

theorem Expr.effectless_of_isEffectless {depth : Nat} {e : Expr} (h : e.isEffectless depth = true) :
    e.Effectless := by
  induction depth generalizing e with
  | zero => cases h
  | succ depth ih =>
    obtain ⟨op, ty, loc⟩ := e
    simp only [isEffectless, Expr.op_mk, Bool.and_eq_true, Bool.not_eq_true', List.all_eq_true] at h
    exact .mk h.1 fun e he => ih (h.2 e he)

namespace Engine
variable {env : Env} {engine : Engine}

theorem still_solve {e : Expr} (h : (engine.execute e).Still) : (engine.solve e).Still :=
  h.bind fun _ => still_load ..

theorem still_place {e : Expr} (h : (engine.execute e).Still) : (engine.place e).Still := by
  refine h.bind fun r => ?_
  cases r with
  | value v => exact still_fault _
  | place p => exact still_pure p

theorem still_binary {op : BinaryOp} {left right : Expr} {loc : Location}
    (hl : (engine.execute left).Still) (hr : (engine.execute right).Still) :
    (engine.binary op left right loc).Still := by
  refine (still_solve hl).bind fun l => ?_
  simp only
  split
  · exact still_pure _
  · exact (still_solve hr).bind fun _ => still_guard fun _ => still_require ..

/-- An operation that does not act changes nothing if its operands do not. -/
theorem still_executeRule {op : Operation} (ha : op.acts = false)
    (ho : ∀ e ∈ op.operands, (engine.execute e).Still) (ty : Ty) (loc : Location) :
    (executeRule env engine (.mk op ty loc)).Still := by
  cases op with
  | const w => exact still_pure _
  | str id => exact still_get_bind fun _ => (still_require ..).bind fun _ => still_pure _
  | var id =>
    have place : (variablePlace env id ty loc).Still :=
      still_get_bind fun _ => (still_require ..).bind fun _ => still_pure _
    exact place.bind fun _ => still_pure _
  | member object offset array =>
    have object := still_place (ho object (.head _))
    exact object.bind fun _ => (still_displaced ..).bind fun _ => still_pure _
  | deref pointer =>
    exact (still_solve (ho pointer (.head _))).bind fun _ => still_guard fun _ => still_pure _
  | index base index scale =>
    refine (still_solve (ho base (.head _))).bind fun _ => ?_
    refine (still_solve (ho index (.tail _ (.head _)))).bind fun _ => still_guard fun _ => ?_
    exact (still_require ..).bind fun _ => still_pure _
  | addressOf operand => exact (still_place (ho operand (.head _))).bind fun _ => still_pure _
  | unary op operand =>
    have operand := still_solve (ho operand (.head _))
    exact operand.bind fun _ => (still_require ..).bind fun _ => still_pure _
  | binary op left right =>
    have both : (engine.binary op left right loc).Still :=
      still_binary (ho left (.head _)) (ho right (.tail _ (.head _)))
    exact both.bind fun _ => still_pure _
  | pointerOffset pointer offset scale subtract =>
    refine (still_solve (ho pointer (.head _))).bind fun _ => ?_
    refine (still_solve (ho offset (.tail _ (.head _)))).bind fun _ => ?_
    exact (still_require ..).bind fun _ => still_pure _
  | pointerDiff left right scale =>
    refine (still_solve (ho left (.head _))).bind fun _ => ?_
    refine (still_solve (ho right (.tail _ (.head _)))).bind fun _ => ?_
    exact (still_require ..).bind fun _ => still_pure _
  | call | assign | arrayAssign => cases ha

end Engine

/-- **What neither calls nor assigns changes nothing.** -/
theorem Expr.Effectless.still {e : Expr} (h : e.Effectless) (env : Env) (fuel : Nat) :
    ((engine env fuel).execute e).Still := by
  induction h generalizing fuel with
  | mk ha _ ih =>
    cases fuel with
    | zero => exact still_throw _
    | succ n => exact Engine.still_executeRule ha (fun e he => ih e he n) ..

/-! ## Array assignments of a program -/

/-- What a program knows of the assignment of `values` to the array `dst`: the array has been declared
with at least as many elements as there are values, its storage is that of its elements, and each of
the values comes to one expression, whichever function is running. -/
structure Program.Initializes (g : Grammar) (p : Program) (dst : Expr) (values : List Node)
    (scope : Scope) (element : Ty) (length : Nat) (es : List Expr) : Prop where
  pointee : dst.ty.pointee = some element
  scalar : element.isScalar = true
  width : p.sizeOf? element = some element.accessWidth
  declared : (Context.building p).arrayLength? dst = some length
  few : values.length ≤ length
  storage : p.Occupies dst (length * element.accessWidth)
  lowered : ∀ f, List.Forall₂ (fun v e =>
    lowerExpr g v (.frozenIn p f scope) = .ok (e, .frozenIn p f scope)) values es

namespace Program.Initializes
variable {g : Grammar} {p : Program} {dst : Expr} {values : List Node} {scope : Scope} {element : Ty}
  {length : Nat} {es : List Expr}

theorem amounts (h : p.Initializes g dst values scope element length es) :
    p.Amounts dst.ty (length * element.accessWidth) (some length) :=
  ⟨_, ⟨element, h.pointee, h.width⟩, rfl⟩

end Program.Initializes

/-- **The array assignments of a program are checked.** -/
theorem Expr.Typed.initializes {g : Grammar} {d : Context} (hd : d.Finished g)
    (hp : d.program.LaidOut) (ht : d.program.Tidy) {k : Option FunctionId} {dst : Expr}
    {values : List Node} {scope : Scope} {ty : Ty} {loc : Location}
    (h : (Expr.mk (.arrayAssign dst values scope) ty loc).Typed d k) :
    dst.Typed d k ∧
      ∃ element length es, d.program.Initializes g dst values scope element length es := by
  cases h with
  | @arrayAssign _ _ _ element es hdst hlen hpt hsc ha =>
    obtain ⟨length, hlen, few⟩ := hlen
    have width := Program.sizeOf?_of_isScalar (p := d.program) hsc
    have amounts : d.program.Amounts dst.ty (length * element.accessWidth) (d.arrayLength? dst) :=
      hlen ▸ ⟨_, ⟨element, hpt, width⟩, rfl⟩
    refine ⟨hdst, element, length, es, hpt, hsc, width, hlen, few, ?_, fun f => ?_⟩
    · exact (hdst.occupies hd hp ht amounts).1
    · exact hd.replayed ha _ hd.leads.completes f

/-! ## Storing values one after the other -/

/-- The address of the element `i` of an array of `length` elements. -/
structure Address.Element (base : Address) (element : Ty) (length i : Nat) (a : Address) : Prop where
  address : a.toNat = base.toNat + i * element.accessWidth
  bound : i < length

/-- An element lies inside of its array. -/
theorem Address.Element.inside {base a : Address} {element : Ty} {length i : Nat}
    (h : base.Element element length i a) : base.toNat ≤ a.toNat ∧
      a.toNat + element.accessWidth ≤ base.toNat + length * element.accessWidth := by
  have fits : (i + 1) * element.accessWidth ≤ length * element.accessWidth :=
    Nat.mul_le_mul_right _ h.bound
  rw [Nat.succ_mul] at fits
  rw [h.address]
  omega

/-- **Values go to the elements of an array**, one after the other from the element `i` on.  A value is
evaluated when those before it have been stored, and goes to its own element.  This ends when no value
is left, where a value stops, or at an element that is not there; the last only if some may be
`missing`. -/
inductive Engine.Fills (engine : Engine) (missing : Prop) (base : Address) (element : Ty)
    (length : Nat) : Nat → List Expr → Machine → Except Stop Unit → Machine → Prop
  | done {i : Nat} {m : Machine} : Fills engine missing base element length i [] m (.ok ()) m
  | stops {i : Nat} {e : Expr} {es : List Expr} {m m' : Machine} {stop : Stop} :
    engine.solve e m = .error stop m' →
    Fills engine missing base element length i (e :: es) m (.error stop) m'
  | misses {i : Nat} {e : Expr} {es : List Expr} {m n : Machine} {v : Value} {a : Address}
      {stop : Stop} {loc : Location} : missing → engine.solve e m = .ok v n →
    base.Element element length i a →
    Run.store ⟨a, element, false⟩ (v.convert element) loc n = .error stop n →
    Fills engine missing base element length i (e :: es) m (.error stop) n
  | stores {i : Nat} {e : Expr} {es : List Expr} {m n n' m' : Machine} {v : Value} {a : Address}
      {r : Except Stop Unit} {loc : Location} : engine.solve e m = .ok v n →
    base.Element element length i a →
    Run.store ⟨a, element, false⟩ (v.convert element) loc n = .ok () n' →
    n.Puts a element (v.convert element).word n' →
    Fills engine missing base element length (i + 1) es n' r m' →
    Fills engine missing base element length i (e :: es) m r m'

namespace Session
variable {config : Config} {u : Session} {k : Option FunctionId} {m m' : Machine}

/-- A function that has evaluated an expression is still running. -/
theorem Running.solved (h : u.Running k m) (hq : m.Quiet) {fuel : Nat} {e : Expr} {v : Value}
    (hx : (engine u.env fuel).solve e m = .ok v m') :
    u.Running k m' ∧ m'.Quiet ∧ m'.frames = m.frames := by
  have kept := ((engine_calm u.env fuel).solve e).ok hx
  obtain ⟨r, n, hn, hl⟩ := bind_eq_ok.1 hx
  obtain rfl := (still_load r e.loc).eq_of_ok hl
  exact ⟨.acted h hq (.execute fuel e) hn, kept.quiet hq, kept.frames⟩

/-- A function that has stored a value is still running. -/
theorem Running.stored (h : u.Running k m) (hq : m.Quiet) {p : Place} {v : Value} {loc : Location}
    (hx : Run.store p v loc m = .ok () m') : u.Running k m' ∧ m'.Quiet ∧ m'.frames = m.frames := by
  have kept := (calm_store p v loc).ok hx
  refine ⟨?_, kept.quiet hq, kept.frames⟩
  unfold Run.store at hx
  split at hx
  · exact .acted h hq (.writeByte ..) hx
  · exact .acted h hq (.writeWord ..) hx

end Session

/-- No access reaches the end of the address space if memory is smaller than that. -/
theorem Memory.Spans.whole_lt {capacity : UInt32} {memory : Memory} (h : memory.Spans capacity)
    (hc : capacity.toNat < 4294967296 - 4096) (hm : memory.Sound) {a : Address} {n : Nat}
    (hw : memory.Whole a n) : a.toNat + n < 4294967296 := by
  obtain ⟨r, hr, -, fits⟩ := hw
  have stop := (hm.laid.of_mem hr).2.2
  rw [limit, h.capacity, addressSpaceStart] at stop
  omega

/-- What does not lie in one region is not stored. -/
theorem Memory.Sound.store_of_not_whole {m : Machine} (hm : m.memory.Sound) {a : Address} {t : Ty}
    (hw : ¬ m.memory.Whole a t.accessWidth) (v : Value) (loc : Location) :
    Run.store ⟨a, t, false⟩ v loc m =
      .error (.fault (.memory (.unmapped a (t.encode v.word).length) loc)) m := by
  rw [← t.length_encode v.word] at hw
  have long : 0 < (t.encode v.word).length := t.length_encode v.word ▸ t.accessWidth_pos
  rw [store_scalar, hm.writeBytes_of_not_whole long hw]

/-- What is stored lies in one region. -/
theorem Memory.Sound.whole_of_store {m m' : Machine} (hm : m.memory.Sound) {a : Address} {t : Ty}
    {v : Value} {loc : Location} (h : Run.store ⟨a, t, false⟩ v loc m = .ok () m') :
    m.memory.Whole a t.accessWidth := by
  by_contra hw
  rw [hm.store_of_not_whole hw] at h
  cases h

/-- **The loop of an array assignment.**  From any element on, which is below the end of the address
space, the values go to the elements of the array.  The address of the next element does not wrap
around, because the store before has succeeded. -/
theorem Session.Running.fills {config : Config} {u : Session} {k : Option FunctionId} {m : Machine}
    (hu : u.Reachable config) (hc : config.capacity.toNat < 4294967296 - 4096) {missing : Prop}
    {base : Address} {element : Ty} {length : Nat} (scalar : element.isScalar = true) {fuel : Nat} {f : FunctionId} {scope : Scope}
    {values : List Node} {es : List Expr}
    (lowered : List.Forall₂ (fun v e => lowerExpr u.env.grammar v (.frozenIn u.env.program f scope) =
      .ok (e, .frozenIn u.env.program f scope)) values es)
    (there : ¬ missing → ∀ {n}, u.Running k n → n.frames = m.frames →
      ∀ {i a}, base.Element element length i a → n.memory.Whole a element.accessWidth)
    (hm : u.Running k m) (hq : m.Quiet) {i : Nat} (few : i + values.length ≤ length)
    (below : base.toNat + i * element.accessWidth < 4294967296) :
    ∃ r m', (engine u.env fuel).storeElements u.env f scope base element i values m = conclude r m' ∧
      (engine u.env fuel).Fills missing base element length i es m r m' := by
  induction lowered generalizing i m with
  | nil => exact ⟨.ok (), m, rfl, .done⟩
  | @cons node e values es hl _ ih =>
    rw [List.length_cons] at few
    unfold Engine.storeElements
    rw [hl]
    cases hx : (engine u.env fuel).solve e m with
    | error stop m' => exact ⟨.error stop, m', bind_of_error hx, .stops hx⟩
    | ok v n =>
      obtain ⟨running, quiet, frames⟩ := hm.solved hq hx
      have sound := (running.spans hu).sound (Nat.le_of_lt hc)
      have slot : base.Element element length i (base + UInt32.ofNat (i * element.accessWidth)) :=
        ⟨Address.toNat_offset below, by omega⟩
      have addressed : displaced base (i * element.accessWidth) (.overflow "add") node.start n =
          .ok (base + UInt32.ofNat (i * element.accessWidth)) n := by
        rw [displaced, if_pos below]
        rfl
      by_cases whole : n.memory.Whole (base + UInt32.ofNat (i * element.accessWidth))
          element.accessWidth
      · obtain ⟨n', stored, -, puts, -⟩ := store_of_whole sound scalar whole v node.start
        obtain ⟨running', quiet', frames'⟩ := running.stored quiet stored
        have next : base.toNat + (i + 1) * element.accessWidth < 4294967296 := by
          have := (running.spans hu).whole_lt hc sound whole
          rw [slot.address] at this
          rw [Nat.succ_mul]
          omega
        obtain ⟨r, m', hrest, fills⟩ := ih
          (fun hn _ hrun hf => there hn hrun (hf.trans (frames'.trans frames))) running' quiet'
          (by omega) next
        refine ⟨r, m', ?_, .stores hx slot stored puts fills⟩
        exact (bind_of_ok hx).trans ((bind_of_ok addressed).trans ((bind_of_ok stored).trans hrest))
      · have failed := sound.store_of_not_whole whole (v.convert element) node.start
        refine ⟨.error _, n, (bind_of_ok hx).trans ((bind_of_ok addressed).trans (bind_of_error failed)),
          .misses ?_ hx slot failed⟩
        by_contra hn
        exact whole (there hn running frames slot)

/-! ## What an array holds afterwards -/

/-- The first elements of an array have the values `vs`, each converted to the type of the elements;
all other bytes are as on the machine `m`. -/
structure Machine.Filled (m : Machine) (base : Address) (element : Ty) (vs : List Value)
    (m' : Machine) : Prop where
  elements : ∀ {i v}, vs[i]? = some v → ∃ a, base.Element element vs.length i a ∧
    m'.memory.Whole a element.accessWidth ∧
    ∀ loc, loadPlace ⟨a, element, false⟩ loc m' = .ok (v.convert element) m'
  bytes : ∀ x, x < base.toNat ∨ base.toNat + vs.length * element.accessWidth ≤ x →
    m'.memory.view x = m.memory.view x

namespace Machine.Filled
variable {m n n' : Machine} {base a : Address} {element : Ty} {vs : List Value} {v : Value}

theorem nil (m : Machine) (base : Address) (element : Ty) : m.Filled base element [] m where
  elements h := by cases h
  bytes _ _ := rfl

/-- Only the memory of a machine counts. -/
theorem congr (h : m.Filled base element vs n) (scalar : element.isScalar = true)
    (sound : n.memory.Sound) (same : n'.memory = n.memory) : m.Filled base element vs n' where
  elements hv := by
    obtain ⟨a, slot, whole, loads⟩ := h.elements hv
    refine ⟨a, slot, same ▸ whole, fun loc => ?_⟩
    exact loadPlace_of_same sound (same ▸ sound) scalar whole (same ▸ whole)
      (fun _ _ _ => by rw [same]) (loads loc)
  bytes x hx := by rw [same, h.bytes x hx]

/-- **One more element**: those before it keep their values, since no two elements share a byte. -/
theorem snoc (h : m.Filled base element vs n) (scalar : element.isScalar = true)
    (sound : n.memory.Sound) {loc : Location}
    (address : a.toNat = base.toNat + vs.length * element.accessWidth)
    (stored : Run.store ⟨a, element, false⟩ (v.convert element) loc n = .ok () n') :
    m.Filled base element (vs ++ [v]) n' := by
  have whole := sound.whole_of_store stored
  obtain ⟨k, hk, sound', puts, loads⟩ := store_of_whole sound scalar whole v loc
  obtain rfl : k = n' := (EStateM.Result.ok.inj (hk.symm.trans stored)).2
  have kept : ∀ {b}, n.memory.Whole b element.accessWidth → k.memory.Whole b element.accessWidth := by
    intro b hb
    rwa [Memory.whole_iff, puts.slots.slots, ← Memory.whole_iff]
  have longer : (vs ++ [v]).length = vs.length + 1 := by rw [List.length_append]; rfl
  refine ⟨fun {i w} hw => ?_, fun x hx => ?_⟩
  · rcases Nat.lt_or_ge i vs.length with before | after
    · rw [List.getElem?_append_left before] at hw
      obtain ⟨b, slot, whole', loads'⟩ := h.elements hw
      -- The element lies in front of the new one.
      have apart : b.toNat + element.accessWidth ≤ a.toNat := by
        rw [address]
        exact slot.inside.2
      refine ⟨b, ⟨slot.address, by omega⟩, kept whole', fun loc' => ?_⟩
      exact loadPlace_of_same sound sound' scalar whole' (kept whole')
        (fun x _ hx => puts.bytes x (.inl (by omega))) (loads' loc')
    · obtain ⟨hi, rfl⟩ : i = vs.length ∧ w = v := by
        rw [List.getElem?_append_right after] at hw
        obtain ⟨hlt, rfl⟩ := List.getElem?_eq_some_iff.1 hw
        rw [List.length_singleton] at hlt
        exact ⟨by omega, by simp⟩
      exact ⟨a, ⟨hi ▸ address, by omega⟩, kept whole, loads⟩
  · rw [longer, Nat.succ_mul] at hx
    rw [puts.bytes x (by omega), h.bytes x (by omega)]

end Machine.Filled

namespace Session

/-- Evaluating `e` in the function `k` has no side effect: memory is left as it is. -/
structure Harmless (u : Session) (k : Option FunctionId) (e : Expr) : Prop where
  memory : ∀ {fuel m v m'}, u.Running k m → m.Quiet → (engine u.env fuel).solve e m = .ok v m' →
    m'.memory = m.memory

theorem harmless_of_effectless {e : Expr} (h : e.Effectless) (u : Session) (k : Option FunctionId) :
    u.Harmless k e := by
  refine ⟨fun {fuel _ _ _} _ _ hx => ?_⟩
  rw [(Engine.still_solve (h.still u.env fuel)).eq_of_ok hx]

/-- The machines on which values are evaluated and stored one after the other, with what they come
to: each machine holds the values before. -/
structure Gathers (u : Session) (fuel : Nat) (m : Machine) (base : Address) (element : Ty)
    (before : List Value) (es : List Expr) (steps : List (Machine × Value)) (m' : Machine) : Prop where
  values : List.Forall₂ (fun e s => ∃ n, (engine u.env fuel).solve e s.1 = .ok s.2 n) es steps
  prefixes : ∀ {i s}, steps[i]? = some s →
    m.Filled base element (before ++ (steps.take i).map Prod.snd) s.1
  all : m.Filled base element (before ++ steps.map Prod.snd) m'

/-- **Values without side effects end up in the array.** -/
theorem Running.filled {config : Config} {u : Session} {k : Option FunctionId}
    {m n m' : Machine} (hu : u.Reachable config)
    (hc : config.capacity.toNat < 4294967296 - 4096) {missing : Prop} {base : Address} {element : Ty}
    {length fuel i : Nat} (scalar : element.isScalar = true) {es : List Expr} {r : Except Stop Unit}
    (h : (engine u.env fuel).Fills missing base element length i es n r m') (ok : r = .ok ())
    (harmless : ∀ e ∈ es, u.Harmless k e) (hn : u.Running k n) (hq : n.Quiet) {before : List Value}
    (hi : before.length = i) (hf : m.Filled base element before n) :
    ∃ steps, u.Gathers fuel m base element before es steps m' := by
  induction h generalizing before with
  | done => exact ⟨[], .nil, (fun hs => by cases hs), by simpa using hf⟩
  | stops => cases ok
  | misses => cases ok
  | @stores i e es n n₁ n₂ m' v a r loc hx slot stored _ _ ih =>
    obtain ⟨running, quiet, -⟩ := hn.solved hq hx
    obtain ⟨running', quiet', -⟩ := running.stored quiet stored
    have sound : ∀ {k'}, u.Running k k' → k'.memory.Sound := fun h =>
      (h.spans hu).sound (Nat.le_of_lt hc)
    have same := (harmless e (.head _)).memory hn hq hx
    have more := (hf.congr scalar (sound hn) same).snoc scalar (sound running) (hi ▸ slot.address)
      stored
    obtain ⟨steps, values, prefixes, all⟩ := ih ok (fun e' he' => harmless e' (.tail _ he')) running'
      quiet' (by rw [List.length_append, hi]; rfl) more
    refine ⟨(n, v) :: steps, .cons ⟨n₁, hx⟩ values, fun {j s} hs => ?_, ?_⟩
    · cases j with
      | zero =>
        obtain rfl := Option.some.inj hs
        simpa using hf
      | succ j => simpa using prefixes hs
    · simpa using all

end Session

/-! ## Arrays of variables -/

/-- An array in the code of the function `k` that is a variable, or a member of a direct path, at an
offset from its variable. -/
inductive Expr.DirectArray (p : Program) (k : FunctionId) : Expr → SymbolId → Nat → Prop
  | var {id : SymbolId} {loc : Location} : id ∈ (p.function k).locals ∨ id ∈ p.globals →
    (p.symbol id).isArray = true → DirectArray p k (.mk (.var id) (p.symbol id).ty loc) id 0
  | member {object : Expr} {id : SymbolId} {fields : List String} {offset : Nat} {name field : String}
      {l : Layout} {m : Member} {loc : Location} : object.Direct p k id fields offset →
    object.ty.structName? = some name → p.layout? name = some l → l.member? field = some m →
    m.arrayLength.isSome = true →
    DirectArray p k (.mk (.member object m.offset m.arrayLength) m.ty loc) id (offset + m.offset)

/-- The place of a member is at its offset from the object. -/
theorem Engine.member_eq_ok (env : Env) {engine : Engine} {object : Expr} {offset : Nat}
    {array : Option Nat} {ty : Ty} {loc : Location} {m m' : Machine} {r : Resolved}
    (h : executeRule env engine (.mk (.member object offset array) ty loc) m = .ok r m') :
    ∃ p a, engine.execute object m = .ok (.place p) m' ∧ a.toNat = p.address.toNat + offset ∧
      r = .place ⟨a, ty, array.isSome⟩ := by
  simp only [executeRule, Engine.place, Expr.op_mk, bind_eq_ok, displaced_eq_ok, pure_eq_ok] at h
  obtain ⟨p, n, ⟨found, k, hx, hp⟩, a, _, ⟨hlt, rfl, rfl⟩, rfl, rfl⟩ := h
  cases found with
  | value v => cases hp
  | place q =>
    obtain ⟨rfl, rfl⟩ := pure_eq_ok.1 hp
    exact ⟨q, _, hx, UInt32.toNat_ofNat_of_lt' hlt, rfl⟩

/-- A direct path that comes to something comes to the place at its offset from its variable. -/
theorem Expr.Direct.eq_of_execute {env : Env} {k : FunctionId} {e : Expr} {id : SymbolId}
    {fields : List String} {offset fuel : Nat} {m m' : Machine} {r : Resolved}
    (h : e.Direct env.program k id fields offset) (hx : (engine env fuel).execute e m = .ok r m') :
    m' = m ∧ ∃ b p, m.frames.address? id = some b ∧ r = .place p ∧
      p.address.toNat = b.toNat + offset := by
  induction h generalizing fuel r with
  | var =>
    obtain _ | n := fuel
    · cases hx
    · obtain ⟨q, _, hq, hp⟩ := bind_eq_ok.1 hx
      obtain ⟨b, hb, rfl, rfl⟩ := Engine.variablePlace_eq_ok hq
      obtain ⟨rfl, rfl⟩ := pure_eq_ok.1 hp
      exact ⟨rfl, b, _, hb, rfl, rfl⟩
  | member _ _ _ _ _ ih =>
    obtain _ | n := fuel
    · cases hx
    · obtain ⟨p, a, hp, ha, rfl⟩ := Engine.member_eq_ok env hx
      obtain ⟨rfl, b, p', hb, same, hp'⟩ := ih hp
      cases same
      exact ⟨rfl, b, _, hb, rfl, by rw [ha, hp', Nat.add_assoc]⟩

namespace Expr.DirectArray
variable {p : Program} {k : FunctionId} {e : Expr} {id : SymbolId} {offset : Nat}

theorem variable_ (h : e.DirectArray p k id offset) :
    id ∈ (p.function k).locals ∨ id ∈ p.globals := by
  cases h with
  | var named => exact named
  | member object => exact object.variable_.1

/-- **An array of a variable starts at its offset**, and finding it changes nothing. -/
theorem eq_of_execute {env : Env} {fuel : Nat} {m m' : Machine} {q : Place}
    (h : e.DirectArray env.program k id offset)
    (hx : (engine env fuel).execute e m = .ok (.place q) m') :
    m' = m ∧ ∃ b, m.frames.address? id = some b ∧ q.address.toNat = b.toNat + offset := by
  obtain _ | n := fuel
  · cases hx
  cases h with
  | var =>
    obtain ⟨q', _, hq, hp⟩ := bind_eq_ok.1 hx
    obtain ⟨b, hb, rfl, rfl⟩ := Engine.variablePlace_eq_ok hq
    obtain ⟨same, rfl⟩ := pure_eq_ok.1 hp
    cases same
    exact ⟨rfl, b, hb, rfl⟩
  | member object =>
    obtain ⟨q', a, hq, ha, same⟩ := Engine.member_eq_ok env hx
    cases same
    obtain ⟨rfl, b, p', hb, same, hp'⟩ := object.eq_of_execute hq
    cases same
    exact ⟨rfl, b, hb, by rw [ha, hp', Nat.add_assoc]⟩

/-- **An array of a variable lies in its storage.** -/
theorem within (h : e.DirectArray p k id offset) (hp : p.LaidOut) (hid : p.HasSymbol id) {size : Nat}
    {length : Option Nat} (hl : (Context.building p).arrayLength? e = length)
    (ha : p.Amounts e.ty size length) : offset + size ≤ (p.symbol id).size := by
  have hsym := Array.getElem?_eq_getElem hid
  rw [← Program.symbol_eq hsym] at hsym
  subst hl
  cases h with
  | var =>
    have amount := (hp.symbols hsym).eq_of_amounts ha
    omega
  | @member object _ _ offset name field l m _ direct hn hl hm =>
    obtain ⟨n, hn', inside⟩ := direct.selects.within hp (hp.single hsym direct.variable_.2)
    rw [Ty.eq_of_structName? hn, Program.sizeOf?_struct, hl] at hn'
    obtain rfl := Option.some.inj hn'
    have mem : m ∈ l.members := List.mem_of_find?_eq_some hm
    have amount := ((hp.layout? hl).measures mem).eq_of_amounts ha
    have fits := (hp.layout? hl).within mem
    omega

end Expr.DirectArray

/-- **All elements of an array of a variable are there.** -/
theorem Machine.Inside.elements {c : Context} {k : Option FunctionId} {m : Machine}
    (h : m.Inside c k) {id : SymbolId} {base b a : Address} {element : Ty} {length offset i : Nat}
    (hb : m.frames.address? id = some b) (hbase : base.toNat = b.toNat + offset)
    (fits : offset + length * element.accessWidth ≤ (c.program.symbol id).size)
    (ha : base.Element element length i a) : m.memory.Whole a element.accessWidth := by
  have inside := ha.inside
  exact Memory.whole_iff.2 ⟨b, _, h.region hb, by omega, by omega⟩

/-- **An array of a variable lies in the storage of the variable**, and finding it changes nothing. -/
theorem Program.Initializes.located {env : Env} {c : Context} (hr : env.Runs c)
    (laid : c.program.LaidOut) {g : Grammar} {dst : Expr} {values : List Node} {scope : Scope}
    {element elements : Ty} {length offset fuel : Nat} {es : List Expr}
    (init : c.program.Initializes g dst values scope element length es) {k : FunctionId}
    {id : SymbolId} (h : dst.DirectArray c.program k id offset) {m m₁ : Machine} {base : Address}
    (hx : (engine env fuel).execute dst m = .ok (.place ⟨base, elements, true⟩) m₁) : m₁ = m ∧
      ∃ b, m.frames.address? id = some b ∧ base.toNat = b.toNat + offset ∧
        offset + length * element.accessWidth ≤ (c.program.symbol id).size := by
  have sees : c.Sees (some k) id := h.variable_.elim (fun hl => .inr ⟨k, rfl, hl⟩) .inl
  obtain ⟨same, b, hb, hbase⟩ := (hr.program.symm ▸ h).eq_of_execute hx
  exact ⟨same, b, hb, hbase,
    h.within laid (sees.hasSymbol hr.finished.ranged) init.declared init.amounts⟩

/-- The loop begins where the array has been found. -/
theorem Engine.arrayAssign_of_place {env : Env} {fuel : Nat} {dst : Expr} {values : List Node}
    {scope : Scope} {ty elements : Ty} {loc : Location} {m m₁ m' : Machine} {base : Address}
    {frame : Frame} {element : Ty} {r : Except Stop Unit} (he : elements.pointee = some element)
    (hx : (engine env fuel).execute dst m = .ok (.place ⟨base, elements, true⟩) m₁)
    (hf : m₁.frames.current? = some frame)
    (hr : (engine env fuel).storeElements env frame.function scope base element 0 values m₁ =
      conclude r m') :
    (engine env (fuel + 1)).execute (.mk (.arrayAssign dst values scope) ty loc) m =
      conclude (r.map fun _ => .value (.pointer ty base)) m' := by
  have assigned : (engine env fuel).arrayAssign env dst values scope loc m =
      conclude (r.map fun _ => base) m' := by
    refine (bind_of_ok hx).trans ((bind_of_ok (get_eq_ok.2 ⟨rfl, rfl⟩)).trans ?_)
    simp only [hf, he, Option.getD_some]
    cases r with
    | ok _ => exact (bind_of_ok hr).trans rfl
    | error stop => exact bind_of_error hr
  cases r with
  | ok _ => exact (bind_of_ok assigned).trans rfl
  | error stop => exact bind_of_error assigned

namespace Session

/-- **Values that are assigned to an array stay inside of it.**  Take a session that has compiled a
source, any state inside of a running function and any array assignment of the program.  The array is
found first; if this stops, then so does the assignment.  It has been declared with at least as many
elements as there are values, and each value goes to its own element, so that no store leaves the
storage of the array.  An array of a variable lies in the region of the variable and none of its
elements is missing.  Where the assignment succeeds and no value has a side effect, each value is
evaluated on a machine that holds those before, all are in the array afterwards, converted to the type
of its elements, and all other bytes are unchanged. -/
theorem initializers_contained {config : Config} {s t u : Session} {source : String} {k : FunctionId}
    {m : Machine} {dst : Expr} {values : List Node} {scope : Scope} {ty : Ty} {loc : Location}
    (hc : config.capacity.toNat < 4294967296 - 4096) (hs : s.compile source = .ok t)
    (hu : u.Reachable config) (henv : u.env = t.env) (hm : u.Running (some k) m) (hq : m.Quiet)
    (he : u.env.program.Holds u.env.grammar (.mk (.arrayAssign dst values scope) ty loc))
    (fuel : Nat) :
    ∃ element length es, u.env.program.Initializes u.env.grammar dst values scope element length es ∧
      (∀ {stop m'}, (engine u.env fuel).execute dst m = .error stop m' →
        (engine u.env (fuel + 1)).execute (.mk (.arrayAssign dst values scope) ty loc) m =
          .error stop m') ∧
      ∀ {found m₁}, (engine u.env fuel).execute dst m = .ok found m₁ → ∃ base r m',
        found = .place ⟨base, dst.ty, true⟩ ∧
        (engine u.env (fuel + 1)).execute (.mk (.arrayAssign dst values scope) ty loc) m =
          conclude (r.map fun _ => .value (.pointer ty base)) m' ∧
        (engine u.env fuel).Fills (¬ ∃ id offset, dst.DirectArray u.env.program k id offset) base
          element length 0 es m₁ r m' ∧
        (∀ {id offset}, dst.DirectArray u.env.program k id offset → m₁ = m ∧ ∃ b,
          m.frames.address? id = some b ∧ (b, (u.env.program.symbol id).size) ∈ m.memory.slots ∧
          base.toNat = b.toNat + offset ∧
          offset + length * element.accessWidth ≤ (u.env.program.symbol id).size) ∧
        (r = .ok () → (∀ e ∈ es, u.Harmless (some k) e) →
          ∃ steps, u.Gathers fuel m₁ base element [] es steps m') := by
  obtain ⟨p, hp, rfl⟩ := compile_eq_ok.1 hs
  obtain ⟨c, hr⟩ := runs_of_compile hs
  rw [← henv] at hr
  have program : p = c.program := (congrArg Env.program henv).symm.trans hr.program
  have laid : c.program.LaidOut := program ▸ Program.ofSource_laidOut hp
  have tidy : c.program.Tidy := program ▸ Program.ofSource_tidy hp
  have rested := hu.rested
  rw [hr.program] at he ⊢
  obtain ⟨k', typed⟩ := he.typed hr.finished
  obtain ⟨typed, element, length, es, init⟩ := typed.initializes hr.finished laid tidy
  refine ⟨element, length, es, init, fun hx => bind_of_error (bind_of_error hx),
    fun {found m₁} hx => ?_⟩
  obtain ⟨base, rfl⟩ := ((engine_fits hr.finished hr.program fuel).execute typed _ _ _ hx).array
    init.declared
  have kept := ((engine_calm u.env fuel).execute dst).ok hx
  have running : u.Running (some k) m₁ := .acted hm hq (.execute fuel dst) hx
  obtain ⟨frame, hframe, -⟩ := ((running.inside hr rested).ready k rfl).frame
  have few : 0 + values.length ≤ length := by
    rw [Nat.zero_add]
    exact init.few
  have start : base.toNat + 0 * element.accessWidth < 4294967296 := by
    rw [Nat.zero_mul]
    exact base.toNat_lt
  -- The region of a variable lasts as long as its frame, whatever the values do.
  have there : ¬ (¬ ∃ id offset, dst.DirectArray c.program k id offset) →
      ∀ {n}, u.Running (some k) n → n.frames = m₁.frames →
      ∀ {i a}, base.Element element length i a → n.memory.Whole a element.accessWidth := by
    intro present n hrun hframes i a ha
    obtain ⟨id, offset, h⟩ := not_not.1 present
    obtain ⟨-, b, hb, hbase, fits⟩ := init.located hr laid h hx
    have bound : n.frames.address? id = some b := by rw [hframes, kept.frames, hb]
    exact (hrun.inside hr rested).elements bound hbase fits ha
  obtain ⟨r, m', stores, fills⟩ := running.fills hu hc init.scalar
    (hr.program.symm ▸ init.lowered frame.function) there (kept.quiet hq) few start
  refine ⟨base, r, m', rfl, Engine.arrayAssign_of_place init.pointee hx hframe stores, fills,
    fun h => ?_, fun ok harmless => ?_⟩
  · obtain ⟨same, b, hb, hbase, fits⟩ := init.located hr laid h hx
    exact ⟨same, b, hb, (hm.inside hr rested).region hb, hbase, fits⟩
  · exact running.filled hu hc init.scalar fills ok harmless (kept.quiet hq) rfl (.nil ..)

/-- Three values for an array of four characters; the second one reads the first element. -/
def initializing : String :=
  "int main() \x7b char a[4]; int x; x = 7; a = \x7b300, a[0] + 1, x\x7d; return a[2]; \x7d"

/-- The assignment to an array in the body of `initializing`, and the statement before. -/
def initialized? : Body → Option (Stmt × SymbolId × Ty × Location × List Node × Scope × Ty × Location)
  | .compiled (.mk (.block [first, .mk (.expr (.mk (.arrayAssign (.mk (.var id) array place) values
      scope) ty loc)) _, _]) _) => some (first, id, array, place, values, scope, ty, loc)
  | _ => none

theorem holds_initialized {g : Grammar} {p : Program} {i : FunctionId} {f : Function} {first : Stmt}
    {id : SymbolId} {array : Ty} {place : Location} {values : List Node} {scope : Scope} {ty : Ty}
    {loc : Location} (hf : p.functions[i]? = some f)
    (h : initialized? f.body = some (first, id, array, place, values, scope, ty, loc)) :
    p.Holds g (.mk (.arrayAssign (.mk (.var id) array place) values scope) ty loc) := by
  unfold initialized? at h
  split at h
  · rename_i at_ _ _ hb
    cases h
    have step : p.Performs i (.mk (.expr (.mk (.arrayAssign (.mk (.var id) array place) values scope)
        ty loc)) at_) := .part (.body hf hb) (by simp [Stmt.action, Action.stmts])
    exact .stmt step (by simp [Stmt.action, Action.exprs])
  · cases h

/-- The array at 4096 holds 44, which is 300 as a character, then 45 and 7. -/
theorem initializers_contained_characters : ∃ t m m' id array place values scope ty loc,
    (new .standard).compile initializing = .ok t ∧ t.Running (some 4) m ∧
    Expr.DirectArray t.env.program 4 (.mk (.var id) array place) id 0 ∧
    (engine t.env 20).execute (.mk (.arrayAssign (.mk (.var id) array place) values scope) ty loc) m =
      .ok (.value ⟨Ty.char.pointer, 4096⟩) m' ∧
    [m'.memory.byte? 4096, m'.memory.byte? 4097, m'.memory.byte? 4098, m'.memory.byte? 4099] =
      [some 44, some 45, some 7, some 0] ∧
    ∃ base element length es steps,
      t.env.program.Initializes .full (.mk (.var id) array place) values scope element length es ∧
      t.Gathers 19 m base element [] es steps m' := by
  have run : ((new .standard).compile initializing).toOption.bind (fun t =>
      t.env.program.functions[4]?.bind fun f => (initialized? f.body).bind
        fun (before, id, array, place, values, scope, ty, loc) => EStateM.run' (do
          t.enters 20 4 f before
          let m ← get
          let r ← (engine t.env 20).execute
            (.mk (.arrayAssign (.mk (.var id) array place) values scope) ty loc)
          let n ← get
          pure ((m.pending, m.flow), (r, [4096, 4097, 4098, 4099].map n.memory.byte?),
            [decide ((t.env.program.symbol id).ty = array), (t.env.program.symbol id).isArray,
              decide (id ∈ (t.env.program.function 4).locals),
              values.all fun v => match lowerExpr .full v (.frozenIn t.env.program 0 scope) with
                | .ok (e, _) => e.isEffectless 4
                | .error _ => false])) t.machine) =
      some ((none, .normal), (.value ⟨Ty.char.pointer, 4096⟩, [some 44, some 45, some 7, some 0]),
        [true, true, true, true]) := by
    rw [compile_of_toList initializing (String.ofList_eq.1 rfl)]
    decide +kernel
  simp only [Option.bind_eq_some_iff] at run
  obtain ⟨t, ht, f, hf, ⟨before, id, array, place, values, scope, ty, loc⟩, hb, run⟩ := run
  have ht := Except.eq_ok_of_toOption ht
  obtain ⟨_, hx⟩ := run'_eq_some.1 run
  simp only [bind_eq_ok, get_eq_ok, pure_eq_ok, Prod.mk.injEq, List.cons.injEq, and_true,
    decide_eq_true_eq] at hx
  obtain ⟨_, k, hk, _, _, ⟨rfl, rfl⟩, r, m', hr, _, _, ⟨rfl, rfl⟩, ⟨quiet, ⟨rfl, bytes⟩, rfl,
    isArray, named, effectless⟩, -⟩ := hx
  have reachable : t.Reachable .standard := .compile (.new .full) ht
  have running : t.Running (some 4) k := .of_enters (reachable.rested) hf hk
  have direct : Expr.DirectArray t.env.program 4
      (.mk (.var id) (t.env.program.symbol id).ty place) id 0 := .var (.inl named) isArray
  obtain ⟨element, length, es, init, stops, goes⟩ := initializers_contained (by decide) ht reachable
    rfl running quiet (holds_initialized hf hb) 19
  have grammar : t.env.grammar = .full := by
    obtain ⟨p, -, rfl⟩ := compile_eq_ok.1 ht
    rfl
  have harmless : ∀ e ∈ es, t.Harmless (some 4) e := by
    intro e he
    obtain ⟨v, hv, hl⟩ := Lower.forall₂_mem_left (init.lowered 0).flip he
    have checked := List.all_eq_true.1 effectless v hv
    rw [← grammar, hl] at checked
    exact harmless_of_effectless (Expr.effectless_of_isEffectless checked) t (some 4)
  cases hx : (engine t.env 19).execute (.mk (.var id) (t.env.program.symbol id).ty place) k with
  | error stop n' => cases (stops hx).symm.trans hr
  | ok found n' =>
    obtain ⟨base, outcome, m'', -, same, -, region, gathers⟩ := goes hx
    obtain ⟨ok, rfl⟩ := conclude_eq_ok.1 (same.symm.trans hr)
    obtain ⟨rfl, -⟩ := region direct
    cases outcome with
    | error stop => cases ok
    | ok _ =>
      obtain ⟨steps, gathers⟩ := gathers rfl harmless
      exact ⟨t, _, m'', id, _, place, values, scope, ty, loc, ht, running, direct, hr,
        by simpa using bytes, base, element, length, es, steps, grammar ▸ init, gathers⟩

end Session

end MiniC
