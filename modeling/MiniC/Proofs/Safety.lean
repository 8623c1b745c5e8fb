/-
  Internal faults, and machines on which well-typed code does not meet them.

  Some faults stand for what lowering has ruled out: a name without storage, a value that is used as
  a place, a function without a body.  No more is memory ever asked for a region of no bytes, since
  all that has storage takes some.  A machine is ready for the code of a function if the globals,
  the string literals and the variables of the function have storage.
-/
import MiniC.Proofs.TypedResult

namespace MiniC

/-- The faults that lowering rules out. -/
def Fault.isInternal : Fault → Bool
  | notAnArray _ | lowering _ | unsupportedValue .. | notAddressable _ | unbound ..
  | undefinedFunction _ => true
  | _ => false

/-- The faults that no run meets: the internal ones, and that memory is asked for no bytes. -/
def Fault.isExcluded : Fault → Bool
  | memory .zeroSize _ => true
  | f => f.isInternal

theorem Fault.isInternal_of_isExcluded {f : Fault} (h : f.isExcluded = false) :
    f.isInternal = false := by
  unfold isExcluded at h
  split at h
  · cases h
  · exact h

theorem Fault.isExcluded_memory {e : MemoryError} {loc : Location} (h : e ≠ .zeroSize) :
    (Fault.memory e loc).isExcluded = false := by
  cases e with
  | zeroSize => exact absurd rfl h
  | _ => rfl

namespace Memory
variable {m : Memory} {a : Address} {e : MemoryError}

theorem allocate_error {n : Nat} (hn : 0 < n) (h : m.allocate n = .error e) : e ≠ .zeroSize := by
  rw [allocate, if_neg (Nat.pos_iff_ne_zero.1 hn)] at h
  split at h
  · rename_i hgap
    cases h
    simp [firstGap_eq_error hgap]
  · split at h <;> cases h
    simp

theorem free_error (h : m.free a = .error e) : e ≠ .zeroSize := by
  unfold free at h
  split at h <;> cases h
  nofun

theorem read_error (h : m.read a = .error e) : e ≠ .zeroSize := by
  unfold read at h
  split at h <;> cases h
  nofun

theorem readWord_error (h : m.readWord a = .error e) : e ≠ .zeroSize := by
  unfold readWord at h
  split at h <;> cases h
  nofun

theorem writeBytes_error {bs : List UInt8} (h : m.writeBytes a bs = .error e) : e ≠ .zeroSize := by
  unfold writeBytes at h
  split at h <;> cases h
  nofun

end Memory

namespace Machine
variable {c : Context} {k : FunctionId} {m m' : Machine}

/-- The globals and the string literals have storage. -/
structure Supplied (c : Context) (m : Machine) : Prop where
  globals : ∀ id ∈ c.program.globals, (m.frames.globalAddress? id).isSome
  strings : c.program.strings.size ≤ m.strings.size

/-- All that the code of the function `k` names has storage. -/
structure Ready (c : Context) (k : FunctionId) (m : Machine) : Prop extends Supplied c m where
  frame : ∃ frame, m.frames.current? = some frame ∧
    ∀ id ∈ (c.program.function k).locals, (frame.address? id).isSome

/-- What depends only on the frames and the string literals. -/
def Stable (P : Machine → Prop) : Prop :=
  ∀ m m' : Machine, m'.frames = m.frames → m'.strings = m.strings → P m → P m'

theorem stable_ready (c : Context) (k : FunctionId) : Stable (Ready c k) := by
  rintro m m' hf hs ⟨⟨h1, h2⟩, h3⟩
  exact ⟨⟨by rwa [hf], by rwa [hs]⟩, by rwa [hf]⟩

theorem stable_supplied (c : Context) : Stable (Supplied c) := by
  rintro m m' hf hs ⟨h1, h2⟩
  exact ⟨by rwa [hf], by rwa [hs]⟩

/-- What code can name has an address. -/
theorem Ready.address (h : m.Ready c k) {id : SymbolId} (hs : c.Sees (some k) id) :
    (m.frames.address? id).isSome := by
  obtain ⟨frame, hframe, locals⟩ := h.frame
  unfold Frames.address?
  split
  · rfl
  · rename_i hnone
    rcases hs with hs | ⟨f, hf, hs⟩
    · exact h.globals id hs
    · cases hf
      simp only [hframe, Option.bind_some] at hnone
      simpa [hnone] using locals id hs

end Machine

/-! ## Parts of runs that are safe -/

namespace Run
variable {α β : Type} {P : Machine → Prop} {R : α → Prop} {Q : State → Prop}
open Machine

/-- Where `P` holds, `x` keeps it, meets no excluded fault and comes to what satisfies `R`. -/
structure Safe (P : Machine → Prop) (x : Run α) (R : α → Prop) : Prop where
  ok : ∀ {m a m'}, P m → x m = .ok a m' → P m' ∧ R a
  error : ∀ {m f m'}, P m → x m = .error (.fault f) m' → f.isExcluded = false

theorem safe_pure {a : α} (h : R a) : (pure a : Run α).Safe P R where
  ok hm hx := by
    obtain ⟨rfl, rfl⟩ := pure_eq_ok.1 hx
    exact ⟨hm, h⟩
  error _ hx := absurd hx pure_ne_error

theorem safe_fault {f : Fault} (h : f.isExcluded = false) : (fault f : Run α).Safe P R where
  ok _ hx := absurd hx fault_ne_ok
  error _ hx := by
    obtain ⟨hf, -⟩ := fault_eq_error.1 hx
    cases hf
    exact h

theorem safe_require {o : Option α} {f : Fault} (h : f.isExcluded = false) :
    (require o f).Safe P fun _ => True := by
  cases o with
  | none => exact safe_fault h
  | some a => exact safe_pure trivial

theorem safe_require_some {o : Option α} {f : Fault} (h : o.isSome) :
    (require o f).Safe P fun _ => True := by
  cases o with
  | none => cases h
  | some a => exact safe_pure trivial

theorem Safe.bind {T : β → Prop} {x : Run β} {f : β → Run α} (hx : x.Safe P T)
    (hf : ∀ b, T b → (f b).Safe P R) : (x >>= f).Safe P R where
  ok hm h := by
    obtain ⟨b, n, h1, h2⟩ := bind_eq_ok.1 h
    obtain ⟨hn, hb⟩ := hx.ok hm h1
    exact (hf b hb).ok hn h2
  error hm h := by
    rcases bind_eq_error.1 h with h1 | ⟨b, n, h1, h2⟩
    · exact hx.error hm h1
    · obtain ⟨hn, hb⟩ := hx.ok hm h1
      exact (hf b hb).error hn h2

theorem Safe.gives {R' : α → Prop} {x : Run α} (h : x.Safe P R) (hg : x.Gives R') : x.Safe P R' where
  ok hm hx := ⟨(h.ok hm hx).1, hg _ _ _ hx⟩
  error := h.error

theorem safe_get_bind {f : Machine → Run α} (hf : ∀ m, P m → (f m).Safe P R) : (get >>= f).Safe P R where
  ok {m _ _} hm h := (hf m hm).ok hm h
  error {m _ _} hm h := (hf m hm).error hm h

theorem safe_ite {p : Prop} [Decidable p] {x y : Run α} (hx : p → x.Safe P R) (hy : ¬ p → y.Safe P R) :
    (if p then x else y).Safe P R := by
  by_cases h : p
  · rw [if_pos h]
    exact hx h
  · rw [if_neg h]
    exact hy h

/-- A check in front of `x`. -/
theorem safe_guard {p : Prop} [Decidable p] {f : Fault} {x : PUnit → Run α}
    (h : p → f.isExcluded = false) (hx : ¬ p → (x ()).Safe P R) :
    (if p then fault f >>= x else x ()).Safe P R :=
  safe_ite (fun hp => (safe_fault (R := fun _ => False) (h hp)).bind fun _ => False.elim) hx

theorem safe_discard {x : Run α} (hx : x.Safe P R) : (discard x).Safe P fun _ => True where
  ok hm h := by
    obtain ⟨a, h⟩ := discard_eq_ok.1 h
    exact ⟨(hx.ok hm h).1, trivial⟩
  error hm h := hx.error hm (discard_eq_error.1 h)

section
variable (hP : Stable P)
include hP

/-- What keeps what is held keeps `P`. -/
theorem safe_of_calm {x : Run α} (hc : x.Calm Q) (hg : x.Gives R)
    (he : ∀ {m f m'}, P m → x m = .error (.fault f) m' → f.isExcluded = false) : x.Safe P R where
  ok hm hx := ⟨hP _ _ (hc.ok hx).frames (hc.ok hx).strings hm, hg _ _ _ hx⟩
  error := he

theorem safe_modify {f : Machine → Machine} (hf : ∀ m, (f m).frames = m.frames)
    (hs : ∀ m, (f m).strings = m.strings) : (modify f : Run PUnit).Safe P fun _ => True where
  ok {m _ _} hm h := by
    obtain rfl := modify_eq_ok.1 h
    exact ⟨hP m _ (hf m) (hs m) hm, trivial⟩
  error _ h := absurd h modify_ne_error

theorem safe_modify_then {f : Machine → Machine} {x : Run α} (hf : ∀ m, (f m).frames = m.frames)
    (hs : ∀ m, (f m).strings = m.strings) (hx : x.Safe P R) :
    (do modify f; x : Run α).Safe P R :=
  (safe_modify hP hf hs).bind fun _ _ => hx

theorem safe_emit (e : Event) : (emit e).Safe P fun _ => True :=
  safe_modify hP (fun _ => rfl) fun _ => rfl

theorem safe_allocate {size : Nat} (hn : 0 < size) (loc : Location) :
    (allocate size loc).Safe P fun _ => True where
  ok {m _ _} hm h := by
    obtain ⟨memory, -, rfl⟩ := allocate_eq_ok.1 h
    exact ⟨hP m _ rfl rfl hm, trivial⟩
  error {m _ _} _ h := by
    simp only [allocate, bind_eq_error, get_eq_ok, get_ne_error, false_or] at h
    obtain ⟨_, _, ⟨rfl, rfl⟩, h⟩ := h
    cases ha : m.memory.allocate size <;> simp [ha] at h
    rw [← h.1]
    exact Fault.isExcluded_memory (Memory.allocate_error hn ha)

omit hP in
theorem gives_release (a : Address) : (release a).Gives fun o => ∀ e ∈ o, e ≠ .zeroSize := by
  intro m o m' h
  simp only [release, bind_eq_ok, get_eq_ok] at h
  obtain ⟨_, _, ⟨rfl, rfl⟩, h⟩ := h
  cases hf : m.memory.free a with
  | ok memory =>
    simp only [hf, bind_eq_ok, set_eq_ok, pure_eq_ok] at h
    obtain ⟨_, _, -, rfl, -⟩ := h
    rintro _ ⟨⟩
  | error e =>
    simp only [hf, bind_eq_ok, set_eq_ok, pure_eq_ok] at h
    obtain ⟨_, _, -, rfl, -⟩ := h
    rintro _ ⟨⟩
    exact Memory.free_error hf

omit hP in
theorem gives_releaseAll (as : List Address) :
    (releaseAll as).Gives fun o => ∀ e ∈ o, e ≠ .zeroSize := by
  induction as with
  | nil => exact gives_pure nofun
  | cons a as ih =>
    refine (gives_release a).bind fun first hf => ih.bind fun later hl => gives_pure fun e he => ?_
    rcases Option.or_eq_some_iff.1 he with he | ⟨-, he⟩
    · exact hf e he
    · exact hl e he

omit hP in
theorem gives_leaveFrame : Engine.leaveFrame.Gives fun o => ∀ e ∈ o, e ≠ .zeroSize := by
  refine gives_after fun m => ?_
  split
  · exact gives_pure nofun
  · refine gives_after fun _ => (gives_releaseAll _).bind fun t ht => gives_after fun _ => ?_
    exact gives_pure ht

theorem safe_release (a : Address) : (release a).Safe P fun o => ∀ e ∈ o, e ≠ .zeroSize where
  ok {m _ _} hm h := by
    refine ⟨?_, gives_release a _ _ _ h⟩
    obtain ⟨t, memory, seen, hr⟩ := release_frame a m
    cases hr.symm.trans h
    exact hP m _ rfl rfl hm
  error {m _ _} _ h := by
    obtain ⟨t, memory, seen, hr⟩ := release_frame a m
    cases hr.symm.trans h

theorem safe_checkpoint (loc : Location) : (checkpoint loc).Safe P fun _ => True := by
  refine safe_of_calm hP (calm_checkpoint loc) (gives_any _) fun {m _ _} _ h => ?_
  simp only [checkpoint, emit, bind_eq_error, modify_eq_ok, modify_ne_error, get_eq_ok, get_ne_error,
    set_eq_ok, set_ne_error, false_or] at h
  obtain ⟨_, _, rfl, _, _, ⟨rfl, rfl⟩, _, _, rfl, h⟩ := h
  cases hv : (m.tell (.checkpoint loc)).control.checkpoint.1 <;> simp [hv] at h

theorem safe_writeByte (a : Address) (b : UInt8) (loc : Location) :
    (writeByte a b loc).Safe P fun _ => True := by
  refine safe_of_calm hP (calm_writeByte a b loc) (gives_any _) fun {m _ _} _ h => ?_
  simp only [writeByte, bind_eq_error, get_eq_ok, get_ne_error, false_or] at h
  obtain ⟨_, _, ⟨rfl, rfl⟩, h⟩ := h
  cases hw : m.memory.write a b <;> simp [hw, written] at h
  rw [← h.1]
  exact Fault.isExcluded_memory (Memory.writeBytes_error hw)

theorem safe_writeWord (a : Address) (w : Word) (loc : Location) :
    (writeWord a w loc).Safe P fun _ => True := by
  refine safe_of_calm hP (calm_writeWord a w loc) (gives_any _) fun {m _ _} _ h => ?_
  simp only [writeWord, bind_eq_error, get_eq_ok, get_ne_error, false_or] at h
  obtain ⟨_, _, ⟨rfl, rfl⟩, h⟩ := h
  cases hw : m.memory.writeWord a w <;> simp [hw, written] at h
  rw [← h.1]
  exact Fault.isExcluded_memory (Memory.writeBytes_error hw)

theorem safe_store (p : Place) (v : Value) (loc : Location) : (store p v loc).Safe P fun _ => True :=
  safe_ite (fun _ => safe_writeByte hP ..) fun _ => safe_writeWord hP ..

omit hP in
theorem safe_readByte (a : Address) (loc : Location) : (readByte a loc).Safe P fun _ => True := by
  refine safe_get_bind fun m _ => ?_
  cases hr : m.memory.read a with
  | ok b => exact safe_pure trivial
  | error e => exact safe_fault (Fault.isExcluded_memory (Memory.read_error hr))

omit hP in
theorem safe_readWord (a : Address) (loc : Location) : (readWord a loc).Safe P fun _ => True := by
  refine safe_get_bind fun m _ => ?_
  cases hr : m.memory.readWord a with
  | ok b => exact safe_pure trivial
  | error e => exact safe_fault (Fault.isExcluded_memory (Memory.readWord_error hr))

omit hP in
/-- An array or a scalar can be loaded. -/
theorem safe_loadPlace {p : Place} {loc : Location} (h : p.isArray = true ∨ p.ty.isScalar = true) :
    (loadPlace p loc).Safe P fun _ => True := by
  unfold loadPlace
  refine safe_ite (fun _ => safe_pure trivial) fun ha => safe_guard (fun hs => ?_) fun _ => ?_
  · exact absurd (h.resolve_left ha) hs
  · refine safe_ite (fun _ => ?_) fun _ => ?_
    · exact (safe_readByte ..).bind fun _ _ => safe_pure trivial
    · exact (safe_readWord ..).bind fun _ _ => safe_pure trivial

omit hP in
theorem safe_displaced (base : Address) (offset : Nat) {e : MemoryError} (he : e ≠ .zeroSize)
    (loc : Location) : (displaced base offset e loc).Safe P fun _ => True :=
  safe_ite (fun _ => safe_pure trivial) fun _ => safe_fault (Fault.isExcluded_memory he)

omit hP in
theorem safe_readBytes (base : Address) (loc : Location) (size : Nat) :
    (readBytes base loc size).Safe P fun _ => True := by
  have go : ∀ n i, (readBytes.go base loc i n).Safe P fun _ => True := by
    intro n
    induction n with
    | zero => exact fun i => safe_pure trivial
    | succ n ih =>
      exact fun i => (safe_displaced _ _ (e := .unmapped base 1) nofun _).bind fun _ _ =>
        (safe_readByte ..).bind fun _ _ =>
        (ih (i + 1)).bind fun _ _ => safe_pure trivial
  exact go size 0

theorem safe_writeBytes (base : Address) {e : MemoryError} (he : e ≠ .zeroSize) (loc : Location)
    (bytes : List UInt8) : (writeBytes base e loc bytes).Safe P fun _ => True := by
  have go : ∀ bs i, (writeBytes.go base e loc i bs).Safe P fun _ => True := by
    intro bs
    induction bs with
    | nil => exact fun i => safe_pure trivial
    | cons b bs ih =>
      exact fun i => (safe_displaced _ _ he _).bind fun _ _ => (safe_writeByte hP ..).bind fun _ _ =>
        ih (i + 1)
  exact go bytes 0

end

end Run

end MiniC
