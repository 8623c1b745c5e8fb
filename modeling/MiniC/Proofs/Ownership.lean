/-
  Who owns which region.

  Every live region belongs to one owner: a binding of a global or of a frame, a string literal or
  the heap.  `State.Owned` says so of a state.  `Machine.Kept` says what a part of a run does not
  touch: the bindings, the string literals and the names of the active calls stay as they are, no
  `return` is left under way, and no call is made while one is.  On a lawful machine the regions of the
  bindings and of the literals stay as well, and each heap block that comes or goes is noted
  (`Machine.Persists`).
-/
import Mathlib.Data.List.Nodup
import MiniC.Proofs.Outcome
import MiniC.Proofs.Regions

namespace MiniC

namespace State
variable {s s' : State}

/-- The bindings of the globals and of all frames. -/
def bindings (s : State) : List Binding := s.frames.globals ++ s.frames.calls.flatMap Frame.latest

/-- The addresses of the bindings and of the string literals. -/
def held (s : State) : List Address := s.bindings.map Binding.address ++ s.strings.toList

/-- The bindings, the string literals and the heap share the live regions out among themselves, and
each binding is as large as its region. -/
structure Owned (s : State) : Prop where
  apart : s.memory.Apart
  shared : (s.held ++ s.heap).Perm s.memory.starts
  sized : ∀ b ∈ s.bindings, (b.address, b.size) ∈ s.memory.slots

/-- No `return` is under way and control goes on. -/
def Quiet (s : State) : Prop := s.pending = none ∧ s.flow = .normal

/-- A value is left only by a `return`. -/
def Settled (s : State) : Prop := s.flow ≠ .returns → s.pending = none

/-- There is a heap block of `n` bytes at `a`. -/
def Block (s : State) (a : Address) (n : Nat) : Prop := a ∈ s.heap ∧ (a, n) ∈ s.memory.slots

/-- What a call leaves as it was: all but the heap, and this changes only as `meanwhile` says. -/
structure Neutral (s s' : State) (meanwhile : HeapChange → Prop) : Prop where
  frames : s'.frames = s.frames
  strings : s'.strings = s.strings
  callStack : s'.callStack = s.callStack
  quiet : s'.Quiet
  outside : ∀ a n, (a ∉ s'.heap ∧ (a, n) ∈ s'.memory.slots) ↔ a ∉ s.heap ∧ (a, n) ∈ s.memory.slots
  came : ∀ a n, s'.Block a n → s.Block a n ∨ meanwhile (.granted a n)
  went : ∀ a n, s.Block a n → s'.Block a n ∨ meanwhile (.freed a)

theorem Quiet.settled (h : s.Quiet) : s.Settled := fun _ => h.1

theorem held_congr (hf : s'.frames = s.frames) (hs : s'.strings = s.strings) : s'.held = s.held := by
  rw [held, held, bindings, bindings, hf, hs]

theorem mem_starts {m : Memory} {a : Address} : a ∈ m.starts ↔ ∃ n, (a, n) ∈ m.slots := by
  rw [← Memory.map_fst_slots]
  simp

/-- A region has one size. -/
theorem Owned.size_unique (h : s.Owned) {a : Address} {n k : Nat} (hn : (a, n) ∈ s.memory.slots)
    (hk : (a, k) ∈ s.memory.slots) : n = k := by
  have hd := h.apart.nodup_starts
  rw [← Memory.map_fst_slots] at hd
  exact congrArg Prod.snd (List.inj_on_of_nodup_map hd hn hk rfl)

/-- What is held has the regions that are not on the heap. -/
theorem Owned.mem_held (h : s.Owned) {a : Address} :
    a ∈ s.held ↔ a ∉ s.heap ∧ a ∈ s.memory.starts := by
  have hd : (s.held ++ s.heap).Nodup := h.shared.nodup_iff.2 h.apart.nodup_starts
  rw [← h.shared.mem_iff, List.mem_append]
  refine ⟨fun ha => ⟨fun hheap => ?_, .inl ha⟩, fun ⟨hheap, ha⟩ => ha.resolve_right hheap⟩
  exact (List.nodup_append.1 hd).2.2 a ha a hheap rfl

/-- A change that touches neither the owners nor the slots. -/
theorem Owned.of_slots (h : s.Owned) (hm : s'.memory.Apart) (hl : s'.memory.slots = s.memory.slots)
    (hf : s'.frames = s.frames) (hs : s'.strings = s.strings) (hh : s'.heap = s.heap) : s'.Owned where
  apart := hm
  shared := by
    rw [held_congr hf hs, hh, ← Memory.map_fst_slots, hl, Memory.map_fst_slots]
    exact h.shared
  sized := by
    rw [bindings, hf, hl]
    exact h.sized

/-- Where the same is held and its regions stay, the regions outside of the heap are the same. -/
theorem Owned.outside_iff (h : s.Owned) (h' : s'.Owned) (hh : s'.held = s.held)
    (hp : ∀ a ∈ s.held, ∀ n, (a, n) ∈ s.memory.slots → (a, n) ∈ s'.memory.slots) (a : Address) (n : Nat) :
    (a ∉ s'.heap ∧ (a, n) ∈ s'.memory.slots) ↔ a ∉ s.heap ∧ (a, n) ∈ s.memory.slots := by
  constructor
  · rintro ⟨ha, hn⟩
    have hheld : a ∈ s.held := hh ▸ h'.mem_held.2 ⟨ha, mem_starts.2 ⟨n, hn⟩⟩
    obtain ⟨hheap, hstart⟩ := h.mem_held.1 hheld
    obtain ⟨k, hk⟩ := mem_starts.1 hstart
    rw [h'.size_unique hn (hp a hheld k hk)]
    exact ⟨hheap, hk⟩
  · rintro ⟨ha, hn⟩
    have hheld : a ∈ s.held := h.mem_held.2 ⟨ha, mem_starts.2 ⟨n, hn⟩⟩
    exact ⟨(h'.mem_held.1 (hh ▸ hheld)).1, hp a hheld n hn⟩

end State

/-- What is promised of a moment. -/
def Moment.Good : Moment → Prop
  | told _ s => s.Owned
  | refused _ => False
  | changed _ => True
  | called _ before after meanwhile => before.Neutral after meanwhile

namespace Machine
variable {m m' m'' : Machine} {Q : State → Prop}

/-- A machine whose regions are owned and all of whose moments are good. -/
structure Lawful (m : Machine) : Prop where
  owned : m.Owned
  good : ∀ x, m.seen x → x.Good

/-- What is neither owned nor a region nor a moment may change. -/
theorem Lawful.congr (h : m.Lawful) (hm : m'.memory = m.memory) (hf : m'.frames = m.frames)
    (hs : m'.strings = m.strings) (hh : m'.heap = m.heap) (hn : m'.seen = m.seen) : m'.Lawful where
  owned := h.owned.of_slots (hm ▸ h.owned.apart) (by rw [hm]) hf hs hh
  good x hx := h.good x (hn ▸ hx)

/-- All calls that have been seen were made while control went on as usual. -/
def Orderly (m : Machine) : Prop :=
  ∀ f before after meanwhile, m.seen (.called f before after meanwhile) → before.Quiet

theorem Orderly.note (h : m.Orderly) {x : Moment}
    (hx : ∀ f before after meanwhile, x ≠ .called f before after meanwhile) : (m.note x).Orderly := by
  rintro f before after meanwhile (he | hs)
  · exact absurd he.symm (hx f before after meanwhile)
  · exact h f before after meanwhile hs

theorem Orderly.tell (h : m.Orderly) (e : Event) : (m.tell e).Orderly :=
  h.note (x := .told e m.toState) fun _ _ _ _ he => by cases he

/-- The regions of the bindings and of the string literals of `m` are still there, all moments of `m`
have been seen, and so has what became of each heap block. -/
structure Persists (m m' : Machine) : Prop where
  held : ∀ a ∈ m.held, ∀ n, (a, n) ∈ m.memory.slots → (a, n) ∈ m'.memory.slots
  seen : ∀ x, m.seen x → m'.seen x
  came : ∀ a n, m'.Block a n → m.Block a n ∨ m'.seen (.changed (.granted a n))
  went : ∀ a n, m.Block a n → m'.Block a n ∨ m'.seen (.changed (.freed a))

namespace Persists

/-- A change of neither the regions nor the heap. -/
theorem of_slots (hl : m'.memory.slots = m.memory.slots) (hh : m'.heap = m.heap)
    (hs : ∀ x, m.seen x → m'.seen x) : m.Persists m' where
  held _ _ _ hn := hl ▸ hn
  seen := hs
  came _ _ := fun ⟨ha, hn⟩ => .inl ⟨hh ▸ ha, hl ▸ hn⟩
  went _ _ := fun ⟨ha, hn⟩ => .inl ⟨hh ▸ ha, hl ▸ hn⟩

theorem refl (m : Machine) : m.Persists m := .of_slots rfl rfl fun _ => id

theorem trans (h : m.Persists m') (h' : m'.Persists m'') (hh : m.held ⊆ m'.held) :
    m.Persists m'' where
  held a ha n hn := h'.held a (hh ha) n (h.held a ha n hn)
  seen x hx := h'.seen x (h.seen x hx)
  came a n hb := by
    rcases h'.came a n hb with hb | hx
    · exact (h.came a n hb).imp_right (h'.seen _)
    · exact .inr hx
  went a n hb := by
    rcases h.went a n hb with hb | hx
    · exact h'.went a n hb
    · exact .inr (h'.seen _ hx)

/-- What is neither a region nor on the heap nor a moment may change afterwards. -/
theorem congr (h : m.Persists m') (hm : m''.memory = m'.memory) (hh : m''.heap = m'.heap)
    (hn : m''.seen = m'.seen) : m.Persists m'' where
  held a ha n hs := hm ▸ h.held a ha n hs
  seen x hx := hn ▸ h.seen x hx
  came a n hb := hn ▸ h.came a n ⟨hh ▸ hb.1, hm ▸ hb.2⟩
  went a n hb := (h.went a n hb).imp (fun hb => ⟨hh ▸ hb.1, hm ▸ hb.2⟩) fun hx => hn ▸ hx

end Persists

/-- What a part of a run that began quiet does not touch; `Q` says how it ends. -/
structure Kept (Q : State → Prop) (m m' : Machine) : Prop where
  frames : m'.frames = m.frames
  strings : m'.strings = m.strings
  callStack : m'.callStack = m.callStack
  quiet : m.Quiet → Q m'.toState
  orderly : m.Quiet → m.Orderly → m'.Orderly
  persists : m.Lawful → m.Quiet → m'.Lawful ∧ m.Persists m'

namespace Kept

theorem lawful (h : Kept Q m m') (hl : m.Lawful) (hq : m.Quiet) :
    m'.Lawful ∧ Q m'.toState ∧ m.Persists m' := by
  obtain ⟨h1, h2⟩ := h.persists hl hq
  exact ⟨h1, h.quiet hq, h2⟩

theorem refl (m : Machine) : Kept State.Quiet m m :=
  ⟨rfl, rfl, rfl, id, fun _ => id, fun h _ => ⟨h, .refl _⟩⟩

theorem mono {Q' : State → Prop} (h : Kept Q m m') (hQ : ∀ s, Q s → Q' s) : Kept Q' m m' where
  frames := h.frames
  strings := h.strings
  callStack := h.callStack
  quiet hq := hQ _ (h.quiet hq)
  orderly := h.orderly
  persists := h.persists

theorem held (h : Kept Q m m') : m'.held = m.held := State.held_congr h.frames h.strings

/-- What follows a part that has ended quiet; `quiet` may use how the first part has ended. -/
theorem then_ {P : State → Prop} (h : Kept P m m') (h' : Kept Q m' m'')
    (quiet : P m'.toState → m'.Quiet) : Kept Q m m'' where
  frames := h'.frames.trans h.frames
  strings := h'.strings.trans h.strings
  callStack := h'.callStack.trans h.callStack
  quiet hq := h'.quiet (quiet (h.quiet hq))
  orderly hq ho := h'.orderly (quiet (h.quiet hq)) (h.orderly hq ho)
  persists hl hq := by
    obtain ⟨h1, h2⟩ := h.persists hl hq
    obtain ⟨k1, k2⟩ := h'.persists h1 (quiet (h.quiet hq))
    exact ⟨k1, h2.trans k2 (by rw [h.held]; exact List.Subset.refl _)⟩

theorem trans (h : Kept State.Quiet m m') (h' : Kept Q m' m'') : Kept Q m m'' := h.then_ h' id

end Kept

theorem Lawful.note (h : m.Lawful) {x : Moment} (hx : x.Good) : (m.note x).Lawful where
  owned := h.owned
  good y hy := by
    rcases hy with rfl | hy
    · exact hx
    · exact h.good y hy

theorem Lawful.tell (h : m.Lawful) (e : Event) : (m.tell e).Lawful :=
  have hn : (m.note (.told e m.toState)).Lawful := h.note h.owned
  hn.congr rfl rfl rfl rfl rfl

theorem kept_tell (m : Machine) (e : Event) : Kept State.Quiet m (m.tell e) :=
  ⟨rfl, rfl, rfl, id, fun _ ho => ho.tell e, fun h _ => ⟨h.tell e, .of_slots rfl rfl fun _ => .inr⟩⟩

/-- A change of memory that keeps its slots. -/
theorem kept_memory {memory : Memory} (hl : memory.slots = m.memory.slots)
    (hm : m.memory.Apart → memory.Apart) : Kept State.Quiet m { m with memory } where
  frames := rfl
  strings := rfl
  callStack := rfl
  quiet hq := hq
  orderly _ ho := ho
  persists h _ := by
    have ho : State.Owned { m.toState with memory } :=
      h.owned.of_slots (hm h.owned.apart) hl rfl rfl rfl
    exact ⟨⟨ho, h.good⟩, .of_slots hl rfl fun _ => id⟩

end Machine

/-! ## Parts of runs that keep what is held -/

namespace Run
variable {α β : Type} {Q : State → Prop}
open Machine

/-- However `x` ends it keeps what is held; where it ends well, `Q` holds. -/
structure Calm (Q : State → Prop) (x : Run α) : Prop where
  ok : ∀ {m a m'}, x m = .ok a m' → Kept Q m m'
  error : ∀ {m e m'}, x m = .error e m' → Kept State.Quiet m m'

theorem calm_of_kept {x : Run α} (h : ∀ m, ∃ r m', x m = conclude r m' ∧ Kept State.Quiet m m') :
    x.Calm State.Quiet where
  ok {m a m'} hx := by
    obtain ⟨r, n, hn, kept⟩ := h m
    obtain ⟨-, rfl⟩ := conclude_eq_ok.1 (hn.symm.trans hx)
    exact kept
  error {m e m'} hx := by
    obtain ⟨r, n, hn, kept⟩ := h m
    obtain ⟨-, rfl⟩ := conclude_eq_error.1 (hn.symm.trans hx)
    exact kept

theorem Calm.mono {Q' : State → Prop} {x : Run α} (h : x.Calm Q) (hQ : ∀ s, Q s → Q' s) :
    x.Calm Q' :=
  ⟨fun hx => (h.ok hx).mono hQ, h.error⟩

theorem Calm.settled {x : Run α} (h : x.Calm State.Quiet) : x.Calm State.Settled :=
  h.mono fun _ => State.Quiet.settled

theorem calm_pure (a : α) : (pure a : Run α).Calm State.Quiet where
  ok h := (pure_eq_ok.1 h).2 ▸ .refl _
  error h := absurd h pure_ne_error

theorem calm_throw (e : Stop) : (throw e : Run α).Calm Q where
  ok h := absurd h throw_ne_ok
  error h := (throw_eq_error.1 h).2 ▸ .refl _

theorem calm_fault (f : Fault) : (fault f : Run α).Calm Q := calm_throw _

theorem calm_require (x : Option α) (f : Fault) : (require x f).Calm State.Quiet := by
  cases x with
  | none => exact calm_fault f
  | some a => exact calm_pure a

theorem Calm.bind {x : Run α} {f : α → Run β} (hx : x.Calm State.Quiet) (hf : ∀ a, (f a).Calm Q) :
    (x >>= f).Calm Q where
  ok h := by
    obtain ⟨a, n, h1, h2⟩ := bind_eq_ok.1 h
    exact (hx.ok h1).trans ((hf a).ok h2)
  error h := by
    rcases bind_eq_error.1 h with h1 | ⟨a, n, h1, h2⟩
    · exact hx.error h1
    · exact (hx.ok h1).trans ((hf a).error h2)

theorem calm_ite {p : Prop} [Decidable p] {x y : Run α} (hx : x.Calm Q) (hy : y.Calm Q) :
    (if p then x else y).Calm Q := by
  by_cases h : p <;> simp only [h, if_true, if_false] <;> assumption

/-- A check in front of `x`. -/
theorem calm_guard {p : Prop} [Decidable p] {f : Fault} {x : PUnit → Run α}
    (hx : ∀ u, (x u).Calm Q) : (if p then fault f >>= x else x ()).Calm Q :=
  calm_ite ((calm_fault f).bind hx) (hx ())

theorem calm_get_bind {f : Machine → Run β} (hf : ∀ m, (f m).Calm Q) : (get >>= f).Calm Q where
  ok {m _ _} h := (hf m).ok h
  error {m _ _} h := (hf m).error h

theorem calm_discard {x : Run α} (hx : x.Calm Q) : (discard x).Calm Q where
  ok h := by
    obtain ⟨a, h⟩ := discard_eq_ok.1 h
    exact hx.ok h
  error h := hx.error (discard_eq_error.1 h)

theorem calm_modify {f : Machine → Machine} (h : ∀ m, Kept Q m (f m)) :
    (modify f : Run PUnit).Calm Q where
  ok {m _ _} hx := modify_eq_ok.1 hx ▸ h m
  error hx := absurd hx modify_ne_error

/-! ## Telling, reading and writing -/

theorem calm_emit (e : Event) : (emit e).Calm State.Quiet := calm_modify fun m => kept_tell m e

theorem calm_checkpoint (loc : Location) : (checkpoint loc).Calm State.Quiet := by
  have asked : ∀ m : Machine, ∀ control, Kept State.Quiet m { m with control } := fun m _ =>
    ⟨rfl, rfl, rfl, id, fun _ ho => ho, fun h _ =>
      ⟨h.congr rfl rfl rfl rfl rfl, .of_slots rfl rfl fun _ => id⟩⟩
  refine (calm_emit _).bind fun _ => ⟨fun {m a m'} h => ?_, fun {m e m'} h => ?_⟩ <;>
    simp only [bind_eq_ok, bind_eq_error, get_eq_ok, set_eq_ok, get_ne_error, set_ne_error,
      false_or] at h <;>
    obtain ⟨_, _, ⟨rfl, rfl⟩, _, _, rfl, h⟩ := h <;>
    cases hv : m.control.checkpoint.1 <;> simp [hv] at h
  · exact h ▸ asked m _
  · exact h.2 ▸ asked m _

theorem kept_notices {m : Machine} (notices : List (Address × Word)) :
    Kept State.Quiet m (notices.foldl (fun m (a, w) => m.tell (.wrote a w)) m) := by
  induction notices generalizing m with
  | nil => exact .refl m
  | cons n ns ih => exact (kept_tell m _).trans ih

/-- A write keeps all slots. -/
theorem kept_written {m : Machine} {memory : Memory} {a : Address} {bs : List UInt8}
    (h : m.memory.writeBytes a bs = .ok memory) (notices : List (Address × Word)) :
    Kept State.Quiet m (notices.foldl (fun m (a, w) => m.tell (.wrote a w)) { m with memory }) :=
  have hw := Memory.writeBytes_slots h
  (kept_memory hw.1 hw.2.1).trans (kept_notices _)

theorem calm_writeByte (a : Address) (b : UInt8) (loc : Location) :
    (writeByte a b loc).Calm State.Quiet := by
  refine ⟨fun {m _ m'} h => ?_, fun {m e m'} h => ?_⟩ <;>
    simp only [writeByte, bind_eq_ok, bind_eq_error, get_eq_ok, get_ne_error, false_or] at h <;>
    obtain ⟨_, _, ⟨rfl, rfl⟩, h⟩ := h <;> cases hw : m.memory.write a b <;> simp [hw, written] at h
  · exact h ▸ kept_written hw _
  · exact h.2 ▸ .refl m

theorem calm_writeWord (a : Address) (w : Word) (loc : Location) :
    (writeWord a w loc).Calm State.Quiet := by
  refine ⟨fun {m _ m'} h => ?_, fun {m e m'} h => ?_⟩ <;>
    simp only [writeWord, bind_eq_ok, bind_eq_error, get_eq_ok, get_ne_error, false_or] at h <;>
    obtain ⟨_, _, ⟨rfl, rfl⟩, h⟩ := h <;> cases hw : m.memory.writeWord a w <;>
    simp [hw, written] at h
  · exact h ▸ kept_written hw _
  · exact h.2 ▸ .refl m

theorem calm_store (p : Place) (v : Value) (loc : Location) : (store p v loc).Calm State.Quiet := by
  unfold store
  split
  · exact calm_writeByte ..
  · exact calm_writeWord ..

theorem calm_readByte (a : Address) (loc : Location) : (readByte a loc).Calm State.Quiet := by
  refine calm_get_bind fun m => ?_
  cases m.memory.read a with
  | ok b => exact calm_pure b
  | error e => exact calm_fault _

theorem calm_readWord (a : Address) (loc : Location) : (readWord a loc).Calm State.Quiet := by
  refine calm_get_bind fun m => ?_
  cases m.memory.readWord a with
  | ok w => exact calm_pure w
  | error e => exact calm_fault _

theorem calm_loadPlace (p : Place) (loc : Location) : (loadPlace p loc).Calm State.Quiet := by
  unfold loadPlace
  refine calm_ite (calm_pure _) (calm_guard fun _ => calm_ite ?_ ?_)
  · exact (calm_readByte ..).bind fun _ => calm_pure _
  · exact (calm_readWord ..).bind fun _ => calm_pure _

theorem calm_load (r : Resolved) (loc : Location) : (load r loc).Calm State.Quiet := by
  cases r with
  | value v => exact calm_pure v
  | place p => exact calm_loadPlace p loc

theorem calm_displaced (base : Address) (offset : Nat) (e : MemoryError) (loc : Location) :
    (displaced base offset e loc).Calm State.Quiet := by
  unfold displaced
  split
  · exact calm_pure _
  · exact calm_fault _

theorem calm_offsetAddress (base : Value) (index : Word) (scale : Nat) (subtract : Bool)
    (loc : Location) : (offsetAddress base index scale subtract loc).Calm State.Quiet :=
  calm_require ..

theorem calm_readBytes (base : Address) (loc : Location) (size : Nat) :
    (readBytes base loc size).Calm State.Quiet := by
  have go : ∀ n i, (readBytes.go base loc i n).Calm State.Quiet := by
    intro n
    induction n with
    | zero => exact fun i => calm_pure _
    | succ n ih =>
      exact fun i => (calm_displaced ..).bind fun _ => (calm_readByte ..).bind fun _ =>
        (ih (i + 1)).bind fun _ => calm_pure _
  exact go size 0

theorem calm_writeBytes (base : Address) (e : MemoryError) (loc : Location) (bytes : List UInt8) :
    (writeBytes base e loc bytes).Calm State.Quiet := by
  have go : ∀ bs i, (writeBytes.go base e loc i bs).Calm State.Quiet := by
    intro bs
    induction bs with
    | nil => exact fun i => calm_pure _
    | cons b bs ih =>
      exact fun i => (calm_displaced ..).bind fun _ => (calm_writeByte ..).bind fun _ => ih (i + 1)
  exact go bytes 0

end Run

end MiniC
