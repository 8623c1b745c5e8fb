/-
  Structures are copied byte by byte.

  An assignment of a structure reads all bytes of its source before it writes the first one, so it
  copies them exactly however the two overlap.  Each byte is looked up for itself, in whichever region
  holds it: nothing is asked of the regions but that they follow each other, which they do on every
  machine, whatever the size of its memory (`Session.Running.spans`).

  * `Memory.byteAt?`: the byte at a number, if this is an address and a region holds it;
  * `Memory.Ordered.byteAt?_write`: to write a byte changes the byte at one number;
  * `Run.readBytes_eq_ok`: bytes are read if all of them are there, and nothing changes;
  * `Run.writeBytes_receives`: bytes that are written are where they have been written to, nothing
    else changes, and each of them is heard of in order;
  * `Session.struct_copied`: what an assignment of a structure does.
-/
import MiniC.Proofs.Cells

namespace MiniC

/-! ## Bytes of ordered regions -/

namespace Memory
variable {m m' : Memory} {a : Address} {b : UInt8}

/-- The byte at a number, if it is an address and a region holds the byte there. -/
def byteAt? (m : Memory) (x : Nat) : Option UInt8 :=
  if x < 4294967296 then m.byte? (UInt32.ofNat x) else none

theorem byteAt?_eq_some {x : Nat} :
    m.byteAt? x = some b ↔ x < 4294967296 ∧ m.byte? (UInt32.ofNat x) = some b := by
  unfold byteAt?
  split <;> simp [*]

/-- A write of one byte goes to the region and the offset at which the byte is looked up. -/
theorem write_eq_ok : m.write a b = .ok m' ↔ ∃ r i, m.locate a 1 = some (r, i) ∧
    m' = { m with regions := modifyRegion r.start (·.setByte i b) m.regions } := by
  rw [write, writeBytes, List.length_singleton]
  cases hl : m.locate a 1 with
  | none => simp
  | some found =>
    obtain ⟨r, i⟩ := found
    simp only [Except.ok.injEq, Option.some.injEq, Prod.mk.injEq]
    constructor
    · rintro rfl
      exact ⟨r, i, ⟨rfl, rfl⟩, rfl⟩
    · rintro ⟨_, _, ⟨rfl, rfl⟩, rfl⟩
      rfl

/-- A byte can be written where there is one. -/
theorem write_of_byte? {b' : UInt8} (h : m.byte? a = some b') (b : UInt8) :
    ∃ m', m.write a b = .ok m' := by
  obtain ⟨⟨r, i⟩, hl, -⟩ := Option.map_eq_some_iff.1 h
  exact ⟨_, write_eq_ok.2 ⟨r, i, hl, rfl⟩⟩

/-- **To write a byte is to change the byte at one address.** -/
theorem Ordered.byte?_write (h : m.Ordered) (hw : m.write a b = .ok m') (x : Address) :
    m'.byte? x = if x = a then some b else m.byte? x := by
  obtain ⟨r, i, hl, rfl⟩ := write_eq_ok.1 hw
  rw [byte?, h.locate_modify (f := (·.setByte i b)) fun _ => ⟨rfl, rfl⟩, Option.map_map]
  by_cases he : x = a
  · subst he
    simp [hl, Region.byte_setByte]
  rw [if_neg he, byte?]
  cases hx : m.locate x 1 with
  | none => rfl
  | some found =>
    obtain ⟨s, j⟩ := found
    simp only [Option.map_some, Function.comp_apply]
    by_cases hs : s.start = r.start
    · -- Another address in the same region has another offset.
      have apart : ¬ i = j := by
        obtain ⟨foundA, offsetA, -⟩ := locate_eq_some.1 hl
        obtain ⟨foundX, offsetX, -⟩ := locate_eq_some.1 hx
        have belowA := start_le_of_lastBelow foundA
        have belowX := start_le_of_lastBelow foundX
        rw [hs] at belowX offsetX
        exact fun same => he (UInt32.toNat_inj.1 (by omega))
      rw [if_pos hs, Region.byte_setByte, if_neg apart]
    · rw [if_neg hs]

theorem Ordered.byteAt?_write (h : m.Ordered) (hw : m.write a b = .ok m') (x : Nat) :
    m'.byteAt? x = if x = a.toNat then some b else m.byteAt? x := by
  unfold byteAt?
  by_cases hx : x < 4294967296
  · rw [if_pos hx, if_pos hx, h.byte?_write hw]
    have same : UInt32.ofNat x = a ↔ x = a.toNat := by
      rw [← UInt32.toNat_inj, UInt32.toNat_ofNat_of_lt' hx]
    simp only [same]
  · have := a.toNat_lt
    rw [if_neg hx, if_neg hx, if_neg (by omega)]

end Memory

/-! ## Reading and writing in a run -/

/-- From the number `x` on, the machine `m'` has the bytes `bs` and else all that `m` has, and each of
them has been heard of, from the lowest to the highest. -/
structure Machine.Receives (m : Machine) (x : Nat) (bs : List UInt8) (m' : Machine) : Prop where
  fits : x + bs.length ≤ 4294967296
  bytes : ∀ y, m'.memory.byteAt? y =
    if x ≤ y ∧ y < x + bs.length then bs[y - x]? else m.memory.byteAt? y
  slots : m.memory.SameSlots m'.memory
  frames : m'.frames = m.frames
  strings : m'.strings = m.strings
  heap : m'.heap = m.heap
  heard : m'.events = m.events ++ if m.memory.watched then
    bs.mapIdx fun i b => .wrote (UInt32.ofNat (x + i)) (Word.ofByte b) else []

namespace Run
variable {m m' : Machine} {base : Address} {loc : Location}

theorem displaced_eq_ok {offset : Nat} {e : MemoryError} {a : Address} :
    displaced base offset e loc m = .ok a m' ↔
      base.toNat + offset < 4294967296 ∧ UInt32.ofNat (base.toNat + offset) = a ∧ m = m' := by
  have same : base + UInt32.ofNat offset = UInt32.ofNat (base.toNat + offset) := by
    rw [UInt32.ofNat_add, UInt32.ofNat_toNat]
  rw [← same]
  unfold displaced
  split
  · rename_i hlt
    simp only [pure_eq_ok, hlt, true_and]
  · rename_i hge
    simp only [fault_ne_ok, hge, false_and]

theorem displaced_error {offset : Nat} {e : MemoryError} {stop : Stop}
    (h : displaced base offset e loc m = .error stop m') : m = m' := by
  unfold displaced at h
  split at h
  · cases h
  · exact (fault_eq_error.1 h).2

theorem readByte_eq_ok {a : Address} {b : UInt8} :
    readByte a loc m = .ok b m' ↔ m.memory.byte? a = some b ∧ m = m' := by
  rw [readByte_run, Memory.read]
  cases m.memory.byte? a <;> simp

theorem readByte_error {a : Address} {e : Stop} (h : readByte a loc m = .error e m') : m = m' := by
  rw [readByte_run] at h
  split at h
  · cases h
  · cases h
    rfl

/-- Where bytes are read one after the other, all of them are there. -/
theorem readBytes_go_eq_ok {i n : Nat} {bs : List UInt8} :
    readBytes.go base loc i n m = .ok bs m' ↔ bs.length = n ∧
      (∀ j < n, m.memory.byteAt? (base.toNat + i + j) = bs[j]?) ∧ m = m' := by
  induction n generalizing i bs m m' with
  | zero =>
    simp only [readBytes.go, pure_eq_ok, Nat.not_lt_zero, false_imp_iff, implies_true, true_and,
      List.length_eq_zero_iff, eq_comm (a := [])]
  | succ n ih =>
    simp only [readBytes.go, bind_eq_ok, displaced_eq_ok, readByte_eq_ok, ih, pure_eq_ok]
    constructor
    · rintro ⟨_, _, ⟨hlt, rfl, rfl⟩, b, _, ⟨hb, rfl⟩, rest, _, ⟨rfl, hrest, rfl⟩, rfl, rfl⟩
      refine ⟨rfl, fun j hj => ?_, rfl⟩
      cases j with
      | zero => exact Memory.byteAt?_eq_some.2 ⟨hlt, hb⟩
      | succ j =>
        rw [List.getElem?_cons_succ, ← hrest j (Nat.lt_of_succ_lt_succ hj)]
        exact congrArg _ (by omega)
    · rintro ⟨hlen, hbs, rfl⟩
      obtain ⟨b, rest, rfl⟩ := List.exists_cons_of_length_eq_add_one hlen
      obtain ⟨hlt, first⟩ := Memory.byteAt?_eq_some.1 (hbs 0 (Nat.succ_pos n))
      refine ⟨_, m, ⟨hlt, rfl, rfl⟩, b, m, ⟨first, rfl⟩, rest, m,
        ⟨Nat.succ.inj hlen, fun j hj => ?_, rfl⟩, rfl, rfl⟩
      have later := hbs (j + 1) (Nat.succ_lt_succ hj)
      rw [List.getElem?_cons_succ] at later
      rw [← later]
      exact congrArg _ (by omega)

theorem readBytes_go_error {i n : Nat} {e : Stop}
    (h : readBytes.go base loc i n m = .error e m') : m = m' := by
  induction n generalizing i with
  | zero => cases h
  | succ n ih =>
    simp only [readBytes.go, bind_eq_error, displaced_eq_ok, readByte_eq_ok, pure_ne_error, and_false,
      exists_false, or_false] at h
    rcases h with h | ⟨_, _, ⟨-, -, rfl⟩, h | ⟨_, _, ⟨-, rfl⟩, h⟩⟩
    · exact displaced_error h
    · exact readByte_error h
    · exact ih h

/-- **Bytes are read if all of them are there**, and the machine stays as it is. -/
theorem readBytes_eq_ok {n : Nat} {bs : List UInt8} : readBytes base loc n m = .ok bs m' ↔
    bs.length = n ∧ (∀ i < n, m.memory.byteAt? (base.toNat + i) = bs[i]?) ∧ m = m' :=
  readBytes_go_eq_ok

theorem readBytes_of_isSome (loc : Location) {n : Nat}
    (h : ∀ i < n, (m.memory.byteAt? (base.toNat + i)).isSome = true) :
    ∃ bs, readBytes base loc n m = .ok bs m := by
  let bs := (List.range n).map fun i => (m.memory.byteAt? (base.toNat + i)).getD 0
  refine ⟨bs, readBytes_eq_ok.2 ⟨by simp [bs], fun i hi => ?_, rfl⟩⟩
  obtain ⟨b, hb⟩ := Option.isSome_iff_exists.1 (h i hi)
  simp [bs, hi, hb]

theorem readBytes_error {n : Nat} {e : Stop} (h : readBytes base loc n m = .error e m') : m = m' :=
  readBytes_go_error h

/-- A byte that is written is the only thing that changes, and it is heard of. -/
theorem writeByte_receives {x : Nat} {b : UInt8} (hx : x < 4294967296) (hm : m.memory.Apart)
    (h : writeByte (UInt32.ofNat x) b loc m = .ok () m') :
    m.Receives x [b] m' ∧ m'.memory.Apart := by
  rw [writeByte_run] at h
  cases hw : m.memory.write (UInt32.ofNat x) b with
  | error e => simp [hw] at h
  | ok memory =>
    simp only [hw, EStateM.Result.ok.injEq, true_and] at h
    subst h
    have at_ : (UInt32.ofNat x).toNat = x := UInt32.toNat_ofNat_of_lt' hx
    have evolves := Memory.Evolves.of_writeBytes hw
    have same : (m.wrote memory (UInt32.ofNat x) (Word.ofByte b)).frames = m.frames ∧
        (m.wrote memory (UInt32.ofNat x) (Word.ofByte b)).strings = m.strings ∧
        (m.wrote memory (UInt32.ofNat x) (Word.ofByte b)).heap = m.heap := by
      rw [Machine.wrote]
      split <;> exact ⟨rfl, rfl, rfl⟩
    refine ⟨⟨hx, fun y => ?_, ?_, same.1, same.2.1, same.2.2, ?_⟩, ?_⟩
    · rw [Machine.wrote_memory, hm.ordered.byteAt?_write hw, at_, List.length_singleton]
      by_cases hy : y = x
      · rw [if_pos hy, if_pos (by omega), hy, Nat.sub_self]
        rfl
      · rw [if_neg hy, if_neg (by omega)]
    · rw [Machine.wrote_memory]
      exact Memory.writeBytes_sameSlots hw
    · rw [Machine.wrote_events, evolves.watched]
      rfl
    · rw [Machine.wrote_memory]
      exact evolves.apart hm

end Run

namespace Machine

/-- Bytes received one after the other. -/
theorem Receives.cons {m n m' : Machine} {x : Nat} {b : UInt8} {bs : List UInt8}
    (h : m.Receives x [b] n) (h' : n.Receives (x + 1) bs m') : m.Receives x (b :: bs) m' where
  fits := by
    have := h'.fits
    rw [List.length_cons]
    omega
  bytes y := by
    rw [h'.bytes, h.bytes, List.length_singleton, List.length_cons]
    by_cases hy : y = x
    · rw [if_neg (by omega), if_pos (by omega), if_pos (by omega), hy, Nat.sub_self]
      rfl
    · by_cases hin : x + 1 ≤ y ∧ y < x + 1 + bs.length
      · rw [if_pos hin, if_pos (by omega), show y - x = y - (x + 1) + 1 by omega,
          List.getElem?_cons_succ]
      · rw [if_neg hin, if_neg (by omega), if_neg (by omega)]
  slots := ⟨h'.slots.slots.trans h.slots.slots, h'.slots.capacity.trans h.slots.capacity,
    h'.slots.watched.trans h.slots.watched⟩
  frames := h'.frames.trans h.frames
  strings := h'.strings.trans h.strings
  heap := h'.heap.trans h.heap
  heard := by
    have next : ∀ i, x + 1 + i = x + (i + 1) := fun i => by omega
    rw [h'.heard, h.heard, h.slots.watched]
    split
    · simp [List.mapIdx_cons, next]
    · simp

theorem receives_nil (m : Machine) (x : Nat) (hx : x ≤ 4294967296) : m.Receives x [] m where
  fits := hx
  bytes y := by
    rw [if_neg]
    simp only [List.length_nil]
    omega
  slots := ⟨rfl, rfl, rfl⟩
  frames := rfl
  strings := rfl
  heap := rfl
  heard := by simp

end Machine

namespace Run
variable {m m' : Machine} {base : Address} {e : MemoryError} {loc : Location}

theorem writeBytes_go_receives {i : Nat} {bs : List UInt8} (hi : base.toNat + i ≤ 4294967296)
    (hm : m.memory.Apart) (h : writeBytes.go base e loc i bs m = .ok () m') :
    m.Receives (base.toNat + i) bs m' := by
  induction bs generalizing i m with
  | nil =>
    obtain ⟨-, rfl⟩ := pure_eq_ok.1 h
    exact m.receives_nil _ hi
  | cons b bs ih =>
    simp only [writeBytes.go, bind_eq_ok, displaced_eq_ok] at h
    obtain ⟨_, _, ⟨hlt, rfl, rfl⟩, _, n, hw, h⟩ := h
    obtain ⟨first, hn⟩ := writeByte_receives hlt hm hw
    exact first.cons (ih hlt hn h)

/-- **Bytes that are written are where they have been written to**, and nothing else changes. -/
theorem writeBytes_receives {bs : List UInt8} (hm : m.memory.Apart)
    (h : writeBytes base e loc bs m = .ok () m') : m.Receives base.toNat bs m' :=
  writeBytes_go_receives (Nat.le_of_lt base.toNat_lt) hm h

/-- Bytes can be written where all of them are. -/
theorem writeBytes_go_of_isSome {i : Nat} {bs : List UInt8} (hm : m.memory.Apart)
    (h : ∀ j < bs.length, (m.memory.byteAt? (base.toNat + i + j)).isSome = true) :
    ∃ m', writeBytes.go base e loc i bs m = .ok () m' := by
  induction bs generalizing i m with
  | nil => exact ⟨m, rfl⟩
  | cons b bs ih =>
    obtain ⟨_, here⟩ := Option.isSome_iff_exists.1 (h 0 (Nat.succ_pos _))
    obtain ⟨hlt, here⟩ := Memory.byteAt?_eq_some.1 here
    obtain ⟨memory, hw⟩ := Memory.write_of_byte? here b
    have written : writeByte (UInt32.ofNat (base.toNat + i)) b loc m =
        .ok () (m.wrote memory (UInt32.ofNat (base.toNat + i)) (Word.ofByte b)) := by
      rw [writeByte_run]
      simp only [Nat.add_zero] at hw
      rw [hw]
    obtain ⟨first, hn⟩ := writeByte_receives hlt hm written
    obtain ⟨m', hm'⟩ := ih (i := i + 1) hn fun j hj => by
      rw [first.bytes]
      split
      · rename_i hin
        rw [List.length_singleton] at hin
        omega
      · have there := h (j + 1) (Nat.succ_lt_succ hj)
        rwa [show base.toNat + (i + 1) + j = base.toNat + i + (j + 1) by omega]
    exact ⟨m', bind_eq_ok.2 ⟨_, m, displaced_eq_ok.2 ⟨hlt, rfl, rfl⟩,
      bind_eq_ok.2 ⟨(), _, written, hm'⟩⟩⟩

theorem writeBytes_of_isSome (loc : Location) {bs : List UInt8} (hm : m.memory.Apart)
    (h : ∀ i < bs.length, (m.memory.byteAt? (base.toNat + i)).isSome = true) :
    ∃ m', writeBytes base e loc bs m = .ok () m' :=
  writeBytes_go_of_isSome (i := 0) hm h

end Run

/-! ## Assignments of structures -/

open Run

namespace Engine
variable {env : Env} {engine : Engine} {dst src : Expr} {loc : Location} {n : Nat} {m m' : Machine}

theorem assign_struct (hd : dst.ty.structName?.isSome = true)
    (hn : env.program.sizeOf? dst.ty = some n) :
    engine.assign env dst src loc = engine.copyStruct n dst src loc := by
  rw [assign, if_pos hd, hn]
  rfl

/-- A structure whose size is not known is not assigned. -/
theorem sizeOf?_of_assign {r : Resolved} (hd : dst.ty.structName?.isSome = true)
    (h : engine.assign env dst src loc m = .ok r m') : ∃ n, env.program.sizeOf? dst.ty = some n := by
  rw [assign, if_pos hd] at h
  obtain ⟨n, _, hn, -⟩ := bind_eq_ok.1 h
  exact ⟨n, (require_eq_ok.1 hn).1⟩

/-- A structure is copied from where its source is to where its target is, the source first. -/
theorem copyStruct_eq_ok {r : Resolved} : engine.copyStruct n dst src loc m = .ok r m' ↔
    ∃ source m₁ target m₂ bs, engine.place src m = .ok source m₁ ∧
      engine.place dst m₁ = .ok target m₂ ∧ readBytes source.address loc n m₂ = .ok bs m₂ ∧
      writeBytes target.address (.unmapped target.address 1) loc bs m₂ = .ok () m' ∧ r = .place target := by
  simp only [copyStruct, bind_eq_ok, pure_eq_ok]
  constructor
  · rintro ⟨source, m₁, hs, target, m₂, ht, bs, m₃, hr, u, _, hw, rfl, rfl⟩
    obtain ⟨-, -, rfl⟩ := readBytes_eq_ok.1 hr
    exact ⟨source, m₁, target, m₂, bs, hs, ht, hr, hw, rfl⟩
  · rintro ⟨source, m₁, target, m₂, bs, hs, ht, hr, hw, rfl⟩
    exact ⟨source, m₁, hs, target, m₂, ht, bs, m₂, hr, (), m', hw, rfl, rfl⟩

end Engine

namespace Session
variable {config : Config} {u : Session} {k : Option FunctionId} {m : Machine}

/-- **An assignment of a structure copies it exactly.**  Take any session and any state inside of a
running function.  An assignment of a structure that succeeds comes to the place of its target.  It
has found the place of the source and then that of the target, and the target receives the bytes that
the source has at this moment: however the two overlap and whichever regions they are in, the
target has these bytes, no other byte has changed, and each of them has been heard of once and in order.
If a byte of the source is not there, then the assignment fails and has written nothing; if all bytes
of the source and of the target are there, then it succeeds. -/
theorem struct_copied (hu : u.Reachable config) (hm : u.Running k m) {dst src : Expr}
    (hd : dst.ty.structName?.isSome = true) (fuel : Nat) (ty : Ty) (loc : Location) :
    (∀ {r m'}, (engine u.env (fuel + 1)).execute (.mk (.assign dst src) ty loc) m = .ok r m' →
      ∃ n source target m₁ m₂ bs, u.env.program.sizeOf? dst.ty = some n ∧
        (engine u.env fuel).place src m = .ok source m₁ ∧
        (engine u.env fuel).place dst m₁ = .ok target m₂ ∧ r = .place target ∧
        bs.length = n ∧ (∀ i < n, m₂.memory.byteAt? (source.address.toNat + i) = bs[i]?) ∧
        m₂.Receives target.address.toNat bs m') ∧
    ∀ {n source target m₁ m₂}, u.env.program.sizeOf? dst.ty = some n →
      (engine u.env fuel).place src m = .ok source m₁ →
      (engine u.env fuel).place dst m₁ = .ok target m₂ →
      ((∃ i < n, m₂.memory.byteAt? (source.address.toNat + i) = none) →
        ∃ stop, (engine u.env (fuel + 1)).execute (.mk (.assign dst src) ty loc) m = .error stop m₂) ∧
      ((∀ i < n, (m₂.memory.byteAt? (source.address.toNat + i)).isSome = true) →
        (∀ i < n, (m₂.memory.byteAt? (target.address.toNat + i)).isSome = true) →
        ∃ m', (engine u.env (fuel + 1)).execute (.mk (.assign dst src) ty loc) m =
          .ok (.place target) m') := by
  have rule : (engine u.env (fuel + 1)).execute (.mk (.assign dst src) ty loc) =
      (engine u.env fuel).assign u.env dst src loc := rfl
  have like := engine_isolated u.env fuel
  have apart : ∀ {source target m₁ m₂}, (engine u.env fuel).place src m = .ok source m₁ →
      (engine u.env fuel).place dst m₁ = .ok target m₂ → m₂.memory.Apart := by
    intro source target m₁ m₂ hs ht
    have found : ∀ e, isolation.Like fun _ => (engine u.env fuel).place e := fun e =>
      Likeness.place (like.execute e)
    exact (Blind.evolves_of_ok (found dst) ht).apart
      ((Blind.evolves_of_ok (found src) hs).apart (hm.spans hu).apart)
  rw [rule]
  refine ⟨fun {r m'} hx => ?_, fun {n source target m₁ m₂} hn hs ht => ⟨fun ⟨i, hi, gone⟩ => ?_, ?_⟩⟩
  · obtain ⟨n, hn⟩ := Engine.sizeOf?_of_assign hd hx
    rw [Engine.assign_struct hd hn] at hx
    obtain ⟨source, m₁, target, m₂, bs, hs, ht, hr, hw, rfl⟩ := Engine.copyStruct_eq_ok.1 hx
    obtain ⟨length, bytes, -⟩ := readBytes_eq_ok.1 hr
    exact ⟨n, source, target, m₁, m₂, bs, hn, hs, ht, rfl, length, bytes,
      writeBytes_receives (apart hs ht) hw⟩
  · rw [Engine.assign_struct hd hn]
    cases hr : readBytes source.address loc n m₂ with
    | ok bs m₃ =>
      obtain ⟨length, bytes, -⟩ := readBytes_eq_ok.1 hr
      rw [bytes i hi, List.getElem?_eq_none_iff, length] at gone
      exact absurd hi (Nat.not_lt.2 gone)
    | error stop m₃ =>
      obtain rfl := readBytes_error hr
      exact ⟨stop, by rw [Engine.copyStruct, bind_of_ok hs, bind_of_ok ht, bind_of_error hr]⟩
  · intro sources targets
    obtain ⟨bs, hr⟩ := readBytes_of_isSome loc sources
    rw [← (readBytes_eq_ok.1 hr).1] at targets
    obtain ⟨m', hw⟩ := writeBytes_of_isSome loc (apart hs ht) targets
    rw [Engine.assign_struct hd hn]
    exact ⟨m', Engine.copyStruct_eq_ok.2 ⟨source, m₁, target, m₂, bs, hs, ht, hr, hw, rfl⟩⟩

/-- A pair is copied from the first two of three cells to the last two. -/
def sliding : String :=
  "struct Pair \x7b int a; int b; \x7d; int main() \x7b int cells[3]; void *v; struct Pair *p; "
    ++ "struct Pair *q; cells = \x7b1, 2, 3\x7d; v = cells; p = v; v = cells + 1; q = v; "
    ++ "*q = *p; return cells[2]; \x7d"

/-- What is assigned in the body of `sliding`, and the statements before. -/
def slid? : Body → Option (Stmt × Expr × Expr × Ty × Location)
  | .compiled (.mk (.block [s₁, s₂, s₃, s₄, s₅, .mk (.expr (.mk (.assign dst src) ty loc)) _, _]) _) =>
    some (.mk (.block [s₁, s₂, s₃, s₄, s₅]) loc, dst, src, ty, loc)
  | _ => none

/-- The pair at 4096 is copied to 4100, though they have four bytes in common. -/
theorem struct_copied_sliding : ∃ t m m' dst src ty loc, (new .standard).compile sliding = .ok t ∧
    t.Running (some 4) m ∧ dst.ty = ⟨.struct "Pair", 0⟩ ∧
    (engine t.env 20).execute (.mk (.assign dst src) ty loc) m =
      .ok (.place ⟨4100, ⟨.struct "Pair", 0⟩, false⟩) m' ∧
    ∃ (m₁ m₂ : Machine) (bs : List UInt8),
      (engine t.env 19).place src m = .ok ⟨4096, ⟨.struct "Pair", 0⟩, false⟩ m₁ ∧
      bs.length = 8 ∧ (∀ i < 8, m₂.memory.byteAt? (4096 + i) = bs[i]?) ∧ m₂.Receives 4100 bs m' := by
  have run : ((new .standard).compile sliding).toOption.bind (fun t =>
      t.env.program.functions[4]?.bind fun f => (slid? f.body).bind fun (before, dst, src, ty, loc) =>
        EStateM.run' (do
          t.enters 20 4 f before
          let m ← get
          let source ← (engine t.env 19).place src
          set m
          let r ← (engine t.env 20).execute (.mk (.assign dst src) ty loc)
          pure ([.place source, r], dst.ty, t.env.program.sizeOf? dst.ty)) t.machine) =
      some ([.place ⟨4096, ⟨.struct "Pair", 0⟩, false⟩, .place ⟨4100, ⟨.struct "Pair", 0⟩, false⟩],
        ⟨.struct "Pair", 0⟩, some 8) := by
    rw [compile_of_toList sliding (toList_append_of_eq
      (toList_append_of_eq (String.ofList_eq.1 rfl) (String.ofList_eq.1 rfl)) (String.ofList_eq.1 rfl))]
    decide +kernel
  simp only [Option.bind_eq_some_iff] at run
  obtain ⟨t, ht, f, hf, ⟨before, dst, src, ty, loc⟩, -, run⟩ := run
  have ht := Except.eq_ok_of_toOption ht
  obtain ⟨_, hx⟩ := run'_eq_some.1 run
  simp only [bind_eq_ok, get_eq_ok, set_eq_ok, pure_eq_ok, Prod.mk.injEq, List.cons.injEq,
    and_true, Resolved.place.injEq] at hx
  obtain ⟨_, k, hk, _, _, ⟨rfl, rfl⟩, source, m₀, hs, _, _, rfl, r, m', hr, ⟨⟨rfl, rfl⟩, hty, hsize⟩,
    -⟩ := hx
  have reachable : t.Reachable .standard := .compile (.new .full) ht
  have running : t.Running (some 4) k := .of_enters (reachable.rested) hf hk
  have isStruct : dst.ty.structName?.isSome = true := by
    rw [hty]
    rfl
  obtain ⟨copied, -⟩ := struct_copied reachable running isStruct 19 ty loc
  obtain ⟨size, source, target, m₁, m₂, bs, hsize', hs', -, same, length, bytes, received⟩ := copied hr
  cases hsize.symm.trans hsize'
  cases hs.symm.trans hs'
  cases same
  exact ⟨t, k, m', dst, src, ty, loc, ht, running, hty, hr, m₀, m₂, bs, hs, length, bytes, received⟩

end Session

end MiniC
