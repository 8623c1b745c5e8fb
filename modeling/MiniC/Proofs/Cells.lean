/-
  Variables and members as cells.

  A direct path is a variable, or members selected from one by `.`, with no array on the way
  (`Expr.Direct`).  Inside of a running function a path that ends in a scalar is a cell of its own:
  it lies in the storage of its variable, so it can be loaded and assigned, and no other cell, frame
  or heap block has a byte in common with it (`cells_independent`).

  * `Memory.fetch` and `Ty.encode`: the bytes of a scalar, read and written.
  * `Expr.Direct.execute`: a path comes to the place at its offset from its variable.
  * `Machine.Inside.cell`: this place lies in the region of the variable's binding.
-/
import MiniC.Proofs.ByteMap
import MiniC.Proofs.Layout
import MiniC.Proofs.Running

namespace MiniC

/-! ## Scalars in memory -/

namespace Word

theorem ofSignedByte_lowByte (w : Word) : ofSignedByte w.lowByte = w.signedLowByte := by
  have low : w.lowByte.toInt8 = w.toInt8 := by
    refine Int8.toBitVec_inj.1 ?_
    change BitVec.ofNat 8 w.toBitVec.toNat = w.toBitVec.signExtend 8
    rw [BitVec.signExtend_eq_setWidth_of_le _ (by decide)]
    rfl
  rw [ofSignedByte, signedLowByte, low]

theorem signedLowByte_signedLowByte (w : Word) : w.signedLowByte.signedLowByte = w.signedLowByte := by
  rw [signedLowByte, signedLowByte, Int8.toInt8_toInt32]

theorem Spells.unique {w w' : Word} {b₀ b₁ b₂ b₃ : UInt8} (h : w.Spells b₀ b₁ b₂ b₃)
    (h' : w'.Spells b₀ b₁ b₂ b₃) : w = w' :=
  Int32.toInt_inj.1 (h.trans h'.symm)

end Word

/-- The bytes of a scalar of type `t`. -/
def Ty.encode (t : Ty) (w : Word) : List UInt8 := if t.isChar then [w.lowByte] else w.bytes

/-- What the watcher hears of a scalar of type `t` that is written. -/
def Ty.heard (t : Ty) (w : Word) : Word := if t.isChar then Word.ofByte w.lowByte else w

theorem Ty.length_encode (t : Ty) (w : Word) : (t.encode w).length = t.accessWidth := by
  unfold encode accessWidth
  split <;> rfl

namespace Memory
variable {m m' : Memory} {a b : Address} {n k : Nat} {t : Ty}

/-- The scalar of type `t` at an address. -/
def fetch (m : Memory) (a : Address) (t : Ty) : Except MemoryError Word :=
  if t.isChar then (m.read a).map Word.ofSignedByte else m.readWord a

theorem whole_iff : m.Whole a n ↔
    ∃ b k, (b, k) ∈ m.slots ∧ b.toNat ≤ a.toNat ∧ a.toNat + n ≤ b.toNat + k := by
  constructor
  · rintro ⟨r, hr, hle, hfit⟩
    exact ⟨r.start, r.size, Session.mem_slots_iff.2 ⟨r, hr, rfl, rfl⟩, hle, hfit⟩
  · rintro ⟨_, _, hs, hle, hfit⟩
    obtain ⟨r, hr, rfl, rfl⟩ := Session.mem_slots_iff.1 hs
    exact ⟨r, hr, hle, hfit⟩

/-- Two regions share no byte. -/
theorem Apart.slots_apart (h : m.Apart) (ha : (a, n) ∈ m.slots) (hb : (b, k) ∈ m.slots) (hne : a ≠ b) :
    a.toNat + n ≤ b.toNat ∨ b.toNat + k ≤ a.toNat := by
  obtain ⟨r, hr, rfl, rfl⟩ := Session.mem_slots_iff.1 ha
  obtain ⟨s, hs, rfl, rfl⟩ := Session.mem_slots_iff.1 hb
  have filled := (h.of_mem hr).2.1
  have filled' := (h.of_mem hs).2.1
  by_contra overlap
  -- Of two regions that overlap, the start of the upper one is in both.
  rcases Nat.le_total r.start.toNat s.start.toNat with hle | hle
  · have same := h.eq_of_covers hr hs (x := s.start.toNat) ⟨hle, by rw [Region.stop]; omega⟩
      ⟨Nat.le_refl _, by rw [Region.stop]; omega⟩
    exact hne (congrArg Region.start same)
  · have same := h.eq_of_covers hr hs (x := r.start.toNat)
      ⟨Nat.le_refl _, by rw [Region.stop]; omega⟩ ⟨hle, by rw [Region.stop]; omega⟩
    exact hne (congrArg Region.start same)

/-- A scalar that lies in one region can be read, and depends on its own bytes only. -/
theorem Sound.fetch_of_whole (h : m.Sound) (hw : m.Whole a t.accessWidth) :
    ∃ w, m.fetch a t = .ok w ∧ ∀ {m' : Memory}, m'.Sound → m'.Whole a t.accessWidth →
      (∀ x, a.toNat ≤ x → x < a.toNat + t.accessWidth → m'.view x = m.view x) →
      m'.fetch a t = .ok w := by
  unfold fetch Ty.accessWidth at *
  split at hw
  · rename_i hc
    simp only [hc, if_true]
    obtain ⟨b, hb⟩ := h.whole_one.1 hw
    refine ⟨Word.ofSignedByte b, by rw [h.read_eq, hb]; rfl, fun h' _ same => ?_⟩
    rw [h'.read_eq, same _ (Nat.le_refl _) (Nat.lt_succ_self _), hb]
    rfl
  · rename_i hc
    simp only [hc, Bool.false_eq_true, if_false]
    obtain ⟨b₀, b₁, b₂, b₃, w, h₀, h₁, h₂, h₃, hr, spells⟩ := h.readWord_of_whole hw
    refine ⟨w, hr, fun h' hw' same => ?_⟩
    obtain ⟨b₀', b₁', b₂', b₃', w', h₀', h₁', h₂', h₃', hr', spells'⟩ := h'.readWord_of_whole hw'
    rw [same _ (by omega) (by omega)] at h₀' h₁' h₂' h₃'
    cases h₀.symm.trans h₀'
    cases h₁.symm.trans h₁'
    cases h₂.symm.trans h₂'
    cases h₃.symm.trans h₃'
    exact spells.unique spells' ▸ hr'

/-- **A scalar that lies in one region can be written**, is read back, and no other byte changes. -/
theorem Sound.encode_written (h : m.Sound) (w : Word) (hw : m.Whole a t.accessWidth) :
    ∃ m', m.writeBytes a (t.encode w) = .ok m' ∧ m'.Sound ∧ m.SameSlots m' ∧
      m'.fetch a t = .ok (if t.isChar then w.signedLowByte else w) ∧
      ∀ x, x < a.toNat ∨ a.toNat + t.accessWidth ≤ x → m'.view x = m.view x := by
  have long : 0 < (t.encode w).length := t.length_encode w ▸ t.accessWidth_pos
  obtain ⟨m', hm'⟩ := h.writeBytes_of_whole long (t.length_encode w ▸ hw)
  have sound : m'.Sound := (writeBytes_slots hm').2.2 h
  refine ⟨m', hm', sound, writeBytes_sameSlots hm', ?_, fun x hx => ?_⟩
  · unfold fetch
    by_cases hc : t.isChar = true
    · simp only [hc, if_true]
      have own : a.toNat ≤ a.toNat ∧ a.toNat < a.toNat + t.accessWidth :=
        ⟨Nat.le_refl _, Nat.lt_add_of_pos_right t.accessWidth_pos⟩
      rw [sound.read_eq, h.view_writeBytes long hm', t.length_encode, if_pos own]
      simp only [Ty.encode, hc, if_true, Nat.sub_self]
      exact congrArg Except.ok (Word.ofSignedByte_lowByte w)
    · simp only [Bool.not_eq_true] at hc
      simp only [hc, Bool.false_eq_true, if_false]
      simp only [Ty.encode, hc, Bool.false_eq_true, if_false] at hm'
      exact h.apart.readWord_writeWord hm'
  · rw [h.view_writeBytes long hm', t.length_encode, if_neg (by omega)]

end Memory

namespace Run
variable {m : Machine} {t : Ty} {a : Address} {loc : Location}

theorem loadPlace_scalar (ht : t.isScalar = true) : loadPlace ⟨a, t, false⟩ loc m =
    match m.memory.fetch a t with
    | .ok w => .ok ⟨t, w⟩ m
    | .error e => .error (.fault (.memory e loc)) m := by
  unfold loadPlace Memory.fetch
  simp only [Bool.false_eq_true, if_false, ht, not_true_eq_false]
  by_cases hc : t.isChar = true
  · simp only [hc, if_true]
    cases hr : m.memory.read a with
    | ok b => exact bind_of_ok (by rw [readByte_run, hr])
    | error e => exact bind_of_error (by rw [readByte_run, hr])
  · simp only [hc]
    cases hr : m.memory.readWord a with
    | ok w => exact bind_of_ok (by rw [readWord_run, hr])
    | error e => exact bind_of_error (by rw [readWord_run, hr])

/-- A scalar that lies in one region is read alike wherever its own bytes are the same. -/
theorem loadPlace_of_same {m' : Machine} {v : Value} (hm : m.memory.Sound)
    (hm' : m'.memory.Sound) (ht : t.isScalar = true)
    (hw : m.memory.Whole a t.accessWidth) (hw' : m'.memory.Whole a t.accessWidth)
    (same : ∀ x, a.toNat ≤ x → x < a.toNat + t.accessWidth → m'.memory.view x = m.memory.view x)
    (h : loadPlace ⟨a, t, false⟩ loc m = .ok v m) : loadPlace ⟨a, t, false⟩ loc m' = .ok v m' := by
  obtain ⟨w, hf, later⟩ := hm.fetch_of_whole hw
  rw [loadPlace_scalar ht, hf, EStateM.Result.ok.injEq] at h
  rw [loadPlace_scalar ht, later hm' hw' same]
  exact h.1 ▸ rfl

theorem store_scalar (v : Value) : store ⟨a, t, false⟩ v loc m =
    match m.memory.writeBytes a (t.encode v.word) with
    | .ok memory => .ok () (m.wrote memory a (t.heard v.word))
    | .error e => .error (.fault (.memory e loc)) m := by
  unfold store Ty.encode Ty.heard
  by_cases hc : t.isChar = true
  · simp only [hc, if_true]
    exact writeByte_run a v.word.lowByte loc m
  · simp only [hc]
    exact writeWord_run a v.word loc m

end Run

theorem Address.toNat_offset {base : Address} {offset : Nat} (h : base.toNat + offset < 4294967296) :
    (base + UInt32.ofNat offset).toNat = base.toNat + offset := by
  rw [UInt32.toNat_add, UInt32.toNat_ofNat']
  omega

/-! ## Paths -/

/-- A path in the code of the function `k`: a variable that it names, or members selected from one,
none of them an array.  The path selects `fields` and lies at an offset from its variable. -/
inductive Expr.Direct (p : Program) (k : FunctionId) : Expr → SymbolId → List String → Nat → Prop
  | var {id : SymbolId} {loc : Location} : id ∈ (p.function k).locals ∨ id ∈ p.globals →
    (p.symbol id).array = none → Direct p k (.mk (.var id) (p.symbol id).ty loc) id [] 0
  | member {object : Expr} {id : SymbolId} {fields : List String} {offset : Nat} {name field : String}
      {l : Layout} {m : Member} {loc : Location} : Direct p k object id fields offset →
    object.ty.structName? = some name → p.layout? name = some l → l.member? field = some m →
    m.arrayLength = none →
    Direct p k (.mk (.member object m.offset none) m.ty loc) id (fields ++ [field]) (offset + m.offset)

/-- One unit of fuel is for the rule itself. -/
theorem execute_succ (env : Env) (fuel : Nat) (e : Expr) :
    (engine env (fuel + 1)).execute e = Engine.executeRule env (engine env fuel) e := rfl

namespace Expr.Direct
variable {p : Program} {k : FunctionId} {e : Expr} {id : SymbolId} {fields : List String}
  {offset : Nat}

theorem selects (h : e.Direct p k id fields offset) :
    p.Selects (p.symbol id).ty fields offset e.ty := by
  induction h with
  | var => exact .here
  | member _ hn hl hm ha ih => exact ih.snoc hn hl hm ha

theorem variable_ (h : e.Direct p k id fields offset) :
    (id ∈ (p.function k).locals ∨ id ∈ p.globals) ∧ (p.symbol id).array = none := by
  induction h with
  | var hs ha => exact ⟨hs, ha⟩
  | member _ _ _ _ _ ih => exact ih

/-- **A path comes to the place at its offset from its variable**, and changes nothing. -/
theorem execute {env : Env} {m : Machine} {base : Address} {fuel : Nat}
    (h : e.Direct env.program k id fields offset) (hb : m.frames.address? id = some base)
    (ho : base.toNat + offset < 4294967296) (hf : fields.length < fuel) :
    (engine env fuel).execute e m = .ok (.place ⟨base + UInt32.ofNat offset, e.ty, false⟩) m := by
  induction h generalizing fuel with
  | @var id loc hs ha =>
    obtain ⟨n, rfl⟩ : ∃ n, fuel = n + 1 := ⟨fuel - 1, by omega⟩
    have isArray : (env.program.symbol id).isArray = false := by rw [Symbol.isArray, ha]; rfl
    rw [execute_succ]
    simp [Engine.executeRule, Engine.variablePlace, hb, isArray, Run.require]
  | @member object id fields offset name field l mem loc _ hn hl hm ha ih =>
    obtain ⟨n, rfl⟩ : ∃ n, fuel = n + 1 := ⟨fuel - 1, by omega⟩
    rw [List.length_append, List.length_singleton] at hf
    have hx := ih hb (by omega) (Nat.lt_of_succ_lt_succ hf)
    have below : (base + UInt32.ofNat offset).toNat + mem.offset < 4294967296 := by
      rw [Address.toNat_offset (by omega)]
      omega
    have displaced : ∀ e, Run.displaced (base + UInt32.ofNat offset) mem.offset e loc m =
        .ok (base + UInt32.ofNat (offset + mem.offset)) m := by
      intro e
      rw [Run.displaced, if_pos below, UInt32.ofNat_add, ← UInt32.add_assoc]
      rfl
    rw [execute_succ]
    simp [Engine.executeRule, Engine.place, hx, displaced]

/-- To solve a path is to load from its place. -/
theorem solve {env : Env} {m : Machine} {base : Address} {fuel : Nat}
    (h : e.Direct env.program k id fields offset) (hb : m.frames.address? id = some base)
    (ho : base.toNat + offset < 4294967296) (hf : fields.length < fuel) :
    (engine env fuel).solve e m =
      Run.loadPlace ⟨base + UInt32.ofNat offset, e.ty, false⟩ e.loc m :=
  Run.bind_of_ok (h.execute hb ho hf)

/-- To assign to a path is to store at its place what the value is converted to. -/
theorem assign {env : Env} {m₀ m m' : Machine} {base : Address} {fuel : Nat} {src : Expr} {v : Value}
    {ty : Ty} {loc : Location} (h : e.Direct env.program k id fields offset)
    (hs : e.ty.isScalar = true) (hb : m.frames.address? id = some base)
    (ho : base.toNat + offset < 4294967296) (hf : fields.length < fuel)
    (hx : (engine env fuel).solve src m₀ = .ok v m)
    (stored : Run.store ⟨base + UInt32.ofNat offset, e.ty, false⟩ (v.convert e.ty) loc m = .ok () m') :
    (engine env (fuel + 1)).execute (.mk (.assign e src) ty loc) m₀ =
      .ok (.value (v.convert e.ty)) m' := by
  have place : (engine env fuel).place e m = .ok ⟨base + UInt32.ofNat offset, e.ty, false⟩ m := by
    simp [Engine.place, h.execute hb ho hf]
  rw [execute_succ]
  simp [Engine.executeRule, Engine.assign, Ty.structName?_of_isScalar hs, Engine.storeValue, hx, place,
    stored]

end Expr.Direct

/-! ## Cells of a machine -/

namespace Machine
variable {c : Context} {m m' : Machine} {k : FunctionId} {id : SymbolId} {b : Binding}

/-- The binding that a variable has now: one of the innermost frame, or a global one. -/
structure Binds (m : Machine) (id : SymbolId) (b : Binding) : Prop where
  address : m.frames.address? id = some b.address
  symbol : b.symbol = id
  near : b ∈ m.frames.globals ++ (m.frames.current?.elim [] Frame.latest)

theorem binds_of_address {a : Address} (h : m.frames.address? id = some a) : ∃ b, m.Binds id b := by
  have found : ∀ bs : List Binding, (bs.find? fun b => b.symbol = id).map Binding.address = some a →
      ∃ b ∈ bs, b.symbol = id ∧ b.address = a := by
    intro bs hf
    obtain ⟨b, hb, rfl⟩ := Option.map_eq_some_iff.1 hf
    exact ⟨b, List.mem_of_find?_eq_some hb, by simpa using List.find?_some hb, rfl⟩
  have given := h
  unfold Frames.address? at h
  split at h
  · rename_i hx
    cases h
    obtain ⟨frame, hframe, hx⟩ := Option.bind_eq_some_iff.1 hx
    obtain ⟨b, hb, symbol, rfl⟩ := found frame.latest hx
    exact ⟨b, given, symbol, by rw [hframe]; exact List.mem_append_right _ hb⟩
  · obtain ⟨b, hb, symbol, rfl⟩ := found m.frames.globals h
    exact ⟨b, given, symbol, List.mem_append_left _ hb⟩

/-- All bindings: those that count now, and those of the frames that wait. -/
theorem bindings_eq (m : Machine) : m.bindings = (m.frames.globals ++
    (m.frames.current?.elim [] Frame.latest)) ++ m.frames.calls.tail.flatMap Frame.latest := by
  rw [State.bindings, Frames.current?]
  cases m.frames.calls with
  | nil => simp
  | cons frame calls => simp

theorem Binds.mem (h : m.Binds id b) : b ∈ m.bindings := by
  rw [bindings_eq]
  exact List.mem_append_left _ h.near

theorem Lawful.nodup (h : m.Lawful) : (m.held ++ m.heap).Nodup :=
  h.owned.shared.nodup_iff.2 h.owned.apart.nodup_starts

/-- Different bindings have different regions. -/
theorem Lawful.binding_unique (h : m.Lawful) {b' : Binding} (hb : b ∈ m.bindings)
    (hb' : b' ∈ m.bindings) (ha : b.address = b'.address) : b = b' := by
  have nodup := (List.nodup_append.1 (List.nodup_append.1 h.nodup).1).1
  exact List.inj_on_of_nodup_map nodup hb hb' ha

/-- What counts now has no region in common with a frame that waits. -/
theorem Lawful.waiting_apart (h : m.Lawful) (hb : m.Binds id b) {frame : Frame} {b' : Binding}
    (hf : frame ∈ m.frames.calls.tail) (hb' : b' ∈ frame.latest) : b.address ≠ b'.address := by
  have nodup := (List.nodup_append.1 (List.nodup_append.1 h.nodup).1).1
  rw [bindings_eq, List.map_append] at nodup
  have far : b' ∈ m.frames.calls.tail.flatMap Frame.latest := List.mem_flatMap.2 ⟨frame, hf, hb'⟩
  exact (List.nodup_append.1 nodup).2.2 _ (List.mem_map_of_mem hb.near) _ (List.mem_map_of_mem far)

/-- What is bound has no region in common with the heap. -/
theorem Lawful.heap_apart (h : m.Lawful) (hb : b ∈ m.bindings) {a : Address} (ha : a ∈ m.heap) :
    b.address ≠ a := by
  have held : b.address ∈ m.held := List.mem_append_left _ (List.mem_map_of_mem hb)
  exact (List.nodup_append.1 h.nodup).2.2 _ held _ ha

/-- A scalar of type `t` lies at an offset in the region of the variable `id`, which `b` binds. -/
structure Cell (m : Machine) (id : SymbolId) (offset : Nat) (t : Ty) (b : Binding) : Prop where
  binds : m.Binds id b
  slot : (b.address, b.size) ∈ m.memory.slots
  fits : offset + t.accessWidth ≤ b.size
  space : b.address.toNat + b.size ≤ 4294967296

namespace Cell
variable {offset : Nat} {t : Ty}

theorem below (h : m.Cell id offset t b) : b.address.toNat + offset < 4294967296 := by
  have := h.fits
  have := h.space
  have := t.accessWidth_pos
  omega

theorem toNat (h : m.Cell id offset t b) :
    (b.address + UInt32.ofNat offset).toNat = b.address.toNat + offset :=
  Address.toNat_offset h.below

theorem whole (h : m.Cell id offset t b) :
    m.memory.Whole (b.address + UInt32.ofNat offset) t.accessWidth := by
  have := h.fits
  rw [Memory.whole_iff, h.toNat]
  exact ⟨b.address, b.size, h.slot, by omega, by omega⟩

/-- A region that is not that of the variable has no byte of the cell. -/
theorem outside (h : m.Cell id offset t b) (hm : m.memory.Sound) {a : Address} {n x : Nat}
    (ha : (a, n) ∈ m.memory.slots) (hne : b.address ≠ a) (hx : a.toNat ≤ x) (hx' : x < a.toNat + n) :
    x < (b.address + UInt32.ofNat offset).toNat ∨
      (b.address + UInt32.ofNat offset).toNat + t.accessWidth ≤ x := by
  have := h.fits
  rw [h.toNat]
  rcases hm.apart.slots_apart h.slot ha hne with hlt | hlt
  · exact .inr (by omega)
  · exact .inl (by omega)

end Cell

/-- **A path that ends in a scalar is a cell** of its variable. -/
theorem Inside.cell (hi : m.Inside c (some k)) (hm : m.memory.Sound) (hr : c.Ranged)
    (hp : c.program.LaidOut) {e : Expr} {fields : List String} {offset : Nat}
    (he : e.Direct c.program k id fields offset) (hs : e.ty.isScalar = true) :
    ∃ b, m.Cell id offset e.ty b := by
  obtain ⟨named, single⟩ := he.variable_
  have sees : c.Sees (some k) id := named.elim (fun hl => .inr ⟨k, rfl, hl⟩) .inl
  obtain ⟨a, ha⟩ := Option.isSome_iff_exists.1 ((hi.ready k rfl).address sees)
  obtain ⟨b, hb⟩ := binds_of_address ha
  have symbol := Array.getElem?_eq_getElem (sees.hasSymbol hr)
  rw [← Program.symbol_eq symbol] at symbol
  obtain ⟨n, hn, inside⟩ := he.selects.within hp (hp.single symbol single)
  cases hn.symm.trans (Program.sizeOf?_of_isScalar hs)
  have slot := hi.lawful.owned.sized b hb.mem
  have sized := hi.sized b hb.mem
  rw [hb.symbol] at sized
  refine ⟨b, hb, slot, sized ▸ inside, ?_⟩
  obtain ⟨r, hr, hstart, hsize⟩ := Session.mem_slots_iff.1 slot
  have stop := (hm.laid.of_mem hr).2.2
  have space := hm.addressable
  rw [Region.stop, hstart, hsize] at stop
  omega

/-- **The cells of different paths share no byte.** -/
theorem Lawful.cells_apart (h : m.Lawful) {p : Program} (hp : p.LaidOut) {e e' : Expr}
    {id' : SymbolId} {b' : Binding} {fields fields' : List String} {offset offset' : Nat}
    (he : e.Direct p k id fields offset) (he' : e'.Direct p k id' fields' offset')
    (hs : e.ty.isScalar = true) (hs' : e'.ty.isScalar = true) (hne : (id', fields') ≠ (id, fields))
    (hb : m.Cell id offset e.ty b) (hb' : m.Cell id' offset' e'.ty b') :
    b.address.toNat + offset + e.ty.accessWidth ≤ b'.address.toNat + offset' ∨
      b'.address.toNat + offset' + e'.ty.accessWidth ≤ b.address.toNat + offset := by
  have := hb.fits
  have := hb'.fits
  by_cases hid : id' = id
  · -- In one variable the paths select different members.
    subst hid
    have base := Option.some.inj (hb.binds.address.symm.trans hb'.binds.address)
    rw [base]
    have apart := he.selects.apart hp he'.selects hs hs' fun hf => hne (by rw [hf])
    rcases apart with hlt | hlt
    · exact .inl (by omega)
    · exact .inr (by omega)
  · have different : b.address ≠ b'.address := fun ha => hid (by
      rw [← hb'.binds.symbol, ← hb.binds.symbol, h.binding_unique hb.binds.mem hb'.binds.mem ha])
    rcases h.owned.apart.slots_apart hb.slot hb'.slot different with hlt | hlt
    · exact .inl (by omega)
    · exact .inr (by omega)

/-- The scalar of type `t` at `a` is set to `w`: its own bytes change, which is heard of once, and
nothing else does. -/
structure Puts (m : Machine) (a : Address) (t : Ty) (w : Word) (m' : Machine) : Prop where
  frames : m'.frames = m.frames
  strings : m'.strings = m.strings
  heap : m'.heap = m.heap
  slots : m.memory.SameSlots m'.memory
  bytes : ∀ x, x < a.toNat ∨ a.toNat + t.accessWidth ≤ x → m'.memory.view x = m.memory.view x
  heard : m'.events = m.events ++ if m.memory.watched then [.wrote a (t.heard w)] else []

/-- **A scalar that lies in one region is stored**, and read back as what it was converted to. -/
theorem store_of_whole {a : Address} {t : Ty} (hm : m.memory.Sound) (ht : t.isScalar = true)
    (hw : m.memory.Whole a t.accessWidth) (v : Value) (loc : Location) :
    ∃ m', Run.store ⟨a, t, false⟩ (v.convert t) loc m = .ok () m' ∧ m'.memory.Sound ∧
      m.Puts a t (v.convert t).word m' ∧
      ∀ loc', Run.loadPlace ⟨a, t, false⟩ loc' m' = .ok (v.convert t) m' := by
  obtain ⟨memory, hx, sound, slots, back, bytes⟩ := hm.encode_written (v.convert t).word hw
  refine ⟨m.wrote memory a (t.heard (v.convert t).word), ?_, ?_, ?_, fun loc' => ?_⟩
  · rw [Run.store_scalar, hx]
  · rw [wrote_memory]
    exact sound
  · have same : ∀ w, (m.wrote memory a w).frames = m.frames ∧
        (m.wrote memory a w).strings = m.strings ∧ (m.wrote memory a w).heap = m.heap := by
      intro w
      rw [wrote]
      split <;> exact ⟨rfl, rfl, rfl⟩
    obtain ⟨frames, strings, heap⟩ := same (t.heard (v.convert t).word)
    refine ⟨frames, strings, heap, ?_, ?_, ?_⟩
    · rwa [wrote_memory]
    · rwa [wrote_memory]
    · rw [wrote_events, slots.watched]
  · have stored : (if t.isChar then (v.convert t).word.signedLowByte else (v.convert t).word) =
        (v.convert t).word := by
      by_cases hc : t.isChar = true
      · simp [Value.convert, hc, Word.signedLowByte_signedLowByte]
      · simp [hc]
    rw [Run.loadPlace_scalar ht, wrote_memory, back, stored]
    rfl

/-- A cell has a value, also on other machines that have the same bytes there. -/
theorem Cell.solve {env : Env} {e : Expr} {fields : List String} {offset fuel : Nat}
    (h : m.Cell id offset e.ty b) (hm : m.memory.Sound)
    (he : e.Direct env.program k id fields offset) (hs : e.ty.isScalar = true)
    (hf : fields.length < fuel) : ∃ w, (engine env fuel).solve e m = .ok ⟨e.ty, w⟩ m ∧
      ∀ {m' : Machine}, m'.memory.Sound → m'.frames = m.frames → m.memory.SameSlots m'.memory →
        (∀ x, b.address.toNat + offset ≤ x → x < b.address.toNat + offset + e.ty.accessWidth →
          m'.memory.view x = m.memory.view x) →
        (engine env fuel).solve e m' = .ok ⟨e.ty, w⟩ m' := by
  obtain ⟨w, fetched, later⟩ := hm.fetch_of_whole h.whole
  refine ⟨w, ?_, fun {m'} sound frames slots same => ?_⟩
  · rw [he.solve h.binds.address h.below hf, Run.loadPlace_scalar hs, fetched]
  · have binding : m'.frames.address? id = some b.address := frames ▸ h.binds.address
    have whole : m'.memory.Whole (b.address + UInt32.ofNat offset) e.ty.accessWidth := by
      rw [Memory.whole_iff, slots.slots, ← Memory.whole_iff]
      exact h.whole
    rw [he.solve binding h.below hf, Run.loadPlace_scalar hs,
      later sound whole fun x hle hlt => same x (h.toNat ▸ hle) (h.toNat ▸ hlt)]

end Machine

namespace Session
open Machine

/-- **Variables and members are cells of their own.**  Take a session that has compiled a source and
any state inside of a running function.  A direct path that ends in a scalar can be loaded.  When a
value is assigned to it, the assignment comes to the value at the type of the path, which is also
what is read back; one write is heard of; no byte but those of the path changes, so all other direct
paths keep their values, and the frames that wait and the blocks of the heap keep their bytes. -/
theorem cells_independent {config : Config} {s t u : Session} {source : String} {k : FunctionId}
    {m : Machine} {e : Expr} {id : SymbolId} {fields : List String} {offset fuel : Nat}
    (hc : config.capacity.toNat ≤ 4294967296 - 4096) (hs : s.compile source = .ok t)
    (hu : u.Reachable config) (henv : u.env = t.env) (hm : u.Running (some k) m)
    (he : e.Direct u.env.program k id fields offset) (hscalar : e.ty.isScalar = true)
    (hfuel : fields.length < fuel) :
    ∃ a, (engine u.env fuel).execute e m = .ok (.place ⟨a, e.ty, false⟩) m ∧
      (∃ w, (engine u.env fuel).solve e m = .ok ⟨e.ty, w⟩ m) ∧
      ∀ {src : Expr} {v : Value} {m₀ : Machine} (ty : Ty) (loc : Location),
        (engine u.env fuel).solve src m₀ = .ok v m →
        ∃ m', (engine u.env (fuel + 1)).execute (.mk (.assign e src) ty loc) m₀ =
            .ok (.value (v.convert e.ty)) m' ∧
          (engine u.env fuel).solve e m' = .ok (v.convert e.ty) m' ∧
          m.Puts a e.ty (v.convert e.ty).word m' ∧
          (∀ e' id' fields' offset' fuel', Expr.Direct u.env.program k e' id' fields' offset' →
            e'.ty.isScalar = true → (id', fields') ≠ (id, fields) → fields'.length < fuel' →
            ∃ w, (engine u.env fuel').solve e' m = .ok ⟨e'.ty, w⟩ m ∧
              (engine u.env fuel').solve e' m' = .ok ⟨e'.ty, w⟩ m') ∧
          (∀ frame ∈ m.frames.calls.tail, ∀ b ∈ frame.latest, ∀ x, b.address.toNat ≤ x →
            x < b.address.toNat + b.size → m'.memory.view x = m.memory.view x) ∧
          ∀ h ∈ m.heap, ∀ n, (h, n) ∈ m.memory.slots → ∀ x, h.toNat ≤ x → x < h.toNat + n →
            m'.memory.view x = m.memory.view x := by
  obtain ⟨c, hr⟩ := runs_of_compile hs
  rw [← henv] at hr
  have laid : u.env.program.LaidOut := by
    obtain ⟨p, hp, rfl⟩ := compile_eq_ok.1 hs
    rw [henv]
    exact Program.ofSource_laidOut hp
  have inside := hm.inside hr hu.rested
  have sound := (hm.spans hu).sound hc
  have cell : ∀ {e' id' fields' offset'}, Expr.Direct u.env.program k e' id' fields' offset' →
      e'.ty.isScalar = true → ∃ b, m.Cell id' offset' e'.ty b := by
    intro e' id' fields' offset' he'
    rw [hr.program] at he'
    exact inside.cell sound hr.finished.ranged (hr.program ▸ laid) he'
  obtain ⟨b, hb⟩ := cell he hscalar
  refine ⟨_, he.execute hb.binds.address hb.below hfuel, ?_, ?_⟩
  · obtain ⟨w, hw, -⟩ := hb.solve sound he hscalar hfuel
    exact ⟨w, hw⟩
  intro src v m₀ ty loc hx
  obtain ⟨m', stored, sound', puts, back⟩ := store_of_whole sound hscalar hb.whole v loc
  have binding : m'.frames.address? id = some b.address := puts.frames ▸ hb.binds.address
  refine ⟨m', he.assign hscalar hb.binds.address hb.below hfuel hx stored, ?_, puts, ?_, ?_, ?_⟩
  · rw [he.solve binding hb.below hfuel, back]
  · intro e' id' fields' offset' fuel' he' hscalar' hne hfuel'
    obtain ⟨b', hb'⟩ := cell he' hscalar'
    obtain ⟨w, before, after⟩ := hb'.solve sound he' hscalar' hfuel'
    refine ⟨w, before, after sound' puts.frames puts.slots fun x hle hlt => puts.bytes x ?_⟩
    have apart := inside.lawful.cells_apart laid he he' hscalar hscalar' hne hb hb'
    rw [hb.toNat]
    omega
  · intro frame hf b' hb' x hle hlt
    have waits : b' ∈ m.bindings := by
      rw [bindings_eq]
      exact List.mem_append_right _ (List.mem_flatMap.2 ⟨frame, hf, hb'⟩)
    have different := inside.lawful.waiting_apart hb.binds hf hb'
    exact puts.bytes x (hb.outside sound (inside.lawful.owned.sized b' waits) different hle hlt)
  · intro a ha n hn x hle hlt
    exact puts.bytes x (hb.outside sound hn (inside.lawful.heap_apart hb.binds.mem ha) hle hlt)

/-- A program with a character and a number inside of a structure inside of a structure. -/
def boxed : String :=
  "struct Pair \x7b char tag; int weight; \x7d; "
    ++ "struct Box \x7b int id; struct Pair pair; char mark; \x7d; "
    ++ "int main() \x7b struct Box box; box.pair.tag = 300; return box.pair.weight; \x7d"

theorem cells_independent_boxed : ∃ t m m' tag weight w, (new .standard).compile boxed = .ok t ∧
    t.Running (some 4) m ∧ tag.Direct t.env.program 4 6 ["pair", "tag"] 4 ∧
    weight.Direct t.env.program 4 6 ["pair", "weight"] 5 ∧
    (engine t.env 4).execute
        (.mk (.assign tag (.mk (.const 300) Ty.int .nowhere)) Ty.char .nowhere) m =
      .ok (.value ⟨Ty.char, 44⟩) m' ∧
    (engine t.env 3).solve tag m' = .ok ⟨Ty.char, 44⟩ m' ∧
    (engine t.env 3).solve weight m = .ok ⟨Ty.int, w⟩ m ∧
    (engine t.env 3).solve weight m' = .ok ⟨Ty.int, w⟩ m' := by
  have tables : ((new .standard).compile boxed).toOption.map (fun t =>
      ((t.env.program.function 4).locals, (t.env.program.symbol 6).ty,
        (t.env.program.symbol 6).array.isNone, t.env.program.layout? "Box",
        t.env.program.layout? "Pair")) = some ([6], ⟨.struct "Box", 0⟩, true,
        some ⟨"Box", [⟨"id", Ty.int, 4, 0, none⟩, ⟨"pair", ⟨.struct "Pair", 0⟩, 5, 4, none⟩,
          ⟨"mark", Ty.char, 1, 9, none⟩], 10⟩,
        some ⟨"Pair", [⟨"tag", Ty.char, 1, 0, none⟩, ⟨"weight", Ty.int, 4, 1, none⟩], 5⟩) := by
    rw [compile_of_toList boxed (toList_append_of_eq
      (toList_append_of_eq (String.ofList_eq.1 rfl) (String.ofList_eq.1 rfl)) (String.ofList_eq.1 rfl))]
    decide +kernel
  have entry : ((new .standard).compile boxed).toOption.bind (fun t =>
      t.env.program.functions[4]?.bind fun f => EStateM.run' (do
        Run.start t.env (engine t.env 9)
        let m ← get
        set { m with frames := m.frames.push 4 f.name }
        (engine t.env 9).enterFrame t.env f []
        pure (m.pending, m.flow)) t.machine) = some (none, .normal) := by
    rw [compile_of_toList boxed (toList_append_of_eq
      (toList_append_of_eq (String.ofList_eq.1 rfl) (String.ofList_eq.1 rfl)) (String.ofList_eq.1 rfl))]
    decide +kernel
  obtain ⟨t, ht, found⟩ := Except.exists_ok_of_map tables
  simp only [Prod.mk.injEq, Option.isNone_iff_eq_none] at found
  obtain ⟨locals, ty, single, box, pair⟩ := found
  rw [ht] at entry
  obtain ⟨f, hf, entry⟩ := Option.bind_eq_some_iff.1
    (show t.env.program.functions[4]?.bind _ = _ from entry)
  obtain ⟨_, hx⟩ := Run.run'_eq_some.1 entry
  simp only [Run.bind_eq_ok, Run.get_eq_ok, Run.set_eq_ok, Run.pure_eq_ok] at hx
  obtain ⟨_, m, hm, _, _, ⟨rfl, rfl⟩, _, _, rfl, _, n, hn, quiet, -⟩ := hx
  have running : t.Running (some 4) n := .entered (.started hm) (Prod.mk.inj quiet) hf hn
  let var : Expr := .mk (.var 6) (t.env.program.symbol 6).ty .nowhere
  let inner : Expr := .mk (.member var 4 none) ⟨.struct "Pair", 0⟩ .nowhere
  have hvar : var.Direct t.env.program 4 6 [] 0 := .var (.inl (by simp [locals])) single
  have hinner : inner.Direct t.env.program 4 6 ["pair"] 4 :=
    .member (m := ⟨"pair", ⟨.struct "Pair", 0⟩, 5, 4, none⟩) hvar (congrArg Ty.structName? ty) box
      rfl rfl
  have tag : Expr.Direct t.env.program 4 (.mk (.member inner 0 none) Ty.char .nowhere) 6
      ["pair", "tag"] 4 := .member (m := ⟨"tag", Ty.char, 1, 0, none⟩) hinner rfl pair rfl rfl
  have weight : Expr.Direct t.env.program 4 (.mk (.member inner 1 none) Ty.int .nowhere) 6
      ["pair", "weight"] 5 := .member (m := ⟨"weight", Ty.int, 4, 1, none⟩) hinner rfl pair rfl rfl
  have const : (engine t.env 3).solve (.mk (.const 300) Ty.int .nowhere) n =
      .ok ⟨Ty.int, 300⟩ n := rfl
  obtain ⟨a, -, -, assigned⟩ := cells_independent (by decide) ht (.compile (.new .full) ht) rfl
    running tag rfl (show ["pair", "tag"].length < 3 by decide)
  obtain ⟨m', hx, back, -, others, -⟩ := assigned Ty.char .nowhere const
  obtain ⟨w, before, after⟩ := others _ _ _ _ 3 weight rfl (by decide) (by decide)
  exact ⟨t, n, m', _, _, w, ht, running, tag, weight, hx, back, before, after⟩

end Session

end MiniC
