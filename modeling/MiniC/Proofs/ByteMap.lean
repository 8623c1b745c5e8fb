/-
  Memory as a map from addresses to bytes.

  Regions that lie apart make a partial map of addresses to bytes: an address that a region covers
  has the byte that this region holds for it, and all others have none (`Memory.view`).  The map is
  read off the regions alone and says nothing of how the region of an address is searched for.  A
  word is four bytes, lowest first, read as a signed number (`Word.Spells`).

  * `Apart.locate_iff`: the search finds the one region that covers all bytes of an access.
  * `Sound.view_writeBytes`: to write bytes changes the map at their addresses and nowhere else.
  * `Sound.writeBytes_cons`: bytes written at once are the same as bytes written one by one.
  * `memory_is_byte_map`: reads and writes are lookup and update of the map, and over any calls the
    watcher hears of the writes that succeed and of nothing else.
-/
import MiniC.Proofs.Allocation
import MiniC.Proofs.Plain

namespace MiniC

instance (r : Region) (x : Nat) : Decidable (r.Covers x) :=
  inferInstanceAs (Decidable (_ ∧ _))

/-- The word is the signed number of 32 bits that four bytes, lowest first, stand for. -/
def Word.Spells (w : Word) (b₀ b₁ b₂ b₃ : UInt8) : Prop :=
  w.toInt = Int.bmod
    (b₀.toNat + 256 * b₁.toNat + 65536 * b₂.toNat + 16777216 * b₃.toNat : Nat) 4294967296

theorem Word.spells_ofBytes (b₀ b₁ b₂ b₃ : UInt8) : (ofBytes b₀ b₁ b₂ b₃).Spells b₀ b₁ b₂ b₃ := by
  exact BitVec.toInt_ofNat _

namespace Region
variable {r : Region} {bs : List UInt8} {i j : Nat}

theorem byte_setBytes_of_ge (h : i + bs.length ≤ j) : (r.setBytes i bs).byte j = r.byte j := by
  induction bs generalizing r i with
  | nil => rfl
  | cons b bs ih =>
    rw [List.length_cons] at h
    rw [setBytes, ih (by omega), byte_setByte, if_neg (by omega)]

end Region

namespace Memory

/-- The byte at an address: that of the region that covers it. -/
def view (m : Memory) (x : Nat) : Option UInt8 :=
  (m.regions.find? fun r => r.Covers x).map fun r => r.byte (x - r.start.toNat)

/-- All `n` bytes from `a` on lie in one region. -/
def Whole (m : Memory) (a : Address) (n : Nat) : Prop :=
  ∃ r ∈ m.regions, r.start.toNat ≤ a.toNat ∧ a.toNat + n ≤ r.stop

/-! ## The region of an address -/

namespace Laid
variable {hi lo : Nat} {rs : List Region} {r s : Region}

/-- An address lies in one region at most. -/
theorem eq_of_covers {x : Nat} (h : Laid hi lo rs) (hr : r ∈ rs) (hs : s ∈ rs) (hx : r.Covers x)
    (hx' : s.Covers x) : r = s := by
  induction rs generalizing lo with
  | nil => cases hr
  | cons t rs ih =>
    have above : ∀ u ∈ rs, ¬ (t.Covers x ∧ u.Covers x) := by
      rintro u hu ⟨ht, hux⟩
      have := (h.2.2.of_mem hu).1
      have := ht.2
      have := hux.1
      omega
    rcases List.mem_cons.1 hr with rfl | hr' <;> rcases List.mem_cons.1 hs with rfl | hs'
    · rfl
    · exact absurd ⟨hx, hx'⟩ (above s hs')
    · exact absurd ⟨hx', hx⟩ (above r hr')
    · exact ih h.2.2 hr' hs'

theorem eq_of_start (h : Laid hi lo rs) (hr : r ∈ rs) (hs : s ∈ rs) (he : r.start = s.start) :
    r = s := by
  have hsize := (h.of_mem hr).2.1
  have hsize' := (h.of_mem hs).2.1
  refine h.eq_of_covers hr hs (x := r.start.toNat) ⟨Nat.le_refl _, ?_⟩ ⟨?_, ?_⟩
  · rw [Region.stop]
    omega
  · exact Nat.le_of_eq (by rw [he])
  · rw [he, Region.stop]
    omega

/-- The last region that starts at or below an address is the one that covers it, if one does. -/
theorem lastBelow_of_covers {a : Address} (h : Laid hi lo rs) (hr : r ∈ rs) (hx : r.Covers a.toNat) :
    lastBelow a rs = some r := by
  induction rs generalizing lo with
  | nil => cases hr
  | cons t rs ih =>
    have reached : ¬ a < t.start := by
      rw [UInt32.lt_iff_toNat_lt]
      have := hx.1
      rcases List.mem_cons.1 hr with rfl | hr
      · omega
      · have := (h.2.2.of_mem hr).1
        rw [Region.stop] at this
        omega
    rw [lastBelow, if_neg reached]
    rcases List.mem_cons.1 hr with rfl | hr
    · -- No region above `r` starts at or below an address of `r`.
      have beyond : lastBelow a rs = none := by
        cases rs with
        | nil => rfl
        | cons u us =>
          have := h.2.2.1
          have := hx.2
          rw [lastBelow, if_pos (UInt32.lt_iff_toNat_lt.2 (by omega))]
      rw [beyond]
    · rw [ih h.2.2 hr]

end Laid

theorem modifyRegion_modifyRegion {a : Address} {f g : Region → Region}
    (hf : ∀ r, (f r).start = r.start) (rs : List Region) :
    modifyRegion a g (modifyRegion a f rs) = modifyRegion a (fun r => g (f r)) rs := by
  induction rs with
  | nil => rfl
  | cons r rs ih =>
    by_cases hr : r.start = a
    · simp only [modifyRegion, if_pos hr, if_pos ((hf r).trans hr)]
    · simp only [modifyRegion, if_neg hr, ih]

theorem start_le_of_lastBelow {a : Address} {rs : List Region} {r : Region}
    (h : lastBelow a rs = some r) : r.start.toNat ≤ a.toNat := by
  induction rs with
  | nil => cases h
  | cons s ss ih =>
    rw [lastBelow] at h
    split at h
    · cases h
    · rename_i hs
      split at h
      · rename_i t ht
        cases h
        exact ih ht
      · cases h
        rw [UInt32.lt_iff_toNat_lt] at hs
        omega

section
variable {m m' : Memory} {a : Address} {n : Nat} {bs : List UInt8}

/-- **The search finds the region that covers all of an access.** -/
theorem Apart.locate_iff (h : m.Apart) (hn : 0 < n) {r : Region} {i : Nat} :
    m.locate a n = some (r, i) ↔
      r ∈ m.regions ∧ r.start.toNat + i = a.toNat ∧ a.toNat + n ≤ r.stop := by
  rw [locate_eq_some, Region.stop]
  constructor
  · rintro ⟨hr, rfl, hfit⟩
    have hmem := mem_of_lastBelow hr
    have hle := start_le_of_lastBelow hr
    exact ⟨hmem, by omega, by omega⟩
  · rintro ⟨hr, hi, hfit⟩
    refine ⟨h.lastBelow_of_covers hr ⟨by omega, ?_⟩, by omega, by omega⟩
    rw [Region.stop]
    omega

theorem Sound.locate_eq_none (h : m.Sound) (hn : 0 < n) (hw : ¬ m.Whole a n) :
    m.locate a n = none := by
  rw [Option.eq_none_iff_forall_ne_some]
  rintro ⟨r, i⟩ hl
  obtain ⟨hr, hi, hfit⟩ := (h.apart.locate_iff hn).1 hl
  exact hw ⟨r, hr, by omega, hfit⟩

theorem Sound.locate_of_whole (h : m.Sound) (hn : 0 < n) (hw : m.Whole a n) :
    ∃ r i, m.locate a n = some (r, i) ∧ r ∈ m.regions ∧ r.start.toNat + i = a.toNat ∧
      a.toNat + n ≤ r.stop ∧ a.toNat + n ≤ 4294967296 := by
  obtain ⟨r, hr, hle, hfit⟩ := hw
  have hstop := (h.laid.of_mem hr).2.2
  have hspace := h.addressable
  have hi : r.start.toNat + (a.toNat - r.start.toNat) = a.toNat := by omega
  exact ⟨r, _, (h.apart.locate_iff hn).2 ⟨hr, hi, hfit⟩, hr, hi, hfit, by omega⟩

/-! ## The map -/

/-- An address has the byte of whichever region covers it. -/
theorem Sound.view_eq_some (h : m.Sound) {x : Nat} {b : UInt8} : m.view x = some b ↔
    ∃ r ∈ m.regions, r.Covers x ∧ r.byte (x - r.start.toNat) = b := by
  rw [view, Option.map_eq_some_iff]
  constructor
  · rintro ⟨r, hr, rfl⟩
    exact ⟨r, List.mem_of_find?_eq_some hr, by simpa using List.find?_some hr, rfl⟩
  · rintro ⟨r, hr, hx, rfl⟩
    obtain ⟨s, hs⟩ : ∃ s, m.regions.find? (fun r => r.Covers x) = some s := by
      apply Option.isSome_iff_exists.1
      rw [List.find?_isSome]
      exact ⟨r, hr, by simpa using hx⟩
    have hsx : s.Covers x := by simpa using List.find?_some hs
    exact ⟨s, hs, by rw [h.laid.eq_of_covers (List.mem_of_find?_eq_some hs) hr hsx hx]⟩

theorem Sound.view_of_mem (h : m.Sound) {r : Region} {i x : Nat} (hr : r ∈ m.regions)
    (hi : i < r.size) (hx : r.start.toNat + i = x) : m.view x = some (r.byte i) := by
  subst hx
  refine h.view_eq_some.2 ⟨r, hr, ⟨Nat.le_add_right .., Nat.add_lt_add_left hi _⟩, ?_⟩
  rw [Nat.add_sub_cancel_left]

/-- A byte alone lies in a region where the map has one. -/
theorem Sound.whole_one (h : m.Sound) : m.Whole a 1 ↔ ∃ b, m.view a.toNat = some b := by
  constructor
  · rintro ⟨r, hr, hle, hlt⟩
    exact ⟨_, h.view_eq_some.2 ⟨r, hr, ⟨hle, hlt⟩, rfl⟩⟩
  · rintro ⟨b, hb⟩
    obtain ⟨r, hr, ⟨hle, hlt⟩, -⟩ := h.view_eq_some.1 hb
    exact ⟨r, hr, hle, hlt⟩

/-! ## Reads -/

/-- **To read a byte is to look it up.** -/
theorem Sound.read_eq (h : m.Sound) (a : Address) :
    m.read a = (m.view a.toNat).elim (.error (.unmapped a 1)) .ok := by
  rw [read, byte?]
  cases hv : m.view a.toNat with
  | none =>
    have hw : ¬ m.Whole a 1 := by
      rw [h.whole_one, hv]
      nofun
    rw [h.locate_eq_none Nat.one_pos hw]
    rfl
  | some b =>
    obtain ⟨r, i, hl, hr, hi, hfit, -⟩ := h.locate_of_whole Nat.one_pos (h.whole_one.2 ⟨b, hv⟩)
    rw [Region.stop] at hfit
    have hb := h.view_of_mem hr (by omega) hi
    rw [hv, Option.some.injEq] at hb
    rw [hl, hb]
    rfl

/-- **To read a word is to put four bytes of the map together.** -/
theorem Sound.readWord_of_whole (h : m.Sound) (hw : m.Whole a 4) :
    ∃ b₀ b₁ b₂ b₃ w, m.view a.toNat = some b₀ ∧ m.view (a.toNat + 1) = some b₁ ∧
      m.view (a.toNat + 2) = some b₂ ∧ m.view (a.toNat + 3) = some b₃ ∧
      m.readWord a = .ok w ∧ w.Spells b₀ b₁ b₂ b₃ := by
  obtain ⟨r, i, hl, hr, hi, hfit, -⟩ := h.locate_of_whole (by decide) hw
  rw [Region.stop] at hfit
  refine ⟨_, _, _, _, _, h.view_of_mem hr (i := i) ?_ ?_, h.view_of_mem hr (i := i + 1) ?_ ?_,
    h.view_of_mem hr (i := i + 2) ?_ ?_, h.view_of_mem hr (i := i + 3) ?_ ?_, ?_,
    Word.spells_ofBytes ..⟩
  case refine_9 => rw [readWord, word?, hl]; rfl
  all_goals omega

theorem Sound.readWord_of_not_whole (h : m.Sound) (hw : ¬ m.Whole a 4) :
    m.readWord a = .error (.unmapped a 4) := by
  rw [readWord, word?, h.locate_eq_none (by decide) hw]
  rfl

/-! ## Writes -/

theorem Sound.writeBytes_of_not_whole (h : m.Sound) (hn : 0 < bs.length)
    (hw : ¬ m.Whole a bs.length) : m.writeBytes a bs = .error (.unmapped a bs.length) := by
  rw [writeBytes, h.locate_eq_none hn hw]

theorem Sound.writeBytes_of_whole (h : m.Sound) (hn : 0 < bs.length) (hw : m.Whole a bs.length) :
    ∃ m', m.writeBytes a bs = .ok m' := by
  obtain ⟨r, i, hl, -⟩ := h.locate_of_whole hn hw
  exact ⟨_, by rw [writeBytes, hl]⟩

theorem Sound.writeBytes_eq_ok (h : m.Sound) (hn : 0 < bs.length)
    (hw : m.writeBytes a bs = .ok m') : ∃ r i, r ∈ m.regions ∧ r.start.toNat + i = a.toNat ∧
      a.toNat + bs.length ≤ r.stop ∧
      m' = { m with regions := modifyRegion r.start (·.setBytes i bs) m.regions } := by
  rw [writeBytes] at hw
  split at hw
  · cases hw
  · rename_i r i hl
    cases hw
    obtain ⟨hr, hi, hfit⟩ := (h.apart.locate_iff hn).1 hl
    exact ⟨r, i, hr, hi, hfit, rfl⟩

/-- What becomes of the map when one region changes in its bytes. -/
theorem Sound.view_modifyRegion (h : m.Sound) {f : Region → Region}
    (hf : ∀ r, (f r).start = r.start ∧ (f r).size = r.size) (x : Nat) :
    view { m with regions := modifyRegion a f m.regions } x =
      (m.regions.find? fun s => s.Covers x).map fun s =>
        (if s.start = a then f s else s).byte (x - s.start.toNat) := by
  have covers : ∀ s : Region, (if s.start = a then f s else s).Covers x ↔ s.Covers x := by
    intro s
    split
    · rw [Region.Covers, Region.Covers, Region.stop, Region.stop, (hf s).1, (hf s).2]
    · rfl
  simp only [view, modifyRegion_eq_map h.laid.ordered, List.find?_map, Function.comp_def, covers,
    Option.map_map]
  congr 1
  funext s
  split
  · rw [(hf s).1]
  · rfl

/-- **To write bytes is to update the map** at their addresses. -/
theorem Sound.view_writeBytes (h : m.Sound) (hn : 0 < bs.length)
    (hw : m.writeBytes a bs = .ok m') (x : Nat) : m'.view x =
      if a.toNat ≤ x ∧ x < a.toNat + bs.length then bs[x - a.toNat]? else m.view x := by
  obtain ⟨r, i, hr, hi, hfit, rfl⟩ := h.writeBytes_eq_ok hn hw
  have inside : a.toNat ≤ x ∧ x < a.toNat + bs.length → r.Covers x := fun hx =>
    ⟨by omega, by omega⟩
  rw [h.view_modifyRegion fun s => setBytes_slot bs s i, view]
  cases hs : m.regions.find? fun s => s.Covers x with
  | none =>
    rw [List.find?_eq_none] at hs
    rw [if_neg fun hx => hs r hr (by simpa using inside hx)]
    rfl
  | some s =>
    have hmem := List.mem_of_find?_eq_some hs
    have hsx : s.Covers x := by simpa using List.find?_some hs
    simp only [Option.map_some]
    by_cases hstart : s.start = r.start
    · -- In the region that is written `x` is before, among or behind the bytes.
      obtain rfl := h.laid.eq_of_start hmem hr hstart
      have hlo := hsx.1
      rw [if_pos rfl]
      by_cases hx : a.toNat ≤ x ∧ x < a.toNat + bs.length
      · have hk : x - a.toNat < bs.length := by omega
        rw [if_pos hx, show x - s.start.toNat = i + (x - a.toNat) by omega, Region.byte_setBytes hk,
          List.getElem?_eq_getElem hk]
      · rw [if_neg hx]
        rcases Nat.lt_or_ge x a.toNat with hlt | hge
        · rw [Region.byte_setBytes_of_lt (by omega)]
        · rw [Region.byte_setBytes_of_ge (by omega)]
    · rw [if_neg hstart]
      by_cases hx : a.toNat ≤ x ∧ x < a.toNat + bs.length
      · exact absurd (congrArg Region.start (h.laid.eq_of_covers hmem hr hsx (inside hx))) hstart
      · rw [if_neg hx]

/-- **To allocate extends the map** by zeros at addresses that had no byte. -/
theorem Sound.view_allocate (h : m.Sound) (ha : m.allocate n = .ok (a, m')) :
    (∀ x, a.toNat ≤ x → x < a.toNat + n → m.view x = none ∧ m'.view x = some 0) ∧
      ∀ x b, m.view x = some b → m'.view x = some b := by
  have sound := h.allocate ha
  have fits := (h.placed ha).fits
  have more := (h.apart.allocate ha).2
  refine ⟨fun x hle hlt => ⟨?_, ?_⟩, fun x b hb => ?_⟩
  · refine Option.eq_none_iff_forall_ne_some.2 fun b hb => ?_
    obtain ⟨r, hr, hx, -⟩ := h.view_eq_some.1 hb
    exact fits.2.2 x hle hlt r hr hx
  · refine sound.view_eq_some.2 ⟨.zeros a n, more.mem_iff.2 List.mem_cons_self, ⟨hle, hlt⟩, ?_⟩
    exact Std.TreeMap.getD_emptyc
  · obtain ⟨r, hr, hx, rfl⟩ := h.view_eq_some.1 hb
    exact sound.view_eq_some.2 ⟨r, more.mem_iff.2 (List.mem_cons_of_mem _ hr), hx, rfl⟩

/-- **Bytes written at once are bytes written one by one.** -/
theorem Sound.writeBytes_cons (h : m.Sound) {b : UInt8} (hn : 0 < bs.length)
    (hw : m.writeBytes a (b :: bs) = .ok m') :
    ∃ m₁, m.write a b = .ok m₁ ∧ m₁.Sound ∧ m₁.writeBytes (a + 1) bs = .ok m' := by
  obtain ⟨r, i, hr, hi, hfit, rfl⟩ := h.writeBytes_eq_ok (by simp) hw
  rw [List.length_cons] at hfit
  have hstop := (h.laid.of_mem hr).2.2
  have hspace := h.addressable
  have hnext : (a + 1).toNat = a.toNat + 1 := by
    rw [UInt32.toNat_add, UInt32.toNat_one]
    omega
  have first : m.write a b =
      .ok { m with regions := modifyRegion r.start (·.setBytes i [b]) m.regions } := by
    have hl : m.locate a [b].length = some (r, i) :=
      (h.apart.locate_iff Nat.one_pos).2 ⟨hr, hi, by omega⟩
    rw [write, writeBytes, hl]
  have sound := (writeBytes_slots first).2.2 h
  obtain ⟨hstart, hsize⟩ := setBytes_slot [b] r i
  refine ⟨_, first, sound, ?_⟩
  -- The other bytes are found in the same region, which has kept its place.
  have hl : Memory.locate
      { m with regions := modifyRegion r.start (·.setBytes i [b]) m.regions } (a + 1) bs.length =
        some (r.setBytes i [b], i + 1) := by
    refine (sound.apart.locate_iff hn).2 ⟨?_, ?_, ?_⟩
    · rw [modifyRegion_eq_map h.laid.ordered, List.mem_map]
      exact ⟨r, hr, if_pos rfl⟩
    · rw [hstart, hnext]
      omega
    · rw [hnext, Region.stop, hstart, hsize]
      rw [Region.stop] at hfit
      omega
  rw [writeBytes, hl]
  simp only [hstart, modifyRegion_modifyRegion fun s => (setBytes_slot [b] s i).1]
  rfl

/-- Space and regions are as they were. -/
structure SameSlots (m m' : Memory) : Prop where
  slots : m'.slots = m.slots
  capacity : m'.capacity = m.capacity
  watched : m'.watched = m.watched

theorem writeBytes_sameSlots (hw : m.writeBytes a bs = .ok m') : m.SameSlots m' :=
  have evolves := Evolves.of_writeBytes hw
  ⟨(writeBytes_slots hw).1, evolves.capacity, evolves.watched⟩

/-- **To write a byte is to update the map** at one address. -/
theorem Sound.write_of_mapped (h : m.Sound) {b b' : UInt8} (hv : m.view a.toNat = some b') :
    ∃ m', m.write a b = .ok m' ∧ m'.view = Function.update m.view a.toNat (some b) ∧
      m.SameSlots m' := by
  obtain ⟨m', hw⟩ : ∃ m', m.writeBytes a [b] = .ok m' :=
    h.writeBytes_of_whole Nat.one_pos (h.whole_one.2 ⟨b', hv⟩)
  refine ⟨m', hw, funext fun x => ?_, writeBytes_sameSlots hw⟩
  rw [h.view_writeBytes (by simp) hw, Function.update_apply, List.length_singleton]
  by_cases hx : x = a.toNat
  · rw [if_pos (by omega), if_pos hx, hx, Nat.sub_self]
    rfl
  · rw [if_neg (by omega), if_neg hx]

/-- **A word is written byte by byte**, lowest first, and nothing else changes. -/
theorem Sound.writeWord_of_whole (h : m.Sound) (w : Word) (hw : m.Whole a 4) :
    ∃ b₀ b₁ b₂ b₃ m', w.Spells b₀ b₁ b₂ b₃ ∧ m.writeWord a w = .ok m' ∧
      (do let m ← m.write a b₀; let m ← m.write (a + 1) b₁; let m ← m.write (a + 2) b₂
          m.write (a + 3) b₃) = .ok m' ∧
      m'.readWord a = .ok w ∧ m.SameSlots m' ∧
      ∀ x, x < a.toNat ∨ a.toNat + 4 ≤ x → m'.view x = m.view x := by
  obtain ⟨b₀, b₁, b₂, b₃, hb, rfl⟩ := w.ofBytes_bytes
  obtain ⟨m', hw⟩ : ∃ m', m.writeBytes a [b₀, b₁, b₂, b₃] = .ok m' :=
    h.writeBytes_of_whole (by simp) hw
  obtain ⟨m₁, hw₁, h₁, hw₁'⟩ := h.writeBytes_cons (by simp) hw
  obtain ⟨m₂, hw₂, h₂, hw₂'⟩ := h₁.writeBytes_cons (by simp) hw₁'
  obtain ⟨m₃, hw₃, -, hw₃'⟩ := h₂.writeBytes_cons (by simp) hw₂'
  have whole : m.writeWord a (Word.ofBytes b₀ b₁ b₂ b₃) = .ok m' := by rw [writeWord, hb, hw]
  refine ⟨b₀, b₁, b₂, b₃, m', Word.spells_ofBytes .., whole, ?_, h.apart.readWord_writeWord whole,
    writeBytes_sameSlots hw, fun x hx => ?_⟩
  · have two : a + 1 + 1 = a + 2 := UInt32.add_assoc a 1 1
    have three : a + 2 + 1 = a + 3 := UInt32.add_assoc a 2 1
    rw [two] at hw₃ hw₃'
    rw [three] at hw₃'
    simp only [hw₁, hw₂, hw₃, bind, Except.bind]
    exact hw₃'
  · rw [h.view_writeBytes (by simp) hw, if_neg]
    simp only [List.length_cons, List.length_nil]
    omega

end

/-- Memory is a map from addresses to bytes. -/
structure ActsAsMap (m : Memory) : Prop where
  /-- The map is what the regions hold. -/
  view : ∀ x b, m.view x = some b ↔
    ∃ r ∈ m.regions, r.Covers x ∧ r.byte (x - r.start.toNat) = b
  /-- To read is to look up. -/
  read : ∀ a, m.read a = (m.view a.toNat).elim (.error (.unmapped a 1)) .ok
  /-- To write is to update one point. -/
  write : ∀ a b b', m.view a.toNat = some b' → ∃ m', m.write a b = .ok m' ∧
    m'.view = Function.update m.view a.toNat (some b) ∧ m.SameSlots m'
  unmapped : ∀ a b, m.view a.toNat = none → m.write a b = .error (.unmapped a 1)
  /-- A word is four bytes of one region. -/
  readWord : ∀ a, m.Whole a 4 → ∃ b₀ b₁ b₂ b₃ w, m.view a.toNat = some b₀ ∧
    m.view (a.toNat + 1) = some b₁ ∧ m.view (a.toNat + 2) = some b₂ ∧
    m.view (a.toNat + 3) = some b₃ ∧ m.readWord a = .ok w ∧ w.Spells b₀ b₁ b₂ b₃
  /-- To write a word is to write its four bytes, and it is read back. -/
  writeWord : ∀ a w, m.Whole a 4 → ∃ b₀ b₁ b₂ b₃ m', w.Spells b₀ b₁ b₂ b₃ ∧
    m.writeWord a w = .ok m' ∧
    (do let m ← m.write a b₀; let m ← m.write (a + 1) b₁; let m ← m.write (a + 2) b₂
        m.write (a + 3) b₃) = .ok m' ∧
    m'.readWord a = .ok w ∧ m.SameSlots m' ∧
    ∀ x, x < a.toNat ∨ a.toNat + 4 ≤ x → m'.view x = m.view x
  /-- What is not in one region is no word. -/
  straddling : ∀ a w, ¬ m.Whole a 4 → m.readWord a = .error (.unmapped a 4) ∧
    m.writeWord a w = .error (.unmapped a 4)

theorem Sound.actsAsMap {m : Memory} (h : m.Sound) : m.ActsAsMap where
  view _ _ := h.view_eq_some
  read := h.read_eq
  write _ _ _ := h.write_of_mapped
  unmapped a b hv := by
    have hw : ¬ m.Whole a 1 := by
      rw [h.whole_one, hv]
      nofun
    exact h.writeBytes_of_not_whole (List.length_pos_of_ne_nil (List.cons_ne_nil b [])) hw
  readWord _ := h.readWord_of_whole
  writeWord _ w := h.writeWord_of_whole w
  straddling a w hw :=
    have long : 0 < w.bytes.length := by simp [Word.bytes]
    ⟨h.readWord_of_not_whole hw, h.writeBytes_of_not_whole long hw⟩

/-! ## What the watcher hears -/

/-- All that can be done with a memory: to ask it for something, to read, to watch it or not. -/
inductive Call where
  | ask (q : Request)
  | read (a : Address)
  | readWord (a : Address)
  | watch (watched : Bool)

/-- The memory after a call. -/
def answer (m : Memory) : Call → Memory
  | .ask q => m.serve q
  | .read _ | .readWord _ => m
  | .watch watched => { m with watched }

/-- What the watcher hears of a write of `w` at `a`: both, if it succeeds. -/
def hears (m : Memory) (a : Address) (w : Word) (outcome : Except MemoryError Memory) : List Event :=
  if m.watched && outcome.isOk then [.wrote a w] else []

/-- What the watcher hears of a call: nothing but writes that succeed. -/
def hearsOf (m : Memory) : Call → List Event
  | .ask (.write a b) => m.hears a (Int32.ofNat b.toNat) (m.write a b)
  | .ask (.writeWord a w) => m.hears a w (m.writeWord a w)
  | _ => []

/-- What the watcher hears of calls, in order. -/
def heard (m : Memory) : List Call → List Event
  | [] => []
  | c :: cs => m.hearsOf c ++ heard (m.answer c) cs

/-- Watching has no part in what becomes of the regions. -/
theorem serve_watched (m : Memory) (q : Request) (watched : Bool) :
    serve { m with watched } q = { m.serve q with watched } := by
  have write : ∀ a bs, writeBytes { m with watched } a bs =
      (m.writeBytes a bs).map fun m' => { m' with watched } := by
    intro a bs
    have hl : locate { m with watched } a bs.length = m.locate a bs.length := rfl
    rw [writeBytes, writeBytes, hl]
    cases m.locate a bs.length <;> rfl
  cases q with
  | allocate size =>
    have hm : allocate { m with watched } size =
        (m.allocate size).map fun r => (r.1, { r.2 with watched }) := by
      simp only [allocate]
      split
      · rfl
      · cases firstGap size addressSpaceStart m.regions with
        | error e => rfl
        | ok k =>
          change ite (m.limit - k < size) _ _ = _
          by_cases hroom : m.limit - k < size
          · simp only [if_pos hroom, Except.map]
          · simp only [if_neg hroom, Except.map]
    rw [serve, serve, hm]
    cases m.allocate size <;> rfl
  | free a =>
    have hm : free { m with watched } a = (m.free a).map fun m' => { m' with watched } := by
      have hr : region? { m with watched } a = m.region? a := rfl
      rw [free, free, hr]
      split <;> rfl
    rw [serve, serve, hm]
    cases m.free a <;> rfl
  | write a b =>
    rw [serve, serve, Memory.write, Memory.write, write]
    cases m.writeBytes a [b] <;> rfl
  | writeWord a w =>
    rw [serve, serve, writeWord, writeWord, write]
    cases m.writeBytes a w.bytes <;> rfl
  | clear => rfl

theorem serveAll_watched (m : Memory) (qs : List Request) (watched : Bool) :
    serveAll { m with watched } qs = { m.serveAll qs with watched } := by
  induction qs generalizing m with
  | nil => rfl
  | cons q qs ih =>
    change serveAll (serve { m with watched } q) qs = _
    rw [serve_watched, ih]
    rfl

/-- Calls lead from one memory that requests lead to to another. -/
theorem Served.answer {capacity : UInt32} {m : Memory} (h : Served capacity m) (c : Call) :
    Served capacity (m.answer c) := by
  obtain ⟨watched, qs, rfl⟩ := h
  cases c with
  | ask q => exact ⟨watched, qs ++ [q], List.foldl_append⟩
  | read a => exact ⟨watched, qs, rfl⟩
  | readWord a => exact ⟨watched, qs, rfl⟩
  | watch w => exact ⟨w, qs, serveAll_watched { empty capacity with watched } qs w⟩

end Memory

/-- The machine after a write, of which the watcher hears. -/
def Machine.wrote (s : Machine) (memory : Memory) (a : Address) (w : Word) : Machine :=
  if memory.watched then Machine.tell { s with memory } (.wrote a w) else { s with memory }

theorem Run.written_eq_wrote (memory : Memory) (a : Address) (w : Word) (s : Machine) :
    written memory a w s = .ok () (s.wrote memory a w) := by
  rw [written, modify_eq_ok, Memory.notices, Machine.wrote]
  split <;> rfl

/-- A write of a machine: its memory changes and the watcher hears of it, or it fails. -/
theorem Run.change_eq (change : Memory → Except MemoryError Memory) (a : Address) (w : Word)
    (loc : Location) (s : Machine) :
    (do match change (← get).memory with
        | .ok memory => written memory a w
        | .error e => fault (.memory e loc) : Run Unit) s =
      match change s.memory with
      | .ok memory => .ok () (s.wrote memory a w)
      | .error e => .error (.fault (.memory e loc)) s := by
  refine (bind_of_ok (get_eq_ok.2 ⟨rfl, rfl⟩)).trans ?_
  cases change s.memory with
  | ok memory => exact written_eq_wrote memory a w s
  | error e => rfl

theorem Run.writeByte_run (a : Address) (b : UInt8) (loc : Location) (s : Machine) :
    writeByte a b loc s = match s.memory.write a b with
      | .ok memory => .ok () (s.wrote memory a (Word.ofByte b))
      | .error e => .error (.fault (.memory e loc)) s :=
  change_eq (·.write a b) a (Word.ofByte b) loc s

theorem Run.writeWord_run (a : Address) (w : Word) (loc : Location) (s : Machine) :
    writeWord a w loc s = match s.memory.writeWord a w with
      | .ok memory => .ok () (s.wrote memory a w)
      | .error e => .error (.fault (.memory e loc)) s :=
  change_eq (·.writeWord a w) a w loc s

theorem Run.allocate_run (size : Nat) (loc : Location) (s : Machine) :
    allocate size loc s = match s.memory.allocate size with
      | .ok (a, memory) => .ok a { s with memory }
      | .error e => .error (.fault (.memory e loc)) s := by
  refine (bind_of_ok (get_eq_ok.2 ⟨rfl, rfl⟩)).trans ?_
  cases s.memory.allocate size <;> rfl

theorem Run.release_run (a : Address) (s : Machine) :
    release a s = match s.memory.free a with
      | .ok memory => .ok none { s with memory }
      | .error e => .ok (some e) (s.note (.refused a)) := by
  refine (bind_of_ok (get_eq_ok.2 ⟨rfl, rfl⟩)).trans ?_
  cases s.memory.free a <;> rfl

theorem Run.readByte_run (a : Address) (loc : Location) (s : Machine) :
    readByte a loc s = match s.memory.read a with
      | .ok b => .ok b s
      | .error e => .error (.fault (.memory e loc)) s := by
  refine (bind_of_ok (get_eq_ok.2 ⟨rfl, rfl⟩)).trans ?_
  cases s.memory.read a <;> rfl

theorem Run.readWord_run (a : Address) (loc : Location) (s : Machine) :
    readWord a loc s = match s.memory.readWord a with
      | .ok w => .ok w s
      | .error e => .error (.fault (.memory e loc)) s := by
  refine (bind_of_ok (get_eq_ok.2 ⟨rfl, rfl⟩)).trans ?_
  cases s.memory.readWord a <;> rfl

namespace Machine

/-- The machine after a part of a run, whether or not it fails. -/
def after {α : Type} (s : Machine) (x : Run α) : Machine :=
  match x s with
  | .ok _ s' | .error _ s' => s'

/-- The machine after a call of its memory, asked for at `loc`. -/
def answer (loc : Location) (s : Machine) : Memory.Call → Machine
  | .ask (.allocate size) => s.after (Run.allocate size loc)
  | .ask (.free a) => s.after (Run.release a)
  | .ask (.write a b) => s.after (Run.writeByte a b loc)
  | .ask (.writeWord a w) => s.after (Run.writeWord a w loc)
  | .ask .clear => s.reset
  | .read a => s.after (Run.readByte a loc)
  | .readWord a => s.after (Run.readWord a loc)
  | .watch watched => { s with memory := { s.memory with watched } }

/-- The machine after calls, in order. -/
def answerAll (loc : Location) (s : Machine) (cs : List Memory.Call) : Machine :=
  cs.foldl (answer loc) s

theorem wrote_memory (s : Machine) (memory : Memory) (a : Address) (w : Word) :
    (s.wrote memory a w).memory = memory := by
  rw [wrote]
  split <;> rfl

theorem wrote_events (s : Machine) (memory : Memory) (a : Address) (w : Word) :
    (s.wrote memory a w).events = s.events ++ if memory.watched then [.wrote a w] else [] := by
  rw [wrote]
  split
  · exact List.reverse_cons
  · exact (List.append_nil _).symm

/-- A write that succeeds changes memory and is heard of. -/
theorem after_write {x : Run Unit} {a : Address} {bs : List UInt8} {w : Word} {loc : Location}
    {s : Machine} (hx : x s = match s.memory.writeBytes a bs with
      | .ok memory => .ok () (s.wrote memory a w)
      | .error e => .error (.fault (.memory e loc)) s) :
    (s.after x).memory =
        (match s.memory.writeBytes a bs with | .ok memory => memory | .error _ => s.memory) ∧
      (s.after x).events = s.events ++ s.memory.hears a w (s.memory.writeBytes a bs) := by
  rw [after, hx, Memory.hears]
  cases hm : s.memory.writeBytes a bs with
  | ok memory =>
    refine ⟨wrote_memory .., (wrote_events ..).trans ?_⟩
    rw [(Memory.Evolves.of_writeBytes hm).watched]
    simp [Except.isOk, Except.toBool]
  | error e =>
    refine ⟨rfl, ?_⟩
    simp [Except.isOk, Except.toBool]

/-- **One call**: memory answers it, and the watcher hears of it if it is a write that succeeds. -/
theorem answer_spec (s : Machine) (loc : Location) (c : Memory.Call) :
    (s.answer loc c).memory = s.memory.answer c ∧
      (s.answer loc c).events = s.events ++ s.memory.hearsOf c := by
  have silent : ∀ s' : Machine, s'.log = s.log → s'.events = s.events ++ [] := by
    intro s' hlog
    rw [List.append_nil, events, hlog, events]
  cases c with
  | ask q =>
    cases q with
    | allocate size =>
      rw [answer, after, Run.allocate_run, Memory.answer, Memory.serve]
      cases s.memory.allocate size with
      | ok r => exact ⟨rfl, silent _ rfl⟩
      | error e => exact ⟨rfl, silent _ rfl⟩
    | free a =>
      rw [answer, after, Run.release_run, Memory.answer, Memory.serve]
      cases s.memory.free a with
      | ok memory => exact ⟨rfl, silent _ rfl⟩
      | error e => exact ⟨rfl, silent _ rfl⟩
    | write a b => exact after_write (Run.writeByte_run a b loc s)
    | writeWord a w => exact after_write (Run.writeWord_run a w loc s)
    | clear => exact ⟨rfl, silent _ rfl⟩
  | read a =>
    rw [answer, after, Run.readByte_run]
    cases s.memory.read a with
    | ok b => exact ⟨rfl, silent _ rfl⟩
    | error e => exact ⟨rfl, silent _ rfl⟩
  | readWord a =>
    rw [answer, after, Run.readWord_run]
    cases s.memory.readWord a with
    | ok w => exact ⟨rfl, silent _ rfl⟩
    | error e => exact ⟨rfl, silent _ rfl⟩
  | watch watched => exact ⟨rfl, silent _ rfl⟩

end Machine

/-- **Any calls**: the watcher hears of the writes that succeed, in order, and of nothing else. -/
theorem Machine.answerAll_spec (s : Machine) (loc : Location) (cs : List Memory.Call) :
    (s.answerAll loc cs).memory = cs.foldl Memory.answer s.memory ∧
      (s.answerAll loc cs).events = s.events ++ s.memory.heard cs := by
  induction cs generalizing s with
  | nil => exact ⟨rfl, (List.append_nil _).symm⟩
  | cons c cs ih =>
    obtain ⟨memory, told⟩ := s.answer_spec loc c
    obtain ⟨later, rest⟩ := ih (s.answer loc c)
    rw [memory] at later rest
    refine ⟨later, ?_⟩
    rw [Memory.heard, ← List.append_assoc, ← told]
    exact rest

namespace Memory

/-- Calls lead from one memory that requests lead to to another. -/
theorem Served.answerAll {capacity : UInt32} {m : Memory} (h : Served capacity m) (cs : List Call) :
    Served capacity (cs.foldl Memory.answer m) := by
  induction cs generalizing m with
  | nil => exact h
  | cons c cs ih => exact ih (h.answer c)

/-- **Memory is a map from addresses to bytes.**  Whatever has been asked of a memory before, to read
is to look up and to write is to update the map that its regions hold, byte by byte; and over any
calls that follow the watcher hears of the writes that succeed, once each and in order, and of
nothing else. -/
theorem memory_is_byte_map {capacity : UInt32} (hc : capacity.toNat ≤ 4294967296 - 4096)
    {m : Memory} (hm : Served capacity m) :
    m.ActsAsMap ∧ ∀ (s : Machine) (loc : Location) (cs : List Call), s.memory = m →
      Served capacity (s.answerAll loc cs).memory ∧
        (s.answerAll loc cs).memory = cs.foldl answer m ∧
        (s.answerAll loc cs).events = s.events ++ m.heard cs := by
  refine ⟨(hm.sound hc).1.actsAsMap, ?_⟩
  rintro s loc cs rfl
  obtain ⟨memory, told⟩ := s.answerAll_spec loc cs
  exact ⟨memory ▸ hm.answerAll cs, memory, told⟩

/-- In the gap a write fails; at the edge of a region a byte is written and a word is not; the last
word of a region is written, read back and heard of. -/
theorem memory_is_byte_map_fragmented :
    Served 40 fragmented ∧ fragmented.ActsAsMap ∧
      fragmented.view 0x1007 = none ∧ fragmented.view 0x1008 = some 0xFE ∧
      fragmented.readWord 0x1008 = .ok (-2) ∧ fragmented.readWord 0x1011 = .error (.unmapped 0x1011 4) ∧
      (∃ m', fragmented.write 0x1013 200 = .ok m' ∧
        m'.view = Function.update fragmented.view 0x1013 (some 200) ∧ fragmented.SameSlots m') ∧
      (Machine.answerAll .nowhere { Machine.idle 40 with memory := fragmented }
        [.watch true, .ask (.write 0x1007 1), .ask (.write 0x1013 200), .read 0x1013,
          .ask (.writeWord 0x1011 5), .ask (.allocate 8), .ask (.writeWord 0x1010 (-3)),
          .ask (.free 0x1008), .ask (.writeWord 0x1010 9)]).events =
        [.wrote 0x1013 200, .wrote 0x1010 (-3)] := by
  have hserved : Served 40 fragmented := ⟨false, _, rfl⟩
  obtain ⟨hmap, hcalls⟩ := memory_is_byte_map (by decide) hserved
  refine ⟨hserved, hmap, by decide, by decide, by decide, by decide,
    hmap.write 0x1013 200 0 (by decide), ?_⟩
  rw [(hcalls _ .nowhere _ rfl).2.2]
  decide +kernel

end Memory

end MiniC
