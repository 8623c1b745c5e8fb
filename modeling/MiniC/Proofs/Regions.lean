/-
  Regions lie side by side.

  Whatever is asked of a memory, its regions follow each other without overlap, so every live region
  has an address of its own (`Apart`).  In a space that goes on behind the last address one region may
  lie below the start of the space; while it does, nothing is allocated any more.  Where all addresses
  of the space are numbers of 32 bits, the regions are inside of it (`Sound`).

  A memory is looked at through its slots: the addresses and the sizes of its regions, without their
  bytes.  Of the bytes only one thing is said: a word that has been written is read back
  (`Apart.readWord_writeWord`).
-/
import MiniC.Memory

namespace MiniC

/-! ## Bytes -/

namespace Region
variable {r : Region} {bs : List UInt8} {i j k : Nat}

theorem byte_setByte (r : Region) (i j : Nat) (b : UInt8) :
    (r.setByte i b).byte j = if i = j then b else r.byte j := by
  simp only [byte, setByte, Std.TreeMap.getD_insert, Nat.compare_eq_eq]

theorem byte_setBytes_of_lt (h : j < i) : (r.setBytes i bs).byte j = r.byte j := by
  induction bs generalizing r i with
  | nil => rfl
  | cons b bs ih => rw [setBytes, ih (Nat.lt_succ_of_lt h), byte_setByte, if_neg (Nat.ne_of_gt h)]

/-- Bytes that have been written are where they have been written to. -/
theorem byte_setBytes (h : k < bs.length) : (r.setBytes i bs).byte (i + k) = bs[k] := by
  induction bs generalizing r i k with
  | nil => cases h
  | cons b bs ih =>
    rw [setBytes]
    cases k with
    | zero =>
      refine (byte_setBytes_of_lt (Nat.lt_add_one i)).trans ?_
      rw [byte_setByte, if_pos rfl]
      rfl
    | succ k =>
      rw [show i + (k + 1) = i + 1 + k by omega, ih (Nat.lt_of_succ_lt_succ h)]
      rfl

end Region

/-- The bytes of a word are those that it is put together from. -/
theorem Word.ofBytes_bytes (w : Word) :
    ∃ b₀ b₁ b₂ b₃, w.bytes = [b₀, b₁, b₂, b₃] ∧ ofBytes b₀ b₁ b₂ b₃ = w := by
  refine ⟨_, _, _, _, rfl, ?_⟩
  have hlt : w.toUInt32.toNat < 4294967296 := w.toUInt32.toNat_lt
  have hsum : (UInt8.ofNat w.toUInt32.toNat).toNat + 256 * (UInt8.ofNat (w.toUInt32.toNat / 256)).toNat +
      65536 * (UInt8.ofNat (w.toUInt32.toNat / 65536)).toNat +
      16777216 * (UInt8.ofNat (w.toUInt32.toNat / 16777216)).toNat = w.toUInt32.toNat := by
    simp only [UInt8.toNat_ofNat']
    omega
  rw [ofBytes, hsum, UInt32.ofNat_toNat]
  rfl

/-! ## Regions -/

namespace Memory

/-- The first address and the size of each live region. -/
def slots (m : Memory) : List (Address × Nat) := m.regions.map fun r => (r.start, r.size)

/-- The first address of each live region. -/
def starts (m : Memory) : List Address := m.regions.map Region.start

theorem map_fst_slots (m : Memory) : m.slots.map Prod.fst = m.starts := by
  simp [slots, starts]

/-- Regions that follow each other between two addresses, none of them empty. -/
def Laid (hi : Nat) : Nat → List Region → Prop
  | lo, [] => lo ≤ hi
  | lo, r :: rs => lo ≤ r.start.toNat ∧ 0 < r.size ∧ Laid hi r.stop rs

/-- Regions that follow each other, the first of them at any address. -/
def Apart (m : Memory) : Prop := Laid m.limit 0 m.regions

/-- One slot more is one start more. -/
theorem starts_perm {m m' : Memory} {a : Address} {n : Nat} (h : m'.slots.Perm ((a, n) :: m.slots)) :
    m'.starts.Perm (a :: m.starts) := by
  have := h.map Prod.fst
  rwa [map_fst_slots, List.map_cons, map_fst_slots] at this

/-- Regions that follow each other in a space whose addresses all are numbers of 32 bits. -/
structure Sound (m : Memory) : Prop where
  laid : Laid m.limit addressSpaceStart m.regions
  addressable : m.limit ≤ 4294967296

/-- What is found is at the cursor or behind it. -/
theorem le_of_firstGap {n lo k : Nat} {rs : List Region} (h : firstGap n lo rs = .ok k) : lo ≤ k := by
  induction rs generalizing lo with
  | nil =>
    cases h
    exact Nat.le_refl _
  | cons r rs ih =>
    rw [firstGap] at h
    split at h
    · cases h
    · rename_i hr
      split at h
      · cases h
        exact Nat.le_refl _
      · have hs : r.start.toNat ≤ r.stop := Nat.le_add_right ..
        exact Nat.le_trans (Nat.not_lt.1 hr) (Nat.le_trans hs (ih h))

/-- A search for a gap fails in one way only. -/
theorem firstGap_eq_error {n lo : Nat} {rs : List Region} {e : MemoryError}
    (h : firstGap n lo rs = .error e) : e = .overflow "subtract" := by
  induction rs generalizing lo with
  | nil => cases h
  | cons r rs ih =>
    rw [firstGap] at h
    split at h
    · cases h
      rfl
    · split at h
      · cases h
      · exact ih h

namespace Laid
variable {hi lo : Nat} {rs : List Region}

theorem mono {lo' : Nat} (h : Laid hi lo rs) (hlo : lo' ≤ lo) : Laid hi lo' rs := by
  cases rs with
  | nil => exact Nat.le_trans hlo h
  | cons r rs => exact ⟨Nat.le_trans hlo h.1, h.2⟩

theorem lt_start_of_mem {r s : Region} (h : Laid hi lo (r :: rs)) (hs : s ∈ rs) :
    r.start < s.start := by
  obtain ⟨-, hsize, hrest⟩ := h
  have low : ∀ {lo : Nat} {rs : List Region}, Laid hi lo rs → s ∈ rs → lo ≤ s.start.toNat := by
    intro lo rs h hs
    induction rs generalizing lo with
    | nil => simp at hs
    | cons t ts ih =>
      rcases List.mem_cons.1 hs with rfl | hs
      · exact h.1
      · have ht : t.start.toNat ≤ t.stop := Nat.le_add_right ..
        exact Nat.le_trans h.1 (Nat.le_trans ht (ih h.2.2 hs))
  have := low hrest hs
  rw [UInt32.lt_iff_toNat_lt]
  rw [Region.stop] at this
  omega

/-- No two regions start at the same address. -/
theorem nodup (h : Laid hi lo rs) : (rs.map Region.start).Nodup := by
  induction rs generalizing lo with
  | nil => simp
  | cons r rs ih =>
    rw [List.map_cons, List.nodup_cons]
    refine ⟨fun hr => ?_, ih h.2.2⟩
    obtain ⟨s, hs, heq⟩ := List.mem_map.1 hr
    have := h.lt_start_of_mem hs
    rw [heq] at this
    exact absurd this (UInt32.lt_irrefl _)

/-! ## Allocation -/

/-- Where the regions follow each other from the cursor on, the search does not overflow. -/
theorem firstGap_ok (n : Nat) (h : Laid hi lo rs) : ∃ k, firstGap n lo rs = .ok k := by
  induction rs generalizing lo with
  | nil => exact ⟨lo, rfl⟩
  | cons r rs ih =>
    rw [firstGap, if_neg (Nat.not_lt.2 h.1)]
    split
    · exact ⟨lo, rfl⟩
    · exact ih h.2.2

/-- A search that does not overflow has met no region below its cursor. -/
theorem of_firstGap {n cursor k : Nat} (h : Laid hi lo rs) (hg : firstGap n cursor rs = .ok k)
    (hk : k ≤ hi) : Laid hi cursor rs := by
  cases rs with
  | nil => exact Nat.le_trans (le_of_firstGap hg) hk
  | cons r rs =>
    rw [firstGap] at hg
    split at hg
    · cases hg
    · exact ⟨Nat.not_lt.1 ‹_›, h.2⟩

/-- A region that fits its gap goes between its neighbours. -/
theorem insert {size cursor k : Nat} (new : Region) (h : Laid hi lo rs) (hlo : lo ≤ cursor)
    (hsize : 0 < size) (hnew : new.size = size) (hgap : firstGap size cursor rs = .ok k)
    (hstart : new.start.toNat = k) (hfits : k + size ≤ hi) :
    Laid hi lo (insertRegion new rs) ∧ (insertRegion new rs).Perm (new :: rs) := by
  have hstop : new.stop = k + size := by rw [Region.stop, hstart, hnew]
  induction rs generalizing lo cursor with
  | nil =>
    cases hgap
    exact ⟨⟨hstart ▸ hlo, hnew ▸ hsize, hstop ▸ hfits⟩, .refl _⟩
  | cons r rs ih =>
    obtain ⟨hr, hpos, hrest⟩ := h
    rw [firstGap] at hgap
    split at hgap
    · cases hgap
    · split at hgap
      · cases hgap
        -- The gap lies in front of `r`.
        have hlt : new.start < r.start := by
          rw [UInt32.lt_iff_toNat_lt]
          omega
        rw [insertRegion, if_pos hlt]
        exact ⟨⟨by omega, hnew ▸ hsize, by omega, hpos, hrest⟩, .refl _⟩
      · -- The gap lies behind `r`.
        have hge : r.start < new.start := by
          have := le_of_firstGap hgap
          rw [UInt32.lt_iff_toNat_lt]
          rw [Region.stop] at this
          omega
        have hne : ¬ new.start = r.start := fun he => UInt32.lt_irrefl _ (he ▸ hge)
        have hnlt : ¬ new.start < r.start := fun hl => UInt32.lt_irrefl _ (UInt32.lt_trans hge hl)
        obtain ⟨hi1, hi2⟩ := ih hrest (Nat.le_refl _) hgap
        rw [insertRegion, if_neg hnlt, if_neg hne]
        exact ⟨⟨hr, hpos, hi1⟩, (hi2.cons r).trans (.swap ..)⟩

/-! ## Release -/

theorem remove {a : Address} (h : Laid hi lo rs) : Laid hi lo (removeRegion a rs) := by
  induction rs generalizing lo with
  | nil => exact h
  | cons r rs ih =>
    rw [removeRegion]
    split
    · exact h.2.2.mono (Nat.le_trans h.1 (Nat.le_add_right ..))
    · exact ⟨h.1, h.2.1, ih h.2.2⟩

end Laid

theorem removeRegion_perm {a : Address} {rs : List Region} {r : Region}
    (h : rs.find? (fun r => r.start = a) = some r) : rs.Perm (r :: removeRegion a rs) := by
  induction rs with
  | nil => simp at h
  | cons s rs ih =>
    rw [List.find?_cons] at h
    by_cases hs : s.start = a
    · simp only [hs, decide_true] at h
      cases h
      rw [removeRegion, if_pos hs]
    · simp only [hs, decide_false] at h
      rw [removeRegion, if_neg hs]
      exact ((ih h).cons s).trans (.swap ..)

/-! ## The operations on slots -/

section
variable {m m' : Memory} {a : Address} {size : Nat}

/-- What is granted is the first gap that is large enough, cut to 32 bits. -/
theorem allocate_eq_ok : m.allocate size = .ok (a, m') ↔
    0 < size ∧ ∃ k, firstGap size addressSpaceStart m.regions = .ok k ∧ k + size ≤ m.limit ∧
      a = .ofNat k ∧ m' = { m with regions := insertRegion (.zeros a size) m.regions } := by
  rw [allocate]
  constructor
  · intro h
    split at h
    · cases h
    · rename_i hsize
      split at h
      · cases h
      · rename_i k hk
        split at h
        · cases h
        · cases h
          exact ⟨Nat.pos_of_ne_zero hsize, k, hk, by omega, rfl, rfl⟩
  · rintro ⟨hsize, k, hk, hroom, rfl, rfl⟩
    rw [if_neg (Nat.pos_iff_ne_zero.1 hsize), hk]
    exact if_neg (by omega)

theorem Apart.nodup_starts (h : m.Apart) : m.starts.Nodup := h.nodup

theorem Sound.apart (h : m.Sound) : m.Apart := h.laid.mono (Nat.zero_le _)

theorem apart_empty (capacity : UInt32) : (empty capacity).Apart := Nat.zero_le _

/-- A space stays as large as it is. -/
theorem apart_of_regions (hc : m'.capacity = m.capacity) (hr : Laid m.limit 0 m'.regions) :
    m'.Apart := by
  have hl : m'.limit = m.limit := by rw [limit, limit, hc]
  exact (hl ▸ hr : Laid m'.limit 0 m'.regions)

theorem apart_clear (m : Memory) : m.clear.Apart := Nat.zero_le _

theorem Apart.watched (h : m.Apart) (w : Bool) : ({ m with watched := w } : Memory).Apart :=
  apart_of_regions (m := m) rfl h

/-- Behind the last address, a gap is found behind all regions only; the new region is then put
before all of them, below the start of the space. -/
theorem Apart.insert_wrapped {k : Nat} {new : Region} (h : m.Apart) (hsize : 0 < size)
    (hgap : firstGap size addressSpaceStart m.regions = .ok k) (hroom : k + size ≤ m.limit)
    (hk : 4294967296 ≤ k) (hnew : new.size = size) (hstart : new.start = .ofNat k) :
    Laid m.limit 0 (insertRegion new m.regions) ∧
      (insertRegion new m.regions).Perm (new :: m.regions) := by
  have hcap := m.capacity.toNat_lt
  have hcut : (UInt32.ofNat k).toNat = k % 4294967296 := UInt32.toNat_ofNat'
  have hlaid := h.of_firstGap hgap (Nat.le_of_add_right_le hroom)
  have hstop : new.stop ≤ addressSpaceStart := by
    rw [Region.stop, hstart, hcut, hnew]
    simp only [limit, addressSpaceStart] at *
    omega
  have hfirst : insertRegion new m.regions = new :: m.regions := by
    cases hrs : m.regions with
    | nil => rfl
    | cons r rs =>
      rw [hrs] at hlaid
      have hlt : new.start < r.start := by
        have := hlaid.1
        rw [UInt32.lt_iff_toNat_lt]
        rw [Region.stop] at hstop
        omega
      rw [insertRegion, if_pos hlt]
  rw [hfirst]
  exact ⟨⟨Nat.zero_le _, hnew ▸ hsize, hlaid.mono hstop⟩, .refl _⟩

/-- **Allocation adds one region** and leaves all others as they are, however large the space is. -/
theorem Apart.allocate (h : m.Apart) (ha : m.allocate size = .ok (a, m')) :
    m'.Apart ∧ m'.regions.Perm (.zeros a size :: m.regions) := by
  obtain ⟨hsize, k, hgap, hroom, rfl, rfl⟩ := allocate_eq_ok.1 ha
  obtain ⟨hl, hp⟩ : Laid m.limit 0 (insertRegion (.zeros (.ofNat k) size) m.regions) ∧
      (insertRegion (.zeros (.ofNat k) size) m.regions).Perm (.zeros (.ofNat k) size :: m.regions) := by
    rcases Nat.lt_or_ge k 4294967296 with hk | hk
    · exact h.insert _ (Nat.zero_le _) hsize rfl hgap (UInt32.toNat_ofNat_of_lt' hk) hroom
    · exact h.insert_wrapped hsize hgap hroom hk rfl rfl
  exact ⟨apart_of_regions (m := m) rfl hl, hp⟩

/-- **Allocation adds one slot.** -/
theorem Apart.slots_allocate (h : m.Apart) (ha : m.allocate size = .ok (a, m')) :
    m'.slots.Perm ((a, size) :: m.slots) :=
  (h.allocate ha).2.map _

/-- No region starts where a new one does. -/
theorem Apart.fresh (h : m.Apart) (ha : m.allocate size = .ok (a, m')) : a ∉ m.starts :=
  (List.nodup_cons.1 ((starts_perm (h.slots_allocate ha)).nodup_iff.1 (h.allocate ha).1.nodup_starts)).1

theorem sound_empty {capacity : UInt32} (h : capacity.toNat ≤ 4294967296 - addressSpaceStart) :
    (empty capacity).Sound where
  laid := Nat.le_add_right ..
  addressable := by
    simp only [limit, empty, addressSpaceStart] at *
    omega

theorem Sound.of_regions (h : m.Sound) (hc : m'.capacity = m.capacity)
    (hr : Laid m.limit addressSpaceStart m'.regions) : m'.Sound := by
  have hl : m'.limit = m.limit := by rw [limit, limit, hc]
  exact ⟨hl ▸ hr, hl ▸ h.addressable⟩

theorem Sound.clear (h : m.Sound) : m.clear.Sound :=
  h.of_regions rfl (Nat.le_add_right ..)

theorem Sound.watched (h : m.Sound) (w : Bool) : ({ m with watched := w } : Memory).Sound :=
  h.of_regions rfl h.laid

theorem Sound.allocate (h : m.Sound) (ha : m.allocate size = .ok (a, m')) : m'.Sound := by
  obtain ⟨hsize, k, hgap, hroom, rfl, rfl⟩ := allocate_eq_ok.1 ha
  have hk : k < 4294967296 := by
    have := h.addressable
    omega
  exact h.of_regions rfl
    (h.laid.insert _ (Nat.le_refl _) hsize rfl hgap (UInt32.toNat_ofNat_of_lt' hk) hroom).1

/-- **Release takes one slot away.** -/
theorem Apart.free (h : m.Apart) (ha : a ∈ m.starts) :
    ∃ m' n, m.free a = .ok m' ∧ m'.Apart ∧ m.slots.Perm ((a, n) :: m'.slots) := by
  obtain ⟨r, hr⟩ : ∃ r, m.region? a = some r := by
    apply Option.isSome_iff_exists.1
    rw [region?, List.find?_isSome]
    obtain ⟨r, hr, rfl⟩ := List.mem_map.1 ha
    exact ⟨r, hr, by simp⟩
  have hs : r.start = a := by simpa using List.find?_some hr
  refine ⟨{ m with regions := removeRegion a m.regions }, r.size, ?_, ?_, ?_⟩
  · rw [Memory.free, hr]
    rfl
  · exact apart_of_regions (m := m) rfl h.remove
  · have hp := (removeRegion_perm hr).map fun r => (r.start, r.size)
    rw [List.map_cons, hs] at hp
    exact hp

end

/-! ## Access -/

/-- The regions are in the order of their addresses, and no two start at the same one. -/
def Ordered (m : Memory) : Prop := m.starts.Pairwise (· < ·)

/-- Regions that follow each other are in order. -/
theorem Laid.ordered {hi lo : Nat} {rs : List Region} (h : Laid hi lo rs) :
    (rs.map Region.start).Pairwise (· < ·) := by
  rw [List.pairwise_map]
  induction rs generalizing lo with
  | nil => exact .nil
  | cons r rs ih => exact List.pairwise_cons.2 ⟨fun _ hs => h.lt_start_of_mem hs, ih h.2.2⟩

theorem Apart.ordered {m : Memory} (h : m.Apart) : m.Ordered := Laid.ordered h

/-- To change one region is to change each region that starts where it does. -/
theorem modifyRegion_eq_map {a : Address} {f : Region → Region} {rs : List Region}
    (h : (rs.map Region.start).Pairwise (· < ·)) :
    modifyRegion a f rs = rs.map fun r => if r.start = a then f r else r := by
  rw [List.pairwise_map] at h
  induction rs with
  | nil => rfl
  | cons t rs ih =>
    obtain ⟨first, rest⟩ := List.pairwise_cons.1 h
    rw [modifyRegion, List.map_cons]
    by_cases ht : t.start = a
    · have others : rs.map (fun r => if r.start = a then f r else r) = rs := by
        refine (List.map_congr_left fun r hr => ?_).trans (List.map_id' rs)
        rw [if_neg fun he => UInt32.lt_irrefl _ (ht ▸ he ▸ first r hr)]
      rw [if_pos ht, if_pos ht, others]
    · rw [if_neg ht, if_neg ht, ih rest]

theorem map_modifyRegion {α : Type} {a : Address} {f : Region → Region} {g : Region → α}
    (h : ∀ r, g (f r) = g r) (rs : List Region) : (modifyRegion a f rs).map g = rs.map g := by
  induction rs with
  | nil => rfl
  | cons r rs ih =>
    rw [modifyRegion]
    split
    · rw [List.map_cons, h, List.map_cons]
    · rw [List.map_cons, ih, List.map_cons]

theorem setBytes_slot (bs : List UInt8) : ∀ (r : Region) (i : Nat),
    (r.setBytes i bs).start = r.start ∧ (r.setBytes i bs).size = r.size := by
  induction bs with
  | nil => exact fun r i => ⟨rfl, rfl⟩
  | cons b bs ih => exact fun r i => ih (r.setByte i b) (i + 1)

theorem Laid.modify {hi : Nat} {a : Address} {f : Region → Region}
    (hf : ∀ r, (f r).start = r.start ∧ (f r).size = r.size) : ∀ {lo : Nat} {rs : List Region},
    Laid hi lo rs → Laid hi lo (modifyRegion a f rs)
  | _, [], h => h
  | lo, r :: rs, h => by
    rw [modifyRegion]
    split
    · refine ⟨(hf r).1 ▸ h.1, (hf r).2 ▸ h.2.1, ?_⟩
      rw [Region.stop, (hf r).1, (hf r).2]
      exact h.2.2
    · exact ⟨h.1, h.2.1, Laid.modify hf h.2.2⟩

/-- **A write leaves the slots as they are.** -/
theorem writeBytes_slots {m m' : Memory} {a : Address} {bs : List UInt8}
    (h : m.writeBytes a bs = .ok m') :
    m'.slots = m.slots ∧ (m.Apart → m'.Apart) ∧ (m.Sound → m'.Sound) := by
  unfold writeBytes at h
  split at h
  · cases h
  · rename_i r i hr
    cases h
    refine ⟨map_modifyRegion (fun s => ?_) _, fun hm => ?_, fun hm => hm.of_regions rfl ?_⟩
    · rw [(setBytes_slot bs s i).1, (setBytes_slot bs s i).2]
    · exact apart_of_regions (m := m) rfl (hm.modify fun s => setBytes_slot bs s i)
    · exact hm.laid.modify fun s => setBytes_slot bs s i

theorem mem_of_lastBelow {a : Address} {rs : List Region} {r : Region}
    (h : lastBelow a rs = some r) : r ∈ rs := by
  induction rs with
  | nil => cases h
  | cons s ss ih =>
    rw [lastBelow] at h
    split at h
    · cases h
    · split at h
      · rename_i t ht
        cases h
        exact List.mem_cons_of_mem _ (ih ht)
      · cases h
        exact List.mem_cons_self

theorem lastBelow_map {f : Region → Region} (hf : ∀ r, (f r).start = r.start) (a : Address)
    (rs : List Region) : lastBelow a (rs.map f) = (lastBelow a rs).map f := by
  induction rs with
  | nil => rfl
  | cons r rs ih =>
    simp only [List.map_cons, lastBelow, hf, ih]
    split
    · rfl
    · cases lastBelow a rs <;> rfl

/-- A region is found where it was after it has changed in its bytes. -/
theorem Ordered.locate_modify {m : Memory} (h : m.Ordered) {f : Region → Region}
    (hf : ∀ r, (f r).start = r.start ∧ (f r).size = r.size) (a x : Address) (n : Nat) :
    locate { m with regions := modifyRegion a f m.regions } x n =
      (m.locate x n).map fun s => (if s.1.start = a then f s.1 else s.1, s.2) := by
  have shape : ∀ r, (if r.start = a then f r else r).start = r.start ∧
      (if r.start = a then f r else r).size = r.size := by
    intro r
    split
    · exact hf r
    · exact ⟨rfl, rfl⟩
  rw [locate, locate, modifyRegion_eq_map h, lastBelow_map fun r => (shape r).1]
  cases lastBelow x m.regions with
  | none => rfl
  | some r =>
    simp only [Option.map_some, (shape r).1, (shape r).2]
    split <;> rfl

theorem locate_eq_some {m : Memory} {a : Address} {n i : Nat} {r : Region} :
    m.locate a n = some (r, i) ↔
      lastBelow a m.regions = some r ∧ a.toNat - r.start.toNat = i ∧ i + n ≤ r.size := by
  unfold locate
  cases lastBelow a m.regions with
  | none => simp
  | some s =>
    simp only [Option.some.injEq, Option.ite_none_right_eq_some, Prod.mk.injEq]
    constructor
    · rintro ⟨hfit, rfl, rfl⟩
      exact ⟨rfl, rfl, hfit⟩
    · rintro ⟨rfl, rfl, hfit⟩
      exact ⟨hfit, rfl, rfl⟩

/-- **A word that has been written is read back.** -/
theorem Apart.readWord_writeWord {m m' : Memory} {a : Address} {w : Word} (h : m.Apart)
    (hw : m.writeWord a w = .ok m') : m'.readWord a = .ok w := by
  obtain ⟨b₀, b₁, b₂, b₃, hb, hword⟩ := w.ofBytes_bytes
  rw [writeWord, hb, writeBytes] at hw
  split at hw
  · cases hw
  · rename_i r i hl
    cases hw
    have found : Memory.locate
        { m with regions := modifyRegion r.start (·.setBytes i [b₀, b₁, b₂, b₃]) m.regions } a 4 =
          some (r.setBytes i [b₀, b₁, b₂, b₃], i) := by
      rw [Ordered.locate_modify (Laid.ordered h) fun s => setBytes_slot _ s i]
      rw [show m.locate a 4 = some (r, i) from hl, Option.map_some, if_pos rfl]
    have byte : ∀ k (hk : k < 4), (r.setBytes i [b₀, b₁, b₂, b₃]).byte (i + k) =
        [b₀, b₁, b₂, b₃][k] := fun k hk => Region.byte_setBytes hk
    rw [readWord, word?, found]
    simp only [Option.map_some, byte 1 (by decide), byte 2 (by decide), byte 3 (by decide)]
    rw [show (r.setBytes i [b₀, b₁, b₂, b₃]).byte i = b₀ from byte 0 (by decide)]
    exact congrArg Except.ok hword

/-! ## What becomes of a memory -/

/-- What operations make of a memory: its space is the same and watched as before, and regions that
follow each other still do. -/
structure Evolves (m m' : Memory) : Prop where
  capacity : m'.capacity = m.capacity
  watched : m'.watched = m.watched
  sound : m.Sound → m'.Sound
  apart : m.Apart → m'.Apart

namespace Evolves
variable {m m' m'' : Memory} {a : Address}

theorem refl (m : Memory) : m.Evolves m := ⟨rfl, rfl, id, id⟩

theorem trans (h : m.Evolves m') (h' : m'.Evolves m'') : m.Evolves m'' :=
  ⟨h'.capacity.trans h.capacity, h'.watched.trans h.watched, fun hm => h'.sound (h.sound hm),
    fun hm => h'.apart (h.apart hm)⟩

theorem of_allocate {size : Nat} (h : m.allocate size = .ok (a, m')) : m.Evolves m' := by
  have space : m'.capacity = m.capacity ∧ m'.watched = m.watched := by
    obtain ⟨-, k, -, -, -, rfl⟩ := allocate_eq_ok.1 h
    exact ⟨rfl, rfl⟩
  exact ⟨space.1, space.2, fun hm => hm.allocate h, fun hm => (hm.allocate h).1⟩

theorem of_free (h : m.free a = .ok m') : m.Evolves m' := by
  unfold Memory.free at h
  split at h <;> cases h
  exact ⟨rfl, rfl, fun hm => hm.of_regions rfl hm.laid.remove,
    fun hm => apart_of_regions (m := m) rfl hm.remove⟩

theorem of_writeBytes {bs : List UInt8} (h : m.writeBytes a bs = .ok m') : m.Evolves m' := by
  have space : m'.capacity = m.capacity ∧ m'.watched = m.watched := by
    unfold writeBytes at h
    split at h <;> cases h
    exact ⟨rfl, rfl⟩
  obtain ⟨-, apart, sound⟩ := writeBytes_slots h
  exact ⟨space.1, space.2, sound, apart⟩

end Evolves

end Memory

end MiniC
