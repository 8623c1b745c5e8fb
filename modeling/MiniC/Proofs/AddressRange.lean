/-
  The range of addresses.

  An address is a number of 32 bits, while the search for a gap and the limit of the space are not
  bounded: the space of a capacity near 2 ^ 32 goes on behind the last address.  An allocation is
  `Contained` if the new region starts in the space, ends before 2 ^ 32, touches no live region and
  replaces none.

  * `Low.allocate_contained_iff`: where the live regions are below 2 ^ 32, what is granted is at the
    lowest fit, cut to 32 bits, and is contained exactly if that fit ends below 2 ^ 32.
  * `Obeys.low`: as long as every region that is handed out is contained, the live regions stay in
    their order below 2 ^ 32, whatever is asked of the memory.
  * `allocate_contained_by_capacity`: the capacities for which every allocation of every history is
    contained are those up to 2 ^ 32 - 0x1000; in a larger space NULL is handed out.
-/
import MiniC.Proofs.Allocation

namespace MiniC
namespace Memory

/-- The number of addresses. -/
def addressCount : Nat := 4294967296

/-- `m'` is `m` with a region of `n` bytes at `a` that is in the range of addresses from the start
of the space on, touches no live region and replaces none. -/
structure Contained (m : Memory) (n : Nat) (a : Address) (m' : Memory) : Prop where
  start : addressSpaceStart ≤ a.toNat
  stop : a.toNat + n ≤ addressCount
  apart : ∀ x, a.toNat ≤ x → x < a.toNat + n → ∀ r ∈ m.regions, ¬ r.Covers x
  kept : ∃ r : Region, r.start = a ∧ r.size = n ∧ m'.regions.Perm (r :: m.regions)

/-- A contained region is not at NULL. -/
theorem Contained.ne_null {m m' : Memory} {n : Nat} {a : Address} (h : m.Contained n a m') :
    a ≠ 0 := by
  rintro rfl
  exact absurd h.start (by decide)

/-- The live regions follow each other from the start of the space on, below 2 ^ 32. -/
def Low (m : Memory) : Prop := Laid addressCount addressSpaceStart m.regions

/-- Every region that is handed out for the requests is contained. -/
def Obeys (m : Memory) : List Request → Prop
  | [] => True
  | q :: qs =>
    (∀ n a m', q = .allocate n → m.allocate n = .ok (a, m') → m.Contained n a m') ∧
      (m.serve q).Obeys qs

/-! ## One request -/

section
variable {m m' : Memory} {n : Nat} {a : Address}

/-- The first gap is free. -/
theorem Low.firstGap_free {k : Nat} (h : m.Low) (hgap : firstGap n addressSpaceStart m.regions = .ok k)
    (x : Nat) (hlo : k ≤ x) (hhi : x < k + n) : ∀ r ∈ m.regions, ¬ r.Covers x := by
  intro r hr hc
  have := h.firstGap_between hgap r hr
  have := hc.1
  have := hc.2
  omega

/-- A fit that ends behind 2 ^ 32, once its address is cut, starts below the space or still ends
behind 2 ^ 32. -/
theorem start_or_stop_out {k : Nat} (hk : k + n ≤ m.limit) (hout : addressCount < k + n) :
    (UInt32.ofNat k).toNat < addressSpaceStart ∨
      addressCount < (UInt32.ofNat k).toNat + n := by
  have hcap := m.capacity.toNat_lt
  rw [UInt32.toNat_ofNat']
  simp only [limit, addressCount, addressSpaceStart] at *
  omega

theorem toNat_of_room {k : Nat} (hn : 0 < n) (hk : k + n ≤ addressCount) :
    (UInt32.ofNat k).toNat = k := by
  refine UInt32.toNat_ofNat_of_lt' ?_
  rw [UInt32.size, ← addressCount]
  omega

/-- The region in the first gap is contained if the gap has room for it below 2 ^ 32. -/
theorem Low.contained_iff {k : Nat} (h : m.Low) (ha : m.allocate n = .ok (a, m'))
    (hgap : firstGap n addressSpaceStart m.regions = .ok k) :
    m.Contained n a m' ↔ k + n ≤ addressCount := by
  obtain ⟨hn, k', hgap', hroom, rfl, rfl⟩ := allocate_eq_ok.1 ha
  obtain rfl : k = k' := Except.ok.inj (hgap.symm.trans hgap')
  refine ⟨fun hc => ?_, fun hin => ?_⟩
  · by_contra hout
    rcases start_or_stop_out hroom (by omega) with hstart | hstop
    · exact absurd hc.start (by omega)
    · exact absurd hc.stop (by omega)
  · have hcast := toNat_of_room hn hin
    have hperm := (h.insert (.zeros (.ofNat k) n) (Nat.le_refl _) hn rfl hgap hcast hin).2
    refine ⟨?_, ?_, ?_, .zeros _ n, rfl, rfl, hperm⟩ <;> rw [hcast]
    · exact le_of_firstGap hgap
    · exact hin
    · exact h.firstGap_free hgap

/-- **What is granted is the lowest fit**, cut to 32 bits; it is contained if that fit ends below
2 ^ 32, and only then. -/
theorem Low.allocate_contained_iff (h : m.Low) (ha : m.allocate n = .ok (a, m')) :
    ∃ k, m.Fits n k ∧ (∀ j, m.Fits n j → k ≤ j) ∧ a = .ofNat k ∧
      (m.Contained n a m' ↔ k + n ≤ addressCount) := by
  obtain ⟨hn, k, hgap, hroom, hcut, -⟩ := allocate_eq_ok.1 ha
  refine ⟨k, ⟨le_of_firstGap hgap, hroom, h.firstGap_free hgap⟩, ?_, hcut, h.contained_iff ha hgap⟩
  rintro j ⟨hlo, -, hfree⟩
  exact h.firstGap_le hgap hn hlo hfree

/-- A contained region goes between its neighbours. -/
theorem Low.allocate (h : m.Low) (ha : m.allocate n = .ok (a, m')) (hc : m.Contained n a m') :
    m'.Low := by
  obtain ⟨hn, k, hgap, -, rfl, rfl⟩ := allocate_eq_ok.1 ha
  have hin := (h.contained_iff ha hgap).1 hc
  exact (h.insert (.zeros _ n) (Nat.le_refl _) hn rfl hgap (toNat_of_room hn hin) hin).1

theorem Low.writeBytes {bs : List UInt8} (h : m.Low) (hw : m.writeBytes a bs = .ok m') :
    m'.Low := by
  unfold Memory.writeBytes at hw
  split at hw
  · cases hw
  · cases hw
    exact h.modify fun s => setBytes_slot bs s _

/-- A request leaves the regions in their order below 2 ^ 32 if what it is granted is contained. -/
theorem Low.serve (h : m.Low) (q : Request)
    (hq : ∀ n a m', q = .allocate n → m.allocate n = .ok (a, m') → m.Contained n a m') :
    (m.serve q).Low := by
  cases q with
  | allocate n =>
    rw [Memory.serve]
    split
    · exact h.allocate ‹_› (hq n _ _ rfl ‹_›)
    · exact h
  | free a =>
    rw [Memory.serve]
    split
    · rename_i hf
      rw [Memory.free] at hf
      split at hf
      · cases hf
        exact h.remove
      · cases hf
    · exact h
  | write a b =>
    rw [Memory.serve]
    split
    · exact h.writeBytes ‹_›
    · exact h
  | writeWord a w =>
    rw [Memory.serve]
    split
    · exact h.writeBytes ‹_›
    · exact h
  | clear => exact (by decide : addressSpaceStart ≤ addressCount)

end

/-! ## Histories -/

/-- The limit of a space does not move. -/
theorem limit_serve (m : Memory) (q : Request) : (m.serve q).limit = m.limit := by
  rw [limit, limit, (evolves_serve m q).capacity]

/-- **Contained regions stay in order.**  As long as what is handed out is contained, the regions
are below 2 ^ 32. -/
theorem Obeys.low {m : Memory} {qs : List Request} (h : m.Obeys qs) (hm : m.Low) :
    (m.serveAll qs).Low := by
  induction qs generalizing m with
  | nil => exact hm
  | cons q qs ih => exact ih h.2 (hm.serve q h.1)

/-- In a space that ends below 2 ^ 32 every request is granted a contained region or none. -/
theorem Low.obeys {m : Memory} (hm : m.Low) (hlim : m.limit ≤ addressCount) (qs : List Request) :
    m.Obeys qs := by
  induction qs generalizing m with
  | nil => trivial
  | cons q qs ih =>
    have hq : ∀ n a m', q = .allocate n → m.allocate n = .ok (a, m') → m.Contained n a m' := by
      intro n a m' _ ha
      obtain ⟨-, k, hgap, hroom, -⟩ := allocate_eq_ok.1 ha
      exact (hm.contained_iff ha hgap).2 (by omega)
    exact ⟨hq, ih (hm.serve q hq) (limit_serve m q ▸ hlim)⟩

theorem low_empty (capacity : UInt32) (watched : Bool) : ({ empty capacity with watched }).Low :=
  (by decide : addressSpaceStart ≤ addressCount)

/-- A space that goes on behind 2 ^ 32 is filled up to there by one region; the next one is at
NULL. -/
theorem null_handed_out {capacity : UInt32} (hc : 4294967296 - 4096 < capacity.toNat)
    (watched : Bool) : ∃ m m',
    ({ empty capacity with watched } : Memory).allocate (4294967296 - 4096) = .ok (0x1000, m) ∧
      m.allocate 1 = .ok (0, m') := by
  refine ⟨_, _, allocate_eq_ok.2 ⟨by decide, 4096, rfl, ?_, rfl, rfl⟩,
    allocate_eq_ok.2 ⟨by decide, 4294967296, ?_, ?_, rfl, rfl⟩⟩
  · change 4096 + (4294967296 - 4096) ≤ 4096 + capacity.toNat
    omega
  · change firstGap 1 4096 [.zeros 4096 (4294967296 - 4096)] = .ok 4294967296
    decide +kernel
  · change 4294967296 + 1 ≤ 4096 + capacity.toNat
    omega

/-- **The range of addresses is respected up to a capacity of 2 ^ 32 - 0x1000.**  For these
capacities, and for no others, every region that any history of requests is handed out is in the
range, apart from the live ones, and replaces none.  For every capacity, as long as that was so,
the next allocation is granted the lowest fit, cut to 32 bits, and it is so again exactly if that
fit ends below 2 ^ 32. -/
theorem allocate_contained_by_capacity (capacity : UInt32) :
    ((∀ watched qs, ({ empty capacity with watched }).Obeys qs) ↔
      capacity.toNat ≤ 4294967296 - 4096) ∧
    ∀ watched qs, ({ empty capacity with watched }).Obeys qs → ∀ n a m',
      (serveAll { empty capacity with watched } qs).allocate n = .ok (a, m') →
      ∃ k, (serveAll { empty capacity with watched } qs).Fits n k ∧
        (∀ j, (serveAll { empty capacity with watched } qs).Fits n j → k ≤ j) ∧
        a = .ofNat k ∧
        ((serveAll { empty capacity with watched } qs).Contained n a m' ↔
          k + n ≤ 4294967296) := by
  refine ⟨⟨fun hall => ?_, fun hc watched qs => ?_⟩, fun watched qs hobeys n a m' ha => ?_⟩
  · by_contra hc
    obtain ⟨m, m', h1, h2⟩ := null_handed_out (by omega : 4294967296 - 4096 < capacity.toNat) false
    have h := hall false [.allocate (4294967296 - 4096), .allocate 1]
    have hm : serve { empty capacity with watched := false } (.allocate (4294967296 - 4096)) = m := by
      rw [serve, h1]
    have hsecond := (hm ▸ h.2).1 1 0 m' rfl h2
    exact hsecond.ne_null rfl
  · refine (low_empty capacity watched).obeys ?_ qs
    simp only [limit, empty, addressSpaceStart, addressCount]
    omega
  · exact (hobeys.low (low_empty capacity watched)).allocate_contained_iff ha

/-- In the widest space, after all addresses up to the last one have been handed out, four bytes
more are granted: their lowest fit is at 2 ^ 32, and they are not contained. -/
theorem allocate_contained_by_capacity_widest :
    (empty 4294967295).Obeys [.allocate 4294963200] ∧
      ∃ m', (serveAll (empty 4294967295) [.allocate 4294963200]).allocate 4 = .ok (0, m') ∧
        ¬ (serveAll (empty 4294967295) [.allocate 4294963200]).Contained 4 0 m' := by
  have hlow : (empty 4294967295).Low := low_empty 4294967295 false
  have hobeys : (empty 4294967295).Obeys [.allocate 4294963200] := by
    refine ⟨?_, trivial⟩
    rintro n a m' ⟨⟩ ha
    exact (hlow.contained_iff ha rfl).2 (by decide)
  have hgrant : (serveAll (empty 4294967295) [.allocate 4294963200]).allocate 4 =
      .ok (0, serveAll (empty 4294967295) [.allocate 4294963200, .allocate 4]) := rfl
  obtain ⟨k, ⟨hstart, -, -⟩, -, hk, hiff⟩ :=
    (allocate_contained_by_capacity 4294967295).2 false [.allocate 4294963200] hobeys 4 0 _ hgrant
  have hcut : k % 4294967296 = 0 := by
    have := congrArg UInt32.toNat hk
    rw [UInt32.toNat_ofNat'] at this
    exact this.symm
  rw [addressSpaceStart] at hstart
  refine ⟨hobeys, _, hgrant, fun hc => ?_⟩
  have := hiff.1 hc
  omega

/-- Not every region that is handed out is contained: in the widest space the second one is at
NULL. -/
theorem not_obeys_widest :
    ¬ (empty 4294967295).Obeys [.allocate 4294963200, .allocate 4] := by
  rintro ⟨-, h, -⟩
  exact (h 4 0 _ rfl rfl).ne_null rfl

end Memory

end MiniC
