/-
  Allocation takes the lowest gap.

  A memory is served requests one after the other: regions are allocated and freed, bytes and words
  are written, and all regions are given up.  Whatever the requests, the regions lie apart inside
  the space (`Orderly`).  `n` bytes fit at an address if all `n` addresses from it on are in the
  space and in no region (`Fits`); this says nothing of how a gap is searched for.

  * `Laid.firstGap_between` and `Laid.firstGap_le`: the search ends at a gap between regions, and
    passes over none that is large enough.
  * `allocate_takes_lowest_fit`: after any requests the memory is orderly, and allocation succeeds
    exactly where something fits, then takes the lowest address at which it does; to free the new
    region brings back the memory as it was.
-/
import MiniC.Proofs.Calls
import MiniC.Proofs.SourceText

namespace MiniC

/-- The address is one of the region's. -/
def Region.Covers (r : Region) (x : Nat) : Prop := r.start.toNat ≤ x ∧ x < r.stop

theorem Region.bytes_zeros (a : Address) (n : Nat) :
    (Region.zeros a n).bytes n = List.replicate n 0 := by
  have hbyte : ∀ i, (Region.zeros a n).byte i = 0 := fun i => Std.TreeMap.getD_emptyc
  rw [List.eq_replicate_iff, Region.bytes]
  refine ⟨by simp [Region.zeros], fun b hb => ?_⟩
  obtain ⟨i, -, rfl⟩ := List.mem_map.1 hb
  exact hbyte i

namespace Memory

/-! ## What is asked of a memory -/

/-- What a memory can be asked for. -/
inductive Request where
  | allocate (size : Nat)
  | free (a : Address)
  | write (a : Address) (b : UInt8)
  | writeWord (a : Address) (w : Word)
  | clear

/-- The memory after a request; a request that is refused leaves it as it is. -/
def serve (m : Memory) : Request → Memory
  | .allocate size => match m.allocate size with | .ok (_, m') => m' | .error _ => m
  | .free a => match m.free a with | .ok m' => m' | .error _ => m
  | .write a b => match m.write a b with | .ok m' => m' | .error _ => m
  | .writeWord a w => match m.writeWord a w with | .ok m' => m' | .error _ => m
  | .clear => m.clear

/-- The memory after requests, in order. -/
def serveAll (m : Memory) (qs : List Request) : Memory := qs.foldl serve m

/-- Requests lead to `m` from a space without regions. -/
def Served (capacity : UInt32) (m : Memory) : Prop :=
  ∃ watched qs, serveAll { empty capacity with watched } qs = m

/-- All `n` addresses from `k` on are in the space and in no region. -/
def Fits (m : Memory) (n k : Nat) : Prop :=
  addressSpaceStart ≤ k ∧ k + n ≤ m.limit ∧
    ∀ x, k ≤ x → x < k + n → ∀ r ∈ m.regions, ¬ r.Covers x

/-- The regions are not empty, lie apart in the order of their addresses and inside the space, and
their bytes are counted. -/
structure Orderly (m : Memory) : Prop where
  nonempty : ∀ r ∈ m.regions, 0 < r.size
  apart : m.regions.Pairwise fun r s => r.start < s.start ∧ ∀ x, r.Covers x → ¬ s.Covers x
  inside : ∀ r ∈ m.regions, addressSpaceStart ≤ r.start.toNat ∧ r.stop ≤ m.limit
  counted : m.allocatedBytes = (m.regions.map Region.size).foldr (· + ·) 0
  bounded : m.allocatedBytes ≤ m.capacity.toNat

/-- `m'` is `m` with one more region, of `n` zeros, at the lowest address at which they fit. -/
structure Placed (m : Memory) (n : Nat) (a : Address) (m' : Memory) : Prop where
  fits : m.Fits n a.toNat
  lowest : ∀ k, m.Fits n k → a.toNat ≤ k
  others : ∃ r : Region, r.start = a ∧ r.size = n ∧ r.bytes n = List.replicate n 0 ∧
    m'.regions.Perm (r :: m.regions)
  space : m'.capacity = m.capacity ∧ m'.watched = m.watched

/-! ## Regions side by side -/

namespace Laid
variable {hi lo : Nat} {rs : List Region}

theorem le (h : Laid hi lo rs) : lo ≤ hi := by
  induction rs generalizing lo with
  | nil => exact h
  | cons r rs ih =>
    have hr : r.start.toNat ≤ r.stop := Nat.le_add_right ..
    exact Nat.le_trans h.1 (Nat.le_trans hr (ih h.2.2))

theorem of_mem {r : Region} (h : Laid hi lo rs) (hr : r ∈ rs) :
    lo ≤ r.start.toNat ∧ 0 < r.size ∧ r.stop ≤ hi := by
  induction rs generalizing lo with
  | nil => simp at hr
  | cons s rs ih =>
    rcases List.mem_cons.1 hr with rfl | hr
    · exact ⟨h.1, h.2.1, h.2.2.le⟩
    · have hs : s.start.toNat ≤ s.stop := Nat.le_add_right ..
      obtain ⟨h1, h2, h3⟩ := ih h.2.2 hr
      exact ⟨Nat.le_trans h.1 (Nat.le_trans hs h1), h2, h3⟩

theorem pairwise (h : Laid hi lo rs) : rs.Pairwise fun r s => r.stop ≤ s.start.toNat := by
  induction rs generalizing lo with
  | nil => exact .nil
  | cons r rs ih => exact .cons (fun s hs => (h.2.2.of_mem hs).1) (ih h.2.2)

theorem totalSize_le (h : Laid hi lo rs) : lo + totalSize rs ≤ hi := by
  induction rs generalizing lo with
  | nil => exact h
  | cons r rs ih =>
    have := ih h.2.2
    rw [totalSize]
    rw [Region.stop] at this
    have := h.1
    omega

/-! ## The search for a gap -/

/-- The search ends between two regions: each one lies wholly below or wholly above the gap. -/
theorem firstGap_between {n k : Nat} (h : Laid hi lo rs) (hg : firstGap n lo rs = .ok k) :
    ∀ r ∈ rs, r.stop ≤ k ∨ k + n ≤ r.start.toNat := by
  induction rs generalizing lo with
  | nil => simp
  | cons s rs ih =>
    intro r hr
    rw [firstGap, if_neg (Nat.not_lt.2 h.1)] at hg
    split at hg
    · rename_i hgap
      right
      have hs : lo + n ≤ s.start.toNat := by
        have := h.1
        omega
      cases hg
      rcases List.mem_cons.1 hr with rfl | hr
      · exact hs
      · have := (h.2.2.of_mem hr).1
        rw [Region.stop] at this
        omega
    · rcases List.mem_cons.1 hr with rfl | hr
      · exact .inl (le_of_firstGap hg)
      · exact ih h.2.2 hg r hr

/-- The search passes over no gap: what is free above `lo` does not begin before its end. -/
theorem firstGap_le {n g k : Nat} (h : Laid hi lo rs) (hg : firstGap n lo rs = .ok g) (hn : 0 < n)
    (hk : lo ≤ k) (hfree : ∀ x, k ≤ x → x < k + n → ∀ r ∈ rs, ¬ r.Covers x) : g ≤ k := by
  induction rs generalizing lo with
  | nil =>
    cases hg
    exact hk
  | cons r rs ih =>
    rw [firstGap, if_neg (Nat.not_lt.2 h.1)] at hg
    split at hg
    · cases hg
      exact hk
    · rename_i hgap
      refine ih h.2.2 hg ?_ fun x h1 h2 s hs => hfree x h1 h2 s (List.mem_cons_of_mem r hs)
      -- A start below the end of `r` is in `r`, or it is below `r` and reaches its first byte.
      by_contra hlt
      have hr := h.2.1
      rcases Nat.lt_or_ge k r.start.toNat with hbelow | habove
      · refine hfree r.start.toNat (Nat.le_of_lt hbelow) (by omega) r (by simp) ⟨Nat.le_refl _, ?_⟩
        rw [Region.stop]
        omega
      · exact hfree k (Nat.le_refl k) (by omega) r (by simp) ⟨habove, by omega⟩

end Laid

/-- A new region is found again. -/
theorem removeRegion_insertRegion {new : Region} {rs : List Region}
    (h : ∀ r ∈ rs, r.start ≠ new.start) :
    removeRegion new.start (insertRegion new rs) = rs := by
  induction rs with
  | nil => rw [insertRegion, removeRegion, if_pos rfl]
  | cons r rs ih =>
    have hr : ¬ new.start = r.start := fun he => h r (by simp) he.symm
    have hrest := ih fun s hs => h s (List.mem_cons_of_mem r hs)
    rw [insertRegion, if_neg hr]
    split
    · rw [removeRegion, if_pos rfl]
    · rw [removeRegion, if_neg (fun he => hr he.symm), hrest]

/-! ## Allocation -/

section
variable {m m' : Memory} {n : Nat} {a : Address}

/-- Where all addresses have 32 bits, allocation takes the gap that is found, if it ends below the
limit. -/
theorem allocate_ok_iff (h : m.Sound) : m.allocate n = .ok (a, m') ↔
    0 < n ∧ firstGap n addressSpaceStart m.regions = .ok a.toNat ∧ a.toNat + n ≤ m.limit ∧
      m' = { m with regions := insertRegion (.zeros a n) m.regions } := by
  have hlim := h.addressable
  rw [allocate_eq_ok]
  constructor
  · rintro ⟨hn, k, hgap, hroom, rfl, rfl⟩
    have hcast : (UInt32.ofNat k).toNat = k :=
      UInt32.toNat_ofNat_of_lt' (by rw [UInt32.size]; omega)
    rw [hcast]
    exact ⟨hn, hgap, hroom, rfl⟩
  · rintro ⟨hn, hgap, hroom, rfl⟩
    exact ⟨hn, _, hgap, hroom, by rw [UInt32.ofNat_toNat], rfl⟩

theorem Sound.firstGap_fits {k : Nat} (h : m.Sound)
    (hgap : firstGap n addressSpaceStart m.regions = .ok k) (hroom : k + n ≤ m.limit) :
    m.Fits n k := by
  refine ⟨le_of_firstGap hgap, hroom, fun x h1 h2 r hr hc => ?_⟩
  have := h.laid.firstGap_between hgap r hr
  have := hc.1
  have := hc.2
  omega

/-- Allocation succeeds exactly where something fits. -/
theorem Sound.allocate_iff (h : m.Sound) :
    (∃ a m', m.allocate n = .ok (a, m')) ↔ 0 < n ∧ ∃ k, m.Fits n k := by
  constructor
  · rintro ⟨a, m', ha⟩
    obtain ⟨hn, hgap, hroom, -⟩ := (allocate_ok_iff h).1 ha
    exact ⟨hn, _, h.firstGap_fits hgap hroom⟩
  · rintro ⟨hn, k, hlo, hhi, hfree⟩
    obtain ⟨g, hgap⟩ := h.laid.firstGap_ok n
    have hle := h.laid.firstGap_le hgap hn hlo hfree
    exact ⟨_, _, allocate_eq_ok.2 ⟨hn, g, hgap, by omega, rfl, rfl⟩⟩

theorem Sound.placed (h : m.Sound) (ha : m.allocate n = .ok (a, m')) : m.Placed n a m' := by
  obtain ⟨hn, hgap, hroom, rfl⟩ := (allocate_ok_iff h).1 ha
  refine ⟨h.firstGap_fits hgap hroom, ?_, ⟨.zeros a n, rfl, rfl, Region.bytes_zeros a n, ?_⟩,
    rfl, rfl⟩
  · rintro k ⟨hlo, -, hfree⟩
    exact h.laid.firstGap_le hgap hn hlo hfree
  · exact (h.apart.allocate ha).2

/-- To free a region that has just been allocated undoes the allocation. -/
theorem Sound.free_allocated (h : m.Sound) (ha : m.allocate n = .ok (a, m')) :
    m'.free a = .ok m := by
  have hfits := (h.placed ha).fits
  have hperm := (h.apart.allocate ha).2
  obtain ⟨hn, -, -, rfl⟩ := (allocate_ok_iff h).1 ha
  have hnew : ∀ r ∈ m.regions, r.start ≠ (Region.zeros a n).start := by
    intro r hr he
    have hs : r.start.toNat = a.toNat := congrArg UInt32.toNat he
    have hsize := (h.laid.of_mem hr).2.1
    refine hfits.2.2 a.toNat (Nat.le_refl _) (by omega) r hr ⟨Nat.le_of_eq hs, ?_⟩
    rw [Region.stop]
    omega
  have hmem : Region.zeros a n ∈ insertRegion (.zeros a n) m.regions :=
    hperm.mem_iff.2 List.mem_cons_self
  have hfound : (region? { m with regions := insertRegion (.zeros a n) m.regions } a).isSome := by
    rw [region?, List.find?_isSome]
    exact ⟨_, hmem, by simp [Region.zeros]⟩
  rw [Memory.free, if_pos hfound]
  exact congrArg (fun rs => Except.ok { m with regions := rs }) (removeRegion_insertRegion hnew)

end

/-! ## Requests -/

theorem evolves_serve (m : Memory) (q : Request) : m.Evolves (m.serve q) := by
  cases q with
  | allocate size =>
    rw [serve]
    split
    · exact .of_allocate ‹_›
    · exact .refl m
  | free a =>
    rw [serve]
    split
    · exact .of_free ‹_›
    · exact .refl m
  | write a b =>
    rw [serve]
    split
    · exact .of_writeBytes ‹_›
    · exact .refl m
  | writeWord a w =>
    rw [serve]
    split
    · exact .of_writeBytes ‹_›
    · exact .refl m
  | clear => exact ⟨rfl, rfl, Sound.clear, fun _ => apart_clear m⟩

/-- Requests leave the space as it is and the regions side by side. -/
theorem evolves_serveAll (m : Memory) (qs : List Request) : m.Evolves (m.serveAll qs) := by
  induction qs generalizing m with
  | nil => exact .refl m
  | cons q qs ih => exact (evolves_serve m q).trans (ih (m.serve q))

theorem allocatedBytes_eq (rs : List Region) :
    totalSize rs = (rs.map Region.size).foldr (· + ·) 0 := by
  induction rs with
  | nil => rfl
  | cons r rs ih => rw [totalSize, ih, List.map_cons, List.foldr_cons]

theorem Sound.orderly {m : Memory} (h : m.Sound) : m.Orderly where
  nonempty r hr := (h.laid.of_mem hr).2.1
  apart := by
    refine (List.Pairwise.and_mem.1 h.laid.pairwise).imp ?_
    rintro r s ⟨hr, -, hle⟩
    have hsize := (h.laid.of_mem hr).2.1
    rw [Region.stop] at hle
    refine ⟨UInt32.lt_iff_toNat_lt.2 (by omega), fun x hx hs => ?_⟩
    have := hx.2
    have := hs.1
    rw [Region.stop] at *
    omega
  inside r hr := ⟨(h.laid.of_mem hr).1, (h.laid.of_mem hr).2.2⟩
  counted := allocatedBytes_eq m.regions
  bounded := by
    have := h.laid.totalSize_le
    rw [limit] at this
    rw [allocatedBytes]
    omega

theorem Served.sound {capacity : UInt32} {m : Memory} (h : Served capacity m)
    (hc : capacity.toNat ≤ 4294967296 - addressSpaceStart) : m.Sound ∧ m.capacity = capacity := by
  obtain ⟨watched, qs, rfl⟩ := h
  have evolves := evolves_serveAll { empty capacity with watched } qs
  exact ⟨evolves.sound ((sound_empty hc).watched watched), evolves.capacity⟩

/-- **Allocation takes the lowest fit.**  Whatever has been asked of a memory before, its regions
are orderly; allocation succeeds exactly where something fits, and then takes the lowest address at
which it does; to free the new region brings back the memory as it was; and a machine whose memory
refuses to allocate or to free is left with the state that it had. -/
theorem allocate_takes_lowest_fit {capacity : UInt32} (hc : capacity.toNat ≤ 4294967296 - 4096)
    {m : Memory} (hm : Served capacity m) :
    m.capacity = capacity ∧ m.Orderly ∧
      (∀ n, (∃ a m', m.allocate n = .ok (a, m')) ↔ 0 < n ∧ ∃ k, m.Fits n k) ∧
      (∀ n a m', m.allocate n = .ok (a, m') → m.Placed n a m' ∧ m'.free a = .ok m) ∧
      (∀ n e loc (s : Machine), s.memory = m → m.allocate n = .error e →
        Run.allocate n loc s = .error (.fault (.memory e loc)) s) ∧
      ∀ a e (s : Machine), s.memory = m → m.free a = .error e →
        ∃ s', Run.release a s = .ok (some e) s' ∧ s'.toState = s.toState := by
  obtain ⟨h, hcapacity⟩ := hm.sound hc
  refine ⟨hcapacity, h.orderly, fun n => h.allocate_iff,
    fun n a m' ha => ⟨h.placed ha, h.free_allocated ha⟩, ?_, ?_⟩
  · rintro n e loc s rfl ha
    simp [Run.allocate, ha]
  · rintro a e s rfl hf
    exact ⟨s.note (.refused a), by simp [Run.release, hf], rfl⟩

/-- A space of 40 bytes with a gap of 8 between regions, one of 4 that is too small and 8 behind. -/
def fragmented : Memory :=
  serveAll (empty 40) [.allocate 8, .allocate 12, .allocate 4, .allocate 8, .writeWord 0x1008 (-2),
    .free 0x1000, .free 0x1014, .write 0x1018 7]

/-- Six bytes go where the first region was, nine fit nowhere. -/
theorem allocate_takes_lowest_fit_fragmented :
    Served 40 fragmented ∧ fragmented.Orderly ∧ fragmented.allocatedBytes = 20 ∧
      (∃ m', fragmented.allocate 6 = .ok (0x1000, m') ∧ fragmented.Placed 6 0x1000 m' ∧
        m'.free 0x1000 = .ok fragmented) ∧
      ¬ ∃ k, fragmented.Fits 9 k := by
  have hserved : Served 40 fragmented := ⟨false, _, rfl⟩
  obtain ⟨-, horderly, hiff, hplaced, -, -⟩ := allocate_takes_lowest_fit (by decide) hserved
  have granted : (fragmented.allocate 6).toOption.map Prod.fst = some 0x1000 := by decide +kernel
  obtain ⟨⟨a, m'⟩, ha, rfl⟩ := Except.exists_ok_of_map granted
  refine ⟨hserved, horderly, by decide +kernel, ⟨m', ha, hplaced 6 _ m' ha⟩, fun h => ?_⟩
  have refused : (fragmented.allocate 9).toOption.map Prod.fst = none := by decide +kernel
  obtain ⟨a, m', ha⟩ := (hiff 9).2 ⟨by decide, h⟩
  rw [ha] at refused
  cases refused

end Memory

end MiniC
