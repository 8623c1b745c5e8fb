/-
  String literals in memory, and texts read back.

  Each string literal has a region of its own when a run has been set up, with the bytes of its text
  and a zero and nothing else (`Run.written_start`).  What is read back at an address are the bytes
  that stand there before a zero and in reach, read as UTF-8 with U+FFFD for what is no character
  (`Engine.readText_eq_some`); so a text that is short enough is read as it has been written.

  * `Memory.Holds`: a region with given bytes, which no new region and no write elsewhere changes;
  * `Run.written_step`: one more literal is written and leaves those before it as they are;
  * `Memory.TextAt`: the bytes at a number up to a zero, a gap or a limit, which are unique;
  * `Session.literals_intact`: both directions together, whatever the capacity of memory.
-/
import Mathlib.Data.List.Forall2
import MiniC.Proofs.Storage
import MiniC.Proofs.StructCopy
import MiniC.Proofs.Utf8Text

namespace MiniC

open Machine Run

/-! ## Bytes in a region -/

namespace Memory
variable {m m' : Memory} {a : Address} {bs : List UInt8}

/-- The byte of a region is the one at its address. -/
theorem Apart.byteAt?_of_mem (h : m.Apart) {r : Region} {i : Nat} (hr : r ∈ m.regions)
    (hi : i < r.size) (hx : r.start.toNat + i < 4294967296) :
    m.byteAt? (r.start.toNat + i) = some (r.byte i) := by
  have at_ : (UInt32.ofNat (r.start.toNat + i)).toNat = r.start.toNat + i :=
    UInt32.toNat_ofNat_of_lt' hx
  have found : m.locate (.ofNat (r.start.toNat + i)) 1 = some (r, i) := by
    refine (h.locate_iff Nat.one_pos).2 ⟨hr, at_.symm, ?_⟩
    rw [at_, Region.stop]
    omega
  rw [byteAt?, if_pos hx, byte?, found]
  rfl

/-- Where regions begin and how long they are decides whether they follow each other. -/
theorem Laid.of_slots {hi lo : Nat} {rs rs' : List Region} (h : Laid hi lo rs)
    (same : rs'.map (fun r => (r.start, r.size)) = rs.map fun r => (r.start, r.size)) :
    Laid hi lo rs' := by
  induction rs generalizing lo rs' with
  | nil =>
    obtain rfl := List.map_eq_nil_iff.1 same
    exact h
  | cons r rs ih =>
    obtain ⟨r', rs', rfl, hr, hrs⟩ := List.map_eq_cons_iff.1 same
    obtain ⟨hstart, hsize⟩ := Prod.mk.inj hr
    have hstop : r'.stop = r.stop := by rw [Region.stop, Region.stop, hstart, hsize]
    exact ⟨hstart ▸ h.1, hsize ▸ h.2.1, hstop ▸ ih h.2.2 hrs⟩

theorem Apart.of_sameSlots (h : m.Apart) (hs : m.SameSlots m') : m'.Apart :=
  apart_of_regions hs.capacity (Laid.of_slots h hs.slots)

/-- A region at `a` holds the bytes `bs` and no others, and all of them have addresses. -/
structure Holds (m : Memory) (a : Address) (bs : List UInt8) : Prop where
  slot : (a, bs.length) ∈ m.slots
  reach : a.toNat + bs.length ≤ 4294967296
  bytes : ∀ i (hi : i < bs.length), m.byteAt? (a.toNat + i) = some bs[i]

/-- What a region holds is all of it. -/
theorem Apart.region_of_holds (h : m.Apart) (hb : m.Holds a bs) :
    ∃ r ∈ m.regions, r.start = a ∧ r.bytes r.size = bs := by
  obtain ⟨r, hr, rfl, hsize⟩ := Session.mem_slots_iff.1 hb.slot
  refine ⟨r, hr, rfl, List.ext_getElem ?_ fun i hi hi' => ?_⟩
  · simp [Region.bytes, hsize]
  · have here := hb.bytes i hi'
    rw [h.byteAt?_of_mem hr (hsize ▸ hi') (Nat.lt_of_lt_of_le (Nat.add_lt_add_left hi' _) hb.reach),
      Option.some.injEq] at here
    simp [Region.bytes, here]

/-- A new region is apart from one that holds bytes. -/
theorem Holds.apart {b : Address} {n : Nat} (hb : m.Holds a bs) (h : m.Apart)
    (ha : m.allocate n = .ok (b, m')) :
    a.toNat + bs.length ≤ b.toNat ∨ b.toNat + n ≤ a.toNat := by
  have slots := h.slots_allocate ha
  have ne : a ≠ b := by
    rintro rfl
    exact h.fresh ha (State.mem_starts.2 ⟨_, hb.slot⟩)
  exact (h.allocate ha).1.slots_apart (slots.mem_iff.2 (List.mem_cons_of_mem _ hb.slot))
    (slots.mem_iff.2 List.mem_cons_self) ne

/-- A new region changes nothing of another one. -/
theorem Holds.allocate {b : Address} {n : Nat} (hb : m.Holds a bs) (h : m.Apart)
    (ha : m.allocate n = .ok (b, m')) : m'.Holds a bs := by
  obtain ⟨apart, perm⟩ := h.allocate ha
  obtain ⟨r, hr, rfl, hsize⟩ := Session.mem_slots_iff.1 hb.slot
  refine ⟨(h.slots_allocate ha).mem_iff.2 (List.mem_cons_of_mem _ hb.slot), hb.reach, fun i hi => ?_⟩
  have below := Nat.lt_of_lt_of_le (Nat.add_lt_add_left hi _) hb.reach
  -- The region is found as before, with the bytes that it has.
  rw [apart.byteAt?_of_mem (perm.mem_iff.2 (List.mem_cons_of_mem _ hr)) (hsize ▸ hi) below,
    ← h.byteAt?_of_mem hr (hsize ▸ hi) below, hb.bytes i hi]

end Memory

/-- Bytes that go elsewhere change nothing of a region. -/
theorem Machine.Receives.holds {m m' : Machine} {x : Nat} {bs : List UInt8} (h : m.Receives x bs m')
    {a : Address} {held : List UInt8} (hh : m.memory.Holds a held)
    (apart : a.toNat + held.length ≤ x ∨ x + bs.length ≤ a.toNat) : m'.memory.Holds a held where
  slot := h.slots.slots ▸ hh.slot
  reach := hh.reach
  bytes i hi := by
    rw [h.bytes, if_neg (by omega)]
    exact hh.bytes i hi

/-! ## Literals are written -/

namespace Run
variable {env : Env} {m m' : Machine}

/-- The string literals have their regions, each with the bytes of its text and a zero. -/
def Written (m : Machine) (texts : List String) : Prop :=
  List.Forall₂ (fun a text => m.memory.Holds a (Utf8.encode text ++ [0])) m.strings.toList texts

/-- **One more literal** has its own region, and all before it keep theirs. -/
theorem written_step {text : String} {texts done : List String} (apart : m.memory.Apart)
    (hw : Written m done) (h : allocateStrings (text :: texts) m = .ok () m') :
    ∃ n, n.memory.Apart ∧ Written n (done ++ [text]) ∧ allocateStrings texts n = .ok () m' := by
  simp only [allocateStrings, bind_eq_ok, allocate_eq_ok, modify_eq_ok] at h
  obtain ⟨a, _, ⟨memory, ha, rfl⟩, _, _, rfl, _, n, hf, h⟩ := h
  have apart' := (apart.allocate ha).1
  have filled := writeBytes_receives apart' hf
  refine ⟨n, apart'.of_sameSlots filled.slots, ?_, h⟩
  rw [Written, filled.strings, Array.toList_push]
  refine List.rel_append (hw.imp fun b text' hb => ?_) (.cons ⟨?_, filled.fits, fun i hi => ?_⟩ .nil)
  · exact filled.holds (hb.allocate apart ha) (hb.apart apart ha)
  · exact filled.slots.slots ▸ (apart.slots_allocate ha).mem_iff.2 List.mem_cons_self
  · rw [filled.bytes, if_pos ⟨Nat.le_add_right .., Nat.add_lt_add_left hi _⟩,
      Nat.add_sub_cancel_left, List.getElem?_eq_getElem hi]

/-- All literals have been written when storage has been given to them. -/
theorem written_allocateStrings {texts done : List String} (apart : m.memory.Apart)
    (hw : Written m done) (h : allocateStrings texts m = .ok () m') :
    m'.memory.Apart ∧ Written m' (done ++ texts) := by
  induction texts generalizing m done with
  | nil =>
    obtain ⟨-, rfl⟩ := pure_eq_ok.1 h
    exact ⟨apart, (List.append_nil done).symm ▸ hw⟩
  | cons text texts ih =>
    obtain ⟨n, apart', hw', h'⟩ := written_step apart hw h
    rw [List.append_cons]
    exact ih apart' hw' h'

theorem allocateGlobals_strings {engine : Engine} (he : engine.Calm) {ids : List SymbolId}
    (h : allocateGlobals env engine ids m = .ok () m') : m'.strings = m.strings := by
  induction ids generalizing m with
  | nil =>
    obtain ⟨-, rfl⟩ := pure_eq_ok.1 h
    rfl
  | cons id ids ih =>
    simp only [allocateGlobals, bind_eq_ok, allocate_eq_ok, modify_eq_ok] at h
    obtain ⟨a, _, ⟨memory, -, rfl⟩, _, _, rfl, _, n, hr, h⟩ := h
    exact (ih h).trans ((he.registerArray ..).ok hr).strings

/-- **Every string literal is in its region** when a run has been set up on a machine at rest. -/
theorem written_start {engine : Engine} (he : engine.Calm) (hm : m.Rested)
    (h : start env engine m = .ok () m') :
    m'.memory.Apart ∧ Written m' env.program.strings.toList := by
  obtain ⟨_, n, hg, hs⟩ := bind_eq_ok.1 h
  have based := (sets_allocateGlobals env he _).ok hm.based hg
  have none : Written n [] := by
    rw [Written, allocateGlobals_strings he hg, hm.strings]
    exact .nil
  exact written_allocateStrings based.lawful.owned.apart none hs

theorem Written.region {texts : List String} {id : Nat} {text : String} (apart : m.memory.Apart)
    (hw : Written m texts) (ht : texts[id]? = some text) : ∃ a, m.strings[id]? = some a ∧
      ∃ r ∈ m.memory.regions, r.start = a ∧ r.bytes r.size = Utf8.encode text ++ [0] := by
  obtain ⟨hlt, rfl⟩ := List.getElem?_eq_some_iff.1 ht
  have hlt' : id < m.strings.toList.length := hw.length_eq ▸ hlt
  refine ⟨m.strings.toList[id], ?_, apart.region_of_holds (hw.get hlt' hlt)⟩
  rw [← Array.getElem?_toList, List.getElem?_eq_getElem hlt']

end Run

/-! ## Texts are read -/

namespace Memory
variable {m : Memory} {a : Nat} {bs : List UInt8}

theorem ofInt?_bind_byte? (m : Memory) (x : Nat) :
    (Address.ofInt? x).bind m.byte? = m.byteAt? x := by
  unfold Address.ofInt? byteAt?
  by_cases hx : x < 4294967296
  · have fits : 0 ≤ (x : Int) ∧ (x : Int) < 4294967296 := by omega
    rw [if_pos fits, if_pos hx, Int.toNat_natCast]
    rfl
  · have out : ¬ (0 ≤ (x : Int) ∧ (x : Int) < 4294967296) := by omega
    rw [if_neg out, if_neg hx]
    rfl

/-- The bytes `bs` stand at `a` and go on up to a zero, to where no byte can be read, or to `n` of
them, whichever comes first. -/
structure TextAt (m : Memory) (n a : Nat) (bs : List UInt8) : Prop where
  short : bs.length ≤ n
  stored : ∀ i (hi : i < bs.length), m.byteAt? (a + i) = some bs[i]
  nonzero : 0 ∉ bs
  ends : bs.length < n → m.byteAt? (a + bs.length) = none ∨ m.byteAt? (a + bs.length) = some 0

theorem textAt_textBytes (m : Memory) (a n : Nat) :
    m.TextAt n a (Engine.textBytes m.byteAt? a n) := by
  induction n generalizing a with
  | zero => exact ⟨Nat.le_refl _, nofun, List.not_mem_nil, nofun⟩
  | succ n ih =>
    rw [Engine.textBytes]
    cases hb : m.byteAt? a with
    | none => exact ⟨Nat.zero_le _, nofun, List.not_mem_nil, fun _ => .inl hb⟩
    | some b =>
      simp only
      split
      · rename_i hz
        exact ⟨Nat.zero_le _, nofun, List.not_mem_nil, fun _ => .inr (hz ▸ hb)⟩
      · rename_i hz
        obtain ⟨short, stored, nonzero, ends⟩ := ih (a + 1)
        refine ⟨Nat.succ_le_succ short, fun i hi => ?_, ?_, fun hn => ?_⟩
        · cases i with
          | zero => exact hb
          | succ i =>
            rw [← Nat.add_assoc, Nat.add_right_comm]
            exact stored i (Nat.lt_of_succ_lt_succ hi)
        · rw [List.mem_cons, not_or]
          exact ⟨fun h => hz h.symm, nonzero⟩
        · rw [List.length_cons, ← Nat.add_assoc, Nat.add_right_comm]
          exact ends (Nat.lt_of_succ_lt_succ hn)

theorem TextAt.length_le {n : Nat} {bs' : List UInt8} (h : m.TextAt n a bs)
    (h' : m.TextAt n a bs') : bs'.length ≤ bs.length := by
  by_contra longer
  have hlt : bs.length < bs'.length := Nat.lt_of_not_le longer
  have next := h'.stored bs.length hlt
  rcases h.ends (Nat.lt_of_lt_of_le hlt h'.short) with ends | ends <;> rw [next] at ends
  · cases ends
  · exact h'.nonzero (Option.some.inj ends ▸ List.getElem_mem hlt)

theorem TextAt.unique {n : Nat} {bs' : List UInt8} (h : m.TextAt n a bs) (h' : m.TextAt n a bs') :
    bs = bs' := by
  refine List.ext_getElem (Nat.le_antisymm (h'.length_le h) (h.length_le h')) fun i hi hi' => ?_
  rw [← Option.some.injEq, ← h.stored i hi, ← h'.stored i hi']

end Memory

namespace Engine
variable {m : Memory} {a : Address}

theorem readText_eq (ha : a ≠ 0) :
    readText m a = some (Utf8.decode (textBytes m.byteAt? a.toNat 20)) := by
  rw [readText, if_neg ha]
  simp only [m.ofInt?_bind_byte?]
  rfl

/-- **A text is read lossily** from the bytes that stand at an address. -/
theorem readText_eq_some (ha : a ≠ 0) {text : String} : readText m a = some text ↔
    ∃ bs, m.TextAt 20 a.toNat bs ∧ Utf8.Lossy bs text.toList := by
  have textAt := m.textAt_textBytes a.toNat 20
  rw [readText_eq ha, Option.some.injEq, Utf8.decode]
  constructor
  · rintro rfl
    exact ⟨_, textAt, Utf8.lossy_iff.2 (String.toList_ofList ..).symm⟩
  · rintro ⟨bs, hbs, lossy⟩
    obtain rfl := textAt.unique hbs
    rw [Utf8.lossy_iff.1 lossy, String.ofList_toList]

/-- **A text that is stored is read as it is.** -/
theorem readText_of_stored (ha : a ≠ 0) {text : String} (hz : '\x00' ∉ text.toList)
    (short : (Utf8.encode text).length ≤ 20)
    (stored : ∀ i b, (Utf8.encode text ++ [0])[i]? = some b → m.byteAt? (a.toNat + i) = some b) :
    readText m a = some text := by
  refine (readText_eq_some ha).2
    ⟨Utf8.encode text, ⟨short, fun i hi => ?_, ?_, fun _ => .inr ?_⟩, Utf8.lossy_encode text⟩
  · refine stored i _ ?_
    rw [List.getElem?_append_left hi, List.getElem?_eq_getElem hi]
  · exact Utf8.zero_not_mem_encode hz
  · exact stored _ _ List.getElem?_concat_length

end Engine

/-! ## Literals are read back -/

namespace Session

/-- **String literals are intact.**  Take a space of any capacity and anything that a session has done
in it.  When a run of its program has been set up, each string literal has an address, and the region
that starts there holds the bytes of its text, a zero and no more.  And in any memory, a text without
U+0000 of at most 20 bytes that stands at an address other than NULL, with a zero after it, is read
back as it is.  Whatever else stands there, a text is read, and it is the lossy reading of the bytes
before a zero, before the first number at which no byte can be read and among the first 20. -/
theorem literals_intact (config : Config) (s : Session) :
    (s.Reachable config →
      ∀ {fuel : Nat} {m : Machine}, start s.env (engine s.env fuel) s.machine = .ok () m →
        ∀ {id : StringId} {text : String}, s.env.program.strings[id]? = some text →
          ∃ a, m.strings[id]? = some a ∧
            ∃ r ∈ m.memory.regions, r.start = a ∧ r.bytes r.size = Utf8.encode text ++ [0]) ∧
    ∀ (memory : Memory) {a : Address}, a ≠ 0 →
      (∀ text : String, '\x00' ∉ text.toList → (Utf8.encode text).length ≤ 20 →
        (∀ i b, (Utf8.encode text ++ [0])[i]? = some b → memory.byteAt? (a.toNat + i) = some b) →
        Engine.readText memory a = some text) ∧
      (∃ text, Engine.readText memory a = some text) ∧
      ∀ text, Engine.readText memory a = some text ↔
        ∃ bs, memory.TextAt 20 a.toNat bs ∧ Utf8.Lossy bs text.toList := by
  constructor
  · intro hs fuel m hm id text ht
    obtain ⟨apart, written⟩ := written_start (engine_calm ..) hs.rested hm
    exact written.region apart (by rwa [Array.getElem?_toList])
  · intro memory a ha
    refine ⟨fun text hz short stored => ?_, ⟨_, Engine.readText_eq ha⟩, fun text => ?_⟩
    · exact Engine.readText_of_stored ha hz short stored
    · exact Engine.readText_eq_some ha

/-- A program that has been compiled, and the machine on which a run of it has been set up. -/
def setUp (config : Config) (source : String) : Option (Session × Machine) :=
  match (new config).compile source with
  | .error _ => none
  | .ok s => match start s.env (engine s.env 100) s.machine with
    | .ok () m => some (s, m)
    | .error _ _ => none

theorem setUp_eq_some {config : Config} {source : String} {s : Session} {m : Machine}
    (h : setUp config source = some (s, m)) : (new config).compile source = .ok s ∧
      start s.env (engine s.env 100) s.machine = .ok () m := by
  unfold setUp at h
  split at h
  · cases h
  · rename_i hs
    split at h
    · rename_i hm
      cases h
      exact ⟨hs, hm⟩
    · cases h

/-- A literal of two characters, the first of them of two bytes. -/
def accented : String := "int main() \x7b \"é!\"; return 0; \x7d"

theorem literals_intact_accented : ∃ s m, (new .standard).compile accented = .ok s ∧
    start s.env (engine s.env 100) s.machine = .ok () m ∧
    (∃ a, m.strings[0]? = some a ∧
      ∃ r ∈ m.memory.regions, r.start = a ∧ r.bytes r.size = [195, 169, 33, 0]) ∧
    Engine.readText m.memory 4096 = some "é!" := by
  have run : (setUp .standard accented).any fun (s, m) =>
      s.env.program.strings[0]? = some "é!" ∧
        ∀ i : Nat, i < 4 → m.memory.byteAt? (4096 + i) = ([195, 169, 33, 0] : List UInt8)[i]? := by
    rw [setUp, compile_of_toList accented (String.ofList_eq.1 rfl)]
    decide +kernel
  obtain ⟨⟨s, m⟩, found, holds⟩ := (Option.any_eq_true ..).1 run
  obtain ⟨literal, stored⟩ := of_decide_eq_true holds
  obtain ⟨hs, hm⟩ := setUp_eq_some found
  have bytes : Utf8.encode "é!" ++ [0] = [195, 169, 33, 0] := by decide +kernel
  have reached : Reachable .standard s := .compile (.new .full) hs
  obtain ⟨written, read⟩ := literals_intact .standard s
  refine ⟨s, m, hs, hm, bytes ▸ written reached hm literal, ?_⟩
  refine (read m.memory (a := 4096) (by decide)).1 "é!" (by decide) (by decide +kernel) ?_
  intro i b hb
  rw [bytes] at hb
  have hi : i < 4 := (List.getElem?_eq_some_iff.1 hb).1
  exact (stored i hi).trans hb

end Session

end MiniC
