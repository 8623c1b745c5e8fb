/-
  Following lowering step by step.

  `Lower.Follows` is what is known of a step of lowering that succeeds: how the contexts before and
  after it are related, that the invariant still holds, and what the result is from there on.
  `Lower.Faithful` is the same for the steps that expressions are lowered by, which can be taken
  again: over a frozen program that lowering arrives at they come to the same result and change
  nothing.
-/
import Mathlib.Order.Defs.Unbundled
import MiniC.Proofs.Typing

namespace MiniC

namespace Context

/-- What statements and declarations leave as it is. -/
structure Reaches (c c' : Context) : Prop where
  extends_ : c.program.Extends c'.program
  current : c'.currentFunction? = c.currentFunction?
  result : c'.result? = c.result?
  struct : c'.struct.map StructContext.name = c.struct.map StructContext.name
  members : ∀ {s s'}, c.struct = some s → c'.struct = some s' → s.members <+: s'.members
  assigned : ∀ {a es}, c.assigned a es → c'.assigned a es

/-- What expressions leave as it is: only string literals can be new. -/
structure Interns (c c' : Context) : Prop where
  extends_ : c.program.Extends c'.program
  frozen : c'.frozen = c.frozen
  functions : c'.program.functions = c.program.functions
  function : c'.function = c.function
  struct : c'.struct = c.struct
  assigned : ∀ {a es}, c.assigned a es → c'.assigned a es

/-- The same structure under way has the same members. -/
theorem members_of_eq {c c' : Context} (h : c'.struct = c.struct) {s s' : StructContext}
    (hs : c.struct = some s) (hs' : c'.struct = some s') : s.members <+: s'.members := by
  rw [h, hs] at hs'
  cases hs'
  exact List.prefix_rfl

instance : IsPreorder Context Reaches where
  refl _ := ⟨.refl _, rfl, rfl, rfl, members_of_eq rfl, id⟩
  trans _ _ _ h h' := by
    refine ⟨h.extends_.trans h'.extends_, h'.current.trans h.current, h'.result.trans h.result,
      h'.struct.trans h.struct, fun {s s''} hs hs'' => ?_, fun ha => h'.assigned (h.assigned ha)⟩
    have named := h.struct
    rw [hs, Option.map_some, Option.map_eq_some_iff] at named
    obtain ⟨s', hs', -⟩ := named
    exact (h.members hs hs').trans (h'.members hs' hs'')

instance : IsPreorder Context Interns where
  refl _ := ⟨.refl _, rfl, rfl, rfl, rfl, id⟩
  trans _ _ _ h h' :=
    ⟨h.extends_.trans h'.extends_, h'.frozen.trans h.frozen, h'.functions.trans h.functions,
      h'.function.trans h.function, h'.struct.trans h.struct, fun ha => h'.assigned (h.assigned ha)⟩

variable {c c' d : Context}

theorem Interns.reaches (h : c.Interns c') : c.Reaches c' :=
  ⟨h.extends_, by rw [currentFunction?, h.function, currentFunction?],
    by rw [result?, h.function, result?], by rw [h.struct], members_of_eq h.struct, h.assigned⟩

theorem Interns.current (h : c.Interns c') : c'.currentFunction? = c.currentFunction? :=
  h.reaches.current

theorem Reaches.precedes (h : c.Reaches c') : c.Precedes c' := by
  refine fun q hq => ⟨h.extends_.trans hq.extends_, fun s hs => ?_⟩
  have hn := h.struct
  rw [hs, Option.map_some, Option.map_eq_some_iff] at hn
  obtain ⟨s', hs', he⟩ := hn
  exact he ▸ hq.struct s' hs'

theorem Reaches.leads (h : c.Reaches c') (hd : c'.Leads d) : c.Leads d :=
  ⟨h.precedes _ hd.completes, fun ha => hd.assigned (h.assigned ha)⟩

/-- If a structure is under way, it has members. -/
def Populated (c : Context) : Prop := ∀ s, c.struct = some s → s.members ≠ []

theorem Populated.reaches (h : c.Populated) (hr : c.Reaches c') : c'.Populated := by
  intro s' hs' empty
  have named := hr.struct
  rw [hs', Option.map_some, eq_comm, Option.map_eq_some_iff] at named
  obtain ⟨s, hs, -⟩ := named
  have kept := hr.members hs hs'
  rw [empty] at kept
  exact h s hs (List.prefix_nil.1 kept)

theorem Interns.agrees (h : c.Interns c') (hd : c'.Agrees d) : c.Agrees d :=
  hd.of_precedes h.reaches.precedes h.function

theorem Types.reaches {e : Expr} (he : c.Types e) (h : c.Reaches c') : c'.Types e := by
  intro d hd
  rw [h.current]
  exact he (h.leads hd)

/-- From `c` on, `P` holds. -/
def From (S : Context → Context → Prop) (c : Context) (P : Context → Prop) : Prop :=
  ∀ c', S c c' → P c'

theorem From.here {S : Context → Context → Prop} [IsPreorder Context S] {P : Context → Prop}
    (h : c.From S P) : P c := h c (refl c)

theorem From.step {S : Context → Context → Prop} [IsPreorder Context S] {P : Context → Prop}
    (h : c.From S P) (hs : S c c') : c'.From S P := fun k hk => h k (IsTrans.trans _ _ _ hs hk)

end Context

namespace Lower
variable {α β : Type}

/-! ## Outcomes -/

section
variable {c c' c'' : Context} {a : α} {b : β} {cause : CompileCause} {loc : Location}

@[simp] theorem pure_eq_ok {a' : α} : (pure a : Lower α) c = .ok (a', c') ↔ a = a' ∧ c = c' := by
  change Except.ok (a, c) = .ok (a', c') ↔ _
  simp

@[simp] theorem fail_ne_ok : ¬ (fail cause loc : Lower α) c = .ok (a, c') := nofun

@[simp] theorem ask_eq_ok {f : Context → α} : ask f c = .ok (a, c') ↔ f c = a ∧ c = c' := by
  change Except.ok (f c, c) = .ok (a, c') ↔ _
  simp

@[simp] theorem change_eq_ok {f : Context → Context} {u : Unit} :
    change f c = .ok (u, c') ↔ f c = c' := by
  change Except.ok ((), f c) = .ok (u, c') ↔ _
  simp

@[simp] theorem require_eq_ok {o : Option α} :
    require o cause loc c = .ok (a, c') ↔ o = some a ∧ c = c' := by
  cases o <;> simp [require]

@[simp] theorem bind_eq_ok {x : Lower α} {f : α → Lower β} :
    (x >>= f) c = .ok (b, c'') ↔ ∃ a c', x c = .ok (a, c') ∧ f a c' = .ok (b, c'') := by
  change Except.bind (x c) (fun p => f p.1 p.2) = _ ↔ _
  cases x c with
  | error e => simp [Except.bind]
  | ok p =>
    obtain ⟨a, c'⟩ := p
    simp [Except.bind, and_assoc]

theorem fail_bind {f : α → Lower β} : (fail cause loc >>= f) = fail cause loc := rfl

end

/-! ## Steps that are followed -/

/-- From the contexts in which `H` holds from there on, `x` arrives at one that `S` relates to it and
in which its result satisfies `R` from there on. -/
structure Follows (g : Grammar) (S : Context → Context → Prop) (H : Context → Prop) (x : Lower α)
    (R : Context → α → Prop) : Prop where
  follows : ∀ {c a c'}, c.Sound g → c.From S H → x c = .ok (a, c') →
    S c c' ∧ c'.Sound g ∧ c'.From S fun k => R k a

/-- A step of expressions, which comes to the same over any frozen program that agrees. -/
structure Faithful (g : Grammar) (H : Context → Prop) (x : Lower α) (R : Context → α → Prop) : Prop
    extends Follows g Context.Interns H x R where
  replays : ∀ {c a c'}, c.Sound g → c.From Context.Interns H → x c = .ok (a, c') →
    ∀ {d}, c'.Agrees d → x d = .ok (a, d)

section
variable {g : Grammar} {S : Context → Context → Prop} [IsPreorder Context S]
  {H H' : Context → Prop} {P : Context → β → Prop} {R R' : Context → α → Prop}

theorem follows_pure {a : α} (h : ∀ c, H c → R c a) : Follows g S H (pure a) R where
  follows {c a' c'} hc hH hx := by
    obtain ⟨rfl, rfl⟩ := pure_eq_ok.1 hx
    exact ⟨refl c, hc, fun k hk => h k (hH k hk)⟩

omit [IsPreorder Context S] in
theorem follows_fail {cause : CompileCause} {loc : Location} :
    Follows g S H (fail cause loc : Lower α) R :=
  ⟨fun _ _ hx => absurd hx fail_ne_ok⟩

theorem Follows.bind {x : Lower β} {f : β → Lower α} (hx : Follows g S H x P)
    (hf : ∀ b, Follows g S (fun c => H c ∧ P c b) (f b) R) : Follows g S H (x >>= f) R where
  follows {c a c''} hc hH h := by
    obtain ⟨b, c', h1, h2⟩ := bind_eq_ok.1 h
    obtain ⟨s1, k1, r1⟩ := hx.follows hc hH h1
    obtain ⟨s2, k2, r2⟩ := (hf b).follows k1 (fun k hk => ⟨hH.step s1 k hk, r1 k hk⟩) h2
    exact ⟨IsTrans.trans _ _ _ s1 s2, k2, r2⟩

omit [IsPreorder Context S] in
theorem Follows.mono {x : Lower α} (h : Follows g S H x R) (hH : ∀ c, H' c → H c)
    (hR : ∀ c a, R c a → R' c a) : Follows g S H' x R' where
  follows hc hH' hx := by
    obtain ⟨h1, h2, h3⟩ := h.follows hc (fun k hk => hH k (hH' k hk)) hx
    exact ⟨h1, h2, fun k hk => hR k _ (h3 k hk)⟩

omit [IsPreorder Context S] in
theorem follows_ite {p : Prop} [Decidable p] {x y : Lower α} (hx : p → Follows g S H x R)
    (hy : ¬ p → Follows g S H y R) : Follows g S H (if p then x else y) R := by
  split
  · exact hx ‹_›
  · exact hy ‹_›

/-! ## Steps that can be taken again -/

theorem faithful_pure {a : α} (h : ∀ c, H c → R c a) : Faithful g H (pure a) R where
  toFollows := follows_pure h
  replays _ _ hx _ _ := by
    obtain ⟨rfl, -⟩ := pure_eq_ok.1 hx
    rfl

theorem faithful_fail {cause : CompileCause} {loc : Location} :
    Faithful g H (fail cause loc : Lower α) R where
  toFollows := follows_fail
  replays _ _ hx := absurd hx fail_ne_ok

theorem Faithful.bind {x : Lower β} {f : β → Lower α} (hx : Faithful g H x P)
    (hf : ∀ b, Faithful g (fun c => H c ∧ P c b) (f b) R) : Faithful g H (x >>= f) R where
  toFollows := hx.toFollows.bind fun b => (hf b).toFollows
  replays {c a c''} hc hH h d hd := by
    obtain ⟨b, c', h1, h2⟩ := bind_eq_ok.1 h
    obtain ⟨s1, k1, r1⟩ := hx.follows hc hH h1
    have hH' : c'.From Context.Interns fun k => H k ∧ P k b := fun k hk => ⟨hH.step s1 k hk, r1 k hk⟩
    obtain ⟨s2, -, -⟩ := (hf b).follows k1 hH' h2
    exact bind_eq_ok.2 ⟨b, d, hx.replays hc hH h1 (s2.agrees hd), (hf b).replays k1 hH' h2 hd⟩

theorem Faithful.mono {x : Lower α} (h : Faithful g H x R) (hH : ∀ c, H' c → H c)
    (hR : ∀ c a, R c a → R' c a) : Faithful g H' x R' where
  toFollows := h.toFollows.mono hH hR
  replays hc hH' hx := h.replays hc (fun k hk => hH k (hH' k hk)) hx

theorem faithful_ite {p : Prop} [Decidable p] {x y : Lower α} (hx : p → Faithful g H x R)
    (hy : ¬ p → Faithful g H y R) : Faithful g H (if p then x else y) R := by
  split
  · exact hx ‹_›
  · exact hy ‹_›

/-- A check in front of `x`. -/
theorem faithful_guard {p : Prop} [Decidable p] {cause : CompileCause} {loc : Location}
    {x : PUnit → Lower α} (hx : ¬ p → Faithful g H (x ()) R) :
    Faithful g H (if p then fail cause loc >>= x else x ()) R := by
  rw [fail_bind]
  exact faithful_ite (fun _ => faithful_fail) hx

/-- What the context says before a step can be used in following it. -/
theorem faithful_of_pre {p : Prop} {x : Lower α} (hp : ∀ {c}, H c → p) (h : p → Faithful g H x R) :
    Faithful g H x R :=
  ⟨⟨fun hc hH hx => (h (hp hH.here)).follows hc hH hx⟩,
    fun hc hH hx => (h (hp hH.here)).replays hc hH hx⟩

/-- That a step can be taken again is itself known from there on. -/
theorem Faithful.replayed {x : Lower α} (h : Faithful g H x R) :
    Faithful g H x fun c a => R c a ∧ ∀ {d}, c.Agrees d → x d = .ok (a, d) where
  follows hc hH hx := by
    obtain ⟨h1, h2, h3⟩ := h.follows hc hH hx
    exact ⟨h1, h2, fun k hk => ⟨h3 k hk, fun hd => h.replays hc hH hx (hk.agrees hd)⟩⟩
  replays := h.replays

theorem faithful_ask {f : Context → α} (onward : ∀ {c c'}, c.Sound g → H c → c.Interns c' → R c' (f c))
    (same : ∀ {c d}, c.Sound g → H c → c.Agrees d → f d = f c) : Faithful g H (ask f) R where
  follows {c a c'} hc hH hx := by
    obtain ⟨rfl, rfl⟩ := ask_eq_ok.1 hx
    exact ⟨refl c, hc, fun k hk => onward hc hH.here hk⟩
  replays {c a c'} hc hH hx d hd := by
    obtain ⟨rfl, rfl⟩ := ask_eq_ok.1 hx
    exact ask_eq_ok.2 ⟨same hc hH.here hd, rfl⟩

/-- What has been found is found again. -/
theorem faithful_found {f : Context → Option α} {cause : CompileCause} {loc : Location}
    (onward : ∀ {c c' a}, c.Sound g → H c → c.Interns c' → f c = some a → R c' a)
    (again : ∀ {c d a}, c.Sound g → H c → c.Agrees d → f c = some a → f d = some a) :
    Faithful g H (do require (← ask f) cause loc) R where
  follows {c a c'} hc hH hx := by
    simp only [bind_eq_ok, ask_eq_ok, require_eq_ok] at hx
    obtain ⟨_, _, ⟨rfl, rfl⟩, hf, rfl⟩ := hx
    exact ⟨refl c, hc, fun k hk => onward hc hH.here hk hf⟩
  replays {c a c'} hc hH hx d hd := by
    simp only [bind_eq_ok, ask_eq_ok, require_eq_ok] at hx ⊢
    obtain ⟨_, _, ⟨rfl, rfl⟩, hf, rfl⟩ := hx
    exact ⟨_, _, ⟨rfl, rfl⟩, again hc hH.here hd hf, rfl⟩

theorem faithful_found_bind {f : Context → Option β} {cause : CompileCause} {loc : Location}
    {k : β → Lower α}
    (onward : ∀ {c c' b}, c.Sound g → H c → c.Interns c' → f c = some b → P c' b)
    (again : ∀ {c d b}, c.Sound g → H c → c.Agrees d → f c = some b → f d = some b)
    (hk : ∀ b, Faithful g (fun c => H c ∧ P c b) (k b) R) :
    Faithful g H (do let b ← require (← ask f) cause loc; k b) R := by
  have found : Faithful g H (do require (← ask f) cause loc) P := faithful_found onward again
  have h := found.bind hk
  rwa [bind_assoc] at h

theorem faithful_require_bind {o : Option β} {cause : CompileCause} {loc : Location}
    {k : β → Lower α} (hk : ∀ b, o = some b → Faithful g H (k b) R) :
    Faithful g H (do let b ← require o cause loc; k b) R := by
  cases o with
  | none =>
    rw [require, fail_bind]
    exact faithful_fail
  | some b => exact hk b rfl

end

end Lower

end MiniC
