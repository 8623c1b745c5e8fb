/-
  Runs that are never stopped.

  A checkpoint of a run without any control does nothing but tell of itself.  So what checkpoints a run
  has passed makes no difference to it: on two machines that are the same but for the checkpoints that
  were told of (`Machine.Beside`) the same code comes to the same end.

  * `Run.Steady`: code opens no frame that it does not close, it stays without control and, if it is
    `calm`, it leaves a normal flow normal.  All code is steady; expressions are calm.
  * `Run.Blind.beside`: steady code does the same on machines beside each other.
  * `Run.Echoes`: what one run comes to with some fuel, another one comes to with enough, from machines
    and to machines beside each other, where the flow is as it says before and after; there is a rule
    for each way of putting runs together.
  * `Run.Twins`: two runs that echo each other.
-/
import MiniC.Proofs.Interruption
import MiniC.Proofs.Isolation
import MiniC.Proofs.Truncation

namespace MiniC

open Run

/-! ## What a run without control keeps -/

/-- What code leaves: the open frames, no control if there was none, and a normal flow if the code is
`calm`. -/
structure Machine.Undisturbed (calm : Prop) (m n : Machine) : Prop where
  names : n.frames.names = m.frames.names
  free : m.control = .unlimited → n.control = .unlimited
  flow : calm → m.flow = .normal → n.flow = .normal

namespace Machine.Undisturbed
variable {calm : Prop} {m n k : Machine}

theorem refl (m : Machine) : m.Undisturbed calm m := ⟨rfl, id, fun _ => id⟩

theorem trans (h : m.Undisturbed calm n) (h' : n.Undisturbed calm k) : m.Undisturbed calm k where
  names := h'.names.trans h.names
  free hm := h'.free (h.free hm)
  flow hc hm := h'.flow hc (h.flow hc hm)

end Machine.Undisturbed

namespace Run
variable {α β : Type} {calm : Prop}

/-- However `x` ends, it has disturbed nothing. -/
def Steady (calm : Prop) (x : Run α) : Prop :=
  ∀ m, ∃ r n, x m = conclude r n ∧ m.Undisturbed calm n

theorem Steady.ends {x : Run α} (hx : x.Steady calm) {m n : Machine} {r : Except Stop α}
    (h : x m = conclude r n) : m.Undisturbed calm n := by
  obtain ⟨r', n', h', hn⟩ := hx m
  obtain ⟨rfl, rfl⟩ := conclude_inj (h'.symm.trans h)
  exact hn

theorem Plain.steady {x : Run α} (hx : x.Plain) : x.Steady calm := by
  intro m
  obtain ⟨r, n, hn, run⟩ := hx.run m
  obtain ⟨seen, -, h⟩ := run m.control m.log m.seen
  exact ⟨_, _, h, hn.names, fun hm => hm, fun _ => hn.flow⟩

theorem Steady.bind {x : Run α} {f : α → Run β} (hx : x.Steady calm) (hf : ∀ a, (f a).Steady calm) :
    (x >>= f).Steady calm := by
  intro m
  obtain ⟨r, n, h, hn⟩ := hx m
  cases r with
  | error e => exact ⟨.error e, n, bind_of_error h, hn⟩
  | ok a =>
    obtain ⟨r, n', h', hn'⟩ := hf a n
    exact ⟨r, n', (bind_of_ok h).trans h', hn.trans hn'⟩

theorem steady_emit (e : Event) : (emit e).Steady calm :=
  fun m => ⟨.ok (), m.tell e, rfl, rfl, id, fun _ => id⟩

/-- Code beside itself, with what it leaves. -/
def steadiness (calm : Prop) : Likeness Unit where
  Like x := (x ()).Steady calm
  plain hx := hx.steady
  bind hx hf := hx.bind hf
  tell _ _ := steady_emit _
  noted f hx m := by
    obtain ⟨r, n, h, hn⟩ := hx m.afresh
    exact ⟨r, _, noted_conclude h, hn.names, hn.free, hn.flow⟩
  lastly {α x y} hx hy total m := by
    obtain ⟨r, n, h, hn⟩ := hx m
    obtain ⟨n', ha, ends⟩ := hy.lastly_eq (α := α) total n
    obtain ⟨seen, -, h'⟩ := ends n.control n.log n.seen
    exact ⟨r, _, h' h, hn.trans ⟨ha.names, id, fun _ => ha.flow⟩⟩

instance : (steadiness calm).Shaped := ⟨fun _ => steady_emit _⟩

theorem paced_steadiness : (steadiness False).Paced where
  checkpoint loc m := by
    refine ⟨_, _, checkpoint_eq loc m, rfl, fun hm => ?_, False.elim⟩
    change m.control.checkpoint.2 = _
    rw [hm]
    rfl
  jump {f} ho hn _ m := by
    have hm : f m = (f m).under m.control m.log m.seen := ho m m.control m.log m.seen
    have hc : (f m).control = m.control := congrArg (·.control) hm
    exact ⟨.ok (), f m, rfl, hn m, fun h => hc.trans h, False.elim⟩

/-- A call closes its frame and restores a normal flow, whatever its body has done. -/
theorem Steady.framed {x : Run Unit} (hx : x.Steady False) (limit : Nat) (loc : Location)
    (id : FunctionId) (f : Function) : (Engine.framed limit loc id f x).Steady calm := by
  intro m
  by_cases hd : limit ≤ m.frames.depth
  · exact ⟨.error (.fault _), m, Engine.framed_of_le hd, .refl m⟩
  · obtain ⟨r, n, h, hn⟩ := hx { m with frames := m.frames.push id f.name }
    obtain ⟨q, n', hn', ⟨hflow, -⟩, closes⟩ := Engine.closing_eq f hn.names
    obtain ⟨seen, -, h'⟩ := closes n.control n.log n.seen
    exact ⟨_, _, (Engine.framed_of_lt (Nat.not_le.1 hd)).trans (h' h), hn', hn.free, fun _ _ => hflow⟩

theorem framed_steadiness : (steadiness False).Framed where
  announce := by
    refine (steadiness False).look (fun _ _ _ _ _ => rfl) fun m => ?_
    cases m.frames.current? with
    | none => exact (steadiness False).pure _
    | some frame => exact steady_emit _
  framed limit loc id f hx := hx.framed limit loc id f

end Run

/-- All code of a run is steady. -/
theorem engine_steady (env : Env) (fuel : Nat) :
    Engine.Like (steadiness False) fun _ => engine env fuel := by
  induction fuel with
  | zero =>
    have spent : ∀ {α : Type}, (throw .exhausted : Run α).Steady False := fun m =>
      ⟨.error .exhausted, m, rfl, .refl m⟩
    exact ⟨fun _ => spent, fun _ => spent, fun _ => spent⟩
  | succ n ih =>
    exact ih.next paced_steadiness fun id args loc =>
      framed_steadiness.invoke (fun _ _ _ _ => ih.execute _) fun _ _ => ih.perform _

/-- Expressions send control nowhere. -/
theorem execute_steady (env : Env) (fuel : Nat) (e : Expr) : (execute env fuel e).Steady True := by
  induction fuel generalizing e with
  | zero => exact fun m => ⟨.error .exhausted, m, rfl, .refl m⟩
  | succ n ih =>
    have like := engine_steady env n
    suffices h : (steadiness True).Like fun _ => Engine.executeRule env (engine env n) e from h
    refine Likeness.executeRule (fun e' _ => ih e') fun id args loc => ?_
    have body : (steadiness False).Like fun _ : Unit => (do
        (engine env n).enterFrame env (env.program.function id) args
        (engine env n).runBody env (env.program.function id) loc) := by
      refine (steadiness False).bind ?_ fun _ => Likeness.runBody fun _ _ => like.perform _
      exact (steadiness False).bind (Likeness.allocateLocals fun _ _ _ _ => like.execute _) fun _ =>
        (steadiness False).bind ((steadiness False).bindParams env _ args) fun _ =>
          framed_steadiness.announce
    exact Run.Steady.framed body env.config.maxDepth loc id (env.program.function id)

/-! ## Machines beside each other -/

/-- The events that are told of but for checkpoints. -/
def unpaced (log : List Event) : List Event := log.filter fun e => !e.isCheckpoint

theorem unpaced_append (log log' : List Event) :
    unpaced (log ++ log') = unpaced log ++ unpaced log' :=
  List.filter_append ..

/-- Machines without control that are the same but for the checkpoints that were told of. -/
structure Machine.Beside (m n : Machine) : Prop where
  same : n = m.under m.control n.log n.seen
  free : m.control = .unlimited
  events : unpaced m.log = unpaced n.log

namespace Machine.Beside
variable {m n : Machine}

theorem refl (h : m.control = .unlimited) : m.Beside m := ⟨rfl, h, rfl⟩

theorem control (h : m.Beside n) : n.control = .unlimited := by
  rw [h.same]
  exact h.free

theorem flow (h : m.Beside n) : n.flow = m.flow := by
  rw [h.same]
  rfl

theorem symm (h : m.Beside n) : n.Beside m where
  same := by
    have hc : n.control = m.control := h.control.trans h.free.symm
    rw [hc]
    conv_rhs => rw [h.same]
    rfl
  free := h.control
  events := h.events.symm

/-- The flow is changed on both sides. -/
theorem setFlow (h : m.Beside n) (flow : Flow) : ({ m with flow } : Machine).Beside { n with flow } where
  same := by
    conv_lhs => rw [h.same]
    rfl
  free := h.free
  events := h.events

/-- A checkpoint is passed on one side. -/
theorem tell (h : m.Beside n) (loc : Location) : m.Beside (n.tell (.checkpoint loc)) :=
  ⟨by rw [h.same]; rfl, h.free, h.events⟩

end Machine.Beside

namespace Run
variable {α β : Type}

/-- **Steady code does the same on machines beside each other.** -/
theorem Blind.beside {x : Run α} (hx : x.Blind) (hs : x.Steady False) {m m' n : Machine}
    {r : Except Stop α} (hm : m.Beside m') (h : x m = conclude r n) :
    ∃ n', x m' = conclude r n' ∧ n.Beside n' := by
  obtain ⟨q, k, told, -, -, run⟩ := hx m
  obtain ⟨seen, h₁⟩ := run m.log m.seen
  obtain ⟨seen', h₂⟩ := run m'.log m'.seen
  obtain ⟨rfl, rfl⟩ := conclude_inj (h.symm.trans h₁)
  rw [← hm.same] at h₂
  refine ⟨_, h₂, rfl, (hs.ends h).free hm.free, ?_⟩
  change unpaced (told ++ m.log) = unpaced (told ++ m'.log)
  rw [unpaced_append, unpaced_append, hm.events]

theorem checkpoint_free (loc : Location) {m : Machine} (h : m.control = .unlimited) :
    checkpoint loc m = .ok () (m.tell (.checkpoint loc)) := by
  have hc : m.control.checkpoint = (.proceed, m.control) := by
    rw [h]
    rfl
  rw [checkpoint_eq, hc]
  rfl

/-! ## Runs that echo each other -/

/-- What `x` comes to, `y` comes to with enough fuel, if they begin on machines beside each other with a
flow as `p` says; if they come to a value, the flow is as `q` says. -/
def Echoes (p : Flow → Prop) (x : Run α) (y : Nat → Run α) (q : α → Flow → Prop) : Prop :=
  ∀ ⦃m m' r n⦄, m.Beside m' → p m.flow → x m = conclude r n → r ≠ .error .exhausted →
    (∀ a, r = .ok a → q a n.flow) ∧ Leads y m' fun r' n' => r' = r ∧ n.Beside n'

/-- `x` and `y` echo each other, with every amount of fuel. -/
structure Twins (p : Flow → Prop) (x y : Nat → Run α) (q : α → Flow → Prop) : Prop where
  right : ∀ k, Echoes p (x k) y q
  left : ∀ k, Echoes p (y k) x q

section
variable {p p' : Flow → Prop} {q q' : α → Flow → Prop} {s : β → Flow → Prop}

theorem Echoes.mono {x : Run α} {y : Nat → Run α} (h : Echoes p x y q) (hp : ∀ f, p' f → p f)
    (hq : ∀ a f, q a f → q' a f) : Echoes p' x y q' := by
  intro m m' r n hm hf hx hr
  obtain ⟨ha, leads⟩ := h hm (hp _ hf) hx hr
  exact ⟨fun a he => hq a _ (ha a he), leads⟩

theorem Echoes.bind {x : Run α} {y : Nat → Run α} {f : α → Run β} {g : Nat → α → Run β}
    (h : Echoes p x y q) (hf : ∀ a, Echoes (q a) (f a) (fun k => g k a) s) :
    Echoes p (x >>= f) (fun k => y k >>= g k) s := by
  intro m m' r n hm hp hx hr
  cases hxm : x m with
  | error e n' =>
    obtain ⟨rfl, rfl⟩ := conclude_inj (show conclude (.error e) n' = conclude r n from
      (bind_of_error hxm).symm.trans hx)
    have hr' : (.error e : Except Stop α) ≠ .error .exhausted := by
      rintro ⟨⟩
      exact hr rfl
    refine ⟨nofun, Leads.bind ((h hm hp (r := .error e) hxm hr').2.mono ?_)⟩
    rintro r' n'' ⟨rfl, hn⟩
    exact ⟨rfl, hn⟩
  | ok a n' =>
    obtain ⟨ha, r', n'', enough, run, hr', rfl, hn⟩ := h hm hp (r := .ok a) hxm nofun
    obtain ⟨hb, leads⟩ := hf a hn (ha a rfl) ((bind_of_ok hxm).symm.trans hx) hr
    exact ⟨hb, Leads.bind ⟨.ok a, n'', enough, run, hr', leads⟩⟩

theorem echoes_exhausted {y : Nat → Run α} : Echoes p (throw .exhausted) y q := by
  intro m m' r n _ _ hx hr
  exact absurd (conclude_inj (show conclude (.error .exhausted) m = conclude r n from hx)).1.symm hr

/-- What happens with less fuel at first does not matter. -/
theorem Echoes.later {x : Run α} {y : Nat → Run α} (h : Echoes p x (fun k => y (k + 1)) q) :
    Echoes p x y q := by
  intro m m' r n hm hp hx hr
  obtain ⟨ha, leads⟩ := h hm hp hx hr
  exact ⟨ha, leads.later⟩

theorem echoes_pure {a : α} (h : ∀ f, p f → q a f) : Echoes p (pure a) (fun _ => pure a) q := by
  intro m m' r n hm hp hx hr
  obtain ⟨rfl, rfl⟩ := conclude_inj (show conclude (.ok a) m = conclude r n from hx)
  refine ⟨?_, leads_of_eq (fun _ => rfl) hr ⟨rfl, hm⟩⟩
  rintro _ ⟨⟩
  exact h _ hp

/-- Control is sent to the same place. -/
theorem echoes_setFlow {flow : Flow} {q : PUnit → Flow → Prop} (h : q ⟨⟩ flow) :
    Echoes p (modify fun m => { m with flow }) (fun _ => modify fun m => { m with flow }) q := by
  intro m m' r n hm hp hx hr
  obtain ⟨rfl, rfl⟩ := conclude_inj
    (show conclude (.ok PUnit.unit) { m with flow } = conclude r n from hx)
  exact ⟨fun _ _ => h, leads_of_eq (fun _ => rfl) hr ⟨rfl, hm.setFlow flow⟩⟩

/-- A look at the flow, by what it can be. -/
theorem echoes_look {x : Flow → Run α} {y : Flow → Nat → Run α}
    (h : ∀ f, p f → Echoes (· = f) (x f) (y f) q) :
    Echoes p (get >>= fun m => x m.flow) (fun k => get >>= fun m => y m.flow k) q := by
  intro m m' r n hm hp hx hr
  obtain ⟨ha, r', n', enough, run, hr', hn⟩ := h m.flow hp hm rfl hx hr
  refine ⟨ha, r', n', enough, fun k hk => ?_, hr', hn⟩
  exact (show _ = y m'.flow k m' from rfl).trans (hm.flow ▸ run k hk)

/-- What ends with some fuel ends in the same way with more. -/
theorem conclude_of_lasts {x : Nat → Run α} (hl : ∀ k, (x k).Lasts (x (k + 1))) {k j : Nat}
    {m n : Machine} {r : Except Stop α} (h : x k m = conclude r n) (hr : r ≠ .error .exhausted)
    (hj : k ≤ j) : x j m = conclude r n := by
  induction hj with
  | refl => exact h
  | @step j _ ih =>
    rcases hl j m with ⟨n', hn'⟩ | same
    · exact absurd (conclude_inj
        (show conclude (.error .exhausted) n' = conclude r n from hn'.symm.trans ih)).1.symm hr
    · exact same.trans ih

/-- Steady code that lasts echoes itself. -/
theorem echoes_self {x : Nat → Run α} (hb : ∀ k, (x k).Blind) (hs : ∀ k, (x k).Steady False)
    (hl : ∀ k, (x k).Lasts (x (k + 1))) {k : Nat}
    (hq : ∀ m n a, p m.flow → x k m = .ok a n → q a n.flow) : Echoes p (x k) x q := by
  intro m m' r n hm hp hx hr
  obtain ⟨n', hx', hn⟩ := (hb k).beside (hs k) hm hx
  refine ⟨?_, r, n', k, fun j hj => conclude_of_lasts hl hx' hr hj, hr, rfl, hn⟩
  rintro a rfl
  exact hq m n a hp hx

/-! ### Twins -/

variable {x y : Nat → Run α}

/-- Steady code that lasts is its own twin. -/
theorem twins_self (hb : ∀ k, (x k).Blind) (hs : ∀ k, (x k).Steady False)
    (hl : ∀ k, (x k).Lasts (x (k + 1)))
    (hq : ∀ k m n a, p m.flow → x k m = .ok a n → q a n.flow) : Twins p x x q :=
  ⟨fun k => echoes_self hb hs hl (hq k), fun k => echoes_self hb hs hl (hq k)⟩

theorem Twins.symm (h : Twins p x y q) : Twins p y x q := ⟨h.left, h.right⟩

theorem Twins.bind {f g : Nat → α → Run β} (h : Twins p x y q)
    (hf : ∀ a, Twins (q a) (fun k => f k a) (fun k => g k a) s) :
    Twins p (fun k => x k >>= f k) (fun k => y k >>= g k) s :=
  ⟨fun k => (h.right k).bind fun a => (hf a).right k,
    fun k => (h.left k).bind fun a => (hf a).left k⟩

theorem twins_pure {a : α} (h : ∀ f, p f → q a f) : Twins p (fun _ => pure a) (fun _ => pure a) q :=
  ⟨fun _ => echoes_pure h, fun _ => echoes_pure h⟩

theorem twins_setFlow {flow : Flow} {q : PUnit → Flow → Prop} (h : q ⟨⟩ flow) :
    Twins p (fun _ => modify fun m => { m with flow }) (fun _ => modify fun m => { m with flow }) q :=
  ⟨fun _ => echoes_setFlow h, fun _ => echoes_setFlow h⟩

theorem twins_look {x y : Flow → Nat → Run α} (h : ∀ f, p f → Twins (· = f) (x f) (y f) q) :
    Twins p (fun k => get >>= fun m => x m.flow k) (fun k => get >>= fun m => y m.flow k) q :=
  ⟨fun k => echoes_look fun f hf => (h f hf).right k,
    fun k => echoes_look fun f hf => (h f hf).left k⟩

/-- A look at the flow on one side, where it is known. -/
theorem Twins.look {f : Flow} {y : Flow → Nat → Run α} (h : Twins (· = f) x (y f) q) :
    Twins (· = f) x (fun k => get >>= fun m => y m.flow k) q := by
  refine twins_look (x := fun _ => x) ?_
  rintro _ rfl
  exact h

/-- A checkpoint on one side. -/
theorem Twins.checkpoint (h : Twins p x y q) (loc : Location) :
    Twins p x (fun k => checkpoint loc >>= fun _ => y k) q := by
  constructor
  · intro k m m' r n hm hp hx hr
    obtain ⟨ha, r', n', enough, run, hr', hn⟩ := h.right k (hm.tell loc) hp hx hr
    refine ⟨ha, r', n', enough, fun k hk => ?_, hr', hn⟩
    exact (bind_of_ok (checkpoint_free loc hm.control)).trans (run k hk)
  · intro k m m' r n hm hp hx hr
    have passed := bind_of_ok (f := fun _ => y k) (checkpoint_free loc hm.free)
    exact h.left k (hm.symm.tell loc).symm hp (passed.symm.trans hx) hr

/-- One side needs one unit of fuel to begin with. -/
theorem Twins.later (h : Twins p x (fun k => y (k + 1)) q) (h0 : y 0 = throw .exhausted) :
    Twins p x y q where
  right k := (h.right k).later
  left
    | 0 => h0 ▸ echoes_exhausted
    | k + 1 => h.left k

end

end Run

end MiniC
