/-
  Interrupting runs.

  Under a control with a budget of checkpoints no run goes on forever, provided that the body of each
  loop holds a statement other than a block: each round of such a loop passes a checkpoint, the depth
  of calls is limited, and all else is done on the parts of code (`Session.interruptible`).  The proof
  goes by the budget, then by the number of calls that can still be made, and then by the code.

  Blocks pass no checkpoint, so a loop around empty blocks is not interrupted: `while (1) { }` runs on
  under any control (`Session.spinning_goes_on`).
-/
import MiniC.Proofs.Fuel

namespace MiniC

open Run

/-! ## Loops that pass checkpoints -/

mutual

/-- Whether a statement passes a checkpoint: it is no block, or a statement in it does. -/
def Stmt.pauses : Stmt → Bool
  | .mk (.block body) _ => pausesAny body
  | _ => true

/-- Whether one of the statements passes a checkpoint. -/
def pausesAny : List Stmt → Bool
  | [] => false
  | s :: ss => s.pauses || pausesAny ss

end

mutual

/-- Whether the body of each loop in a statement passes a checkpoint. -/
def Stmt.loopsPause : Stmt → Bool
  | .mk (.block body) _ => loopsPauseAll body
  | .mk (.ifElse _ thenBranch none) _ => thenBranch.loopsPause
  | .mk (.ifElse _ thenBranch (some elseBranch)) _ => thenBranch.loopsPause && elseBranch.loopsPause
  | .mk (.whileLoop _ body) _ | .mk (.doWhile body _) _ | .mk (.forLoop _ _ _ body) _ =>
    body.pauses && body.loopsPause
  | _ => true

def loopsPauseAll : List Stmt → Bool
  | [] => true
  | s :: ss => s.loopsPause && loopsPauseAll ss

end

/-- Whether the body of each loop in a program passes a checkpoint. -/
def Program.loopsPause (p : Program) : Bool :=
  p.functions.all fun f =>
    match f.body with
    | .compiled s => s.loopsPause
    | _ => true

theorem Frames.depth_eq (f : Frames) : f.depth = f.names.length := (List.length_map _).symm

/-! ## Runs that end -/

namespace Run
variable {α β : Type}

/-- With enough fuel `x` comes to an end on `m`, always the same one, and `Q` holds of it. -/
def Leads (x : Nat → Run α) (m : Machine) (Q : Except Stop α → Machine → Prop) : Prop :=
  ∃ r m' enough, (∀ k, enough ≤ k → x k m = conclude r m') ∧ r ≠ .error .exhausted ∧ Q r m'

theorem leads_of_eq {x : Nat → Run α} {m n : Machine} {r : Except Stop α}
    {Q : Except Stop α → Machine → Prop} (h : ∀ k, x k m = conclude r n)
    (hr : r ≠ .error .exhausted) (hq : Q r n) : Leads x m Q :=
  ⟨r, n, 0, fun k _ => h k, hr, hq⟩

theorem Leads.mono {x : Nat → Run α} {m : Machine} {Q Q' : Except Stop α → Machine → Prop}
    (h : Leads x m Q) (hQ : ∀ r m', Q r m' → Q' r m') : Leads x m Q' := by
  obtain ⟨r, m', enough, hx, hr, hq⟩ := h
  exact ⟨r, m', enough, hx, hr, hQ r m' hq⟩

theorem Leads.and {x : Nat → Run α} {m : Machine} {Q Q' : Except Stop α → Machine → Prop}
    (h : Leads x m Q) (h' : Leads x m Q') : Leads x m fun r m' => Q r m' ∧ Q' r m' := by
  obtain ⟨r, m', enough, hx, hr, hq⟩ := h
  obtain ⟨r', m'', enough', hx', -, hq'⟩ := h'
  have same := (hx _ (Nat.le_max_left enough enough')).symm.trans (hx' _ (Nat.le_max_right ..))
  obtain ⟨rfl, rfl⟩ := conclude_inj same
  exact ⟨r, m', enough, hx, hr, hq, hq'⟩

/-- What happens with less fuel at first does not matter. -/
theorem Leads.later {x : Nat → Run α} {m : Machine} {Q : Except Stop α → Machine → Prop}
    (h : Leads (fun k => x (k + 1)) m Q) : Leads x m Q := by
  obtain ⟨r, m', enough, hx, hr, hq⟩ := h
  refine ⟨r, m', enough + 1, fun k hk => ?_, hr, hq⟩
  obtain ⟨k, rfl⟩ := Nat.exists_eq_add_of_le' (Nat.le_of_add_left_le hk)
  exact hx k (by omega)

theorem Leads.bind {x : Nat → Run α} {f : Nat → α → Run β} {m : Machine}
    {Q : Except Stop β → Machine → Prop} (h : Leads x m fun r n =>
      match r with
      | .ok a => Leads (fun k => f k a) n Q
      | .error e => Q (.error e) n) : Leads (fun k => x k >>= f k) m Q := by
  obtain ⟨r, n, enough, hx, hr, hq⟩ := h
  cases r with
  | error e =>
    refine ⟨.error e, n, enough, fun k hk => bind_of_error (hx k hk), ?_, hq⟩
    rintro ⟨⟩
    exact hr rfl
  | ok a =>
    obtain ⟨r, n', enough', hy, hr', hq'⟩ := hq
    refine ⟨r, n', max enough enough', fun k hk => ?_, hr', hq'⟩
    exact (bind_of_ok (hx k (by omega))).trans (hy k (by omega))

/-- What a part of a run may leave behind: the same frames and no more of the budget. -/
structure Spends (m m' : Machine) : Prop where
  names : m'.frames.names = m.frames.names
  budget : ∀ {b}, m.control.budget = some b → ∃ b' ≤ b, m'.control.budget = some b'

theorem Spends.refl (m : Machine) : Spends m m := ⟨rfl, fun h => ⟨_, Nat.le_refl _, h⟩⟩

theorem Spends.trans {m m' m'' : Machine} (h : Spends m m') (h' : Spends m' m'') : Spends m m'' := by
  refine ⟨h'.names.trans h.names, fun hb => ?_⟩
  obtain ⟨b, hle, hb⟩ := h.budget hb
  obtain ⟨b', hle', hb'⟩ := h'.budget hb
  exact ⟨b', Nat.le_trans hle' hle, hb'⟩

theorem spends_of_eq {m m' : Machine} (hn : m'.frames.names = m.frames.names)
    (hc : m'.control = m.control) : Spends m m' :=
  ⟨hn, fun h => ⟨_, Nat.le_refl _, hc ▸ h⟩⟩

/-- A budget of at most `n` checkpoints, and at most `d` calls inside each other before there are
`limit`. -/
structure Bounded (limit d n : Nat) (m : Machine) : Prop where
  depth : limit ≤ m.frames.depth + d
  budget : ∃ b ≤ n, m.control.budget = some b

theorem Bounded.spends {limit d n : Nat} {m m' : Machine} (h : Bounded limit d n m) (hs : Spends m m') :
    Bounded limit d n m' := by
  obtain ⟨b, hle, hb⟩ := h.budget
  obtain ⟨b', hle', hb'⟩ := hs.budget hb
  refine ⟨?_, b', Nat.le_trans hle' hle, hb'⟩
  rw [Frames.depth_eq, hs.names, ← Frames.depth_eq]
  exact h.depth

/-- Within the bounds `x` ends; if it is `calm`, it leaves a normal flow normal. -/
def Ends (limit d n : Nat) (calm : Prop) (x : Nat → Run α) : Prop :=
  ∀ m, Bounded limit d n m →
    Leads x m fun _ m' => Spends m m' ∧ (calm → m.flow = .normal → m'.flow = .normal)

variable {limit d n : Nat} {calm : Prop}

theorem Ends.later {x : Nat → Run α} (h : Ends limit d n calm fun k => x (k + 1)) :
    Ends limit d n calm x :=
  fun m hm => (h m hm).later

theorem Ends.anyhow {x : Nat → Run α} (h : Ends limit d n calm x) : Ends limit d n False x :=
  fun m hm => (h m hm).mono fun _ _ hq => ⟨hq.1, False.elim⟩

theorem Plain.ends {x : Run α} (hx : x.Plain) : Ends limit d n calm fun _ => x := by
  intro m hm
  obtain ⟨r, m', ha, run⟩ := hx.run m
  obtain ⟨seen, -, h⟩ := run m.control m.log m.seen
  refine leads_of_eq (fun _ => h) ?_ ⟨spends_of_eq ha.names rfl, fun _ => ha.flow⟩
  cases r <;> simp [Except.mapError]

theorem Ends.bind {x : Nat → Run α} {f : Nat → α → Run β} (hx : Ends limit d n calm x)
    (hf : ∀ a, Ends limit d n calm fun k => f k a) : Ends limit d n calm fun k => x k >>= f k := by
  intro m hm
  refine Leads.bind ((hx m hm).mono fun r m' hq => ?_)
  cases r with
  | error e => exact hq
  | ok a =>
    refine (hf a m' (hm.spends hq.1)).mono fun _ m'' hq' => ⟨hq.1.trans hq'.1, fun hc hm => ?_⟩
    exact hq'.2 hc (hq.2 hc hm)

theorem ends_emit (e : Event) : Ends limit d n calm fun _ => emit e :=
  fun m _ => leads_of_eq (r := .ok ()) (n := m.tell e) (fun _ => rfl) nofun
    ⟨spends_of_eq rfl rfl, fun _ h => h⟩

/-- A run under a budget, with every amount of fuel. -/
def interruption (limit d n : Nat) (calm : Prop) : Likeness Nat where
  Like x := Ends limit d n calm x
  plain hx := hx.ends
  bind hx hf := hx.bind hf
  tell _ _ := ends_emit _
  noted f hx m hm := by
    obtain ⟨r, m', enough, h, hr, hs, hf⟩ := hx m.afresh ⟨hm.depth, hm.budget⟩
    exact ⟨r, _, enough, fun k hk => noted_conclude (h k hk), hr, ⟨hs.names, hs.budget⟩, hf⟩
  lastly {α x y} hx hy total m hm := by
    obtain ⟨r, m', enough, h, hr, hs, hf⟩ := hx m hm
    obtain ⟨m'', ha, ends⟩ := hy.lastly_eq (α := α) total m'
    obtain ⟨seen, -, hl⟩ := ends m'.control m'.log m'.seen
    refine ⟨r, _, enough, fun k hk => hl (h k hk), hr, hs.trans (spends_of_eq ha.names rfl), ?_⟩
    exact fun hc hm => ha.flow (hf hc hm)

instance : (interruption limit d n calm).Shaped := ⟨fun _ => ends_emit _⟩

/-- Part of the budget is gone. -/
def Drops (m m' : Machine) : Prop :=
  ∀ b, m.control.budget = some b → ∃ b' < b, m'.control.budget = some b'

theorem Spends.drops {m m' m'' : Machine} (h : Spends m m') (h' : Drops m' m'') : Drops m m'' := by
  intro b hb
  obtain ⟨b', hle, hb'⟩ := h.budget hb
  obtain ⟨b'', hlt, hb''⟩ := h' b' hb'
  exact ⟨b'', Nat.lt_of_lt_of_le hlt hle, hb''⟩

theorem Drops.spends {m m' m'' : Machine} (h : Drops m m') (h' : Spends m' m'') : Drops m m'' := by
  intro b hb
  obtain ⟨b', hlt, hb'⟩ := h b hb
  obtain ⟨b'', hle, hb''⟩ := h'.budget hb'
  exact ⟨b'', Nat.lt_of_le_of_lt hle hlt, hb''⟩

/-- A checkpoint takes one from the budget, or ends the run. -/
theorem checkpoint_leads (loc : Location) {m : Machine} (hm : m.control.budget.isSome) :
    Leads (fun _ => checkpoint loc) m fun r m' =>
      Spends m m' ∧ ∀ a, r = .ok a → Drops m m' := by
  refine leads_of_eq (fun _ => checkpoint_eq loc m) ?_ ?_
  · split <;> simp
  · cases hb : m.control.budget with
    | none => simp [hb] at hm
    | some b =>
      cases b with
      | zero =>
        have stays : m.control.checkpoint = (.abort, m.control) := by rw [Control.checkpoint, hb]
        refine ⟨spends_of_eq rfl (by rw [stays]), fun a ha => ?_⟩
        simp [stays] at ha
      | succ b =>
        have spent : m.control.checkpoint.2.budget = some b := by rw [Control.checkpoint, hb]
        refine ⟨⟨rfl, fun hb' => ⟨b, ?_, spent⟩⟩, fun _ _ _ hb' => ⟨b, ?_, spent⟩⟩ <;>
        · rw [hb] at hb'
          cases hb'
          omega

theorem paced_interruption (limit d n : Nat) : (interruption limit d n False).Paced where
  checkpoint loc m hm := by
    obtain ⟨b, -, hb⟩ := hm.budget
    exact (checkpoint_leads loc (by simp [hb])).mono fun _ _ hq => ⟨hq.1, False.elim⟩
  jump {f} ho hn _ m _ := by
    have hm : f m = (f m).under m.control m.log m.seen := ho m m.control m.log m.seen
    exact leads_of_eq (r := .ok ()) (fun _ => rfl) nofun
      ⟨spends_of_eq (hn m) (congrArg (·.control) hm), False.elim⟩

/-- A call is one frame deeper, and there a normal flow is restored. -/
theorem Ends.framed {x : Nat → Run Unit} {loc : Location} {id : FunctionId} {f : Function}
    (hx : ∀ d', d = d' + 1 → Ends limit d' n False x) :
    Ends limit d n calm fun k => Engine.framed limit loc id f (x k) := by
  intro m hm
  by_cases hd : limit ≤ m.frames.depth
  · exact leads_of_eq (r := .error (.fault _)) (fun _ => Engine.framed_of_le hd) nofun
      ⟨.refl m, fun _ h => h⟩
  · have hlimit := hm.depth
    obtain ⟨d', rfl⟩ : ∃ d', d = d' + 1 := ⟨d - 1, by omega⟩
    let pushed : Machine := { m with frames := m.frames.push id f.name }
    have deeper : Bounded limit d' n pushed := by
      refine ⟨?_, hm.budget⟩
      change limit ≤ m.frames.calls.length + 1 + d'
      have : m.frames.depth = m.frames.calls.length := rfl
      omega
    obtain ⟨r, m', enough, h, hr, hs, -⟩ := hx d' rfl pushed deeper
    obtain ⟨q, m'', hm'', ⟨hflow, -⟩, closes⟩ := Engine.closing_eq f hs.names
    obtain ⟨seen, -, hclose⟩ := closes m'.control m'.log m'.seen
    have ends : ∀ k, enough ≤ k → Engine.framed limit loc id f (x k) m = _ := fun k hk =>
      (Engine.framed_of_lt (Nat.not_le.1 hd)).trans (hclose (h k hk))
    refine ⟨_, m''.under m'.control (.exit f.name :: m'.log) seen, enough, ends, ?_,
      ⟨hm'', hs.budget⟩, fun _ _ => hflow⟩
    cases r with
    | error e => simpa [Except.bind] using hr
    | ok u => cases q <;> simp [Except.bind, Except.mapError]

end Run

/-! ## Expressions -/

/-- What holds of an expression where it holds of all that its rule asks for holds of all well-typed
expressions: the values of an array assignment are what they were lowered to. -/
theorem Expr.Typed.rec_asks {env : Env} {c : Context} (hr : env.Runs c) {k : Option FunctionId}
    {P : Expr → Prop} (step : ∀ e, (∀ e', e.Asks env e' → P e') → P e) {e : Expr}
    (he : e.Typed c k) : P e := by
  have one : ∀ {op ty loc}, (∀ e' ∈ op.operands, P e') →
      (∀ dst values scope, op ≠ .arrayAssign dst values scope) → P (.mk op ty loc) := by
    intro op ty loc ho ha
    refine step _ fun e' asks => ?_
    cases asks with
    | operand hm => exact ho e' hm
    | deferred => exact (ha _ _ _ rfl).elim
  induction he with
  | const | str | var => exact one (by simp [Operation.operands]) (by simp)
  | member _ _ _ _ ih | deref _ _ ih | addressOf _ _ _ _ ih | unary _ _ ih =>
    exact one (by simpa [Operation.operands] using ih) (by simp)
  | index _ _ _ _ _ ih ih' | binary _ _ _ _ ih ih' | pointerOffset _ _ _ _ _ ih ih'
  | pointerDiff _ _ _ _ _ ih ih' | assign _ _ _ _ _ _ ih ih' =>
    exact one (by simpa [Operation.operands] using ⟨ih, ih'⟩) (by simp)
  | call _ _ _ _ ih => exact one (by simpa [Operation.operands] using ih) (by simp)
  | @arrayAssign dst values scope element es _ _ _ _ ha _ _ ih ih' =>
    refine step _ fun e' asks => ?_
    cases asks with
    | operand hm =>
      obtain rfl : e' = dst := by simpa [Operation.operands, Expr.arrayAssign] using hm
      exact ih
    | @deferred _ _ _ _ _ v f _ c' hv hl =>
      rw [hr.program] at hl
      obtain ⟨e'', he'', hl'⟩ := Lower.forall₂_mem_left
        (hr.finished.replayed ha _ hr.finished.leads.completes f) hv
      obtain ⟨rfl, -⟩ := Prod.mk.inj (Except.ok.inj (hl'.symm.trans hl))
      exact ih' _ he''

/-! ## Statements -/

/-- Begun with a normal flow, `x` spends something of the budget unless it stops. -/
def Run.Falls {α : Type} (limit d n : Nat) (x : Nat → Run α) : Prop :=
  ∀ m, Bounded limit d n m → m.flow = .normal → Leads x m fun r m' => ∀ a, r = .ok a → Drops m m'

/-- How a statement is performed within bounds: it ends; it spends something of the budget if it passes
a checkpoint; and it does nothing if it does not. -/
structure Env.Paces (env : Env) (d n : Nat) (s : Stmt) : Prop where
  ends : Ends env.config.maxDepth d n False fun k => perform env k s
  falls : s.pauses = true → Falls env.config.maxDepth d n fun k => perform env k s
  rests : s.pauses = false → ∀ m, Leads (fun k => perform env k s) m fun r m' => r = .ok () ∧ m' = m

section
variable {env : Env} {d n : Nat}

theorem performAll_ends {ss : List Stmt} (h : ∀ s ∈ ss, env.Paces d n s) :
    Ends env.config.maxDepth d n False fun k => (engine env k).performAll ss :=
  Likeness.performAll (S := interruption env.config.maxDepth d n False) fun s hs => (h s hs).ends

theorem performAll_rests {ss : List Stmt} (h : ∀ s ∈ ss, env.Paces d n s)
    (hp : pausesAny ss = false) (m : Machine) :
    Leads (fun k => (engine env k).performAll ss) m fun r m' => r = .ok () ∧ m' = m := by
  induction ss with
  | nil => exact leads_of_eq (r := .ok ()) (n := m) (fun _ => rfl) nofun ⟨rfl, rfl⟩
  | cons s ss ih =>
    simp only [pausesAny, Bool.or_eq_false_iff] at hp
    refine Leads.bind (((h s (by simp)).rests hp.1 m).mono fun r m' hq => ?_)
    obtain ⟨rfl, rfl⟩ := hq
    refine Leads.bind (leads_of_eq (r := .ok m') (n := m') (fun _ => rfl) nofun ?_)
    by_cases hf : m'.flow = .normal
    · simp only [hf, if_true]
      exact ih (fun t ht => h t (by simp [ht])) hp.2
    · simp only [hf, if_false]
      exact leads_of_eq (r := .ok ()) (n := m') (fun _ => rfl) nofun ⟨rfl, rfl⟩

theorem performAll_falls {ss : List Stmt} (h : ∀ s ∈ ss, env.Paces d n s)
    (hp : pausesAny ss = true) :
    Falls env.config.maxDepth d n fun k => (engine env k).performAll ss := by
  induction ss with
  | nil => cases hp
  | cons s ss ih =>
    intro m hm hf
    have hs := h s (by simp)
    have rest : ∀ t ∈ ss, env.Paces d n t := fun t ht => h t (by simp [ht])
    refine Leads.bind ?_
    cases hps : s.pauses with
    | true =>
      -- The first statement spends of the budget, and the others give nothing back.
      refine ((hs.ends m hm).and (hs.falls hps m hm hf)).mono fun r m' hq => ?_
      cases r with
      | error e => exact nofun
      | ok a =>
        have on : Ends env.config.maxDepth d n False fun k => (do
            if (← get).flow = .normal then (engine env k).performAll ss : Run Unit) :=
          (interruption _ d n False).look (fun _ _ _ _ _ => rfl) fun m =>
            (interruption _ d n False).ite (performAll_ends rest) ((interruption _ d n False).pure _)
        refine (on m' (hm.spends hq.1.1)).mono fun r m'' hq' _ _ => ?_
        exact (hq.2 a rfl).spends hq'.1
    | false =>
      refine (hs.rests hps m).mono fun r m' hq => ?_
      obtain ⟨rfl, rfl⟩ := hq
      refine Leads.bind (leads_of_eq (r := .ok m') (n := m') (fun _ => rfl) nofun ?_)
      simp only [hf, if_true]
      refine ih rest ?_ m' hm hf
      simpa [pausesAny, hps] using hp

/-- A statement that is no block spends of the budget before anything else. -/
theorem falls_checkpoint {limit : Nat} {loc : Location} {y : Nat → Run Unit}
    (hy : Ends limit d n False y) : Falls limit d n fun k => checkpoint loc >>= fun _ => y k := by
  intro m hm _
  obtain ⟨b, -, hb⟩ := hm.budget
  refine Leads.bind ((checkpoint_leads loc (by simp [hb])).mono fun r m' hq => ?_)
  cases r with
  | error e => exact nofun
  | ok a =>
    exact (hy m' (hm.spends hq.1)).mono fun r m'' hq' _ _ => (hq.2 a rfl).spends hq'.1

/-- A statement keeps the pace that its parts keep. -/
theorem Env.Paces.of_parts {s : Stmt}
    (he : ∀ e ∈ s.action.exprs, Ends env.config.maxDepth d n False fun k => execute env k e)
    (hs : ∀ t ∈ s.action.stmts, env.Paces d n t)
    (hl : ∀ l ∈ s.action.loop?, Ends env.config.maxDepth d n False fun k => iterate env k l) :
    env.Paces d n s := by
  let S := interruption env.config.maxDepth d n False
  have paced : S.Paced := paced_interruption ..
  have acts : Ends env.config.maxDepth d n False fun k => (engine env k).act s.action :=
    paced.act he (fun t ht => (hs t ht).ends) hl
  refine ⟨Ends.later ?_, fun hp => ?_, fun hp => ?_⟩
  · exact paced.performRule he (fun t ht => (hs t ht).ends) hl
  · obtain ⟨a, loc⟩ := s
    refine fun m hm hf => Leads.later ?_
    cases a with
    | block body => exact performAll_falls hs hp m hm hf
    | _ => exact falls_checkpoint acts m hm hf
  · obtain ⟨a, loc⟩ := s
    cases a with
    | block body => exact fun m => Leads.later (performAll_rests hs hp m)
    | _ => cases hp

/-! ## Loops -/

/-- A round of a loop that goes on leaves a normal flow, and it has spent of the budget if it has begun
with one. -/
theorem round_leads {body : Stmt} (hb : env.Paces d n body) (hp : body.pauses = true) {m : Machine}
    (hm : Bounded env.config.maxDepth d n m) :
    Leads (fun k => (engine env k).round body) m fun r m' => Spends m m' ∧
      (r = .ok true → m'.flow = .normal ∧ (m.flow = .normal → Drops m m')) := by
  have falls : Leads (fun k => perform env k body) m fun r m' =>
      m.flow = .normal → ∀ a, r = .ok a → Drops m m' := by
    by_cases hf : m.flow = .normal
    · exact (hb.falls hp m hm hf).mono fun _ _ hq _ => hq
    · exact (hb.ends m hm).mono fun _ _ _ h => absurd h hf
  refine Leads.bind (((hb.ends m hm).and falls).mono fun r m' hq => ?_)
  obtain ⟨⟨spends, -⟩, drops⟩ := hq
  cases r with
  | error e => exact ⟨spends, nofun⟩
  | ok a =>
    refine Leads.bind (leads_of_eq (r := .ok m') (n := m') (fun _ => rfl) nofun ?_)
    have reset : Spends m' { m' with flow := .normal } := spends_of_eq rfl rfl
    simp only
    -- Only a flow that goes on has to have spent.
    cases hf : m'.flow with
    | normal =>
      exact leads_of_eq (r := .ok true) (n := m') (fun _ => rfl) nofun
        ⟨spends, fun _ => ⟨hf, fun h => drops h a rfl⟩⟩
    | continues =>
      exact leads_of_eq (r := .ok true) (n := { m' with flow := .normal }) (fun _ => rfl) nofun
        ⟨spends.trans reset, fun _ => ⟨rfl, fun h => (drops h a rfl).spends reset⟩⟩
    | breaks =>
      exact leads_of_eq (r := .ok false) (n := { m' with flow := .normal }) (fun _ => rfl) nofun
        ⟨spends.trans reset, nofun⟩
    | returns => exact leads_of_eq (r := .ok false) (n := m') (fun _ => rfl) nofun ⟨spends, nofun⟩

section
variable {l : Loop}
  (hc : ∀ e ∈ l.condition, Ends env.config.maxDepth d n True fun k => execute env k e)
  (hi : ∀ e ∈ l.increment, Ends env.config.maxDepth d n True fun k => execute env k e)
  (hb : env.Paces d n l.body) (hp : l.body.pauses = true)
include hc hi hb hp

/-- A loop ends on `m` if it ends on all machines that a round can lead to. -/
theorem iterate_leads {m : Machine} (hm : Bounded env.config.maxDepth d n m)
    (next : ∀ m', Spends m m' → m'.flow = .normal → (m.flow = .normal → Drops m m') →
      Leads (fun k => iterate env k l) m' fun _ m'' => Spends m' m'') :
    Leads (fun k => iterate env k l) m fun _ m' => Spends m m' := by
  let S := interruption env.config.maxDepth d n True
  have test : Ends env.config.maxDepth d n True fun k => (engine env k).holds l.condition :=
    Likeness.holds (S := S) hc
  have onward : Ends env.config.maxDepth d n True fun k => (engine env k).executeOption l.increment :=
    Likeness.executeOption (S := S) hi
  have stop : ∀ m', Spends m m' → Leads (fun _ => (pure () : Run Unit)) m' fun _ m'' => Spends m m'' :=
    fun m' hs => leads_of_eq (r := .ok ()) (n := m') (fun _ => rfl) nofun hs
  refine Leads.later (Leads.bind ((test m hm).mono fun r m₁ h₁ => ?_))
  cases r with
  | error e => exact h₁.1
  | ok holds =>
    cases holds with
    | false => exact stop m₁ h₁.1
    | true =>
      refine Leads.bind ((round_leads hb hp (hm.spends h₁.1)).mono fun r m₂ h₂ => ?_)
      have s₂ := h₁.1.trans h₂.1
      cases r with
      | error e => exact s₂
      | ok goes =>
        cases goes with
        | false => exact stop m₂ s₂
        | true =>
          obtain ⟨flow₂, drops₂⟩ := h₂.2 rfl
          refine Leads.bind ((onward m₂ (hm.spends s₂)).mono fun r m₃ h₃ => ?_)
          have s₃ := s₂.trans h₃.1
          cases r with
          | error e => exact s₃
          | ok u =>
            -- What the body has spent is spent behind the increment too.
            refine (next m₃ s₃ (h₃.2 trivial flow₂) fun hf => ?_).mono fun _ _ hs => s₃.trans hs
            exact h₁.1.drops ((drops₂ (h₁.2 trivial hf)).spends h₃.1)

/-- A loop whose body passes a checkpoint ends within a budget if it ends within all smaller ones. -/
theorem iterate_ends (ih : ∀ n' < n, Ends env.config.maxDepth d n' False fun k => iterate env k l) :
    Ends env.config.maxDepth d n False fun k => iterate env k l := by
  intro m hm
  refine (iterate_leads hc hi hb hp hm fun m' hs hf _ => ?_).mono fun _ _ hs => ⟨hs, False.elim⟩
  -- From the second round on the flow is normal, so that each round spends of the budget.
  have hm' := hm.spends hs
  refine iterate_leads hc hi hb hp hm' fun m'' hs' _ drops => ?_
  obtain ⟨b, hle, hbudget⟩ := hm'.budget
  obtain ⟨b', hlt, hbudget'⟩ := drops hf b hbudget
  have hm'' : Bounded env.config.maxDepth d b' m'' :=
    ⟨(hm'.spends hs').depth, b', Nat.le_refl _, hbudget'⟩
  exact (ih b' (Nat.lt_of_lt_of_le hlt hle) m'' hm'').mono fun _ _ h => h.1

end

end

/-! ## Programs -/

theorem Stmt.sizeOf_lt_of_mem {s t : Stmt} (h : t ∈ s.action.stmts) : sizeOf t < sizeOf s := by
  obtain ⟨a, loc⟩ := s
  cases a <;> simp only [Stmt.action, Action.stmts, List.mem_cons, Option.mem_toList, List.not_mem_nil,
    or_false] at h
  case block body =>
    have := List.sizeOf_lt_of_mem h
    simp only [Stmt.mk.sizeOf_spec, Action.block.sizeOf_spec]
    omega
  case ifElse c thenBranch elseBranch =>
    rcases h with rfl | rfl
    · simp only [Stmt.mk.sizeOf_spec, Action.ifElse.sizeOf_spec]
      omega
    · simp only [Stmt.mk.sizeOf_spec, Action.ifElse.sizeOf_spec, Option.some.sizeOf_spec]
      omega
  all_goals
    subst h
    simp only [Stmt.mk.sizeOf_spec, Action.whileLoop.sizeOf_spec, Action.doWhile.sizeOf_spec,
      Action.forLoop.sizeOf_spec]
    omega

theorem Stmt.rec_parts {P : Stmt → Prop} (step : ∀ s, (∀ t ∈ s.action.stmts, P t) → P s) (s : Stmt) :
    P s :=
  step s fun t _ => Stmt.rec_parts step t
termination_by sizeOf s
decreasing_by exact Stmt.sizeOf_lt_of_mem ‹_›

theorem loopsPause_of_mem {ss : List Stmt} (h : loopsPauseAll ss = true) {s : Stmt} (hs : s ∈ ss) :
    s.loopsPause = true := by
  induction ss with
  | nil => cases hs
  | cons t ss ih =>
    simp only [loopsPauseAll, Bool.and_eq_true] at h
    rcases List.mem_cons.1 hs with rfl | hs
    · exact h.1
    · exact ih h.2 hs

theorem Stmt.loopsPause_part {s t : Stmt} (h : s.loopsPause = true) (ht : t ∈ s.action.stmts) :
    t.loopsPause = true := by
  obtain ⟨a, loc⟩ := s
  cases a <;> simp only [Stmt.action, Action.stmts, List.mem_cons, Option.mem_toList, List.not_mem_nil,
    or_false] at ht
  case block body => exact loopsPause_of_mem h ht
  case ifElse c thenBranch elseBranch =>
    cases elseBranch with
    | none =>
      rcases ht with rfl | ht
      · exact h
      · cases ht
    | some e =>
      simp only [Stmt.loopsPause, Bool.and_eq_true] at h
      rcases ht with rfl | ht
      · exact h.1
      · cases ht
        exact h.2
  all_goals
    subst ht
    simp only [Stmt.loopsPause, Bool.and_eq_true] at h
    exact h.2

/-- What a loop is made from, as parts of the statement that it stands in. -/
theorem Action.loop_parts {a : Action} {l : Loop} (h : l ∈ a.loop?) : l.body ∈ a.stmts ∧
    (∀ e ∈ l.condition, e ∈ a.exprs) ∧ ∀ e ∈ l.increment, e ∈ a.exprs := by
  cases a <;> cases h <;> simp only [Action.stmts, Action.exprs, List.mem_append, List.mem_cons,
    Option.mem_toList, List.not_mem_nil, or_false, true_and]
  case forLoop i c n b => exact ⟨fun e he => .inl (.inr he), fun e he => .inr he⟩
  all_goals simp [eq_comm]

theorem Stmt.pauses_of_loop {s : Stmt} {l : Loop} (h : s.loopsPause = true) (hl : l ∈ s.action.loop?) :
    l.body.pauses = true := by
  obtain ⟨a, loc⟩ := s
  cases a <;> cases hl <;> simp only [Stmt.loopsPause, Bool.and_eq_true] at h <;> exact h.1

/-- Within the bounds all code of the program ends. -/
structure Env.Interruptible (env : Env) (c : Context) (d n : Nat) : Prop where
  execute : ∀ {k e}, Expr.Typed c k e → Ends env.config.maxDepth d n True fun i => execute env i e
  perform : ∀ {k result s}, Stmt.Typed c k result s → s.loopsPause = true → env.Paces d n s
  iterate : ∀ {k result s l}, Stmt.Typed c k result s → s.loopsPause = true → l ∈ s.action.loop? →
    Ends env.config.maxDepth d n False fun i => iterate env i l

section
variable {env : Env} {c : Context} (hr : env.Runs c) (hp : env.program.loopsPause = true)
include hr hp

/-- A call ends if all code ends one frame deeper. -/
theorem Env.Interruptible.invoke {d n : Nat} {calm : Prop}
    (h : ∀ d', d = d' + 1 → env.Interruptible c d' n) (id : FunctionId) (args : List Value)
    (loc : Location) :
    Ends env.config.maxDepth d n calm fun k => (engine env k).invoke env id args loc := by
  simp only [Engine.invoke_eq]
  refine Ends.framed fun d' hd => ?_
  have deeper := h d' hd
  let S := interruption env.config.maxDepth d' n False
  have locals : S.Like fun k => (engine env k).allocateLocals env (env.program.function id).locals := by
    refine Likeness.allocateLocals fun v hv spec hs => ?_
    rw [hr.program] at hv hs
    obtain ⟨-, -, k, typed⟩ := (hr.finished.symbol (k := some id) (.inr ⟨id, rfl, hv⟩)).array spec hs
    exact (deeper.execute typed).anyhow
  have announce : S.Like fun _ => Engine.announceFrame := by
    refine S.look (fun _ _ _ _ _ => rfl) fun m => ?_
    cases m.frames.current? with
    | none => exact S.pure _
    | some frame => exact ends_emit _
  refine S.bind (S.bind locals fun _ => S.bind (S.bindParams _ _ _) fun _ => announce) fun _ => ?_
  refine Likeness.runBody fun s hs => ?_
  rw [hr.program] at hs hp
  have hf := Program.function_of_compiled hs
  have pauses := Array.all_eq_true'.1 hp _ (Array.mem_of_getElem? hf)
  simp only [hs] at pauses
  exact (deeper.perform (hr.finished.compiled hf hs) pauses).ends

/-- **All code of a program whose loops pass checkpoints ends**, within every budget and every limit of
depth: by induction on the budget, on the depth that is left, and on the code. -/
theorem Env.code_ends (n d : Nat) : env.Interruptible c d n := by
  induction n using Nat.strongRecOn generalizing d with
  | ind n ihn =>
    have step : ∀ d, (∀ d', d = d' + 1 → env.Interruptible c d' n) → env.Interruptible c d n := by
      intro d deeper
      have execute : ∀ {k e}, Expr.Typed c k e →
          Ends env.config.maxDepth d n True fun i => execute env i e := by
        intro k e he
        refine he.rec_asks (P := fun e => Ends _ d n True fun i => MiniC.execute env i e) hr fun e ih => ?_
        exact Ends.later (Likeness.executeRule (S := interruption _ d n True) ih
          (Env.Interruptible.invoke hr hp deeper))
      -- Behind a round there is less of the budget, so the others end by the induction on the budget.
      have iterate : ∀ {k result s l}, Stmt.Typed c k result s → s.loopsPause = true →
          (∀ t ∈ s.action.stmts, env.Paces d n t) → l ∈ s.action.loop? →
          Ends env.config.maxDepth d n False fun i => iterate env i l := by
        intro k result s l hs pauses parts hl
        obtain ⟨hbody, hcond, hinc⟩ := Action.loop_parts hl
        exact iterate_ends (fun e he => execute (hs.expr_of_mem (hcond e he)))
          (fun e he => execute (hs.expr_of_mem (hinc e he))) (parts _ hbody) (s.pauses_of_loop pauses hl)
          fun n' hlt => (ihn n' hlt d).iterate hs pauses hl
      have perform : ∀ s {k result}, Stmt.Typed c k result s → s.loopsPause = true → env.Paces d n s := by
        intro s
        refine s.rec_parts (P := fun s => ∀ {k result}, Stmt.Typed c k result s → s.loopsPause = true →
          env.Paces d n s) fun s ih k result hs pauses => ?_
        have parts : ∀ t ∈ s.action.stmts, env.Paces d n t :=
          fun t ht => ih t ht (hs.part ht) (s.loopsPause_part pauses ht)
        exact .of_parts (fun e he => (execute (hs.expr_of_mem he)).anyhow) parts
          fun l hl => iterate hs pauses parts hl
      refine ⟨execute, perform _, fun hs pauses hl => iterate hs pauses (fun t ht => ?_) hl⟩
      exact perform t (hs.part ht) (Stmt.loopsPause_part pauses ht)
    -- A call takes one level of what is left of the depth.
    induction d with
    | zero => exact step 0 nofun
    | succ d ih =>
      refine step (d + 1) fun d' hd => ?_
      obtain rfl := Nat.succ.inj hd
      exact ih

end

namespace Session

/-- **Every run under a budget ends** if the body of each loop of the program passes a checkpoint: a
session that runs the program compiled from a source, under any limit of depth and any control with a
budget, comes to the end of each call with some amount of fuel, and to the same end with any more.
The condition is one of syntax, and sufficient only: it asks for a statement that is not a block in
the body of every loop of every function, whether a run comes there or not, and whatever the
condition of the loop does.  A block is the one statement before which no checkpoint is passed. -/
theorem interruptible {s t u : Session} {source : String} (h : s.compile source = .ok t)
    (hp : t.env.program.loopsPause = true) (hu : u.env = t.env) {n : Nat}
    (hn : u.machine.control.budget = some n) (name : String) (args : List Word) :
    ∃ fuel r u', r ≠ .error .exhausted ∧
      ∀ more, fuel ≤ more → u.callWithin more name args = (r, u') := by
  obtain ⟨c, hr⟩ := runs_of_compile h
  rw [← hu] at hr hp
  let limit := u.env.config.maxDepth
  let S := interruption limit limit n False
  have code := Env.code_ends hr hp n limit
  have ends : S.Like fun k => Run.call u.env k name args := by
    refine Likeness.call fun id _ => ?_
    refine S.bind (Likeness.start fun v hv spec hs => ?_) fun _ => S.noted id (S.named _ ?_)
    · rw [hr.program] at hv hs
      obtain ⟨-, -, k, typed⟩ := (hr.finished.symbol (k := none) (.inl hv)).array spec hs
      exact (code.execute typed).anyhow
    · exact Env.Interruptible.invoke hr hp (fun d' _ => Env.code_ends hr hp n d') _ _ _
  obtain ⟨r, m, enough, run, hne, -⟩ := ends u.machine ⟨Nat.le_add_left .., n, Nat.le_refl n, hn⟩
  refine ⟨enough, r, { u with machine := m }, hne, fun more hle => ?_⟩
  unfold callWithin
  rw [show Run.call u.env more name args u.machine = _ from run more hle]
  cases r <;> rfl

/-- A loop that goes on until it is interrupted. -/
def waiting : String := "int main() \x7b while (1) ; return 0; \x7d"

theorem interruptible_waiting : ∃ t fuel r u, (new .standard).compile waiting = .ok t ∧
    r ≠ .error .exhausted ∧
    ∀ more, fuel ≤ more → (t.controlled ⟨.free, some 3⟩).callWithin more "main" [] = (r, u) := by
  have run : ((new .standard).compile waiting).toOption.map (fun t => t.env.program.loopsPause) =
      some true := by
    rw [compile_of_toList waiting (String.ofList_eq.1 rfl)]
    decide +kernel
  obtain ⟨t, ht, pauses⟩ := Except.exists_ok_of_map run
  obtain ⟨fuel, r, u, hr, ends⟩ := interruptible (u := t.controlled ⟨.free, some 3⟩) ht pauses rfl
    (n := 3) rfl "main" []
  exact ⟨t, fuel, r, u, ht, hr, ends⟩

end Session

/-! ## Loops that pass no checkpoint -/

section
variable {env : Env}

/-- An empty block changes nothing. -/
theorem perform_hollow {s : Stmt} (h : s.pauses = false) (fuel : Nat) (m : Machine) :
    perform env fuel s m = .error .exhausted m ∨ perform env fuel s m = .ok () m := by
  induction s using Stmt.rec_parts generalizing fuel with
  | step s ih =>
    obtain ⟨a, loc⟩ := s
    cases fuel with
    | zero => exact .inl rfl
    | succ fuel =>
      cases a with
      | block body =>
        have all : ∀ ss : List Stmt, (∀ s ∈ ss, s ∈ body) → pausesAny ss = false →
            (engine env fuel).performAll ss m = .error .exhausted m ∨
              (engine env fuel).performAll ss m = .ok () m := by
          intro ss hs hp
          induction ss with
          | nil => exact .inr rfl
          | cons s ss ihs =>
            simp only [pausesAny, Bool.or_eq_false_iff] at hp
            rcases ih s (hs s (by simp)) hp.1 fuel with hx | hx
            · exact .inl (bind_of_error hx)
            · have hx' : (engine env fuel).perform s m = .ok () m := hx
              by_cases hf : m.flow = .normal
              · simpa [Engine.performAll, hx', hf] using ihs (fun t ht => hs t (by simp [ht])) hp.2
              · exact .inr (by simp [Engine.performAll, hx', hf])
        exact all body (fun _ hs => hs) h
      | _ => cases h

/-- **A loop that passes no checkpoint goes on whatever the control says**, if its condition is a
constant that holds: its body has no statement but blocks. -/
theorem iterate_spins {e : Expr} {w : Word} {body : Stmt} (he : e.constant? = some w) (hw : w ≠ 0)
    (hb : body.pauses = false) (fuel : Nat) {m : Machine} (hm : m.flow = .normal) :
    iterate env fuel ⟨some e, none, body⟩ m = .error .exhausted m := by
  induction fuel with
  | zero => rfl
  | succ n ih =>
    have ih' : (engine env n).iterate ⟨some e, none, body⟩ m = .error .exhausted m := ih
    change Engine.iterateRule (engine env n) ⟨some e, none, body⟩ m = _
    rcases (engine_folds env n).solve he m with hx | ⟨ty, hx⟩
    · simp [Engine.iterateRule, Engine.holds, hx]
    · rcases perform_hollow hb n m with hy | hy
      · have hy' : (engine env n).perform body m = .error .exhausted m := hy
        simp [Engine.iterateRule, Engine.holds, Engine.round, hx, Value.isTrue, hw, hy']
      · have hy' : (engine env n).perform body m = .ok () m := hy
        simp [Engine.iterateRule, Engine.holds, Engine.round, Engine.executeOption, hx, Value.isTrue, hw,
          hy', hm, ih']

/-- Whether a body begins with a loop that passes no checkpoint and whose condition is a constant that
holds. -/
def Body.spins : Body → Bool
  | .compiled (.mk (.block (.mk (.whileLoop e body) _ :: _)) _) =>
    e.constant?.any (· ≠ 0) && !body.pauses
  | _ => false

/-- A body that begins with such a loop does not end, once its first checkpoint is passed. -/
theorem runBody_spins {f : Function} (hf : f.body.spins = true) (fuel : Nat) (loc : Location)
    {m : Machine} (hm : m.flow = .normal) (hc : m.control.checkpoint.1 = .proceed) :
    ((engine env fuel).runBody env f loc).Spent m := by
  unfold Body.spins at hf
  split at hf
  · rename_i e body loop rest place hb
    simp only [Bool.and_eq_true, Bool.not_eq_true', Option.any_eq_true] at hf
    obtain ⟨⟨w, hw, hne⟩, hbody⟩ := hf
    simp only [Engine.runBody, hb]
    cases fuel with
    | zero => exact ⟨m, rfl⟩
    | succ fuel =>
      refine Spent.bind (x := perform env fuel _) ?_ _
      cases fuel with
      | zero => exact ⟨m, rfl⟩
      | succ fuel =>
        have passed := checkpoint_eq loop m
        rw [hc, if_pos rfl] at passed
        refine Spent.after ?_ passed
        exact ⟨_, iterate_spins hw (by simpa using hne) hbody fuel hm⟩
  · cases hf

/-- A function without variables is run in its frame at once. -/
theorem invoke_spins {id : FunctionId} (hf : (env.program.function id).body.spins = true)
    (hl : (env.program.function id).locals = []) (hp : (env.program.function id).params = [])
    (fuel : Nat) (args : List Value) (loc : Location) {m : Machine} (hm : m.flow = .normal)
    (hc : m.control.checkpoint.1 = .proceed) (hd : m.frames.depth < env.config.maxDepth) :
    ((engine env fuel).invoke env id args loc).Spent m := by
  let pushed : Machine :=
    { m with frames := m.frames.push id (env.program.function id).name }
  have entered : ∃ n, n.flow = .normal ∧ n.control = m.control ∧
      (engine env fuel).enterFrame env (env.program.function id) args pushed = .ok () n := by
    rw [Engine.enterFrame, hl, hp]
    refine ⟨pushed.tell (.enter (env.program.function id).name pushed.frames.depth []
      pushed.memory.allocatedBytes), hm, rfl, ?_⟩
    rfl
  obtain ⟨n, hn, hcontrol, enters⟩ := entered
  have body : (do
      (engine env fuel).enterFrame env (env.program.function id) args
      (engine env fuel).runBody env (env.program.function id) loc : Run Unit).Spent pushed :=
    Spent.after (a := ()) (runBody_spins hf fuel loc hn (hcontrol ▸ hc)) enters
  unfold Spent
  rw [Engine.invoke_eq, Engine.framed_of_lt hd]
  exact body.closing _

end

namespace Session

/-- A loop that is not interrupted. -/
def spinning : String := "int main() \x7b while (1) \x7b \x7d return 0; \x7d"

/-- **A loop around an empty block is not interrupted**: whatever the fuel, it is used up, although the
control aborts at the second checkpoint. -/
theorem spinning_goes_on : ∃ t, (new .standard).compile spinning = .ok t ∧ ∀ fuel,
    ((t.controlled ⟨.free, some 1⟩).callWithin fuel "main" []).1 = .error .exhausted := by
  have run : (Program.ofSource .full spinning).toOption.map (fun p =>
      p.globals.isEmpty && p.strings.toList.isEmpty &&
        (p.function? "main").any fun id => (p.function id).body.spins &&
          (p.function id).locals.isEmpty && (p.function id).params.isEmpty) = some true := by
    rw [Program.ofSource_of_toList spinning (String.ofList_eq.1 rfl)]
    decide +kernel
  obtain ⟨p, hp, shape⟩ := Except.exists_ok_of_map run
  simp only [Bool.and_eq_true, List.isEmpty_iff, Option.any_eq_true] at shape
  obtain ⟨⟨globals, strings⟩, id, found, ⟨spins, locals⟩, params⟩ := shape
  let t : Session := { (new .standard).load p with source := spinning }
  refine ⟨t, compile_eq_ok.2 ⟨p, hp, rfl⟩, fun fuel => ?_⟩
  let u := t.controlled ⟨.free, some 1⟩
  -- Without globals and literals there is nothing to set up.
  have started : Run.start u.env (engine u.env fuel) u.machine = .ok () u.machine := by
    change (Run.allocateGlobals u.env _ p.globals >>= fun _ =>
      Run.allocateStrings p.strings.toList) u.machine = _
    rw [globals, strings]
    rfl
  have called : (Run.call u.env fuel "main" []).Spent u.machine := by
    have first : (Run.first u.env (engine u.env fuel) id []).Spent u.machine := by
      refine Spent.after (Spent.noted (Spent.after (Spent.lastly ?_ fun m => ⟨_, rfl⟩) rfl) id) started
      have shallow : u.machine.frames.depth < u.env.config.maxDepth := by
        change 0 < 512
        decide
      exact invoke_spins spins locals params fuel _ _ rfl rfl shallow
    have hid : Run.require (u.env.program.function? "main") (.noEntryPoint "main") u.machine =
        .ok id u.machine := require_eq_ok.2 ⟨found, rfl⟩
    rw [Run.call_eq]
    refine Spent.after ?_ hid
    have fits : (u.env.program.function id).params.length = ([] : List Word).length :=
      congrArg List.length params
    rw [if_neg (fun h => h fits)]
    exact (first.lastly finish_ok).bind _
  obtain ⟨m, spent⟩ := called
  change (u.callWithin fuel "main" []).1 = _
  unfold callWithin
  rw [spent]

end Session

end MiniC
