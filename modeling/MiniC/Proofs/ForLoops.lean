/-
  A `for` loop is a `while` loop.

  `for (init; test; next) body` does what `{ init; while (test) { body next; } }` does, as long as no
  `continue` in the body goes on with the loop; one that does skips `next` in the second form only.

  * `Stmt.Continues`: a statement has a `continue` that goes on with the loop around it.  One that has
    none never ends with control on its way to the next round (`continues_of_perform`).
  * `Engine.turn`: one turn of a loop, from its test to what follows its body.
  * `Run.Twins.iterate`: loops do the same if their turns do.
  * `Stmt.whileForm`: the second form of a `for` loop.
  * `forLoop_as_while`: the two forms come to the same end, and `continue` goes on with what follows
    the body.
-/
import MiniC.Proofs.FreeRunning

namespace MiniC

open Run

/-! ## Jumps to the next round -/

/-- The statement has a `continue` that goes on with the loop around it. -/
inductive Stmt.Continues : Stmt → Prop
  | here {loc : Location} : Continues (.mk .continues loc)
  | block {body : List Stmt} {s : Stmt} {loc : Location} : s ∈ body → Continues s →
    Continues (.mk (.block body) loc)
  | thenBranch {c : Expr} {t : Stmt} {e : Option Stmt} {loc : Location} : Continues t →
    Continues (.mk (.ifElse c t e) loc)
  | elseBranch {c : Expr} {t e : Stmt} {loc : Location} : Continues e →
    Continues (.mk (.ifElse c t (some e)) loc)

section
variable {env : Env} {k : Nat} {m n : Machine}

theorem flow_of_execute {e : Expr} {r : Resolved} (hm : m.flow = .normal)
    (h : (engine env k).execute e m = .ok r n) : n.flow = .normal :=
  ((execute_steady env k e).ends (r := .ok r) h).flow trivial hm

theorem flow_of_solve {e : Expr} {v : Value} (hm : m.flow = .normal)
    (h : (engine env k).solve e m = .ok v n) : n.flow = .normal := by
  have steady : (steadiness True).Like fun _ => (engine env k).solve e :=
    Likeness.solve (execute_steady env k e)
  exact (Steady.ends (r := .ok v) steady h).flow trivial hm

theorem flow_of_holds {condition : Option Expr} {b : Bool} (hm : m.flow = .normal)
    (h : (engine env k).holds condition m = .ok b n) : n.flow = .normal := by
  have steady : (steadiness True).Like fun _ => (engine env k).holds condition :=
    Likeness.holds fun e _ => execute_steady env k e
  exact (Steady.ends (r := .ok b) steady h).flow trivial hm

theorem flow_of_executeOption {e : Option Expr} {u : Unit} (hm : m.flow = .normal)
    (h : (engine env k).executeOption e m = .ok u n) : n.flow = .normal := by
  have steady : (steadiness True).Like fun _ => (engine env k).executeOption e :=
    Likeness.executeOption fun e _ => execute_steady env k e
  exact (Steady.ends (r := .ok u) steady h).flow trivial hm

/-- A round takes in the jumps of the body that are for its loop. -/
theorem flow_of_round {body : Stmt} {b : Bool} (h : (engine env k).round body m = .ok b n) :
    n.flow ≠ .continues ∧ (b = true → n.flow = .normal) := by
  simp only [Engine.round, bind_eq_ok, get_eq_ok] at h
  obtain ⟨_, m', -, _, _, ⟨rfl, rfl⟩, h⟩ := h
  cases hf : m'.flow <;> simp only [hf, bind_eq_ok, modify_eq_ok, pure_eq_ok] at h
  case normal =>
    obtain ⟨rfl, rfl⟩ := h
    simp [hf]
  case returns =>
    obtain ⟨rfl, rfl⟩ := h
    simp [hf]
  all_goals
    obtain ⟨_, _, rfl, rfl, rfl⟩ := h
    simp

/-- No loop leaves control on its way to a next round. -/
theorem flow_of_iterate {l : Loop} {u : Unit} (hm : m.flow = .normal)
    (h : (engine env k).iterate l m = .ok u n) : n.flow ≠ .continues := by
  induction k generalizing m with
  | zero => cases h
  | succ k ih =>
    obtain ⟨holds, m₁, h₁, h⟩ := bind_eq_ok.1 (show Engine.iterateRule (engine env k) l m = _ from h)
    have f₁ := flow_of_holds hm h₁
    cases holds with
    | false =>
      obtain ⟨-, rfl⟩ := pure_eq_ok.1 h
      simp [f₁]
    | true =>
      obtain ⟨goes, m₂, h₂, h⟩ := bind_eq_ok.1 h
      obtain ⟨f₂, f₂'⟩ := flow_of_round h₂
      cases goes with
      | false =>
        obtain ⟨-, rfl⟩ := pure_eq_ok.1 h
        exact f₂
      | true =>
        obtain ⟨_, m₃, h₃, h⟩ := bind_eq_ok.1 h
        exact ih (flow_of_executeOption (f₂' rfl) h₃) h

theorem continues_of_performAll {ss : List Stmt} {u : Unit} (hm : m.flow = .normal)
    (ih : ∀ s ∈ ss, ∀ {m n u}, m.flow = .normal → (engine env k).perform s m = .ok u n →
      n.flow = .continues → s.Continues)
    (h : (engine env k).performAll ss m = .ok u n) (hn : n.flow = .continues) :
    ∃ s ∈ ss, s.Continues := by
  induction ss generalizing m with
  | nil =>
    obtain ⟨-, rfl⟩ := pure_eq_ok.1 h
    cases hm.symm.trans hn
  | cons s ss ihs =>
    simp only [Engine.performAll, bind_eq_ok, get_eq_ok] at h
    obtain ⟨_, m', hs, _, _, ⟨rfl, rfl⟩, h⟩ := h
    by_cases hf : m'.flow = .normal
    · rw [if_pos hf] at h
      obtain ⟨t, ht, hc⟩ := ihs hf (fun t ht => ih t (by simp [ht])) h
      exact ⟨t, by simp [ht], hc⟩
    · rw [if_neg hf] at h
      obtain ⟨-, rfl⟩ := pure_eq_ok.1 h
      exact ⟨s, by simp, ih s (by simp) hm hs hn⟩

theorem flow_of_checkpoint {loc : Location} {u : Unit} (h : checkpoint loc m = .ok u n) :
    n.flow = m.flow := by
  obtain ⟨-, rfl⟩ := conclude_inj ((checkpoint_eq loc m).symm.trans (show _ = conclude (.ok u) n from h))
  rfl

theorem continues_of_act {a : Action} {loc : Location} {u : Unit} (hm : m.flow = .normal)
    (ih : ∀ s ∈ a.stmts, ∀ {m n u}, m.flow = .normal → (engine env k).perform s m = .ok u n →
      n.flow = .continues → s.Continues)
    (h : (engine env k).act a m = .ok u n) (hn : n.flow = .continues) :
    (Stmt.mk a loc).Continues := by
  have normal : n.flow = .normal → (Stmt.mk a loc).Continues := fun hf => by cases hf.symm.trans hn
  cases a with
  | expr e =>
    obtain ⟨_, h⟩ := discard_eq_ok.1 h
    exact normal (flow_of_execute hm h)
  | block body =>
    obtain ⟨s, hs, hc⟩ := continues_of_performAll hm ih h hn
    exact .block hs hc
  | ifElse c t e =>
    obtain ⟨v, m', hv, h⟩ := bind_eq_ok.1 h
    have hm' := flow_of_solve hm hv
    split at h
    · exact .thenBranch (ih t (by simp [Action.stmts]) hm' h hn)
    · cases e with
      | none =>
        obtain ⟨-, rfl⟩ := pure_eq_ok.1 h
        exact normal hm'
      | some s => exact .elseBranch (ih s (by simp [Action.stmts]) hm' h hn)
  | whileLoop c b => exact absurd hn (flow_of_iterate hm h)
  | doWhile b c =>
    obtain ⟨goes, m', hb, h⟩ := bind_eq_ok.1 h
    obtain ⟨f₁, f₂⟩ := flow_of_round hb
    cases goes with
    | false =>
      obtain ⟨-, rfl⟩ := pure_eq_ok.1 h
      exact absurd hn f₁
    | true => exact absurd hn (flow_of_iterate (f₂ rfl) h)
  | forLoop i c e b =>
    obtain ⟨_, m', hi, h⟩ := bind_eq_ok.1 h
    exact absurd hn (flow_of_iterate (flow_of_executeOption hm hi) h)
  | returns value =>
    cases value with
    | none =>
      obtain rfl := modify_eq_ok.1 h
      cases hn
    | some e =>
      obtain ⟨_, _, -, h⟩ := bind_eq_ok.1 h
      obtain rfl := modify_eq_ok.1 h
      cases hn
  | breaks =>
    obtain rfl := modify_eq_ok.1 h
    cases hn
  | continues => exact .here
  | empty =>
    obtain ⟨-, rfl⟩ := pure_eq_ok.1 h
    exact normal hm

/-- **Only a `continue` sends control to the next round.** -/
theorem continues_of_perform {s : Stmt} {u : Unit} (hm : m.flow = .normal)
    (h : (engine env k).perform s m = .ok u n) (hn : n.flow = .continues) : s.Continues := by
  induction s using Stmt.rec_parts generalizing k m n u with
  | step s ih =>
    cases k with
    | zero => cases h
    | succ k =>
      have parts : ∀ t ∈ s.action.stmts, ∀ {m n u}, m.flow = .normal →
          (engine env k).perform t m = .ok u n → n.flow = .continues → t.Continues :=
        fun t ht _ _ _ hm h hn => ih t ht hm h hn
      replace h : Engine.performRule (engine env k) s m = .ok u n := h
      obtain ⟨a, loc⟩ := s
      cases a with
      | block body =>
        obtain ⟨t, ht, hc⟩ := continues_of_performAll hm parts h hn
        exact .block ht hc
      | _ =>
        obtain ⟨_, m', hc, h⟩ := bind_eq_ok.1 h
        exact continues_of_act ((flow_of_checkpoint hc).trans hm) parts h hn

end

/-! ## Turns of a loop -/

namespace Engine

/-- One turn of a loop: test, perform the body, do what follows it, and say whether the loop goes on. -/
def turn (engine : Engine) (l : Loop) : Run Bool := do
  if ← engine.holds l.condition then
    if ← engine.round l.body then
      engine.executeOption l.increment
      return true
    else return false
  else return false

theorem iterateRule_eq_turn (engine : Engine) (l : Loop) :
    engine.iterateRule l = engine.turn l >>= fun goes => if goes then engine.iterate l else pure () := by
  simp only [iterateRule, turn, bind_assoc]
  refine bind_congr fun holds => ?_
  cases holds with
  | false => rfl
  | true =>
    simp only [if_true, bind_assoc]
    refine bind_congr fun goes => ?_
    cases goes <;> simp

end Engine

namespace Run
variable {env : Env} {l l' : Loop} {q : Unit → Flow → Prop}

/-- **Loops do the same if their turns do.** -/
theorem Twins.iterate (h : Twins (· = .normal) (fun k => (engine env k).turn l)
      (fun k => (engine env k).turn l') fun goes f => goes = true → f = .normal) :
    Twins (· = .normal) (fun k => (engine env k).iterate l) (fun k => (engine env k).iterate l')
      fun _ _ => True := by
  have echo : ∀ {l l'}, (∀ k, Echoes (· = .normal) ((engine env k).turn l)
      (fun k => (engine env k).turn l') fun goes f => goes = true → f = .normal) →
      ∀ k, Echoes (· = .normal) ((engine env k).iterate l) (fun k => (engine env k).iterate l')
        fun _ _ => True := by
    intro l l' h k
    induction k with
    | zero => exact echoes_exhausted
    | succ k ih =>
      have both : Echoes (· = .normal) ((engine env k).iterateRule l)
          (fun k => (engine env k).iterateRule l') fun _ _ => True := by
        simp only [Engine.iterateRule_eq_turn]
        refine (h k).bind fun goes => ?_
        cases goes with
        | false => exact echoes_pure fun _ _ => trivial
        | true => exact ih.mono (fun f hf => hf rfl) fun _ _ _ => trivial
      exact both.later
  exact ⟨echo h.right, echo h.left⟩

/-! ## Parts of a loop -/

theorem twins_holds (env : Env) (c : Option Expr) :
    Twins (· = .normal) (fun k => (engine env k).holds c) (fun k => (engine env k).holds c)
      fun _ f => f = .normal := by
  have isolated : ∀ k, isolation.Like fun _ => (engine env k).holds c :=
    fun k => Likeness.holds fun e _ => (engine_isolated env k).execute e
  have steady : ∀ k, (steadiness False).Like fun _ => (engine env k).holds c :=
    fun k => Likeness.holds fun e _ => (engine_steady env k).execute e
  have lasting : ∀ k, moreFuel.Like fun b => (engine env (if b then k + 1 else k)).holds c :=
    fun k => Likeness.holds fun e _ => (engine_fuel env k).execute e
  exact twins_self isolated steady lasting fun _ _ _ _ hm h => flow_of_holds hm h

theorem twins_executeOption (env : Env) (e : Option Expr) :
    Twins (· = .normal) (fun k => (engine env k).executeOption e)
      (fun k => (engine env k).executeOption e) fun _ f => f = .normal := by
  have isolated : ∀ k, isolation.Like fun _ => (engine env k).executeOption e :=
    fun k => Likeness.executeOption fun e _ => (engine_isolated env k).execute e
  have steady : ∀ k, (steadiness False).Like fun _ => (engine env k).executeOption e :=
    fun k => Likeness.executeOption fun e _ => (engine_steady env k).execute e
  have lasting : ∀ k, moreFuel.Like fun b => (engine env (if b then k + 1 else k)).executeOption e :=
    fun k => Likeness.executeOption fun e _ => (engine_fuel env k).execute e
  exact twins_self isolated steady lasting fun _ _ _ _ hm h => flow_of_executeOption hm h

/-- A body without a `continue` for its loop does not end on the way to the next round. -/
theorem twins_perform (env : Env) {b : Stmt} (hb : ¬ b.Continues) :
    Twins (· = .normal) (fun k => (engine env k).perform b) (fun k => (engine env k).perform b)
      fun _ f => f ≠ .continues :=
  twins_self (fun k => (engine_isolated env k).perform b) (fun k => (engine_steady env k).perform b)
    (fun k => (engine_fuel env k).perform b)
    fun _ _ _ _ hm h hn => hb (continues_of_perform hm h hn)

/-- An expression that may be absent, as statements at the given place. -/
def exprStmts (e : Option Expr) (loc : Location) : List Stmt := (e.map fun e => .mk (.expr e) loc).toList

/-- What follows a single statement is nothing. -/
theorem Twins.performAll_last {p : Flow → Prop} {x : Nat → Run Unit} {s : Stmt}
    (h : Twins p x (fun k => (engine env k).perform s) q) :
    Twins p x (fun k => (engine env k).performAll [s]) q := by
  have hx : x = fun k => x k >>= fun u => pure u := by
    funext k
    rw [bind_pure]
  rw [hx]
  refine h.bind fun u => ?_
  have ends : ∀ f, q u f → Twins (· = f) (fun _ => (pure u : Run Unit))
      (fun k => if f = .normal then (engine env k).performAll [] else pure ()) q := by
    intro f hf
    split
    all_goals
      refine twins_pure ?_
      rintro _ rfl
      exact hf
  exact twins_look (x := fun _ _ => pure u)
    (y := fun f k => if f = .normal then (engine env k).performAll [] else pure ()) ends

theorem Twins.performAll_cons {p : Flow → Prop} {x x' : Nat → Run Unit} {s : Stmt} {ss : List Stmt}
    (h : Twins p x (fun k => (engine env k).perform s) fun _ f => f = .normal)
    (h' : Twins (· = .normal) x' (fun k => (engine env k).performAll ss) q) :
    Twins p (fun k => x k >>= fun _ => x' k) (fun k => (engine env k).performAll (s :: ss)) q :=
  h.bind fun _ => h'.look (y := fun f k => if f = .normal then (engine env k).performAll ss else pure ())

/-- An expression does the same as a statement, which passes a checkpoint first. -/
theorem twins_exprStmt (env : Env) (e : Expr) (loc : Location) :
    Twins (· = .normal) (fun k => (engine env k).executeOption (some e))
      (fun k => (engine env k).perform (.mk (.expr e) loc)) fun _ f => f = .normal :=
  ((twins_executeOption env (some e)).checkpoint loc).later rfl

theorem twins_exprStmts (env : Env) (e : Option Expr) (loc : Location) :
    Twins (· = .normal) (fun k => (engine env k).executeOption e)
      (fun k => (engine env k).performAll (exprStmts e loc)) fun _ f => f = .normal := by
  cases e with
  | none => exact twins_pure fun _ hf => hf
  | some e => exact (twins_exprStmt env e loc).performAll_last

end Run

/-! ## The second form of a loop -/

/-- The constant 1, for a condition that is absent. -/
def Expr.one (loc : Location) : Expr := .mk (.const 1) .int loc

/-- The body of the second form: `{ body next; }`. -/
def Stmt.withNext (body : Stmt) (next : Option Expr) (loc nextLoc : Location) : Stmt :=
  .mk (.block (body :: exprStmts next nextLoc)) loc

/-- The second form of a `for` loop: `{ init; while (test) { body next; } }`.  What is absent is left
out, and an absent test is the constant 1.  The statements that are new come from the given places. -/
def Stmt.whileForm (init test next : Option Expr) (body : Stmt)
    (loc initLoc whileLoc bodyLoc nextLoc : Location) : Stmt :=
  .mk (.block (exprStmts init initLoc ++
    [.mk (.whileLoop (test.getD (.one whileLoc)) (body.withNext next bodyLoc nextLoc)) whileLoc])) loc

namespace Run
variable {env : Env}

/-- An absent test holds, as the constant 1 does. -/
theorem twins_test (env : Env) (c : Option Expr) (loc : Location) :
    Twins (· = .normal) (fun k => (engine env k).holds c)
      (fun k => (engine env k).holds (some (c.getD (.one loc)))) fun _ f => f = .normal := by
  cases c with
  | some e => exact twins_holds env (some e)
  | none => exact Twins.later (twins_pure fun _ hf => hf) rfl

/-- What a round makes of where control goes after its body, and whether the loop goes on. -/
def afterBody : Flow → Run Bool
  | .normal => pure true
  | .continues => do
    modify fun m => { m with flow := .normal }
    return true
  | .breaks => do
    modify fun m => { m with flow := .normal }
    return false
  | .returns => pure false

theorem round_eq (engine : Engine) (b : Stmt) :
    engine.round b = engine.perform b >>= fun _ => get >>= fun m => afterBody m.flow := by
  unfold Engine.round
  refine bind_congr fun _ => bind_congr fun m => ?_
  cases m.flow <;> rfl

/-- **Both forms have the same turns**: the first one does what follows the body behind it, the second
one as a part of it. -/
theorem twins_turn (env : Env) {b : Stmt} (hb : ¬ b.Continues) (c n : Option Expr)
    (loc bodyLoc nextLoc : Location) :
    Twins (· = .normal) (fun k => (engine env k).turn ⟨c, n, b⟩)
      (fun k => (engine env k).turn ⟨some (c.getD (.one loc)), none, b.withNext n bodyLoc nextLoc⟩)
      fun goes f => goes = true → f = .normal := by
  refine (twins_test env c loc).bind fun holds => ?_
  cases holds with
  | false => exact twins_pure fun _ _ => nofun
  | true =>
    simp only [if_true, round_eq, bind_assoc]
    refine Twins.later (y := fun k => (engine env k).perform (b.withNext n bodyLoc nextLoc) >>= _) ?_ rfl
    have parts : ∀ k, (engine env (k + 1)).perform (b.withNext n bodyLoc nextLoc) =
        (engine env k).performAll (b :: exprStmts n nextLoc) := fun _ => rfl
    simp only [parts, Engine.performAll, bind_assoc]
    refine (twins_perform env hb).bind fun _ => ?_
    let goOn (n : Option Expr) (k : Nat) (goes : Bool) : Run Bool :=
      if goes then (do (engine env k).executeOption n; return true) else pure false
    refine twins_look (x := fun f k => afterBody f >>= goOn n k)
      (y := fun f k => (if f = .normal then (engine env k).performAll (exprStmts n nextLoc) else pure ())
        >>= fun _ => get >>= fun m => afterBody m.flow >>= goOn none (k + 1)) fun f hf => ?_
    -- What follows the body is done only if it has left the flow normal.
    cases f with
    | normal =>
      refine (twins_exprStmts env n nextLoc).bind fun _ => ?_
      exact Twins.look (y := fun f k => afterBody f >>= goOn none (k + 1))
        (twins_pure (a := true) fun f hf _ => hf)
    | continues => exact absurd rfl hf
    | breaks =>
      refine Twins.look (y := fun f k => afterBody f >>= goOn none (k + 1)) ?_
      exact (twins_setFlow (q := fun _ f => f = .normal) rfl).bind fun _ => twins_pure fun _ _ => nofun
    | returns =>
      exact Twins.look (y := fun f k => afterBody f >>= goOn none (k + 1)) (twins_pure fun _ _ => nofun)

/-- **Both forms do the same.** -/
theorem twins_whileForm (env : Env) (i c n : Option Expr) {b : Stmt} (hb : ¬ b.Continues)
    (loc loc₁ loc₂ loc₃ loc₄ loc₅ : Location) :
    Twins (· = .normal) (fun k => (engine env k).perform (.mk (.forLoop i c n b) loc))
      (fun k => (engine env k).perform (.whileForm i c n b loc₁ loc₂ loc₃ loc₄ loc₅))
      fun _ _ => True := by
  let W : Stmt := .mk (.whileLoop (c.getD (.one loc₃)) (b.withNext n loc₄ loc₅)) loc₃
  have loops : Twins (· = .normal) (fun k => (engine env k).iterate ⟨c, n, b⟩)
      (fun k => (engine env k).performAll [W]) fun _ _ => True := by
    refine Twins.performAll_last (Twins.later ?_ rfl)
    exact (Twins.iterate (twins_turn env hb c n loc₃ loc₄ loc₅)).checkpoint loc₃
  have whole : Twins (· = .normal)
      (fun k => (engine env k).executeOption i >>= fun _ => (engine env k).iterate ⟨c, n, b⟩)
      (fun k => (engine env k).performAll (exprStmts i loc₂ ++ [W])) fun _ _ => True := by
    cases i with
    | none => exact loops
    | some e => exact (twins_exprStmt env e loc₂).performAll_cons loops
  have second : Twins (· = .normal) _
      (fun k => (engine env k).perform (.whileForm i c n b loc₁ loc₂ loc₃ loc₄ loc₅)) fun _ _ => True :=
    whole.later rfl
  exact ((second.symm.checkpoint loc).later rfl).symm

end Run

/-! ## Ends of statements -/

/-- The statement comes to an end on `m`: with enough fuel, to the result `r` on the machine `n`. -/
def Env.Finishes (env : Env) (s : Stmt) (m : Machine) (r : Except Stop Unit) (n : Machine) : Prop :=
  r ≠ .error .exhausted ∧ ∃ enough, ∀ fuel, enough ≤ fuel → perform env fuel s m = conclude r n

/-- The statement does not come to an end on `m`, with any amount of fuel. -/
def Env.Diverges (env : Env) (s : Stmt) (m : Machine) : Prop :=
  ∀ fuel, (perform env fuel s).Spent m

section
variable {env : Env} {s t : Stmt} {m n n' : Machine} {r r' : Except Stop Unit}

theorem Env.finishes_of_perform {k : Nat} (h : perform env k s m = conclude r n)
    (hr : r ≠ .error .exhausted) : env.Finishes s m r n :=
  ⟨hr, k, fun _ hle => conclude_of_lasts (fun k => (engine_fuel env k).perform s) h hr hle⟩

theorem Env.Finishes.unique (h : env.Finishes s m r n) (h' : env.Finishes s m r' n') :
    r = r' ∧ n = n' := by
  obtain ⟨-, k, hk⟩ := h
  obtain ⟨-, k', hk'⟩ := h'
  exact conclude_inj ((hk _ (Nat.le_max_left k k')).symm.trans (hk' _ (Nat.le_max_right k k')))

theorem Env.Finishes.not_diverges (h : env.Finishes s m r n) : ¬ env.Diverges s m := by
  obtain ⟨hr, k, hk⟩ := h
  intro hd
  obtain ⟨n', hn'⟩ := hd k
  exact hr (conclude_inj (show conclude (.error .exhausted) n' = conclude r n from
    hn'.symm.trans (hk k (Nat.le_refl k)))).1.symm

/-- A statement diverges or comes to an end. -/
theorem Env.diverges_or_finishes (env : Env) (s : Stmt) (m : Machine) :
    env.Diverges s m ∨ ∃ r n, env.Finishes s m r n := by
  by_cases hd : env.Diverges s m
  · exact .inl hd
  · right
    obtain ⟨fuel, hf⟩ := not_forall.1 hd
    cases h : perform env fuel s m with
    | ok u n => exact ⟨.ok u, n, finishes_of_perform (k := fuel) h nofun⟩
    | error e n =>
      refine ⟨.error e, n, finishes_of_perform (k := fuel) h ?_⟩
      rintro ⟨⟩
      exact hf ⟨n, h⟩

/-- What an echo comes to. -/
theorem Run.Twins.finishes {q : Unit → Flow → Prop} (h : Twins (· = .normal)
      (fun k => (engine env k).perform s) (fun k => (engine env k).perform t) q)
    (hm : m.flow = .normal) (hc : m.control = .unlimited) (hs : env.Finishes s m r n) :
    ∃ n', env.Finishes t m r n' ∧ n.Beside n' := by
  obtain ⟨hr, k, hk⟩ := hs
  obtain ⟨-, r', n', enough, run, -, rfl, hn⟩ := h.right k (.refl hc) hm (hk k (Nat.le_refl k)) hr
  exact ⟨n', ⟨hr, enough, run⟩, hn⟩

end

/-- A body that ends on its way to the next round is followed by what follows each round. -/
theorem iterate_continues {env : Env} {fuel : Nat} {l : Loop} {m m₁ m₂ : Machine} {u : Unit}
    (hc : (engine env fuel).holds l.condition m = .ok true m₁)
    (hb : perform env fuel l.body m₁ = .ok u m₂) (hf : m₂.flow = .continues) :
    iterate env (fuel + 1) l m =
      (do (engine env fuel).executeOption l.increment; iterate env fuel l)
        { m₂ with flow := .normal } := by
  have round : (engine env fuel).round l.body m₁ = .ok true { m₂ with flow := .normal } := by
    rw [round_eq, bind_of_ok (show (engine env fuel).perform l.body m₁ = .ok u m₂ from hb)]
    change afterBody m₂.flow m₂ = _
    rw [hf]
    rfl
  change Engine.iterateRule (engine env fuel) l m = _
  rw [Engine.iterateRule, bind_of_ok hc, if_pos rfl, bind_of_ok round, if_pos rfl]
  rfl

/-- **A `for` loop is a `while` loop.**  From every machine without control on which the flow is normal,
`for (init; test; next) body` and `{ init; while (test) { body next; } }` both diverge, or both come to
an end with the same result or error, on machines that are the same but for the checkpoints told of,
unless a `continue` in the body goes on with the loop.  Where the body ends with such a `continue`, the
`for` loop does `next` before it goes on with its test. -/
theorem forLoop_as_while (env : Env) (init test next : Option Expr) (body : Stmt)
    (loc loc₁ loc₂ loc₃ loc₄ loc₅ : Location) :
    (¬ body.Continues → ∀ m : Machine, m.flow = .normal → m.control = .unlimited →
      env.Diverges (.mk (.forLoop init test next body) loc) m ∧
        env.Diverges (.whileForm init test next body loc₁ loc₂ loc₃ loc₄ loc₅) m ∨
      ∃ r n n', env.Finishes (.mk (.forLoop init test next body) loc) m r n ∧
        env.Finishes (.whileForm init test next body loc₁ loc₂ loc₃ loc₄ loc₅) m r n' ∧
        n.Beside n') ∧
    ∀ fuel (m m₁ m₂ : Machine), (engine env fuel).holds test m = .ok true m₁ →
      perform env fuel body m₁ = .ok () m₂ → m₂.flow = .continues →
      iterate env (fuel + 1) ⟨test, next, body⟩ m =
        (do (engine env fuel).executeOption next; iterate env fuel ⟨test, next, body⟩)
          { m₂ with flow := .normal } := by
  refine ⟨fun hb m hm hc => ?_, fun fuel m m₁ m₂ h₁ h₂ hf => iterate_continues h₁ h₂ hf⟩
  have twins := twins_whileForm env init test next hb loc loc₁ loc₂ loc₃ loc₄ loc₅
  rcases env.diverges_or_finishes (.mk (.forLoop init test next body) loc) m with hd | ⟨r, n, hr⟩
  · left
    refine ⟨hd, ?_⟩
    rcases env.diverges_or_finishes (.whileForm init test next body loc₁ loc₂ loc₃ loc₄ loc₅) m with
      hd' | ⟨r, n, hr⟩
    · exact hd'
    · obtain ⟨n', hn', -⟩ := twins.symm.finishes hm hc hr
      exact absurd hd hn'.not_diverges
  · right
    obtain ⟨n', hn', hb⟩ := twins.finishes hm hc hr
    exact ⟨r, n, n', hr, hn', hb⟩

namespace Countdown

/-- The word at the first address of a space of 64 bytes. -/
def cell : Expr := .mk (.deref (.mk (.const 0x1000) Ty.int.pointer .nowhere)) .int .nowhere

/-- The number as an expression. -/
def number (w : Word) : Expr := .mk (.const w) .int .nowhere

/-- An environment without a program. -/
def env : Env := ⟨.full, .standard, .empty⟩

/-- A machine on which the first word of the space is allocated. -/
def machine : Machine :=
  { Machine.idle 64 with memory := { Memory.empty 64 with regions := [.zeros 0x1000 4] } }

/-- `cell = 5` -/
def init : Expr := .mk (.assign cell (number 5)) .int .nowhere

/-- `cell = cell - 1` -/
def next : Expr := .mk (.assign cell (.mk (.binary .sub cell (number 1)) .int .nowhere)) .int .nowhere

/-- `if (cell == 2) break;` -/
def body : Stmt :=
  .mk (.ifElse (.mk (.binary .eq cell (number 2)) .int .nowhere) (.mk .breaks .nowhere) none) .nowhere

end Countdown

open Countdown in
/-- Counting down to 2 from 5 without a test, in both forms; and a body that is a `continue`. -/
theorem forLoop_as_while_countdown :
    (∃ n n', env.Finishes (.mk (.forLoop (some init) none (some next) body) .nowhere) machine (.ok ()) n ∧
      env.Finishes (.whileForm (some init) none (some next) body
        .nowhere .nowhere .nowhere .nowhere .nowhere) machine (.ok ()) n' ∧
      n.Beside n' ∧ n'.memory.word? 0x1000 = some 2) ∧
    iterate env 3 ⟨none, some next, .mk .continues .nowhere⟩ machine =
      (do (engine env 2).executeOption (some next)
          iterate env 2 ⟨none, some next, .mk .continues .nowhere⟩)
        (machine.tell (.checkpoint .nowhere)) := by
  have ends : (match perform env 20 (.mk (.forLoop (some init) none (some next) body) .nowhere) machine with
      | .ok _ n => n.memory.word? 0x1000
      | .error _ _ => none) = some 2 := by decide +kernel
  have once : ¬ body.Continues := by
    rintro (_ | _ | h | _)
    cases h
  constructor
  · cases h : perform env 20 (.mk (.forLoop (some init) none (some next) body) .nowhere) machine with
    | error e n => simp [h] at ends
    | ok u n =>
      rw [h] at ends
      have finishes := Env.finishes_of_perform (r := .ok u) h nofun
      rcases (forLoop_as_while env (some init) none (some next) body .nowhere .nowhere .nowhere .nowhere
        .nowhere .nowhere).1 once machine rfl rfl with ⟨hd, -⟩ | ⟨r, n₁, n₂, h₁, h₂, hb⟩
      · exact absurd hd finishes.not_diverges
      · obtain ⟨rfl, rfl⟩ := finishes.unique h₁
        refine ⟨n, n₂, h₁, h₂, hb, ?_⟩
        rw [hb.same]
        exact ends
  · exact (forLoop_as_while env none none (some next) (.mk .continues .nowhere) .nowhere .nowhere
      .nowhere .nowhere .nowhere .nowhere).2 2 machine machine _ rfl rfl rfl

end MiniC
