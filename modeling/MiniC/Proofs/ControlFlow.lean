/-
  Control flow.

  Where control goes is kept in two fields of the machine that all calls share.  Yet it is structured:
  what one activation of a function does follows from its own statements.

  * `Env.Completes`: how code of one activation ends and which of its statements it performs, with a
    rule for each kind of statement and for each way that a loop can go on.
  * `Env.Completes.enclosed`: a loop takes in the jumps of its body, so a body that has its jumps in
    loops ends normally or with a `return`.
  * `Env.Completes.traced`: a `return` is the last statement that is performed, and it is performed
    exactly where the code ends with one.
  * `engine_completing`: what a run performs ends as the rules say.
  * `Session.Reachable.orderly`: calls are made only while control goes on as usual.
  * `Engine.Invokes`: how a call goes, by what the activation of its body has done.
  * `Session.returns_own`: each body and each call of a function in a compiled program, in any state.
-/
import MiniC.Proofs.CallEntry
import MiniC.Proofs.Jumps

namespace MiniC

open Machine Run

/-! ## Completions -/

/-- How code ends that does not stop: control goes on behind it, behind a loop, to the next round of a
loop, or out of the function with what it returns. -/
inductive Completion where
  | normal
  | breaks
  | continues
  | returns (value : Option Value)

namespace Completion

/-- Where control goes. -/
def flow : Completion → Flow
  | normal => .normal
  | breaks => .breaks
  | continues => .continues
  | returns _ => .returns

/-- What is returned. -/
def value? : Completion → Option Value
  | returns v => v
  | normal | breaks | continues => none

theorem flow_eq_normal {k : Completion} : k.flow = .normal ↔ k = .normal := by
  cases k <;> simp [flow]

end Completion

namespace Machine
variable {m : Machine}

/-- The machine when control leaves the code that has come to it. -/
def leaving (m : Machine) (k : Completion) : Machine :=
  { m with pending := k.value?, flow := k.flow }

/-- Code that returns nothing only says where control goes. -/
theorem leaving_flow (h : m.Quiet) {k : Completion} (hk : k.value? = none) :
    m.leaving k = { m with flow := k.flow } := by
  rw [leaving, hk, ← h.1]

theorem leaving_normal (h : m.Quiet) : m.leaving .normal = m := by
  rw [leaving_flow h rfl, Completion.flow, ← h.2]

end Machine

/-! ## What one activation does -/

/-- Code of one activation: a statement, statements one after the other, a loop from its test on, or a
loop from its body on. -/
inductive Code where
  | stmt (s : Stmt)
  | all (ss : List Stmt)
  | loop (l : Loop)
  | round (l : Loop)

/-- What the expression of a `return` comes to. -/
inductive Env.Yields (env : Env) : Option Expr → Machine → Option Value → Machine → Prop
  | nothing {m : Machine} : Yields env none m none m
  | value {m n : Machine} {e : Expr} {v : Value} {fuel : Nat} :
    (engine env fuel).solve e m = .ok v n → Yields env (some e) m (some v) n

/-- From the machine `m` the code ends on the machine `n`, as `k` says.  `t` are the statements of this
activation that are performed on the way, in order; what calls do in the expressions is no part of
it. -/
inductive Env.Completes (env : Env) : Machine → Code → List Stmt → Completion → Machine → Prop
  | nil {m : Machine} : Completes env m (.all []) [] .normal m
  | cons {m m' n : Machine} {s : Stmt} {ss t t' : List Stmt} {k : Completion} :
    Completes env m (.stmt s) t .normal m' → Completes env m' (.all ss) t' k n →
    Completes env m (.all (s :: ss)) (t ++ t') k n
  | leave {m n : Machine} {s : Stmt} {ss t : List Stmt} {k : Completion} :
    Completes env m (.stmt s) t k n → k ≠ .normal → Completes env m (.all (s :: ss)) t k n
  | block {m n : Machine} {body t : List Stmt} {k : Completion} {loc : Location} :
    Completes env m (.all body) t k n →
    Completes env m (.stmt (.mk (.block body) loc)) (.mk (.block body) loc :: t) k n
  | expr {m m' n : Machine} {e : Expr} {r : Resolved} {loc : Location} {fuel : Nat} :
    checkpoint loc m = .ok () m' → (engine env fuel).execute e m' = .ok r n →
    Completes env m (.stmt (.mk (.expr e) loc)) [.mk (.expr e) loc] .normal n
  | thenBranch {m m' m'' n : Machine} {c : Expr} {s : Stmt} {o : Option Stmt} {v : Value}
      {t : List Stmt} {k : Completion} {loc : Location} {fuel : Nat} :
    checkpoint loc m = .ok () m' → (engine env fuel).solve c m' = .ok v m'' → v.isTrue = true →
    Completes env m'' (.stmt s) t k n →
    Completes env m (.stmt (.mk (.ifElse c s o) loc)) (.mk (.ifElse c s o) loc :: t) k n
  | elseBranch {m m' m'' n : Machine} {c : Expr} {s s' : Stmt} {v : Value} {t : List Stmt}
      {k : Completion} {loc : Location} {fuel : Nat} :
    checkpoint loc m = .ok () m' → (engine env fuel).solve c m' = .ok v m'' → v.isTrue = false →
    Completes env m'' (.stmt s') t k n →
    Completes env m (.stmt (.mk (.ifElse c s (some s')) loc))
      (.mk (.ifElse c s (some s')) loc :: t) k n
  | noBranch {m m' n : Machine} {c : Expr} {s : Stmt} {v : Value} {loc : Location} {fuel : Nat} :
    checkpoint loc m = .ok () m' → (engine env fuel).solve c m' = .ok v n → v.isTrue = false →
    Completes env m (.stmt (.mk (.ifElse c s none) loc)) [.mk (.ifElse c s none) loc] .normal n
  | whileLoop {m m' n : Machine} {c : Expr} {b : Stmt} {t : List Stmt} {k : Completion}
      {loc : Location} : checkpoint loc m = .ok () m' →
    Completes env m' (.loop ⟨some c, none, b⟩) t k n →
    Completes env m (.stmt (.mk (.whileLoop c b) loc)) (.mk (.whileLoop c b) loc :: t) k n
  | doWhile {m m' n : Machine} {c : Expr} {b : Stmt} {t : List Stmt} {k : Completion}
      {loc : Location} : checkpoint loc m = .ok () m' →
    Completes env m' (.round ⟨some c, none, b⟩) t k n →
    Completes env m (.stmt (.mk (.doWhile b c) loc)) (.mk (.doWhile b c) loc :: t) k n
  | forLoop {m m' m'' n : Machine} {i c e : Option Expr} {b : Stmt} {t : List Stmt} {k : Completion}
      {loc : Location} {fuel : Nat} : checkpoint loc m = .ok () m' →
    (engine env fuel).executeOption i m' = .ok () m'' → Completes env m'' (.loop ⟨c, e, b⟩) t k n →
    Completes env m (.stmt (.mk (.forLoop i c e b) loc)) (.mk (.forLoop i c e b) loc :: t) k n
  | returns {m m' n : Machine} {e : Option Expr} {v : Option Value} {loc : Location} :
    checkpoint loc m = .ok () m' → env.Yields e m' v n →
    Completes env m (.stmt (.mk (.returns e) loc)) [.mk (.returns e) loc] (.returns v) n
  | breaks {m n : Machine} {loc : Location} : checkpoint loc m = .ok () n →
    Completes env m (.stmt (.mk .breaks loc)) [.mk .breaks loc] .breaks n
  | continues {m n : Machine} {loc : Location} : checkpoint loc m = .ok () n →
    Completes env m (.stmt (.mk .continues loc)) [.mk .continues loc] .continues n
  | empty {m n : Machine} {loc : Location} : checkpoint loc m = .ok () n →
    Completes env m (.stmt (.mk .empty loc)) [.mk .empty loc] .normal n
  /-- The test fails, and the loop is over. -/
  | done {m n : Machine} {l : Loop} {fuel : Nat} :
    (engine env fuel).holds l.condition m = .ok false n → Completes env m (.loop l) [] .normal n
  | test {m m' n : Machine} {l : Loop} {t : List Stmt} {k : Completion} {fuel : Nat} :
    (engine env fuel).holds l.condition m = .ok true m' → Completes env m' (.round l) t k n →
    Completes env m (.loop l) t k n
  /-- A round that ends normally or with a `continue` is followed by the increment and the next
  test. -/
  | again {m m' m'' n : Machine} {l : Loop} {t t' : List Stmt} {k k' : Completion} {fuel : Nat} :
    Completes env m (.stmt l.body) t k m' → k = .normal ∨ k = .continues →
    (engine env fuel).executeOption l.increment m' = .ok () m'' →
    Completes env m'' (.loop l) t' k' n → Completes env m (.round l) (t ++ t') k' n
  /-- A `break` ends the loop that it stands in. -/
  | broken {m n : Machine} {l : Loop} {t : List Stmt} : Completes env m (.stmt l.body) t .breaks n →
    Completes env m (.round l) t .normal n
  | returned {m n : Machine} {l : Loop} {t : List Stmt} {v : Option Value} :
    Completes env m (.stmt l.body) t (.returns v) n → Completes env m (.round l) t (.returns v) n

/-! ## Jumps -/

/-- With `j` loops around, all jumps of the code stand in loops. -/
def Code.Enclosed (j : Nat) : Code → Prop
  | stmt s => s.Enclosed j
  | all ss => ∀ s ∈ ss, s.Enclosed j
  | loop l | round l => l.body.Enclosed (j + 1)

/-- Whether code is a loop. -/
def Code.isLoop : Code → Bool
  | loop _ | round _ => true
  | stmt _ | all _ => false

namespace Env.Completes
variable {env : Env} {m n : Machine} {c : Code} {t : List Stmt} {k : Completion}

/-- **A loop takes in the jumps of its body.** -/
theorem loop_takes (h : env.Completes m c t k n) (hc : c.isLoop = true) :
    ¬ (k = .breaks ∨ k = .continues) := by
  induction h with
  | done | broken | returned =>
    rintro (hk | hk)
    · cases hk
    · cases hk
  | test _ _ ih => exact ih rfl
  | again _ _ _ _ _ ih => exact ih rfl
  | _ => cases hc

/-- **A jump leaves code only where a loop is around it.** -/
theorem enclosed (h : env.Completes m c t k n) {j : Nat} (hc : c.Enclosed j)
    (hk : k = .breaks ∨ k = .continues) : 0 < j := by
  induction h with
  | nil | expr | noBranch | returns | empty | done | broken | returned =>
    rcases hk with hk | hk
    · cases hk
    · cases hk
  | cons _ _ _ ih => exact ih (fun s hs => hc s (List.mem_cons_of_mem _ hs)) hk
  | leave _ _ ih => exact ih (hc _ List.mem_cons_self) hk
  | block _ ih =>
    cases hc with
    | block hbody => exact ih hbody hk
  | thenBranch _ _ _ _ ih =>
    cases hc with
    | ifElse hthen _ => exact ih hthen hk
  | elseBranch _ _ _ _ ih =>
    cases hc with
    | ifElse _ helse => exact ih (helse _ rfl) hk
  | whileLoop _ h => exact absurd hk (h.loop_takes rfl)
  | doWhile _ h => exact absurd hk (h.loop_takes rfl)
  | forLoop _ _ h => exact absurd hk (h.loop_takes rfl)
  | test _ h => exact absurd hk (h.loop_takes rfl)
  | again _ _ _ h => exact absurd hk (h.loop_takes rfl)
  | breaks | continues =>
    cases hc
    exact Nat.succ_pos _

end Env.Completes

/-! ## Statements that are performed -/

/-- Whether a statement is a `return`. -/
def Stmt.isReturn (s : Stmt) : Bool :=
  match s.action with
  | .returns _ => true
  | _ => false

/-- What the statements that are performed say of how code ends: with a `return` exactly if the last of
them is one, and then with what its expression comes to. -/
inductive Env.Traced (env : Env) : List Stmt → Completion → Machine → Prop
  | onward {t : List Stmt} {k : Completion} {n : Machine} : (∀ s ∈ t, s.isReturn = false) →
    k.flow ≠ .returns → Traced env t k n
  | returned {t : List Stmt} {e : Option Expr} {v : Option Value} {loc : Location} {m n : Machine} :
    (∀ s ∈ t, s.isReturn = false) → env.Yields e m v n →
    Traced env (t ++ [.mk (.returns e) loc]) (.returns v) n

namespace Env.Traced
variable {env : Env} {n : Machine} {t t' : List Stmt} {k : Completion}

theorem append (h : env.Traced t' k n) (ht : ∀ s ∈ t, s.isReturn = false) :
    env.Traced (t ++ t') k n := by
  cases h with
  | onward ht' hk => exact .onward (List.forall_mem_append.2 ⟨ht, ht'⟩) hk
  | returned ht' hy =>
    rw [← List.append_assoc]
    exact .returned (List.forall_mem_append.2 ⟨ht, ht'⟩) hy

theorem cons (h : env.Traced t k n) {s : Stmt} (hs : s.isReturn = false) : env.Traced (s :: t) k n :=
  h.append (List.forall_mem_singleton.2 hs)

/-- Code that ends in another way than with a `return` has performed none. -/
theorem none_returns (h : env.Traced t k n) (hk : k.flow ≠ .returns) :
    ∀ s ∈ t, s.isReturn = false := by
  cases h with
  | onward ht _ => exact ht
  | returned => exact absurd rfl hk

/-- **Code ends with a `return` exactly if it has performed one.** -/
theorem flow_returns (h : env.Traced t k n) :
    k.flow = .returns ↔ ∃ s ∈ t, s.isReturn = true := by
  cases h with
  | onward ht hk =>
    refine ⟨fun h => absurd h hk, ?_⟩
    rintro ⟨s, hs, hr⟩
    rw [ht s hs] at hr
    cases hr
  | @returned t e v loc m n ht hy =>
    exact ⟨fun _ => ⟨.mk (.returns e) loc, by simp, rfl⟩, fun _ => rfl⟩

end Env.Traced

namespace Env.Completes
variable {env : Env} {m n : Machine} {c : Code} {t : List Stmt} {k : Completion}

/-- **A `return` is the last statement that is performed.** -/
theorem traced (h : env.Completes m c t k n) : env.Traced t k n := by
  induction h with
  | nil | done => exact .onward (List.forall_mem_nil _) nofun
  | cons _ _ ih ih' => exact ih'.append (ih.none_returns nofun)
  | leave _ _ ih => exact ih
  | block _ ih => exact ih.cons rfl
  | expr | noBranch | empty | breaks | continues =>
    exact .onward (List.forall_mem_singleton.2 rfl) nofun
  | thenBranch _ _ _ _ ih => exact ih.cons rfl
  | elseBranch _ _ _ _ ih => exact ih.cons rfl
  | whileLoop _ _ ih => exact ih.cons rfl
  | doWhile _ _ ih => exact ih.cons rfl
  | forLoop _ _ _ ih => exact ih.cons rfl
  | returns _ hy => exact .returned (t := []) (List.forall_mem_nil _) hy
  | test _ _ ih => exact ih
  | again _ hk _ _ ih ih' =>
    refine ih'.append (ih.none_returns ?_)
    rcases hk with rfl | rfl
    · exact nofun
    · exact nofun
  | broken _ ih => exact .onward (ih.none_returns nofun) nofun
  | returned _ ih => exact ih

end Env.Completes

/-- The statements that code starts with satisfy `P`. -/
def Code.All (P : Stmt → Prop) : Code → Prop
  | stmt s => P s
  | all ss => ∀ s ∈ ss, P s
  | loop l | round l => P l.body

/-- All statements that are performed are parts of the code. -/
theorem Env.Completes.parts {env : Env} {m n : Machine} {c : Code} {t : List Stmt} {k : Completion}
    (h : env.Completes m c t k n) {P : Stmt → Prop}
    (down : ∀ s, P s → ∀ s' ∈ s.action.stmts, P s') (hc : c.All P) : ∀ s ∈ t, P s := by
  induction h with
  | nil | done => exact List.forall_mem_nil _
  | cons _ _ ih ih' =>
    obtain ⟨first, rest⟩ := List.forall_mem_cons.1 hc
    exact List.forall_mem_append.2 ⟨ih first, ih' rest⟩
  | leave _ _ ih => exact ih (hc _ List.mem_cons_self)
  | block _ ih => exact List.forall_mem_cons.2 ⟨hc, ih (down _ hc)⟩
  | expr | noBranch | returns | breaks | continues | empty => exact List.forall_mem_singleton.2 hc
  | thenBranch _ _ _ _ ih =>
    exact List.forall_mem_cons.2 ⟨hc, ih (down _ hc _ List.mem_cons_self)⟩
  | elseBranch _ _ _ _ ih =>
    exact List.forall_mem_cons.2 ⟨hc, ih (down _ hc _ (List.mem_cons_of_mem _ List.mem_cons_self))⟩
  | whileLoop _ _ ih => exact List.forall_mem_cons.2 ⟨hc, ih (down _ hc _ List.mem_cons_self)⟩
  | doWhile _ _ ih => exact List.forall_mem_cons.2 ⟨hc, ih (down _ hc _ List.mem_cons_self)⟩
  | forLoop _ _ _ ih => exact List.forall_mem_cons.2 ⟨hc, ih (down _ hc _ List.mem_cons_self)⟩
  | test _ _ ih => exact ih hc
  | again _ _ _ _ ih ih' => exact List.forall_mem_append.2 ⟨ih hc, ih' hc⟩
  | broken _ ih => exact ih hc
  | returned _ ih => exact ih hc

/-! ## What runs perform -/

/-- From `m` on, the code completes, and `m'` is the machine when control leaves it. -/
def Env.Ends (env : Env) (m : Machine) (c : Code) (m' : Machine) : Prop :=
  ∃ t k n, env.Completes m c t k n ∧ n.Quiet ∧ m' = n.leaving k

/-- An engine that performs statements and goes on with loops as the rules say. -/
structure Engine.Completing (env : Env) (engine : Engine) : Prop where
  perform : ∀ {s m m'}, m.Quiet → engine.perform s m = .ok () m' → env.Ends m (.stmt s) m'
  iterate : ∀ {l m m'}, m.Quiet → engine.iterate l m = .ok () m' → env.Ends m (.loop l) m'

namespace Engine.Completing
variable {env : Env} {fuel : Nat} {m m' : Machine} (h : (engine env fuel).Completing env)
include h

theorem performAll {ss : List Stmt} (hm : m.Quiet)
    (hx : (engine env fuel).performAll ss m = .ok () m') : env.Ends m (.all ss) m' := by
  induction ss generalizing m with
  | nil =>
    obtain ⟨-, rfl⟩ := pure_eq_ok.1 hx
    exact ⟨[], .normal, m, .nil, hm, (leaving_normal hm).symm⟩
  | cons s ss ih =>
    simp only [Engine.performAll, bind_eq_ok, get_eq_ok] at hx
    obtain ⟨_, b, hb, _, _, ⟨rfl, rfl⟩, hx⟩ := hx
    obtain ⟨t, k, n, first, hn, rfl⟩ := h.perform hm hb
    by_cases hk : k = .normal
    · subst hk
      rw [leaving_normal hn, if_pos hn.2] at hx
      obtain ⟨t', k', n', rest, hn', rfl⟩ := ih hn hx
      exact ⟨t ++ t', k', n', .cons first rest, hn', rfl⟩
    · have elsewhere : (n.leaving k).flow ≠ .normal := fun hf => hk (Completion.flow_eq_normal.1 hf)
      rw [if_neg elsewhere] at hx
      obtain ⟨-, rfl⟩ := pure_eq_ok.1 hx
      exact ⟨t, k, n, .leave first hk, hn, rfl⟩

/-- A round of a loop, and what follows it if the loop goes on. -/
theorem round {l : Loop} {next : Run Unit} (hm : m.Quiet)
    (hnext : ∀ {b}, next b = .ok () m' → ∃ b', (engine env fuel).executeOption l.increment b = .ok () b' ∧
      (engine env fuel).iterate l b' = .ok () m')
    (hx : (do if ← (engine env fuel).round l.body then next : Run Unit) m = .ok () m') :
    env.Ends m (.round l) m' := by
  obtain ⟨goes, b, hround, hx⟩ := bind_eq_ok.1 hx
  simp only [Engine.round, bind_eq_ok, get_eq_ok] at hround
  obtain ⟨_, b', hb, _, _, ⟨rfl, rfl⟩, hround⟩ := hround
  obtain ⟨t, k, n, body, hn, rfl⟩ := h.perform hm hb
  have onward : k = .normal ∨ k = .continues → next n = .ok () m' → env.Ends m (.round l) m' := by
    intro hk hx
    obtain ⟨n', incremented, iterated⟩ := hnext hx
    have hn' := (((engine_calm env fuel).executeOption _).ok incremented).quiet hn
    obtain ⟨t', k', n'', rest, hn'', rfl⟩ := h.iterate hn' iterated
    exact ⟨t ++ t', k', n'', .again body hk incremented rest, hn'', rfl⟩
  -- Where control goes after the body says whether the loop goes on.
  cases k with
  | normal =>
    obtain ⟨rfl, rfl⟩ := pure_eq_ok.1 hround
    rw [leaving_normal hn] at hx
    exact onward (.inl rfl) hx
  | continues =>
    obtain ⟨_, _, set, hround⟩ := bind_eq_ok.1 hround
    obtain rfl := modify_eq_ok.1 set
    obtain ⟨rfl, rfl⟩ := pure_eq_ok.1 hround
    have back : ({ n.leaving .continues with flow := .normal } : Machine) = n := leaving_normal hn
    rw [back] at hx
    exact onward (.inr rfl) hx
  | breaks =>
    obtain ⟨_, _, set, hround⟩ := bind_eq_ok.1 hround
    obtain rfl := modify_eq_ok.1 set
    obtain ⟨rfl, rfl⟩ := pure_eq_ok.1 hround
    obtain ⟨-, rfl⟩ := pure_eq_ok.1 hx
    exact ⟨t, .normal, n, .broken body, hn, rfl⟩
  | returns v =>
    obtain ⟨rfl, rfl⟩ := pure_eq_ok.1 hround
    obtain ⟨-, rfl⟩ := pure_eq_ok.1 hx
    exact ⟨t, .returns v, n, .returned body, hn, rfl⟩

theorem iterateRule {l : Loop} (hm : m.Quiet)
    (hx : Engine.iterateRule (engine env fuel) l m = .ok () m') : env.Ends m (.loop l) m' := by
  obtain ⟨holds, b, hb, hx⟩ := bind_eq_ok.1 hx
  have quiet := (((engine_calm env fuel).holds _).ok hb).quiet hm
  cases holds with
  | false =>
    obtain ⟨-, rfl⟩ := pure_eq_ok.1 hx
    exact ⟨[], .normal, b, .done hb, quiet, (leaving_normal quiet).symm⟩
  | true =>
    obtain ⟨t, k, n, completes, hn, rfl⟩ := h.round quiet (fun {b} hx => by
      obtain ⟨_, b', incremented, iterated⟩ := bind_eq_ok.1 hx
      exact ⟨b', incremented, iterated⟩) hx
    exact ⟨t, k, n, .test hb completes, hn, rfl⟩

/-- A conditional, from the solving of its condition on. -/
theorem branches {c : Expr} {s : Stmt} {o : Option Stmt} {loc : Location} {b : Machine}
    (hb : checkpoint loc m = .ok () b) (quiet : b.Quiet)
    (hx : (engine env fuel).act (.ifElse c s o) b = .ok () m') :
    env.Ends m (.stmt (.mk (.ifElse c s o) loc)) m' := by
  obtain ⟨v, n, hv, hx⟩ := bind_eq_ok.1 hx
  replace quiet := ((engine_calm env fuel).solve c |>.ok hv).quiet quiet
  by_cases ht : v.isTrue = true
  · rw [if_pos ht] at hx
    obtain ⟨t, k, n', completes, hn', rfl⟩ := h.perform quiet hx
    exact ⟨_, k, n', .thenBranch hb hv ht completes, hn', rfl⟩
  · rw [if_neg ht] at hx
    replace ht := Bool.eq_false_iff.2 ht
    cases o with
    | none =>
      obtain ⟨-, rfl⟩ := pure_eq_ok.1 hx
      exact ⟨_, .normal, n, .noBranch hb hv ht, quiet, (leaving_normal quiet).symm⟩
    | some s' =>
      obtain ⟨t, k, n', completes, hn', rfl⟩ := h.perform quiet hx
      exact ⟨_, k, n', .elseBranch hb hv ht completes, hn', rfl⟩

omit h in
/-- A `return`, from the solving of what it returns on. -/
theorem returns {value : Option Expr} {loc : Location} {b : Machine}
    (hb : checkpoint loc m = .ok () b) (quiet : b.Quiet)
    (hx : (engine env fuel).act (.returns value) b = .ok () m') :
    env.Ends m (.stmt (.mk (.returns value) loc)) m' := by
  cases value with
  | none =>
    obtain rfl := modify_eq_ok.1 hx
    exact ⟨_, .returns none, b, .returns hb .nothing, quiet, rfl⟩
  | some e =>
    obtain ⟨v, n, hv, hx⟩ := bind_eq_ok.1 hx
    obtain rfl := modify_eq_ok.1 hx
    have calm := ((engine_calm env fuel).solve e).ok hv
    exact ⟨_, .returns (some v), n, .returns hb (.value hv), calm.quiet quiet, rfl⟩

/-- What a statement does after its checkpoint, the machine being `b` there. -/
theorem act {a : Action} {loc : Location} {b : Machine} (ha : ∀ body, a ≠ .block body)
    (hb : checkpoint loc m = .ok () b) (quiet : b.Quiet)
    (hx : (engine env fuel).act a b = .ok () m') : env.Ends m (.stmt (.mk a loc)) m' := by
  cases a with
  | block body => exact absurd rfl (ha body)
  | expr e =>
    obtain ⟨r, hx⟩ := discard_eq_ok.1 hx
    replace quiet := (((engine_calm env fuel).execute e).ok hx).quiet quiet
    exact ⟨_, .normal, m', .expr hb hx, quiet, (leaving_normal quiet).symm⟩
  | ifElse c s o => exact h.branches hb quiet hx
  | whileLoop c body =>
    -- A jump that leaves the body is answered by the loop, so a loop leaves a value at most.
    obtain ⟨t, k, n, completes, hn, rfl⟩ := h.iterate quiet hx
    exact ⟨_, k, n, .whileLoop hb completes, hn, rfl⟩
  | doWhile body c =>
    obtain ⟨t, k, n, completes, hn, rfl⟩ := h.round (l := ⟨some c, none, body⟩) quiet
      (fun {b} hx => ⟨b, rfl, hx⟩) hx
    exact ⟨_, k, n, .doWhile hb completes, hn, rfl⟩
  | forLoop i c e body =>
    obtain ⟨_, b', hi, hx⟩ := bind_eq_ok.1 hx
    replace quiet := (((engine_calm env fuel).executeOption i).ok hi).quiet quiet
    obtain ⟨t, k, n, completes, hn, rfl⟩ := h.iterate quiet hx
    exact ⟨_, k, n, .forLoop hb hi completes, hn, rfl⟩
  | returns value => exact returns hb quiet hx
  | breaks =>
    obtain rfl := modify_eq_ok.1 hx
    exact ⟨_, .breaks, b, .breaks hb, quiet, (leaving_flow (k := .breaks) quiet rfl).symm⟩
  | continues =>
    obtain rfl := modify_eq_ok.1 hx
    exact ⟨_, .continues, b, .continues hb, quiet, (leaving_flow (k := .continues) quiet rfl).symm⟩
  | empty =>
    obtain ⟨-, rfl⟩ := pure_eq_ok.1 hx
    exact ⟨_, .normal, b, .empty hb, quiet, (leaving_normal quiet).symm⟩

theorem performRule {s : Stmt} (hm : m.Quiet)
    (hx : Engine.performRule (engine env fuel) s m = .ok () m') : env.Ends m (.stmt s) m' := by
  obtain ⟨a, loc⟩ := s
  cases a with
  | block body =>
    obtain ⟨t, k, n, completes, hn, rfl⟩ := h.performAll hm hx
    exact ⟨_, k, n, .block completes, hn, rfl⟩
  | _ =>
    obtain ⟨_, b, hb, hx⟩ := bind_eq_ok.1 hx
    exact h.act nofun hb (((calm_checkpoint loc).ok hb).quiet hm) hx

end Engine.Completing

/-- **What a run performs ends as the rules say**, on any machine on which control goes on as
usual. -/
theorem engine_completing (env : Env) (fuel : Nat) : (engine env fuel).Completing env := by
  induction fuel with
  | zero =>
    constructor
    · intro s m m' _ hx
      exact absurd hx throw_ne_ok
    · intro l m m' _ hx
      exact absurd hx throw_ne_ok
  | succ fuel ih => exact ⟨ih.performRule, ih.iterateRule⟩

/-! ## Calls are made while control goes on -/

namespace Run
variable {α β : Type}

/-- However `x` ends, control goes on, and it has gone on wherever a call was made. -/
def Orders (x : Run α) : Prop :=
  ∀ m r m', x m = conclude r m' → m.Quiet → m.Orderly → m'.Quiet ∧ m'.Orderly

theorem Calm.orders {x : Run α} (h : x.Calm State.Quiet) : x.Orders := by
  intro m r m' hx hq ho
  cases r with
  | ok a => exact ⟨(h.ok hx).quiet hq, (h.ok hx).orderly hq ho⟩
  | error e => exact ⟨(h.error hx).quiet hq, (h.error hx).orderly hq ho⟩

theorem Orders.bind {x : Run α} {f : α → Run β} (hx : x.Orders) (hf : ∀ a, (f a).Orders) :
    (x >>= f).Orders := by
  intro m r m' h hq ho
  cases hm : x m with
  | ok a n =>
    rw [bind_of_ok hm] at h
    obtain ⟨hq', ho'⟩ := hx m (.ok a) n hm hq ho
    exact hf a n r m' h hq' ho'
  | error e n =>
    rw [bind_of_error hm] at h
    obtain ⟨rfl, rfl⟩ := conclude_inj (q := .error e) h
    exact hx m (.error e) n hm hq ho

theorem Orders.attempt {x : Run α} (hx : x.Orders) : (attempt x).Orders := by
  intro m r m' h hq ho
  cases r with
  | error e => exact absurd h attempt_ne_error
  | ok q =>
    rcases attempt_eq_ok.1 h with ⟨a, hm, -⟩ | ⟨e, hm, -⟩
    · exact hx m (.ok a) m' hm hq ho
    · exact hx m (.error e) m' hm hq ho

theorem orders_conclude (r : Except Stop α) : (conclude r).Orders := by
  cases r with
  | ok a => exact (calm_pure a).orders
  | error e => exact Calm.orders (calm_throw e)

theorem orders_modify {f : Machine → Machine} (hq : ∀ m, m.Quiet → (f m).Quiet)
    (hs : ∀ m, (f m).seen = m.seen) : (modify f : Run PUnit).Orders := by
  intro m r m' h hm ho
  obtain ⟨-, rfl⟩ := conclude_inj (q := .ok ()) h
  refine ⟨hq m hm, fun g before after meanwhile hseen => ?_⟩
  rw [hs] at hseen
  exact ho g before after meanwhile hseen

theorem orders_allocate (size : Nat) (loc : Location) : (allocate size loc).Orders := by
  intro m r m' h hq ho
  cases r with
  | ok a =>
    obtain ⟨memory, -, rfl⟩ := allocate_eq_ok.1 h
    exact ⟨hq, ho⟩
  | error e =>
    obtain rfl := allocate_error h
    exact ⟨hq, ho⟩

theorem orders_start (env : Env) {engine : Engine} (h : engine.Calm) : (start env engine).Orders := by
  have globals : ∀ ids, (allocateGlobals env engine ids).Orders := by
    intro ids
    induction ids with
    | nil => exact (calm_pure _).orders
    | cons id ids ih =>
      refine (orders_allocate _ _).bind fun a => Orders.bind ?_ fun _ =>
        (h.registerArray ..).orders.bind fun _ => ih
      exact orders_modify (fun _ hq => hq) fun _ => rfl
  have strings : ∀ texts, (allocateStrings texts).Orders := by
    intro texts
    induction texts with
    | nil => exact (calm_pure _).orders
    | cons text texts ih =>
      refine (orders_allocate _ _).bind fun a => Orders.bind ?_ fun _ =>
        (calm_writeBytes ..).orders.bind fun _ => ih
      exact orders_modify (fun _ hq => hq) fun _ => rfl
  exact (globals _).bind fun _ => strings _

/-- The end of a run lets control go on whatever was before. -/
theorem orders_finish : finish.Orders := by
  intro m r m' h _ ho
  obtain ⟨k, hk⟩ := finish_ok m
  obtain ⟨-, rfl⟩ := conclude_inj (q := .ok ()) (hk.symm.trans h)
  simp only [finish, bind_eq_ok, get_eq_ok, modify_eq_ok, discard_eq_ok] at hk
  obtain ⟨_, _, ⟨rfl, rfl⟩, _, _, rfl, _, n, ⟨t, hn⟩, _, _, ⟨rfl, rfl⟩, _, _, rfl, _, k, ⟨t', hk⟩, rfl⟩ := hk
  have dropped : Orderly { m with frames := m.frames.dropGlobals } := ho
  have released : n.Orderly := releaseAll_orderly hn dropped
  have emptied : k.Orderly := releaseAll_orderly (m := { n with strings := #[] }) hk released
  exact ⟨⟨rfl, rfl⟩, emptied⟩

theorem orders_call (env : Env) (fuel : Nat) (name : String) (args : List Word) :
    (call env fuel name args).Orders := by
  have calm := engine_calm env fuel
  have first : ∀ id, (first env (engine env fuel) id args).Orders := fun id =>
    (orders_start env calm).bind fun _ =>
      (Engine.Calm.noted id (Engine.Calm.named _ (calm.invoke ..))).orders
  have ended : ∀ id, (lastly (Run.first env (engine env fuel) id args) finish).Orders := fun id =>
    (first id).attempt.bind fun outcome => orders_finish.bind fun _ => orders_conclude outcome
  rw [call_eq]
  refine (calm_require ..).orders.bind fun id => ?_
  have rest := (ended id).bind fun returned => (calm_pure (returned.map Value.word)).orders
  split
  · exact (calm_fault _).orders.bind fun _ => rest
  · exact rest

end Run

/-- **All calls are made while control goes on**, whatever a session has done, and so it does between
runs. -/
theorem Session.Reachable.orderly {config : Config} {u : Session} (h : u.Reachable config) :
    u.machine.Quiet ∧ u.machine.Orderly := by
  induction h with
  | new g => exact ⟨⟨rfl, rfl⟩, fun _ _ _ _ hs => hs.elim⟩
  | compile _ hs ih =>
    obtain ⟨p, -, rfl⟩ := compile_eq_ok.1 hs
    exact ⟨⟨rfl, rfl⟩, ih.2⟩
  | @call s fuel name args _ ih =>
    cases hx : s.callWithin fuel name args with
    | mk r u => exact orders_call s.env fuel name args _ _ _ (callWithin_eq hx) ih.1 ih.2
  | reset _ ih => exact ⟨⟨rfl, rfl⟩, ih.2⟩
  | controlled _ _ ih => exact ih
  | watching _ _ ih => exact ih
  | pictured _ _ ih => exact ih
  | observe _ ih => exact ih

/-! ## Activations -/

/-- One activation of the function `id` performs its body from the machine `b` on: `t` are the
statements of the function that it performs, in order, it ends as `k` says on the machine `n`, and
`b'` is the machine when control leaves the body. -/
structure Env.Activation (env : Env) (id : FunctionId) (body : Stmt) (b : Machine) (t : List Stmt)
    (k : Completion) (n b' : Machine) : Prop where
  completes : env.Completes b (.stmt body) t k n
  left : b' = n.leaving k
  own : ∀ s ∈ t, env.program.Performs id s
  flow : b'.flow = .normal ∨ b'.flow = .returns
  returns : b'.flow = .returns ↔ ∃ s ∈ t, s.isReturn = true
  traced : env.Traced t k n

section
variable {env : Env} {c : Context} {fuel : Nat} {id : FunctionId} {f : Function} {body : Stmt}
  {b b' m n : Machine} {t : List Stmt} {k : Completion}

/-- **A body that is performed is an activation of its function.** -/
theorem engine_activation (hf : env.program.functions[id]? = some f) (hb : f.body = .compiled body)
    (he : body.Enclosed 0) (hq : b.Quiet) (hx : (engine env fuel).perform body b = .ok () b') :
    ∃ t k n, env.Activation id body b t k n b' := by
  obtain ⟨t, k, n, completes, -, rfl⟩ := (engine_completing env fuel).perform hq hx
  refine ⟨t, k, n, completes, rfl, ?_, ?_, completes.traced.flow_returns, completes.traced⟩
  · exact completes.parts (fun _ hs _ hs' => hs.part hs') (.body hf hb)
  · have stays := fun hk => Nat.lt_irrefl 0 (completes.enclosed (j := 0) he hk)
    cases k with
    | normal => exact .inl rfl
    | returns v => exact .inr rfl
    | breaks => exact (stays (.inl rfl)).elim
    | continues => exact (stays (.inr rfl)).elim

/-- A body comes to its end or is left by a `return`. -/
theorem Env.Activation.completion (h : env.Activation id body b t k n b') :
    k = .normal ∨ ∃ v, k = .returns v := by
  have flow := h.flow
  rw [h.left] at flow
  cases k with
  | normal => exact .inl rfl
  | returns v => exact .inr ⟨v, rfl⟩
  | breaks | continues =>
    rcases flow with hf | hf
    · cases hf
    · cases hf

/-- A body that is left by a `return` returns a value exactly if its function has one. -/
theorem Env.Activation.isSome_value (hr : env.Runs c) (hf : env.program.functions[id]? = some f)
    (hb : f.body = .compiled body) {v : Option Value}
    (h : env.Activation id body b t (.returns v) n b') : v.isSome = f.returnsValue := by
  have typed := hr.finished.compiled (hr.program ▸ hf) hb
  have all := h.completes.parts (P := fun s => s.Typed c (some id) (some f.result))
    (fun _ hs _ hs' => hs.part hs') typed
  cases h.traced with
  | onward _ hk => exact absurd rfl hk
  | returned _ yields =>
    have last := all _ (List.mem_append_right _ List.mem_cons_self)
    cases yields with
    | nothing =>
      cases last with
      | returns he hv =>
        cases he
        rw [Function.returnsValue, hv]
        rfl
    | value _ =>
      cases last with
      | returnsValue he hs _ _ =>
        cases he
        rw [Function.returnsValue, Ty.isVoid_of_isScalar hs]
        rfl

end

/-! ## Setting up a frame -/

/-- Whether a run stops because a call has come to no value. -/
def Stop.isMissing : Stop → Bool
  | fault (.missingReturn _) => true
  | fault _ | aborted | exhausted => false

namespace Run
variable {α β : Type}

/-- `x` does not stop because a call has come to no value. -/
def Provides (x : Run α) : Prop := ∀ m e m', x m = .error e m' → e.isMissing = false

theorem provides_of_total {x : Run α} (h : ∀ m e m', ¬ x m = .error e m') : x.Provides :=
  fun m e m' hx => absurd hx (h m e m')

theorem provides_fault {f : Fault} (h : (Stop.fault f).isMissing = false) :
    (fault f : Run α).Provides := by
  intro m e m' hx
  obtain ⟨rfl, -⟩ := fault_eq_error.1 hx
  exact h

theorem Provides.bind {x : Run α} {f : α → Run β} (hx : x.Provides) (hf : ∀ a, (f a).Provides) :
    (x >>= f).Provides := by
  intro m e m' h
  rcases bind_eq_error.1 h with h | ⟨a, n, -, h⟩
  · exact hx m e m' h
  · exact hf a n e m' h

theorem provides_get_bind {f : Machine → Run β} (hf : ∀ m, (f m).Provides) : (get >>= f).Provides :=
  (provides_of_total fun _ _ _ => get_ne_error).bind hf

theorem provides_modify (f : Machine → Machine) : (modify f : Run PUnit).Provides :=
  provides_of_total fun _ _ _ => modify_ne_error

theorem provides_allocate (size : Nat) (loc : Location) : (allocate size loc).Provides := by
  refine provides_get_bind fun m => ?_
  split
  · exact (provides_of_total fun _ _ _ => set_ne_error).bind fun _ =>
      provides_of_total fun _ _ _ => pure_ne_error
  · exact provides_fault rfl

theorem provides_store (p : Place) (v : Value) (loc : Location) : (store p v loc).Provides := by
  unfold store
  split
  all_goals
    refine provides_get_bind fun m => ?_
    split
    · exact provides_modify _
    · exact provides_fault rfl

end Run

namespace Engine
variable {env : Env} {engine : Engine}

theorem provides_variablePlace (id : SymbolId) (ty : Ty) (loc : Location) :
    (variablePlace env id ty loc).Provides := by
  refine provides_get_bind fun m => ?_
  cases m.frames.address? id with
  | none => exact (provides_fault rfl).bind fun _ => provides_of_total fun _ _ _ => pure_ne_error
  | some a => exact provides_of_total fun _ _ _ => pure_ne_error

theorem provides_bindParams (ids : List SymbolId) (vs : List Value) :
    (bindParams env ids vs).Provides := by
  induction ids generalizing vs with
  | nil => exact provides_of_total fun _ _ _ => pure_ne_error
  | cons id ids ih =>
    cases vs with
    | nil => exact provides_of_total fun _ _ _ => pure_ne_error
    | cons v vs =>
      exact (provides_variablePlace _ _ _).bind fun _ => (provides_store _ _ _).bind fun _ => ih vs

theorem provides_announceFrame : announceFrame.Provides := by
  refine provides_get_bind fun m => ?_
  split
  · exact provides_of_total fun _ _ _ => pure_ne_error
  · exact provides_modify _

theorem provides_bindLocal (symbol : Symbol) (id : SymbolId) (a : Address) :
    (bindLocal symbol id a).Provides := by
  refine provides_get_bind fun m => ?_
  split
  · refine (provides_of_total fun m e m' hx => ?_).bind fun _ => provides_fault rfl
    obtain ⟨t, memory, seen, released⟩ := release_frame a m
    cases released.symm.trans (discard_eq_error.1 hx)
  · exact provides_modify _

/-- The length of an array is a constant, so that no call is needed to tell of it. -/
theorem Folds.provides_registerArray (h : engine.Folds) {symbol : Symbol} (a : Address)
    {p : Program} (hs : ∀ spec, symbol.array = some spec → spec.Measures p symbol) :
    (engine.registerArray symbol a).Provides := by
  unfold registerArray
  split
  · rename_i spec _ hspec _
    refine Provides.bind (fun m e m' hx => ?_) fun _ => provides_modify _
    obtain ⟨w, hw, -⟩ := (hs spec hspec).constant
    rcases h.solve hw m with hy | ⟨ty, hy⟩
    · cases hy.symm.trans hx
      rfl
    · cases hy.symm.trans hx
  · exact provides_of_total fun _ _ _ => pure_ne_error

theorem Folds.provides_allocateLocals (h : engine.Folds) {ids : List SymbolId}
    (hs : ∀ id ∈ ids, ∀ spec, (env.program.symbol id).array = some spec →
      spec.Measures env.program (env.program.symbol id)) :
    (engine.allocateLocals env ids).Provides := by
  induction ids with
  | nil => exact provides_of_total fun _ _ _ => pure_ne_error
  | cons id ids ih =>
    rw [allocateLocals_cons]
    refine (provides_allocate _ _).bind fun a => (provides_bindLocal _ _ _).bind fun _ => ?_
    exact (h.provides_registerArray a (hs id List.mem_cons_self)).bind fun _ =>
      ih fun id' h' => hs id' (List.mem_cons_of_mem _ h')

/-- A frame is set up without a call. -/
theorem provides_enterFrame {c : Context} {id : FunctionId} {f : Function} (fuel : Nat)
    (hr : env.Runs c) (hf : env.program.functions[id]? = some f) (vs : List Value) :
    ((MiniC.engine env fuel).enterFrame env f vs).Provides := by
  refine ((engine_folds env fuel).provides_allocateLocals fun v hv spec hs => hr.measures hf hv hs).bind
    fun _ => ?_
  exact (provides_bindParams _ _).bind fun _ => provides_announceFrame

end Engine

/-! ## Calls that end -/

namespace Engine

/-- How a call of the function `f` with the values `vs` goes on the machine `m`.  A body that stops
stops the call; a fault that tells of a missing value is the call's own in one case only. -/
inductive Invokes (env : Env) (engine : Engine) (id : FunctionId) (f : Function) (body : Stmt)
    (vs : List Value) (loc : Location) (m : Machine) : Prop
  | tooDeep : env.config.maxDepth ≤ m.frames.depth →
    engine.invoke env id vs loc m = .error (.fault (.stackOverflow env.config.maxDepth loc)) m →
    Invokes env engine id f body vs loc m
  /-- The frame cannot be set up. -/
  | notEntered {k n' : Machine} {stop : Stop} :
    engine.enterFrame env f vs { m with frames := m.frames.push id f.name } = .error stop k →
    stop.isMissing = false → engine.invoke env id vs loc m = .error stop n' →
    Invokes env engine id f body vs loc m
  | stopped {b k n' : Machine} {stop : Stop} :
    engine.enterFrame env f vs { m with frames := m.frames.push id f.name } = .ok () b →
    engine.perform body b = .error stop k → engine.invoke env id vs loc m = .error stop n' →
    Invokes env engine id f body vs loc m
  /-- The body has performed a `return`, and the call comes to what it returns, converted to the type
  of the function, or to no value if the function has none. -/
  | returned {b b' n n' : Machine} {t : List Stmt} {v : Option Value} :
    engine.enterFrame env f vs { m with frames := m.frames.push id f.name } = .ok () b →
    engine.perform body b = .ok () b' → env.Activation id body b t (.returns v) n b' →
    v.isSome = f.returnsValue →
    engine.invoke env id vs loc m = .ok (v.map fun v => v.convert f.result) n' →
    Invokes env engine id f body vs loc m
  /-- The body of a function without a value has come to its end. -/
  | ended {b b' n n' : Machine} {t : List Stmt} :
    engine.enterFrame env f vs { m with frames := m.frames.push id f.name } = .ok () b →
    engine.perform body b = .ok () b' → env.Activation id body b t .normal n b' →
    f.returnsValue = false → engine.invoke env id vs loc m = .ok none n' →
    Invokes env engine id f body vs loc m
  /-- The body of a function with a value has come to its end, and there is none. -/
  | missing {b b' n n' : Machine} {t : List Stmt} :
    engine.enterFrame env f vs { m with frames := m.frames.push id f.name } = .ok () b →
    engine.perform body b = .ok () b' → env.Activation id body b t .normal n b' →
    f.returnsValue = true →
    engine.invoke env id vs loc m = .error (.fault (.missingReturn f.name)) n' →
    Invokes env engine id f body vs loc m

/-- What a body returns that fits the function is what the call comes to. -/
theorem callOutcome_of_fits {f : Function} {v : Option Value} (h : v.isSome = f.returnsValue) :
    callOutcome f none v = .ok (v.map fun v => v.convert f.result) := by
  cases v with
  | none => simp [callOutcome, ← h]
  | some v => simp [callOutcome, ← h]

/-- **How calls go**, on any lawful machine on which control goes on as usual. -/
theorem invokes_of {env : Env} {c : Context} {fuel : Nat} {id : FunctionId} {f : Function}
    {body : Stmt} {m : Machine} (hr : env.Runs c) (hf : env.program.functions[id]? = some f)
    (hb : f.body = .compiled body) (he : body.Enclosed 0) (hl : m.Lawful) (hq : m.Quiet)
    (vs : List Value) (loc : Location) : Invokes env (engine env fuel) id f body vs loc m := by
  have invoked := congrFun (invoke_eq env (engine env fuel) id vs loc) m
  rw [Program.function_eq hf] at invoked
  by_cases deep : env.config.maxDepth ≤ m.frames.depth
  · exact .tooDeep deep (invoked.trans (framed_of_le deep))
  rw [framed_of_lt (Nat.not_le.1 deep)] at invoked
  have body_eq : (engine env fuel).runBody env f loc = (engine env fuel).perform body := by
    rw [runBody, hb]
  cases entered : (engine env fuel).enterFrame env f vs { m with frames := m.frames.push id f.name } with
  | error stop k =>
    obtain ⟨n', closed⟩ := closing_of_error (f := f) (bind_of_error entered)
    exact .notEntered entered (provides_enterFrame fuel hr hf vs _ _ _ entered) (invoked.trans closed)
  | ok u b =>
    rw [closing_congr (bind_of_ok entered), body_eq] at invoked
    cases performed : (engine env fuel).perform body b with
    | error stop k =>
      obtain ⟨n', closed⟩ := closing_of_error (f := f) performed
      exact .stopped entered performed (invoked.trans closed)
    | ok u b' =>
      have quiet := ((engine_calm env fuel).within_enterFrame entered).quiet hq
      obtain ⟨t, k, n, active⟩ := engine_activation hf hb he quiet performed
      have ran : attempt (do (engine env fuel).enterFrame env f vs; (engine env fuel).runBody env f loc)
          { m with frames := m.frames.push id f.name } = .ok (.ok ()) b' :=
        attempt_conclude (r := .ok ()) ((bind_of_ok entered).trans (body_eq ▸ performed))
      obtain ⟨trouble, n', left, pending, fine, -⟩ := ((engine_calm env fuel).body ran).leave
      have closed := invoked.trans (closing_of_leave (r := .ok ()) performed left)
      rw [pending, active.left] at closed
      -- Memory knows the regions of the frame, so what the body has left is what the call comes to.
      rw [fine hl hq] at closed
      rcases active.completion with rfl | ⟨v, rfl⟩
      · rw [show (n.leaving .normal).pending = none from rfl, callOutcome] at closed
        by_cases hv : f.returnsValue = true
        · rw [if_pos hv] at closed
          exact .missing entered performed active hv closed
        · rw [if_neg hv] at closed
          exact .ended entered performed active (Bool.eq_false_iff.2 hv) closed
      · have fits := active.isSome_value hr hf hb
        rw [show (n.leaving (.returns v)).pending = v from rfl, callOutcome_of_fits fits] at closed
        exact .returned entered performed active fits closed

end Engine

/-- The statement that a function was compiled to. -/
def Body.code? : Body → Option Stmt
  | compiled s => some s
  | _ => none

theorem Body.code?_eq_some {body : Body} {s : Stmt} (h : body.code? = some s) :
    body = .compiled s := by
  cases body <;> cases h
  rfl

namespace Session

/-- **Control flow is structured, and what is returned belongs to its own activation.**  Take a session
that has compiled a source, with a memory of any capacity.  In all that it has done, calls were made only
while control went on as usual, and so it does between runs; and all machines that its runs come to are
lawful.  Take any function of the program that has a body, and any machine on which control goes on as
usual.  The jumps of the body stand in its own loops.  If the body is
performed to its end, it performs statements of its own, each jump of which is taken in by the loop
around it; control then goes on as usual or a `return` is under way, and the latter exactly if the
activation has itself performed a `return`, which is then its last statement.  Where the machine is
lawful, a call comes to the value of this statement, converted to the type of the function, or to no
value if the function has none.  It fails for want of a value exactly if the function has one and its
body comes to its end without a `return`. -/
theorem returns_own {config : Config} {s t u : Session} {source : String}
    (hs : s.compile source = .ok t) (hu : u.Reachable config) (henv : u.env = t.env) :
    (u.machine.Quiet ∧ u.machine.Orderly) ∧
    (∀ k m, u.Running k m → m.Lawful) ∧
    ∀ id f body, u.env.program.functions[id]? = some f → f.body = .compiled body →
      body.Enclosed 0 ∧ ∀ fuel m, m.Quiet →
        (∀ m', (engine u.env fuel).perform body m = .ok () m' →
          ∃ t k n, u.env.Activation id body m t k n m') ∧
        (m.Lawful → ∀ vs loc, Engine.Invokes u.env (engine u.env fuel) id f body vs loc m) := by
  obtain ⟨c, hr⟩ := runs_of_compile hs
  rw [← henv] at hr
  obtain ⟨p, hp, rfl⟩ := compile_eq_ok.1 hs
  refine ⟨hu.orderly, fun k m hm => (hm.inside hr hu.rested).lawful, ?_⟩
  intro id f body hf hb
  have enclosed : body.Enclosed 0 := by
    rw [henv] at hf
    exact Program.ofSource_enclosed hp hf hb
  refine ⟨enclosed, fun fuel m hq => ⟨fun m' hx => ?_, fun hl vs loc => ?_⟩⟩
  · exact engine_activation hf hb enclosed hq hx
  · exact Engine.invokes_of hr hf hb enclosed hl hq vs loc

/-- Calls in the test and in the increment of a loop that is left by a `return` with a call; the
function that is called has a loop with a `break` and a `return`. -/
def stepping : String :=
  "int up(int n) \x7b while (1) \x7b if (n) break; return 1; \x7d return n + 1; \x7d "
    ++ "char main() \x7b int i; for (i = 0; i < up(4); i = up(i)) \x7b if (i < 1) continue; "
    ++ "return up(i) + 300; \x7d \x7d"

theorem returns_own_stepping : ∃ t m f body b b' performed v n,
    (new .standard).compile stepping = .ok t ∧ t.Running none m ∧
    t.env.program.functions[5]? = some f ∧ f.body = .compiled body ∧ body.Enclosed 0 ∧
    t.env.Activation 5 body b performed (.returns (some v)) n b' ∧
    (v.convert f.result).word = 46 := by
  have run : ((new .standard).compile stepping).toOption.bind (fun t =>
      t.env.program.functions[5]?.bind fun f => f.body.code?.bind fun _ => EStateM.run' (do
        Run.start t.env (engine t.env 9)
        let m ← get
        let v ← (engine t.env 60).invoke t.env 5 [] .nowhere
        pure (m.pending, m.flow, v.map Value.word)) t.machine) =
      some (none, .normal, some 46) := by
    rw [compile_of_toList stepping (toList_append_of_eq
      (toList_append_of_eq (String.ofList_eq.1 rfl) (String.ofList_eq.1 rfl)) (String.ofList_eq.1 rfl))]
    decide +kernel
  obtain ⟨t, compiled, run⟩ := Option.bind_eq_some_iff.1 run
  obtain ⟨f, hf, run⟩ := Option.bind_eq_some_iff.1 run
  obtain ⟨body, hb, run⟩ := Option.bind_eq_some_iff.1 run
  replace hb := Body.code?_eq_some hb
  have ht := Except.eq_ok_of_toOption compiled
  obtain ⟨_, hx⟩ := run'_eq_some.1 run
  simp only [bind_eq_ok, get_eq_ok, pure_eq_ok, Prod.mk.injEq] at hx
  obtain ⟨_, m, started, _, _, ⟨rfl, rfl⟩, v, n, invoked, ⟨pending, flow, word⟩, -⟩ := hx
  obtain ⟨-, lawful, functions⟩ := returns_own ht (.compile (.new .full) ht) rfl
  obtain ⟨enclosed, runs⟩ := functions 5 f body hf hb
  obtain ⟨-, calls⟩ := runs 60 m ⟨pending, flow⟩
  cases calls (lawful none m (.started started)) [] .nowhere with
  | tooDeep _ stops | notEntered _ _ stops | stopped _ _ stops | missing _ _ _ _ stops =>
    cases invoked.symm.trans stops
  | ended _ _ _ _ ends =>
    cases invoked.symm.trans ends
    cases word
  | @returned b b' n n' performed w _ _ active _ returns =>
    cases invoked.symm.trans returns
    cases w with
    | none => cases word
    | some w =>
      exact ⟨t, m, f, body, b, b', performed, w, n, ht, .started started, hf, hb, enclosed, active,
        Option.some.inj word⟩

end Session

end MiniC
