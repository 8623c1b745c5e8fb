/-
  More fuel.

  Fuel only decides whether a run is carried to its end: a run that does not end for want of fuel ends
  in the same way, on the same machine, with any more of it (`Run.call_fuel`).
-/
import MiniC.Proofs.Likeness

namespace MiniC

open Run

namespace Run
variable {α β : Type}

/-- Whether `x` ends on `m` for want of fuel. -/
def Spent (x : Run α) (m : Machine) : Prop := ∃ m', x m = .error .exhausted m'

theorem Spent.bind {x : Run α} {m : Machine} (h : x.Spent m) (f : α → Run β) : (x >>= f).Spent m := by
  obtain ⟨m', hx⟩ := h
  exact ⟨m', bind_of_error hx⟩

theorem Spent.after {x : Run α} {f : α → Run β} {m n : Machine} {a : α} (h : (f a).Spent n)
    (hx : x m = .ok a n) : (x >>= f).Spent m := by
  obtain ⟨m', hf⟩ := h
  exact ⟨m', (bind_of_ok hx).trans hf⟩

/-- Fuel that is spent is not found again, whatever is still done that does not fail. -/
theorem Spent.attempt {x : Run α} {m : Machine} (h : x.Spent m) {g : Except Stop α → Run β}
    (hg : ∀ m, (g (.error .exhausted)).Spent m) : (attempt x >>= g).Spent m := by
  obtain ⟨n, hx⟩ := h
  obtain ⟨n', hn⟩ := hg n
  exact ⟨n', by rw [bind_of_ok (attempt_conclude (r := .error .exhausted) hx), hn]⟩

theorem Spent.noted {x : Run α} {m : Machine} (h : x.Spent m.afresh) (f : FunctionId) :
    (noted f x).Spent m := by
  obtain ⟨n, hx⟩ := h
  exact ⟨_, noted_eq_error.2 ⟨n, hx, rfl⟩⟩

theorem Spent.lastly {x : Run α} {y : Run Unit} {m : Machine} (h : x.Spent m)
    (total : ∀ m, ∃ m', y m = .ok () m') : (lastly x y).Spent m := by
  refine h.attempt fun m => ?_
  obtain ⟨m', hy⟩ := total m
  exact ⟨m', by rw [bind_of_ok hy]; rfl⟩

/-- A frame is closed whether or not there is fuel left. -/
theorem Spent.closing {x : Run Unit} {m : Machine} (h : x.Spent m) (f : Function) :
    (Engine.closing f x).Spent m := by
  refine h.attempt fun m => ?_
  obtain ⟨t, n, hl⟩ := Engine.leaveFrame_ok m
  exact ⟨_, by rw [bind_of_ok hl]; rfl⟩

/-- What `x` does unless its fuel is spent, `y` does. -/
def Lasts (x y : Run α) : Prop := ∀ m, x.Spent m ∨ y m = x m

theorem Lasts.bind {x y : Run α} {f g : α → Run β} (h : x.Lasts y) (hf : ∀ a, (f a).Lasts (g a)) :
    (x >>= f).Lasts (y >>= g) := by
  intro m
  rcases h m with hx | hx
  · exact .inl (hx.bind f)
  · cases hm : x m with
    | error e n =>
      rw [hm] at hx
      rw [bind_of_error hm, bind_of_error hx]
      exact .inr rfl
    | ok a n =>
      rw [hm] at hx
      unfold Spent
      rw [bind_of_ok hm, bind_of_ok hx]
      exact hf a n

theorem Lasts.noted {x y : Run α} (f : FunctionId) (h : x.Lasts y) :
    (noted f x).Lasts (noted f y) := by
  intro m
  rcases h m.afresh with hx | hx
  · exact .inl (hx.noted f)
  · right
    unfold Run.noted
    rw [hx]

theorem Lasts.attempt {x y : Run α} {g : Except Stop α → Run β} (h : x.Lasts y)
    (hg : ∀ m, x.Spent m → (Run.attempt x >>= g).Spent m) :
    (attempt x >>= g).Lasts (attempt y >>= g) := by
  intro m
  rcases h m with hx | hx
  · exact .inl (hg m hx)
  · right
    have same : Run.attempt y m = Run.attempt x m := by
      unfold Run.attempt
      rw [hx]
    change EStateM.bind _ g m = EStateM.bind _ g m
    rw [EStateM.bind, EStateM.bind, same]

end Run

/-- A run beside the same run with more fuel. -/
def moreFuel : Likeness Bool where
  Like x := (x false).Lasts (x true)
  plain _ _ := .inr rfl
  bind h hf := h.bind hf
  tell _ _ _ := .inr rfl
  noted f h := h.noted f
  lastly h _ total := h.attempt fun _ spent => spent.lastly total

namespace moreFuel

instance : moreFuel.Shaped := ⟨fun _ _ => .inr rfl⟩

theorem paced : moreFuel.Paced := ⟨fun _ _ => .inr rfl, fun _ _ _ _ => .inr rfl⟩

theorem framed : moreFuel.Framed where
  announce _ := .inr rfl
  framed {x} limit loc id f h := by
    have closes : (Engine.closing f (x false)).Lasts (Engine.closing f (x true)) :=
      Lasts.attempt h fun _ spent => spent.closing f
    have same : ∀ {α : Type} (y : Run α), y.Lasts y := fun _ _ => .inr rfl
    refine Lasts.bind (same _) fun m => ?_
    have opens := Lasts.bind (same (modify fun m =>
      { m with frames := m.frames.push id f.name } : Run PUnit)) fun _ => closes
    split
    · exact Lasts.bind (same _) fun _ => opens
    · exact opens

end moreFuel

/-- Engines with more fuel do the same and more. -/
theorem engine_fuel (env : Env) (fuel : Nat) :
    Engine.Like moreFuel fun b => engine env (if b then fuel + 1 else fuel) := by
  induction fuel with
  | zero => exact ⟨fun _ _ => .inl ⟨_, rfl⟩, fun _ _ => .inl ⟨_, rfl⟩, fun _ _ => .inl ⟨_, rfl⟩⟩
  | succ n ih =>
    have next : Engine.Like moreFuel fun b => (engine env (if b then n + 1 else n)).next env :=
      ih.next moreFuel.paced fun id args loc => moreFuel.framed.invoke (fun _ _ _ _ => ih.execute _) fun _ _ => ih.perform _
    exact ⟨next.execute, next.perform, next.iterate⟩

namespace Run
variable {env : Env} {fuel more : Nat} {name : String} {args : List Word} {m : Machine}

/-- **A run that ends with some fuel ends in the same way with more.** -/
theorem call_fuel (h : ¬ (call env fuel name args).Spent m) (hle : fuel ≤ more) :
    call env more name args m = call env fuel name args m := by
  induction hle with
  | refl => rfl
  | @step n _ ih =>
    have like := engine_fuel env n
    have step : moreFuel.Like fun b => call env (if b then n + 1 else n) name args := by
      refine Likeness.call fun id _ => ?_
      refine moreFuel.bind (Likeness.start fun _ _ _ _ => like.execute _) fun _ => ?_
      refine moreFuel.noted id (moreFuel.named _ ?_)
      exact moreFuel.framed.invoke (fun _ _ _ _ => like.execute _) fun _ _ => like.perform _
    rcases step m with spent | same
    · refine absurd ?_ h
      unfold Spent at spent ⊢
      rwa [← ih]
    · exact same.trans ih

end Run

end MiniC
