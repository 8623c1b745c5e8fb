/-
  Outcomes of runs.

  How a part of a run ends follows from how its own parts end.  These lemmas take a run apart at
  its first step; the later modules never look at how runs are represented.
-/
import MiniC.Machine.Run

namespace MiniC.Run

section
variable {α β : Type} {m m' m'' : Machine} {a : α} {b : β} {e : Stop}

@[simp] theorem pure_eq_ok {a' : α} : (pure a : Run α) m = .ok a' m' ↔ a = a' ∧ m = m' := by
  change EStateM.Result.ok a m = .ok a' m' ↔ _
  simp

@[simp] theorem pure_ne_error : ¬ (pure a : Run α) m = .error e m' := nofun

@[simp] theorem throw_eq_error {e' : Stop} :
    (throw e : Run α) m = .error e' m' ↔ e = e' ∧ m = m' := by
  change EStateM.Result.error e m = .error e' m' ↔ _
  simp

@[simp] theorem throw_ne_ok : ¬ (throw e : Run α) m = .ok a m' := nofun

@[simp] theorem fault_eq_error {f : Fault} {e' : Stop} :
    (fault f : Run α) m = .error e' m' ↔ .fault f = e' ∧ m = m' := throw_eq_error

@[simp] theorem fault_ne_ok {f : Fault} : ¬ (fault f : Run α) m = .ok a m' := nofun

@[simp] theorem get_eq_ok {n : Machine} : (get : Run Machine) m = .ok n m' ↔ m = n ∧ m = m' := by
  change EStateM.Result.ok m m = .ok n m' ↔ _
  simp

@[simp] theorem get_ne_error : ¬ (get : Run Machine) m = .error e m' := nofun

@[simp] theorem set_eq_ok {n : Machine} {u : PUnit} :
    (set n : Run PUnit) m = .ok u m' ↔ n = m' := by
  change EStateM.Result.ok PUnit.unit n = .ok u m' ↔ _
  simp

@[simp] theorem set_ne_error {n : Machine} : ¬ (set n : Run PUnit) m = .error e m' := nofun

@[simp] theorem modify_eq_ok {f : Machine → Machine} {u : PUnit} :
    (modify f : Run PUnit) m = .ok u m' ↔ f m = m' := by
  change EStateM.Result.ok PUnit.unit (f m) = .ok u m' ↔ _
  simp

@[simp] theorem modify_ne_error {f : Machine → Machine} :
    ¬ (modify f : Run PUnit) m = .error e m' := nofun

@[simp] theorem bind_eq_ok {x : Run α} {f : α → Run β} :
    (x >>= f) m = .ok b m'' ↔ ∃ a m', x m = .ok a m' ∧ f a m' = .ok b m'' := by
  change EStateM.bind x f m = _ ↔ _
  unfold EStateM.bind
  cases x m <;> simp [and_assoc]

@[simp] theorem bind_eq_error {x : Run α} {f : α → Run β} :
    (x >>= f) m = .error e m'' ↔
      x m = .error e m'' ∨ ∃ a m', x m = .ok a m' ∧ f a m' = .error e m'' := by
  change EStateM.bind x f m = _ ↔ _
  unfold EStateM.bind
  cases x m <;> simp [and_assoc]

@[simp] theorem map_eq_ok {x : Run α} {f : α → β} :
    (f <$> x) m = .ok b m' ↔ ∃ a, x m = .ok a m' ∧ f a = b := by
  change EStateM.map f x m = _ ↔ _
  unfold EStateM.map
  cases x m with
  | ok a n =>
    simp only [EStateM.Result.ok.injEq, and_assoc, exists_eq_left']
    exact and_comm
  | error e n => simp

@[simp] theorem map_eq_error {x : Run α} {f : α → β} :
    (f <$> x) m = .error e m' ↔ x m = .error e m' := by
  change EStateM.map f x m = _ ↔ _
  unfold EStateM.map
  cases x m <;> simp

@[simp] theorem discard_eq_ok {x : Run α} {u : PUnit} :
    discard x m = .ok u m' ↔ ∃ a, x m = .ok a m' := by
  change ((fun _ => PUnit.unit) <$> x) m = _ ↔ _
  simp

@[simp] theorem discard_eq_error {x : Run α} : discard x m = .error e m' ↔ x m = .error e m' := by
  change ((fun _ => PUnit.unit) <$> x) m = _ ↔ _
  simp

@[simp] theorem require_eq_ok {x : Option α} {f : Fault} :
    require x f m = .ok a m' ↔ x = some a ∧ m = m' := by
  cases x <;> simp [require]

@[simp] theorem require_eq_error {x : Option α} {f : Fault} :
    require x f m = .error e m' ↔ x = none ∧ .fault f = e ∧ m = m' := by
  cases x <;> simp [require]

@[simp] theorem attempt_eq_ok {x : Run α} {r : Except Stop α} :
    attempt x m = .ok r m' ↔
      (∃ a, x m = .ok a m' ∧ r = .ok a) ∨ ∃ e, x m = .error e m' ∧ r = .error e := by
  unfold attempt
  cases x m <;> simp [eq_comm, and_assoc, and_comm]

@[simp] theorem attempt_ne_error {x : Run α} : ¬ attempt x m = .error e m' := by
  unfold attempt
  cases x m <;> simp

/-- A run comes to something on every machine. -/
theorem exists_conclude (x : Run α) (m : Machine) : ∃ r m', x m = conclude r m' := by
  cases h : x m with
  | ok a m' => exact ⟨.ok a, m', rfl⟩
  | error e m' => exact ⟨.error e, m', rfl⟩

@[simp] theorem conclude_eq_ok {r : Except Stop α} :
    conclude r m = .ok a m' ↔ r = .ok a ∧ m = m' := by
  cases r <;> simp [conclude]

@[simp] theorem conclude_eq_error {r : Except Stop α} :
    conclude r m = .error e m' ↔ r = .error e ∧ m = m' := by
  cases r <;> simp [conclude]

theorem noted_eq_ok {x : Run α} {f : FunctionId} : noted f x m = .ok a m' ↔
    ∃ n, x m.afresh = .ok a n ∧ n.ended f m = m' := by
  unfold noted
  cases x m.afresh <;> simp [and_assoc]

theorem noted_eq_error {x : Run α} {f : FunctionId} : noted f x m = .error e m' ↔
    ∃ n, x m.afresh = .error e n ∧ n.ended f m = m' := by
  unfold noted
  cases x m.afresh <;> simp [and_assoc]

theorem noted_conclude {x : Run α} {f : FunctionId} {r : Except Stop α}
    (h : x m.afresh = conclude r m') : noted f x m = conclude r (m'.ended f m) := by
  unfold noted
  rw [h]
  cases r <;> rfl

theorem run'_eq_some {x : Run α} : EStateM.run' x m = some a ↔ ∃ m', x m = .ok a m' := by
  unfold EStateM.run' EStateM.run
  cases x m <;> simp

end

end MiniC.Run
