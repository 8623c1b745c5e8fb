/-
  A stepper and its commands.

  `Stepper.Answers` says what a checkpoint makes of a queue of commands behind which no more can come: a
  clause for each command that it can stop at, and one for the end of the queue.  `Stepper.Serves` puts
  checkpoints in a row.

  * `Stepper.answers_iff`: a checkpoint takes the commands that it should and gives the verdict.
  * `Stepper.serves_iff`: so do any number of checkpoints.
  * `Stepper.abort_answered`: each abort is answered, after no more statements than were let pass by the
    commands before it.
-/
import MiniC.Control

namespace MiniC.Stepper

/-- A checkpoint of a stepper with a mode and a queue: its verdict, and the mode and the queue it leaves.
While paused it discards pauses and stops at any other command; while running it ignores steps and
resumes. -/
inductive Answers : Bool → List Command → Verdict → Bool → List Command → Prop
  /-- A step lets one statement pass. -/
  | step {pauses q : List Command} : (∀ c ∈ pauses, c = .pause) →
    Answers true (pauses ++ .step :: q) .proceed true q
  /-- A resume lets one statement pass, and the stepper runs from there on. -/
  | resume {pauses q : List Command} : (∀ c ∈ pauses, c = .pause) →
    Answers true (pauses ++ .resume :: q) .proceed false q
  | abort {pauses q : List Command} : (∀ c ∈ pauses, c = .pause) →
    Answers true (pauses ++ .abort :: q) .abort true q
  /-- The queue runs dry while the stepper is paused. -/
  | dry {pauses : List Command} : (∀ c ∈ pauses, c = .pause) → Answers true pauses .abort true []
  /-- A pause pauses a running stepper, within the same checkpoint. -/
  | pause {ignored q q' : List Command} {v : Verdict} {paused : Bool} :
    (∀ c ∈ ignored, c = .step ∨ c = .resume) → Answers true q v paused q' →
    Answers false (ignored ++ .pause :: q) v paused q'
  | stop {ignored q : List Command} : (∀ c ∈ ignored, c = .step ∨ c = .resume) →
    Answers false (ignored ++ .abort :: q) .abort false q
  /-- The queue runs dry while the stepper is running. -/
  | goOn {ignored : List Command} : (∀ c ∈ ignored, c = .step ∨ c = .resume) →
    Answers false ignored .proceed false []

/-- Checkpoints in a row: their verdicts, and the mode and the queue that the last one leaves. -/
inductive Serves : Bool → List Command → List Verdict → Bool → List Command → Prop
  | nil {paused : Bool} {q : List Command} : Serves paused q [] paused q
  | cons {p p' p'' : Bool} {q q' q'' : List Command} {v : Verdict} {vs : List Verdict} :
    Answers p q v p' q' → Serves p' q' vs p'' q'' → Serves p q (v :: vs) p'' q''

/-- The verdicts of so many checkpoints, and the stepper behind them. -/
def checkpoints : Nat → Stepper → List Verdict × Stepper
  | 0, s => ([], s)
  | n + 1, s =>
    let (v, s) := s.checkpoint
    let (vs, s) := checkpoints n s
    (v :: vs, s)

variable {p p' : Bool} {q q' pauses ignored : List Command} {v : Verdict} {vs : List Verdict}

/-! ## One checkpoint -/

theorem decide_pauses (h : ∀ c ∈ pauses, c = .pause) : decide true (pauses ++ q) = decide true q := by
  induction pauses with
  | nil => rfl
  | cons c cs ih =>
    rw [List.forall_mem_cons] at h
    rw [h.1, List.cons_append, decide, ih h.2]

theorem decide_ignored (h : ∀ c ∈ ignored, c = .step ∨ c = .resume) :
    decide false (ignored ++ q) = decide false q := by
  induction ignored with
  | nil => rfl
  | cons c cs ih =>
    rw [List.forall_mem_cons] at h
    rcases h.1 with rfl | rfl <;> rw [List.cons_append, decide, ih h.2]

theorem Answers.decide_eq (h : Answers p q v p' q') : decide p q = (v, p', q') := by
  induction h with
  | step hp | resume hp | abort hp => rw [decide_pauses hp, decide]
  | @dry pauses hp => rw [← List.append_nil pauses, decide_pauses hp, decide]
  | pause hi _ ih => rw [decide_ignored hi, decide, ih]
  | stop hi => rw [decide_ignored hi, decide]
  | @goOn ignored hi => rw [← List.append_nil ignored, decide_ignored hi, decide]

/-- In front of a pause, a paused stepper does what it does behind it. -/
theorem Answers.cons_pause (h : Answers true q v p' q') : Answers true (.pause :: q) v p' q' := by
  have first {cs : List Command} (hcs : ∀ c ∈ cs, c = .pause) : ∀ c ∈ Command.pause :: cs, c = .pause :=
    List.forall_mem_cons.2 ⟨rfl, hcs⟩
  cases h with
  | step hp => exact .step (first hp)
  | resume hp => exact .resume (first hp)
  | abort hp => exact .abort (first hp)
  | dry hp => exact .dry (first hp)

/-- In front of a step or a resume, a running stepper does what it does behind it. -/
theorem Answers.cons_ignored {c : Command} (hc : c = .step ∨ c = .resume)
    (h : Answers false q v p' q') : Answers false (c :: q) v p' q' := by
  have first {cs : List Command} (hcs : ∀ d ∈ cs, d = .step ∨ d = .resume) :
      ∀ d ∈ c :: cs, d = .step ∨ d = .resume := List.forall_mem_cons.2 ⟨hc, hcs⟩
  cases h with
  | pause hi hq => exact .pause (first hi) hq
  | stop hi => exact .stop (first hi)
  | goOn hi => exact .goOn (first hi)

theorem answers_decide (p : Bool) (q : List Command) :
    Answers p q (decide p q).1 (decide p q).2.1 (decide p q).2.2 := by
  fun_induction decide p q with
  | case1 => exact .dry nofun
  | case2 q => exact @Answers.step [] q nofun
  | case3 q => exact @Answers.resume [] q nofun
  | case4 q ih => exact ih.cons_pause
  | case5 q => exact @Answers.abort [] q nofun
  | case6 => exact .goOn nofun
  | case7 q ih => exact @Answers.pause [] q _ _ _ nofun ih
  | case8 q => exact @Answers.stop [] q nofun
  | case9 q ih => exact ih.cons_ignored (.inl rfl)
  | case10 q ih => exact ih.cons_ignored (.inr rfl)

/-- **A checkpoint takes the commands that it should and gives the verdict**, and nothing else. -/
theorem answers_iff : Answers p q v p' q' ↔ decide p q = (v, p', q') := by
  constructor
  · exact Answers.decide_eq
  · intro h
    have ha := answers_decide p q
    rwa [h] at ha

/-! ## Checkpoints in a row -/

theorem checkpoint_eq (closed : Bool) (h : decide p q = (v, p', q')) :
    checkpoint ⟨p, q, closed⟩ = (v, ⟨p', q', closed⟩) := by
  simp only [checkpoint, h]

theorem Serves.checkpoints_eq (closed : Bool) (h : Serves p q vs p' q') :
    checkpoints vs.length ⟨p, q, closed⟩ = (vs, ⟨p', q', closed⟩) := by
  induction h with
  | nil => rfl
  | cons ha _ ih =>
    simp only [List.length_cons, checkpoints, checkpoint_eq closed ha.decide_eq, ih]

theorem exists_serves (p : Bool) (q : List Command) (n : Nat) :
    ∃ vs p' q', vs.length = n ∧ Serves p q vs p' q' := by
  induction n generalizing p q with
  | zero => exact ⟨[], p, q, rfl, .nil⟩
  | succ n ih =>
    obtain ⟨vs, p', q', hlen, hs⟩ := ih (decide p q).2.1 (decide p q).2.2
    exact ⟨_ :: vs, p', q', by rw [List.length_cons, hlen], .cons (answers_decide p q) hs⟩

/-- **The verdicts of checkpoints in a row are those of the automaton**, which are there for any number of
checkpoints. -/
theorem serves_iff {n : Nat} (closed : Bool) :
    vs.length = n ∧ Serves p q vs p' q' ↔
      checkpoints n ⟨p, q, closed⟩ = (vs, ⟨p', q', closed⟩) := by
  constructor
  · rintro ⟨rfl, hs⟩
    exact hs.checkpoints_eq closed
  · intro h
    obtain ⟨us, p₂, q₂, rfl, hs⟩ := exists_serves p q n
    rw [hs.checkpoints_eq closed] at h
    cases h
    exact ⟨rfl, hs⟩

/-- A checkpoint swallows the first command and goes on behind it, or ends with it; to let a statement pass
it has to be a step or a resume. -/
theorem decide_cons (p : Bool) (c : Command) (q : List Command) :
    (∃ r, decide p (c :: q) = decide r q) ∨
      ∃ v r, decide p (c :: q) = (v, r, q) ∧ (v = .proceed → c = .step ∨ c = .resume) := by
  cases p with
  | true =>
    cases c with
    | step => exact .inr ⟨.proceed, true, rfl, fun _ => .inl rfl⟩
    | resume => exact .inr ⟨.proceed, false, rfl, fun _ => .inr rfl⟩
    | pause => exact .inl ⟨true, rfl⟩
    | abort => exact .inr ⟨.abort, true, rfl, nofun⟩
  | false =>
    cases c with
    | step | resume => exact .inl ⟨false, rfl⟩
    | pause => exact .inl ⟨true, rfl⟩
    | abort => exact .inr ⟨.abort, false, rfl, nofun⟩

/-- **A queue that has run dry** aborts a paused stepper and never stops a running one. -/
theorem checkpoints_dry (p closed : Bool) (n : Nat) : checkpoints n ⟨p, [], closed⟩ =
    (List.replicate n (if p then .abort else .proceed), ⟨p, [], closed⟩) := by
  have once : decide p [] = (if p then .abort else .proceed, p, []) := by cases p <;> rfl
  induction n with
  | zero => rfl
  | succ n ih =>
    simp only [checkpoints, checkpoint_eq closed once, ih, List.replicate_succ]

/-- A queue with which the first checkpoint ends as with another serves like that one. -/
theorem Serves.of_decide_eq {p₂ : Bool} {q₂ : List Command} (hvs : vs ≠ [])
    (he : decide p q = decide p₂ q₂) (h : Serves p₂ q₂ vs p' q') : Serves p q vs p' q' := by
  cases h with
  | nil => exact absurd rfl hvs
  | cons ha hs => exact .cons (answers_iff.2 (he.trans ha.decide_eq)) hs

/-- **Each abort is answered**, after no more statements than there are steps and resumes before it. -/
theorem abort_answered (p : Bool) (before after : List Command) :
    ∃ vs p', Serves p (before ++ .abort :: after) (vs ++ [.abort]) p' after ∧
      vs.count .proceed ≤ before.countP fun c => c = .step ∨ c = .resume := by
  induction before generalizing p with
  | nil =>
    refine ⟨[], p, .cons (answers_iff.2 ?_) .nil, Nat.le_refl _⟩
    cases p <;> rfl
  | cons c before ih =>
    have fewer : before.countP (fun c => c = .step ∨ c = .resume) ≤
        (c :: before).countP fun c => c = .step ∨ c = .resume :=
      (List.sublist_cons_self c before).countP_le
    obtain ⟨r, he⟩ | ⟨v, r, he, hv⟩ := decide_cons p c (before ++ .abort :: after) <;>
      obtain ⟨vs, p', hs, hle⟩ := ih r
    · -- the checkpoint goes on behind the command
      exact ⟨vs, p', hs.of_decide_eq (by simp) he, Nat.le_trans hle fewer⟩
    · -- the checkpoint ends with the command, and the next one starts behind it
      refine ⟨v :: vs, p', .cons (answers_iff.2 he) hs, ?_⟩
      cases v with
      | proceed => simpa [hv rfl] using hle
      | abort =>
        rw [List.count_cons_of_ne (by decide)]
        exact Nat.le_trans hle fewer

/-- **No command is lost.**  Any number of checkpoints give the verdicts of the automaton and leave the
queue that it leaves, from every mode and every queue.  Each abort in a queue is answered, after no more
statements than there are steps and resumes before it.  A queue that has run dry aborts a paused stepper at
every checkpoint and never stops a running one. -/
theorem no_command_lost :
    (∀ (p : Bool) (q : List Command) (n : Nat),
      ∃ vs p' q', checkpoints n ⟨p, q, true⟩ = (vs, ⟨p', q', true⟩) ∧
        ∀ us r u, us.length = n ∧ Serves p q us r u ↔ us = vs ∧ r = p' ∧ u = q') ∧
    (∀ (p : Bool) (before after : List Command),
      ∃ vs p', checkpoints (vs.length + 1) ⟨p, before ++ .abort :: after, true⟩ =
          (vs ++ [.abort], ⟨p', after, true⟩) ∧
        vs.count .proceed ≤ before.countP fun c => c = .step ∨ c = .resume) ∧
    ∀ (p : Bool) (n : Nat), checkpoints n ⟨p, [], true⟩ =
      (List.replicate n (if p then .abort else .proceed), ⟨p, [], true⟩) := by
  refine ⟨fun p q n => ?automaton, fun p before after => ?aborts, fun p n => checkpoints_dry p true n⟩
  case automaton =>
    obtain ⟨vs, p', q', rfl, hs⟩ := exists_serves p q n
    have hrun := hs.checkpoints_eq true
    refine ⟨vs, p', q', hrun, fun us r u => ?_⟩
    rw [serves_iff true, hrun]
    grind
  case aborts =>
    obtain ⟨vs, p', hs, hle⟩ := abort_answered p before after
    refine ⟨vs, p', ?_, hle⟩
    simpa using hs.checkpoints_eq true

/-- Running, the second step is ignored. -/
example : checkpoints 4 ⟨true, [.pause, .step, .resume, .step, .pause, .abort], true⟩ =
    ([.proceed, .proceed, .abort, .abort], ⟨true, [], true⟩) := by decide

end MiniC.Stepper
