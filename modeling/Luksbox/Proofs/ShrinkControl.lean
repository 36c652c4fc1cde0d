import Mathlib.Data.List.Induction
import Luksbox.Model.ShrinkControl

/-!
# A finish does as it is told

What `finish` decides is read off the calls that went before, in whatever order
they came (`Asked`): while it waits, its question can be seen and the last answer
counts; with no answer it keeps the space once the time is up; and no answer to
one question is ever taken for an answer to the next.
-/

namespace Luksbox.ShrinkControl

variable {latest : Nat} {x x₀ : Session} {acts since : List Action} {a : Action} {r d : Nat}
  {l : Option Bool}

/-! ## What was said -/

/-- The last answer, after one more step. -/
def heard (l : Option Bool) : Action → Option Bool
  | .answer giveBack => some giveBack
  | _ => l

/-- The last answer among these steps. -/
def lastAnswer (since : List Action) : Option Bool := since.foldl heard none

/-- A wait that the steps do not end: each time `ask` has the lock there is
still no answer, and still time. -/
def Lasts (d : Nat) : Option Bool → List Action → Prop
  | _, [] => True
  | l, .wake now :: rest => l = none ∧ now < d ∧ Lasts d l rest
  | l, a :: rest => Lasts d (heard l a) rest

theorem lasts_append : Lasts d l (since ++ [a]) ↔
    Lasts d l since ∧ ∀ now, a = .wake now → since.foldl heard l = none ∧ now < d := by
  induction since generalizing l with
  | nil =>
      cases a with
      | wake now =>
          constructor
          · rintro ⟨hl, hnow, -⟩
            refine ⟨trivial, fun t ht => ?_⟩
            cases ht
            exact ⟨hl, hnow⟩
          · rintro ⟨-, h⟩
            exact ⟨(h now rfl).1, (h now rfl).2, trivial⟩
      | _ => exact ⟨fun _ => ⟨trivial, nofun⟩, fun _ => trivial⟩
  | cons z since ih =>
      cases z with
      | wake now =>
          constructor
          · rintro ⟨hl, hnow, hrest⟩
            obtain ⟨hsince, ha⟩ := ih.mp hrest
            exact ⟨⟨hl, hnow, hsince⟩, ha⟩
          · rintro ⟨⟨hl, hnow, hsince⟩, ha⟩
            exact ⟨hl, hnow, ih.mpr ⟨hsince, ha⟩⟩
      | _ => exact ih

/-- The step puts a question. -/
def Asks (x : Session) (a : Action) : Prop :=
  ∃ atLeast r now later, a = .report r now later ∧ x.phase = .reporting atLeast ∧ max atLeast 1 ≤ r

/-- None of these steps puts a question. -/
def Quiet (latest : Nat) : Session → List Action → Prop
  | _, [] => True
  | x, a :: rest => ¬ Asks x a ∧ Quiet latest (step latest x a).1 rest

/-- `finish` has asked about `r` bytes, waits until `d`, and these steps came
since. -/
def Asked (latest : Nat) (x₀ : Session) (acts : List Action) (r d : Nat) (since : List Action) :
    Prop :=
  ∃ before atLeast now later, acts = before ++ .report r now later :: since ∧
    (run latest x₀ before).phase = .reporting atLeast ∧ max atLeast 1 ≤ r ∧
    d = now + (run latest x₀ before).state.answerTimeout ∧ d ≤ latest ∧ later < d ∧
    Lasts d none since

/-- `finish` has asked about `r` bytes and died, its deadline being past the last
instant; these steps came since, and none of them asked again. -/
def Left (latest : Nat) (x₀ : Session) (acts : List Action) (r : Nat) (since : List Action) :
    Prop :=
  ∃ before atLeast now later, acts = before ++ .report r now later :: since ∧
    (run latest x₀ before).phase = .reporting atLeast ∧ max atLeast 1 ≤ r ∧
    latest < now + (run latest x₀ before).state.answerTimeout ∧
    Quiet latest (run latest x₀ (before ++ [.report r now later])) since

/-! ## What is waiting -/

theorem run_append {more : List Action} :
    run latest x (acts ++ more) = run latest (run latest x acts) more :=
  List.foldl_append

theorem quiet_append : Quiet latest x (since ++ [a]) ↔
    Quiet latest x since ∧ ¬ Asks (run latest x since) a := by
  induction since generalizing x with
  | nil => exact ⟨fun h => ⟨trivial, h.1⟩, fun h => ⟨h.2, trivial⟩⟩
  | cons z since ih =>
      constructor
      · rintro ⟨hz, hrest⟩
        obtain ⟨hsince, ha⟩ := ih.mp hrest
        exact ⟨⟨hz, hsince⟩, ha⟩
      · rintro ⟨⟨hz, hsince⟩, ha⟩
        exact ⟨hz, ih.mpr ⟨hsince, ha⟩⟩

/-- A session in which `ask` waits. -/
structure Waits (x : Session) (r d : Nat) (l : Option Bool) : Prop where
  phase : x.phase = .waiting d
  question : x.state.question = some r
  answer : x.state.answer = l

theorem Waits.step_eq (h : Waits x r d l) (hlast : Lasts d l [a]) :
    Waits (step latest x a).1 r d (heard l a) := by
  obtain ⟨hphase, hquestion, hanswer⟩ := h
  cases a with
  | answer giveBack =>
      refine ⟨hphase, ?_, ?_⟩
      · show (x.state.answered giveBack).question = some r
        unfold ShrinkState.answered
        rw [hquestion]
        rfl
      · show (x.state.answered giveBack).answer = some giveBack
        unfold ShrinkState.answered
        rw [hquestion]
        rfl
  | wake now =>
      obtain ⟨hl, hnow, -⟩ := hlast
      have hon : x.state.waitsOn d now = true := by
        unfold ShrinkState.waitsOn
        rw [hanswer, hl, decide_eq_true hnow]
        rfl
      unfold step
      rw [hphase]
      dsimp only
      unfold poll
      rw [if_pos hon]
      exact ⟨rfl, hquestion, hanswer⟩
  | finish =>
      unfold step
      rw [hphase]
      exact ⟨hphase, hquestion, hanswer⟩
  | report reclaimable now later =>
      unfold step
      rw [hphase]
      exact ⟨hphase, hquestion, hanswer⟩
  | reportFailed =>
      unfold step
      rw [hphase]
      exact ⟨hphase, hquestion, hanswer⟩
  | setMode mode => exact ⟨hphase, hquestion, hanswer⟩
  | setAnswerTimeout timeout => exact ⟨hphase, hquestion, hanswer⟩
  | question => exact ⟨hphase, hquestion, hanswer⟩

theorem Waits.run (h : Waits x r d l) (hlast : Lasts d l since) :
    Waits (run latest x since) r d (since.foldl heard l) := by
  induction since generalizing x l with
  | nil => exact h
  | cons a since ih =>
      cases a with
      | wake now => exact ih (h.step_eq ⟨hlast.1, hlast.2.1, trivial⟩) hlast.2.2
      | _ => exact ih (h.step_eq trivial) hlast

/-- The step that puts the question. -/
theorem waits_published {atLeast now later : Nat} (hphase : x.phase = .reporting atLeast)
    (hr : max atLeast 1 ≤ r) (hd : d = now + x.state.answerTimeout) (hlast : d ≤ latest) (hlater : later < d) :
    Waits (step latest x (.report r now later)).1 r d none := by
  have hon : (x.state.publish r).waitsOn (now + x.state.answerTimeout) later = true := by
    unfold ShrinkState.waitsOn
    rw [decide_eq_true (hd ▸ hlater)]
    rfl
  unfold step
  rw [hphase]
  dsimp only
  rw [if_pos hr, if_neg (hd ▸ Nat.not_lt.mpr hlast)]
  unfold poll
  rw [if_pos hon]
  exact ⟨by rw [hd], rfl, rfl⟩

theorem Asked.waits (h : Asked latest x₀ acts r d since) : Waits (run latest x₀ acts) r d (lastAnswer since) := by
  obtain ⟨before, atLeast, now, later, rfl, hphase, hr, hd, hlatest, hlater, hlast⟩ := h
  rw [run_append]
  exact (waits_published hphase hr hd hlatest hlater).run hlast

/-! ## What a run leads to -/

/-- No `ask` waits. -/
def Rests (x : Session) : Prop := x.phase = .idle ∨ ∃ n, x.phase = .reporting n

/-- A session in which nothing is asked. -/
structure Still (x : Session) : Prop where
  rests : Rests x
  question : x.state.question = none
  answer : x.state.answer = none

/-- The loop of `ask` waits on, or the question is gone. -/
theorem poll_cases {s : ShrinkState} {now : Nat} :
    (s.answer = none ∧ now < d ∧ poll s d now = (⟨s, .waiting d⟩, none)) ∨
      (Still (poll s d now).1 ∧ (poll s d now).2 = some (s.answer.getD false) ∧
        (s.answer = none → d ≤ now)) := by
  cases hon : s.waitsOn d now with
  | true =>
      have hboth := hon
      unfold ShrinkState.waitsOn at hboth
      obtain ⟨hnone, hnow⟩ := Bool.and_eq_true_iff.mp hboth
      refine .inl ⟨Option.isNone_iff_eq_none.mp hnone, of_decide_eq_true hnow, ?_⟩
      unfold poll
      rw [if_pos hon]
  | false =>
      have hpoll : poll s d now = (⟨s.settle.1, .idle⟩, some s.settle.2) := by
        unfold poll
        rw [hon]
        rfl
      rw [hpoll]
      refine .inr ⟨⟨.inl rfl, rfl, rfl⟩, rfl, fun hnone => ?_⟩
      unfold ShrinkState.waitsOn at hon
      rw [hnone] at hon
      have hlate : ¬ now < d := of_decide_eq_false hon
      exact Nat.le_of_not_lt hlate

/-- Where no `ask` waits, only a step that asks does something about the question. -/
theorem Rests.step (h : Rests x) (hquiet : ¬ Asks x a) :
    Rests (step latest x a).1 ∧
      (step latest x a).1.state.question = x.state.question ∧
      (x.state.question = none → (step latest x a).1.state.answer = x.state.answer) := by
  cases a with
  | setMode mode => exact ⟨h, rfl, fun _ => rfl⟩
  | setAnswerTimeout timeout => exact ⟨h, rfl, fun _ => rfl⟩
  | question => exact ⟨h, rfl, fun _ => rfl⟩
  | answer giveBack =>
      refine ⟨h, ?_, fun hnone => ?_⟩
      · show (x.state.answered giveBack).question = x.state.question
        unfold ShrinkState.answered
        split
        · rfl
        · rfl
      · show (x.state.answered giveBack).answer = x.state.answer
        unfold ShrinkState.answered
        rw [hnone]
        rfl
  | finish =>
      unfold ShrinkControl.step
      rcases h with hphase | ⟨n, hphase⟩
      · rw [hphase]
        cases x.state.mode with
        | keep => exact ⟨.inl hphase, rfl, fun _ => rfl⟩
        | giveBack => exact ⟨.inl hphase, rfl, fun _ => rfl⟩
        | ask atLeast => exact ⟨.inr ⟨atLeast, rfl⟩, rfl, fun _ => rfl⟩
      · rw [hphase]
        exact ⟨.inr ⟨n, hphase⟩, rfl, fun _ => rfl⟩
  | report reclaimable now later =>
      unfold ShrinkControl.step
      rcases h with hphase | ⟨n, hphase⟩
      · rw [hphase]
        exact ⟨.inl hphase, rfl, fun _ => rfl⟩
      · have hr : ¬ reclaimable ≥ max n 1 :=
          fun hr => hquiet ⟨n, reclaimable, now, later, rfl, hphase, hr⟩
        rw [hphase]
        dsimp only
        rw [if_neg hr]
        exact ⟨.inl rfl, rfl, fun _ => rfl⟩
  | reportFailed =>
      unfold ShrinkControl.step
      rcases h with hphase | ⟨n, hphase⟩
      · rw [hphase]
        exact ⟨.inl hphase, rfl, fun _ => rfl⟩
      · rw [hphase]
        exact ⟨.inl rfl, rfl, fun _ => rfl⟩
  | wake now =>
      unfold ShrinkControl.step
      rcases h with hphase | ⟨n, hphase⟩
      · rw [hphase]
        exact ⟨.inl hphase, rfl, fun _ => rfl⟩
      · rw [hphase]
        exact ⟨.inr ⟨n, hphase⟩, rfl, fun _ => rfl⟩

/-- The step that puts the question, where the deadline is past the last instant. -/
theorem left_published {atLeast now later : Nat} (hphase : x.phase = .reporting atLeast)
    (hr : max atLeast 1 ≤ r) (hlatest : latest < now + x.state.answerTimeout) :
    Rests (step latest x (.report r now later)).1
      ∧ (step latest x (.report r now later)).1.state.question = some r := by
  unfold step
  rw [hphase]
  dsimp only
  rw [if_pos hr, if_pos hlatest]
  exact ⟨.inl rfl, rfl⟩

theorem Rests.run (h : Rests x) (hquiet : Quiet latest x since) :
    Rests (run latest x since) ∧ (run latest x since).state.question = x.state.question := by
  induction since generalizing x with
  | nil => exact ⟨h, rfl⟩
  | cons a since ih =>
      obtain ⟨hstep, hquestion, -⟩ := @Rests.step latest x a h hquiet.1
      obtain ⟨hrests, hkept⟩ := ih hstep hquiet.2
      exact ⟨hrests, hkept.trans hquestion⟩

theorem Left.rests (h : Left latest x₀ acts r since) :
    Rests (run latest x₀ acts) ∧ (run latest x₀ acts).state.question = some r := by
  obtain ⟨before, atLeast, now, later, rfl, hphase, hr, hlatest, hquiet⟩ := h
  obtain ⟨hrests, hquestion⟩ := @left_published latest _ r atLeast now later hphase hr hlatest
  rw [run_append] at hquiet ⊢
  obtain ⟨hrests', hkept⟩ := Rests.run hrests hquiet
  exact ⟨hrests', hkept.trans hquestion⟩

/-- A step that asks leaves the question for its wait, leaves it for good or
takes it back at once. -/
theorem asks_cases (hasks : Asks (run latest x₀ acts) a) :
    Still (step latest (run latest x₀ acts) a).1
      ∨ (∃ r, Left latest x₀ (acts ++ [a]) r [])
      ∨ ∃ r d, Asked latest x₀ (acts ++ [a]) r d [] := by
  obtain ⟨atLeast, r, now, later, rfl, hphase, hr⟩ := hasks
  by_cases hlatest : latest < now + (run latest x₀ acts).state.answerTimeout
  · exact .inr (.inl ⟨r, acts, atLeast, now, later, rfl, hphase, hr, hlatest, trivial⟩)
  · rcases @poll_cases (now + (run latest x₀ acts).state.answerTimeout)
      ((run latest x₀ acts).state.publish r) later with ⟨-, hlater, -⟩ | ⟨hstill, -, -⟩
    · exact .inr (.inr ⟨r, _, acts, atLeast, now, later, rfl, hphase, hr, rfl,
        Nat.le_of_not_lt hlatest, hlater, trivial⟩)
    · refine .inl ?_
      unfold step
      rw [hphase]
      dsimp only
      rw [if_pos hr, if_neg hlatest]
      exact hstill

theorem Asked.step_cases (h : Asked latest x₀ acts r d since) :
    Asked latest x₀ (acts ++ [a]) r d (since ++ [a]) ∨ Still (step latest (run latest x₀ acts) a).1 := by
  have hwaits := h.waits
  obtain ⟨before, atLeast, now, later, rfl, hphase, hr, hd, hlatest, hlater, hlast⟩ := h
  have hon : Lasts d none (since ++ [a]) →
      Asked latest x₀ (before ++ .report r now later :: since ++ [a]) r d (since ++ [a]) := by
    intro hlasts
    refine ⟨before, atLeast, now, later, ?_, hphase, hr, hd, hlatest, hlater, hlasts⟩
    rw [List.append_assoc]
    rfl
  cases a with
  | wake t =>
      rcases @poll_cases d (run latest x₀ (before ++ .report r now later :: since)).state t with
        ⟨hnone, ht, -⟩ | ⟨hstill, -, -⟩
      · refine .inl (hon (lasts_append.mpr ⟨hlast, fun t' ht' => ?_⟩))
        cases ht'
        exact ⟨hwaits.answer.symm.trans hnone, ht⟩
      · refine .inr ?_
        unfold step
        rw [hwaits.phase]
        exact hstill
  | _ => exact .inl (hon (lasts_append.mpr ⟨hlast, nofun⟩))

theorem Left.step_cases (h : Left latest x₀ acts r since)
    (hquiet : ¬ Asks (run latest x₀ acts) a) : Left latest x₀ (acts ++ [a]) r (since ++ [a]) := by
  obtain ⟨before, atLeast, now, later, rfl, hphase, hr, hlatest, hsince⟩ := h
  refine ⟨before, atLeast, now, later, ?_, hphase, hr, hlatest, quiet_append.mpr ⟨hsince, ?_⟩⟩
  · rw [List.append_assoc]
    rfl
  · rw [← run_append, List.append_assoc]
    exact hquiet

theorem run_cases (h : Still x₀) :
    Still (run latest x₀ acts) ∨ (∃ r since, Left latest x₀ acts r since)
      ∨ ∃ r d since, Asked latest x₀ acts r d since := by
  induction acts using List.reverseRecOn with
  | nil => exact .inl h
  | append_singleton acts a ih =>
      rw [run_append]
      by_cases hasks : Asks (run latest x₀ acts) a
      · rcases asks_cases hasks with hstill | ⟨r, hleft⟩ | ⟨r, d, hasked⟩
        · exact .inl hstill
        · exact .inr (.inl ⟨r, [], hleft⟩)
        · exact .inr (.inr ⟨r, d, [], hasked⟩)
      · rcases ih with hstill | ⟨r, since, hleft⟩ | ⟨r, d, since, hasked⟩
        · obtain ⟨hrests, hquestion, hanswer⟩ := @Rests.step latest _ a hstill.rests hasks
          exact .inl ⟨hrests, hquestion.trans hstill.question,
            (hanswer hstill.question).trans hstill.answer⟩
        · exact .inr (.inl ⟨r, _, hleft.step_cases hasks⟩)
        · rcases @Asked.step_cases latest x₀ acts since a r d hasked with hasked' | hstill
          · exact .inr (.inr ⟨r, d, since ++ [a], hasked'⟩)
          · exact .inl hstill

theorem poll_not_reporting {s : ShrinkState} {now n : Nat} :
    (poll s d now).1.phase ≠ .reporting n := by
  unfold poll
  split
  · exact nofun
  · exact nofun

/-- A report goes on, or begins with a `finish` that is told to ask. -/
theorem reporting_step {n : Nat} (h : (step latest x a).1.phase = .reporting n) :
    x.phase = .reporting n ∨ (a = .finish ∧ x.state.mode = .ask n) := by
  cases a with
  | finish =>
      unfold step at h
      cases hphase : x.phase with
      | idle =>
          rw [hphase] at h
          cases hmode : x.state.mode with
          | keep =>
              rw [hmode] at h
              exact absurd (hphase.symm.trans h) nofun
          | giveBack =>
              rw [hmode] at h
              exact absurd (hphase.symm.trans h) nofun
          | ask atLeast =>
              rw [hmode] at h
              cases h
              exact .inr ⟨rfl, rfl⟩
      | reporting atLeast =>
          rw [hphase] at h
          exact .inl (hphase.symm.trans h)
      | waiting deadline =>
          rw [hphase] at h
          exact .inl (hphase.symm.trans h)
  | report reclaimable now later =>
      unfold step at h
      cases hphase : x.phase with
      | reporting atLeast =>
          rw [hphase] at h
          dsimp only at h
          split at h
          · split at h
            · cases h
            · exact absurd h poll_not_reporting
          · cases h
      | idle =>
          rw [hphase] at h
          exact .inl (hphase.symm.trans h)
      | waiting deadline =>
          rw [hphase] at h
          exact .inl (hphase.symm.trans h)
  | reportFailed =>
      unfold step at h
      cases hphase : x.phase with
      | reporting atLeast =>
          rw [hphase] at h
          cases h
      | idle =>
          rw [hphase] at h
          exact .inl (hphase.symm.trans h)
      | waiting deadline =>
          rw [hphase] at h
          exact .inl (hphase.symm.trans h)
  | wake now =>
      unfold step at h
      cases hphase : x.phase with
      | waiting deadline =>
          rw [hphase] at h
          exact absurd h poll_not_reporting
      | idle =>
          rw [hphase] at h
          exact .inl (hphase.symm.trans h)
      | reporting atLeast =>
          rw [hphase] at h
          exact .inl (hphase.symm.trans h)
  | setMode mode => exact .inl h
  | setAnswerTimeout timeout => exact .inl h
  | question => exact .inl h
  | answer giveBack => exact .inl h

theorem reporting_mode (hidle : x₀.phase = .idle) {n : Nat}
    (h : (run latest x₀ acts).phase = .reporting n) :
    ∃ before since, acts = before ++ .finish :: since ∧ (run latest x₀ before).state.mode = .ask n := by
  induction acts using List.reverseRecOn with
  | nil => exact absurd (hidle.symm.trans h) nofun
  | append_singleton acts a ih =>
      rw [run_append] at h
      rcases reporting_step h with hphase | ⟨rfl, hmode⟩
      · obtain ⟨before, since, rfl, hmode⟩ := ih hphase
        exact ⟨before, since ++ [a], by rw [List.append_assoc]; rfl, hmode⟩
      · exact ⟨acts, [], rfl, hmode⟩

/-! ## What `finish` decides -/

theorem wake_of_rests (h : Rests x) {now : Nat} : (step latest x (.wake now)).2 = none := by
  unfold step
  rcases h with hphase | ⟨n, hphase⟩
  · rw [hphase]
  · rw [hphase]

theorem wake_iff (h : Still x₀) {now : Nat} {b : Bool} :
    (step latest (run latest x₀ acts) (.wake now)).2 = some b ↔ ∃ r d since, Asked latest x₀ acts r d since ∧
      (lastAnswer since = some b ∨ (lastAnswer since = none ∧ d ≤ now ∧ b = false)) := by
  have hwake : ∀ {r d since}, Asked latest x₀ acts r d since → (step latest (run latest x₀ acts) (.wake now)).2 =
      (poll (run latest x₀ acts).state d now).2 := by
    intro r d since hasked
    unfold step
    rw [hasked.waits.phase]
  constructor
  · intro hb
    rcases @run_cases latest x₀ acts h with hstill | ⟨r, since, hleft⟩ | ⟨r, d, since, hasked⟩
    · rw [wake_of_rests hstill.rests] at hb
      cases hb
    · rw [wake_of_rests hleft.rests.1] at hb
      cases hb
    · refine ⟨r, d, since, hasked, ?_⟩
      rw [hwake hasked] at hb
      rcases @poll_cases d (run latest x₀ acts).state now with ⟨-, -, hpoll⟩ | ⟨-, hpoll, hlate⟩
      · rw [hpoll] at hb
        cases hb
      · rw [hpoll] at hb
        rw [hasked.waits.answer] at hb hlate
        cases hlast : lastAnswer since with
        | none =>
            rw [hlast] at hb
            exact .inr ⟨rfl, hlate hlast, (Option.some.inj hb).symm⟩
        | some c =>
            rw [hlast] at hb
            exact .inl hb
  · rintro ⟨r, d, since, hasked, hsaid⟩
    rw [hwake hasked]
    have hanswer := hasked.waits.answer
    rcases @poll_cases d (run latest x₀ acts).state now with ⟨hnone, hnow, -⟩ | ⟨-, hpoll, -⟩
    · rw [hanswer] at hnone
      rcases hsaid with hsaid | ⟨-, hlate, -⟩
      · exact absurd (hnone.symm.trans hsaid) nofun
      · exact absurd hnow (Nat.not_lt.mpr hlate)
    · rw [hpoll, hanswer]
      rcases hsaid with hsaid | ⟨hsaid, -, rfl⟩
      · rw [hsaid]
        rfl
      · rw [hsaid]
        rfl

/-- No report gives the space back: the question comes first. -/
theorem report_not_true {reclaimable now later : Nat} :
    (step latest x (.report reclaimable now later)).2 ≠ some true := by
  unfold step
  cases x.phase with
  | idle => exact nofun
  | waiting deadline => exact nofun
  | reporting atLeast =>
      dsimp only
      split
      · split
        · exact nofun
        · unfold poll
          split
          · exact nofun
          · exact nofun
      · exact nofun

theorem decided_true (hb : (step latest (run latest x₀ acts) a).2 = some true) :
    (a = .finish ∧ (run latest x₀ acts).state.mode = .giveBack) ∨ ∃ now, a = .wake now := by
  cases a with
  | finish =>
      unfold step at hb
      cases hphase : (run latest x₀ acts).phase with
      | idle =>
          rw [hphase] at hb
          cases hmode : (run latest x₀ acts).state.mode with
          | keep =>
              rw [hmode] at hb
              cases hb
          | giveBack => exact .inl ⟨rfl, rfl⟩
          | ask atLeast =>
              rw [hmode] at hb
              cases hb
      | reporting atLeast =>
          rw [hphase] at hb
          cases hb
      | waiting deadline =>
          rw [hphase] at hb
          cases hb
  | report reclaimable now later => exact absurd hb report_not_true
  | reportFailed =>
      unfold step at hb
      cases hphase : (run latest x₀ acts).phase with
      | idle =>
          rw [hphase] at hb
          cases hb
      | reporting atLeast =>
          rw [hphase] at hb
          cases hb
      | waiting deadline =>
          rw [hphase] at hb
          cases hb
  | wake now => exact .inr ⟨now, rfl⟩
  | setMode mode => cases hb
  | setAnswerTimeout timeout => cases hb
  | question => cases hb
  | answer giveBack => cases hb

/-- Whatever the order of the calls, the question can be seen exactly while
`finish` waits for the answer, or after one died asking it; the wait ends with the last answer given in it, or
with none when the time is up; and the space goes back only where the mode says
so or, for a `finish` that was told to ask, that answer was yes. -/
theorem finish_does_as_told (hidle : x₀.phase = .idle) (hq : x₀.state.question = none)
    (ha : x₀.state.answer = none) :
    (∀ r, (run latest x₀ acts).state.question = some r ↔
        (∃ d since, Asked latest x₀ acts r d since) ∨ ∃ since, Left latest x₀ acts r since) ∧
      (∀ now b, (step latest (run latest x₀ acts) (.wake now)).2 = some b ↔ ∃ r d since,
        Asked latest x₀ acts r d since ∧
          (lastAnswer since = some b ∨ (lastAnswer since = none ∧ d ≤ now ∧ b = false))) ∧
      ∀ a, (step latest (run latest x₀ acts) a).2 = some true →
        (a = .finish ∧ (run latest x₀ acts).state.mode = .giveBack) ∨
          ∃ before told atLeast r d since now, acts = before ++ .finish :: told ∧
            (run latest x₀ before).state.mode = .ask atLeast ∧ atLeast ≤ r ∧ a = .wake now ∧
            Asked latest x₀ acts r d since ∧ lastAnswer since = some true := by
  have h : Still x₀ := ⟨.inl hidle, hq, ha⟩
  refine ⟨fun r => ⟨fun hr => ?_, ?_⟩, fun now b => wake_iff h, fun a hb => ?_⟩
  · rcases @run_cases latest x₀ acts h with hstill | ⟨r', since, hleft⟩ | ⟨r', d, since, hasked⟩
    · rw [hstill.question] at hr
      cases hr
    · rw [hleft.rests.2] at hr
      cases hr
      exact .inr ⟨since, hleft⟩
    · rw [hasked.waits.question] at hr
      cases hr
      exact .inl ⟨d, since, hasked⟩
  · rintro (⟨d, since, hasked⟩ | ⟨since, hleft⟩)
    · exact hasked.waits.question
    · exact hleft.rests.2
  · rcases decided_true hb with hmode | ⟨now, rfl⟩
    · exact .inl hmode
    · obtain ⟨r, d, since, hasked, hsaid⟩ := (wake_iff h).mp hb
      have hyes : lastAnswer since = some true := by
        rcases hsaid with hsaid | ⟨-, -, hfalse⟩
        · exact hsaid
        · cases hfalse
      have hcopy := hasked
      obtain ⟨before, atLeast, t, later, hacts, hphase, hr, -⟩ := hcopy
      obtain ⟨first, told, hbefore, hmode⟩ := reporting_mode hidle hphase
      refine .inr ⟨first, told ++ .report r t later :: since, atLeast, r, d, since, now, ?_, hmode,
        le_trans (le_max_left _ _) hr, rfl, hasked, hyes⟩
      rw [hacts, hbefore, List.append_assoc]
      rfl

/-- A session as it is when a vault is opened. -/
def opened : Session := ⟨.default, .idle⟩

/-- An answer to no question, a wait that ends for nothing, a no and then a
yes. -/
def changedMind : List Action :=
  [ .setMode (.ask 5), .answer false, .finish, .report 10 0 0, .wake 3, .answer false, .answer true ]

/-- A finish that dies asking, and one after it that is answered. -/
def askedTwice : List Action :=
  [ .setAnswerTimeout 1000, .setMode (.ask 5), .finish, .report 9 1 1, .answer true,
    .setAnswerTimeout 120, .finish, .report 10 3 3, .wake 4, .answer false, .answer true ]

theorem finish_does_as_told_yes :
    ((∃ d since, Asked 1000 opened changedMind 10 d since)
        ∨ ∃ since, Left 1000 opened changedMind 10 since)
      ∧ (∃ r d since, Asked 1000 opened askedTwice r d since ∧ (lastAnswer since = some true ∨
        (lastAnswer since = none ∧ d ≤ 5 ∧ true = false)))
      ∧ ((∃ d since, Asked 1000 opened (askedTwice.take 6) 9 d since)
        ∨ ∃ since, Left 1000 opened (askedTwice.take 6) 9 since) :=
  ⟨((@finish_does_as_told 1000 opened changedMind rfl rfl rfl).1 10).mp (by decide),
    ((@finish_does_as_told 1000 opened askedTwice rfl rfl rfl).2.1 5 true).mp (by decide),
    ((@finish_does_as_told 1000 opened (askedTwice.take 6) rfl rfl rfl).1 9).mp (by decide)⟩

end Luksbox.ShrinkControl
