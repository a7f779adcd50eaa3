import CilAudit.Watchdog
import Mathlib.Data.List.Induction

/-!
# When the watchdog ends the program

Announcements, shutdowns and looks of the monitor exclude each other and come in any order. What
the monitor decides is told from the history alone: the announcement in force is the last one made
before a shutdown or a decision, and the program is ended by a look that comes at least one timeout
after it. The state of the watchdog enters only through what one step does to it.
-/

set_option autoImplicit false

namespace CilAudit.Watchdog

/-! ## One step -/

section Step

variable {w : Watchdog} {s : Step}

theorem step_decides_iff {name : Text} :
    (w.step s).2 = some name ↔
      w.isRunning = true ∧ w.isWatching = true ∧ w.name = name ∧ ∃ t, s = .look t ∧ w.deadline ≤ t := by
  cases s with
  | announce other clock =>
    simp only [step]
    split <;> simp
  | shutdown => simp [step]
  | look clock =>
    simp only [step]
    split
    · simp_all
    · split
      · simp_all
      · split <;> simp_all

/-- Only a shutdown and a decision stop a running watchdog, and nothing starts a stopped one. -/
theorem isRunning_step_iff :
    (w.step s).1.isRunning = true ↔ w.isRunning = true ∧ s ≠ .shutdown ∧ (w.step s).2 = none := by
  cases s with
  | announce name clock =>
    simp only [step]
    split <;> simp_all
  | shutdown => simp [step]
  | look clock =>
    simp only [step]
    split
    · simp
    · split
      · simp_all
      · split <;> simp_all

theorem timeout_step : (w.step s).1.timeout = w.timeout := by
  fun_cases step w s <;> rfl

theorem step_announce (running : w.isRunning = true) (name : Text) (clock : Int) :
    (w.step (.announce name clock)).1.name = name ∧
      (w.step (.announce name clock)).1.deadline = clock + w.timeout.nanoseconds := by
  simp [step, running]

theorem step_announce_stopped (stopped : w.isRunning = false) (name : Text) (clock : Int) :
    w.step (.announce name clock) = (w, none) := by
  simp [step, stopped]

/-- The name and the deadline change by nothing but an announcement while the watchdog runs. -/
theorem step_keeps (idle : ∀ name t, s = .announce name t → w.isRunning = false) :
    (w.step s).1.name = w.name ∧ (w.step s).1.deadline = w.deadline := by
  cases s with
  | announce name clock =>
    rw [step_announce_stopped (idle name clock rfl)]
    exact ⟨rfl, rfl⟩
  | shutdown => exact ⟨rfl, rfl⟩
  | look clock =>
    simp only [step]
    split
    · exact ⟨rfl, rfl⟩
    · split
      · exact ⟨rfl, rfl⟩
      · split <;> exact ⟨rfl, rfl⟩

/-- While the watchdog runs, its monitor watches. -/
theorem isWatching_step (inv : w.isRunning = true → w.isWatching = true) :
    (w.step s).1.isRunning = true → (w.step s).1.isWatching = true := by
  intro running
  have before := (isRunning_step_iff.1 running).1
  have watching := inv before
  cases s with
  | announce name clock => simpa [step, before] using watching
  | shutdown => exact watching
  | look clock =>
    simp only [step, watching, before, Bool.not_true, Bool.false_eq_true, if_false] at running ⊢
    split
    · simp_all
    · rfl

end Step

/-! ## Runs -/

section Run

variable {w : Watchdog}

theorem run_append (w : Watchdog) (steps more : List Step) :
    w.run (steps ++ more) =
      (((w.run steps).1.run more).1, (w.run steps).2 ++ ((w.run steps).1.run more).2) := by
  induction steps generalizing w with
  | nil => rfl
  | cons s rest ih => simp [run, ih]

theorem run_snoc (w : Watchdog) (steps : List Step) (s : Step) :
    w.run (steps ++ [s]) =
      (((w.run steps).1.step s).1, (w.run steps).2 ++ ((w.run steps).1.step s).2.toList) := by
  simp [run_append, run]

theorem timeout_run (steps : List Step) : (w.run steps).1.timeout = w.timeout := by
  induction steps using List.reverseRecOn with
  | nil => rfl
  | append_singleton steps s ih => rw [run_snoc, timeout_step, ih]

theorem isWatching_run (inv : w.isRunning = true → w.isWatching = true) (steps : List Step) :
    (w.run steps).1.isRunning = true → (w.run steps).1.isWatching = true := by
  induction steps using List.reverseRecOn with
  | nil => exact inv
  | append_singleton steps s ih =>
    rw [run_snoc]
    exact isWatching_step ih

/-- A stopped watchdog decides nothing and stays stopped. -/
theorem run_of_stopped (stopped : w.isRunning = false) (steps : List Step) :
    (w.run steps).2 = [] ∧ (w.run steps).1.isRunning = false := by
  induction steps generalizing w with
  | nil => exact ⟨rfl, stopped⟩
  | cons s rest ih =>
    have silent : (w.step s).2 = none := by
      refine Option.eq_none_iff_forall_ne_some.2 fun name decides => ?_
      have running := (step_decides_iff.1 decides).1
      rw [stopped] at running
      cases running
    have still : (w.step s).1.isRunning = false := by
      refine Bool.eq_false_iff.2 fun running => ?_
      have before := (isRunning_step_iff.1 running).1
      rw [stopped] at before
      cases before
    have onward := ih still
    simp only [run, silent, Option.toList_none, List.nil_append]
    exact onward

theorem length_decisions_le (steps : List Step) : (w.run steps).2.length ≤ 1 := by
  induction steps generalizing w with
  | nil => simp [run]
  | cons s rest ih =>
    cases decision : (w.step s).2 with
    | none => simpa [run, decision] using ih
    | some name =>
      have stopped : (w.step s).1.isRunning = false := by
        refine Bool.eq_false_iff.2 fun running => ?_
        have none := (isRunning_step_iff.1 running).2.2
        rw [decision] at none
        cases none
      simp [run, decision, (run_of_stopped stopped rest).1]

/-- Steps without an announcement to a running watchdog keep the name and the deadline. -/
theorem run_keeps {steps : List Step}
    (idle : ∀ before name t after, steps = before ++ .announce name t :: after →
      (w.run before).1.isRunning = false) :
    (w.run steps).1.name = w.name ∧ (w.run steps).1.deadline = w.deadline := by
  induction steps using List.reverseRecOn with
  | nil => exact ⟨rfl, rfl⟩
  | append_singleton steps s ih =>
    have kept := ih fun before name t after split =>
      idle before name t (after ++ [s]) (by simp [split])
    have last := step_keeps (w := (w.run steps).1) (s := s) fun name t eq =>
      idle steps name t [] (by rw [eq])
    rw [run_snoc]
    exact ⟨last.1.trans kept.1, last.2.trans kept.2⟩

end Run

/-! ## Histories -/

/-- Neither shut down nor decided yet. -/
def Active (w : Watchdog) (history : List Step) : Prop :=
  .shutdown ∉ history ∧ (w.run history).2 = []

/-- A piece of work, and the clock when it was announced. -/
structure Announcement where
  name : Text
  clock : Int

/-- The announcement that is in force after a history that began at `clock`: the last one that was
made while the watchdog was active or, if there is none, the beginning itself without a name. -/
inductive InForce (w : Watchdog) (clock : Int) (history : List Step) : Announcement → Prop where
  | beginning
      (never : ∀ before name t after, history = before ++ .announce name t :: after → ¬w.Active before) :
    InForce w clock history ⟨[], clock⟩
  | announced {a : Announcement} {before after : List Step}
      (made : history = before ++ .announce a.name a.clock :: after) (effective : w.Active before)
      (last : ∀ between name t rest, after = between ++ .announce name t :: rest →
        ¬w.Active (before ++ .announce a.name a.clock :: between)) :
    InForce w clock history a

section History

variable {timeout : Duration} {clock : Int} {history : List Step} {a : Announcement}

theorem active_iff {w : Watchdog} (running : w.isRunning = true) :
    w.Active history ↔ (w.run history).1.isRunning = true := by
  induction history using List.reverseRecOn with
  | nil => simp [Active, run, running]
  | append_singleton steps s ih =>
    rw [run_snoc, isRunning_step_iff, ← ih]
    simp only [Active, run_snoc, List.mem_append, List.mem_singleton, List.append_eq_nil_iff,
      Option.toList_eq_nil_iff, not_or]
    grind

theorem active_start_iff :
    (start timeout clock).Active history ↔ ((start timeout clock).run history).1.isRunning = true :=
  active_iff rfl

theorem isRunning_of_inactive (inactive : ¬(start timeout clock).Active history) :
    ((start timeout clock).run history).1.isRunning = false :=
  Bool.eq_false_iff.2 fun running => inactive (active_start_iff.2 running)

/-- The state holds what is in force. -/
theorem InForce.state (h : (start timeout clock).InForce clock history a) :
    ((start timeout clock).run history).1.name = a.name ∧
      ((start timeout clock).run history).1.deadline =
        a.clock + (effectiveTimeout timeout).nanoseconds := by
  cases h with
  | beginning never =>
    exact run_keeps fun before name t after split => isRunning_of_inactive (never before name t after split)
  | @announced _ before after made effective last =>
    have set := step_announce (active_start_iff.1 effective) a.name a.clock
    rw [timeout_run] at set
    have split : history = (before ++ [.announce a.name a.clock]) ++ after := by simp [made]
    have idle : ∀ between name t rest, after = between ++ .announce name t :: rest →
        (((start timeout clock).run (before ++ [.announce a.name a.clock])).1.run between).1.isRunning =
          false := by
      intro between name t rest eq
      have stopped := isRunning_of_inactive (last between name t rest eq)
      rwa [List.append_cons, run_append] at stopped
    have kept := run_keeps idle
    rw [split, run_append]
    rw [run_snoc] at kept ⊢
    exact ⟨kept.1.trans set.1, kept.2.trans set.2⟩

/-- After an announcement that took effect, some announcement is in force: either no later one took
effect, or the search goes on behind the later one. -/
theorem exists_inForce_of_announced {w : Watchdog} (n : Nat) :
    ∀ (a : Announcement) (before after : List Step), after.length ≤ n →
      history = before ++ .announce a.name a.clock :: after → w.Active before →
        ∃ b, w.InForce clock history b := by
  induction n with
  | zero =>
    intro a before after short made effective
    refine ⟨a, .announced made effective fun between name t rest split => ?_⟩
    simp [split] at short
  | succ n ih =>
    intro a before after short made effective
    by_cases later : ∃ between name t rest, after = between ++ .announce name t :: rest ∧
        w.Active (before ++ .announce a.name a.clock :: between)
    · obtain ⟨between, name, t, rest, rfl, active⟩ := later
      have shorter : rest.length ≤ n := by
        simp only [List.length_append, List.length_cons] at short
        omega
      exact ih ⟨name, t⟩ _ rest shorter (by simp [made]) active
    · refine ⟨a, .announced made effective fun between name t rest split active => ?_⟩
      exact later ⟨between, name, t, rest, split, active⟩

theorem exists_inForce (w : Watchdog) (clock : Int) (history : List Step) :
    ∃ a, w.InForce clock history a := by
  by_cases ever : ∃ before name t after, history = before ++ .announce name t :: after ∧ w.Active before
  · obtain ⟨before, name, t, after, made, active⟩ := ever
    exact exists_inForce_of_announced after.length ⟨name, t⟩ before after (Nat.le_refl _) made active
  · refine ⟨_, .beginning fun before name t after made active => ?_⟩
    exact ever ⟨before, name, t, after, made, active⟩

/-- The monitor decides exactly at the looks of an active watchdog that come one timeout or more
after the announcement in force, and the program ends with its name. -/
theorem decides_iff {s : Step} {name : Text} :
    (((start timeout clock).run history).1.step s).2 = some name ↔
      ∃ t a, s = .look t ∧ (start timeout clock).Active history ∧
        (start timeout clock).InForce clock history a ∧ a.name = name ∧
          a.clock + (effectiveTimeout timeout).nanoseconds ≤ t := by
  rw [step_decides_iff]
  constructor
  · rintro ⟨running, -, named, t, rfl, due⟩
    obtain ⟨a, inForce⟩ := exists_inForce (start timeout clock) clock history
    have holds := inForce.state
    rw [holds.1] at named
    rw [holds.2] at due
    exact ⟨t, a, rfl, active_start_iff.2 running, inForce, named, due⟩
  · rintro ⟨t, a, rfl, active, inForce, named, due⟩
    have running := active_start_iff.1 active
    have watching := isWatching_run (fun _ => rfl) history running
    have holds := inForce.state
    refine ⟨running, watching, holds.1.trans named, t, rfl, ?_⟩
    rw [holds.2]
    exact due

end History

/-- What a watchdog that was started at `clock` does along the steps of a history. -/
structure Vigilant (timeout : Duration) (clock : Int) (steps : List Step) : Prop where
  /-- The program is ended at most once. -/
  once : ((start timeout clock).run steps).2.length ≤ 1
  /-- It is ended in the name of the announcement in force, one timeout or more after it, and by
  every look that finds it so. -/
  decides : ∀ before s after name, steps = before ++ s :: after →
    ((((start timeout clock).run before).1.step s).2 = some name ↔
      ∃ t a, s = .look t ∧ (start timeout clock).Active before ∧
        (start timeout clock).InForce clock before a ∧ a.name = name ∧
          a.clock + (effectiveTimeout timeout).nanoseconds ≤ t)
  /-- After a shutdown or a decision there is no further decision, and announcing changes nothing. -/
  closed : ∀ before after, steps = before ++ after → ¬(start timeout clock).Active before →
    (((start timeout clock).run before).1.run after).2 = [] ∧
      ∀ name t, ((start timeout clock).run steps).1.step (.announce name t) =
        (((start timeout clock).run steps).1, none)

/-- **The watchdog ends the program at most once, never early and never after a shutdown**, whatever
the order of the steps. The clock may even go back. -/
theorem start_vigilant (timeout : Duration) (clock : Int) (steps : List Step) :
    Vigilant timeout clock steps where
  once := length_decisions_le steps
  decides _ _ _ _ _ := decides_iff
  closed before after split inactive := by
    have silent := run_of_stopped (isRunning_of_inactive inactive) after
    refine ⟨silent.1, fun name t => step_announce_stopped ?_ name t⟩
    rw [split, run_append]
    exact silent.2

-- A look at the old deadline is too early, and what comes after the decision has no effect.
example : ((start ⟨5⟩ 0).run [.announce "parse" 3, .look 5, .look 8, .announce "check" 9, .shutdown, .look 20]).2 =
    [Text.ofString "parse"] := by decide

end CilAudit.Watchdog
