import CilAudit.Report.Store
import Mathlib.Order.Monotone.Basic

/-!
# What a store gives back

A store is asked to begin runs and to take findings, in any order, and the runs get rising numbers, whichever
they are. As long as no finding comes before the first run, its tables are a faithful account of what it was
asked: the runs by number and module, and each finding under the number of the run that was the last to
begin. So what the latest run of a module was given can be read off them. A finding that comes too early is
an error, and it is the last thing that the store takes notice of.
-/

set_option autoImplicit false

namespace CilAudit

/-- What a store that stays open is asked to do. -/
inductive StoreCall where
  | beginRun (module : Text)
  | report (v : Violation)
  deriving DecidableEq

/-- Numbers for the first run, the second and so on. They rise, and 0 stands for no run. -/
structure RunNumbers where
  of : Nat → Nat
  none : of 0 = 0
  rising : StrictMono of

/-- The numbers that a store gives by itself. -/
def RunNumbers.consecutive : RunNumbers := ⟨id, rfl, strictMono_id⟩

namespace StoreCall

/-- How many runs have begun behind the call, where `n` had before it. -/
def begun (n : Nat) : StoreCall → Nat
  | beginRun _ => n + 1
  | report _ => n

def reported? : StoreCall → Option Violation
  | beginRun _ => none
  | report v => some v

/-- What is reported before the next run begins. -/
def untilNextRun : List StoreCall → List Violation
  | report v :: rest => v :: untilNextRun rest
  | _ => []

/-- The calls, each with how many runs have begun behind it. -/
def counted (n : Nat) : List StoreCall → List (Nat × StoreCall)
  | [] => []
  | call :: rest => (begun n call, call) :: counted (begun n call) rest

/-- The line that a call adds to the table of runs. -/
def run? (numbers : RunNumbers) : Nat × StoreCall → Option (Nat × Text)
  | (n, beginRun module) => some (numbers.of n, module)
  | (_, report _) => none

/-- The line that a call adds to the table of findings. -/
def row? (numbers : RunNumbers) : Nat × StoreCall → Option (Nat × Violation)
  | (_, beginRun _) => none
  | (n, report v) => some (numbers.of n, v)

/-! ## Numbers of runs -/

variable {numbers : RunNumbers} {n : Nat} {calls : List StoreCall}

theorem counted_append (n : Nat) (calls more : List StoreCall) :
    counted n (calls ++ more) = counted n calls ++ counted (calls.foldl begun n) more := by
  induction calls generalizing n with
  | nil => rfl
  | cons call calls ih => simp only [List.cons_append, counted, ih, List.foldl_cons]

theorem mem_of_counted {x : Nat × StoreCall} (member : x ∈ counted n calls) : x.2 ∈ calls := by
  induction calls generalizing n with
  | nil => cases member
  | cons call calls ih =>
    rcases List.mem_cons.1 member with rfl | later
    · exact List.mem_cons_self
    · exact List.mem_cons_of_mem _ (ih later)

theorem le_begun (n : Nat) (call : StoreCall) : n ≤ begun n call := by
  cases call with
  | beginRun module => exact Nat.le_succ n
  | report v => exact Nat.le_refl n

theorem le_foldl_begun (n : Nat) (calls : List StoreCall) : n ≤ calls.foldl begun n := by
  induction calls generalizing n with
  | nil => exact Nat.le_refl n
  | cons call calls ih => exact (le_begun n call).trans (ih _)

/-- The count rises from what it was to what it is at the end. -/
theorem bounds_of_counted {x : Nat × StoreCall} (member : x ∈ counted n calls) :
    n ≤ x.1 ∧ x.1 ≤ calls.foldl begun n := by
  induction calls generalizing n with
  | nil => cases member
  | cons call calls ih =>
    rcases List.mem_cons.1 member with rfl | later
    · exact ⟨le_begun n call, le_foldl_begun _ calls⟩
    · exact ⟨(le_begun n call).trans (ih later).1, (ih later).2⟩

theorem exists_of_mem_rows {row : Nat × Violation} (member : row ∈ (counted n calls).filterMap (row? numbers)) :
    ∃ k, row.1 = numbers.of k ∧ n ≤ k ∧ k ≤ calls.foldl begun n := by
  obtain ⟨⟨k, call⟩, listed, same⟩ := List.mem_filterMap.1 member
  cases call with
  | beginRun module => cases same
  | report v => exact ⟨k, (congrArg Prod.fst (Option.some.inj same)).symm, bounds_of_counted listed⟩

theorem mem_runs {run : Nat × Text} :
    run ∈ (counted n calls).filterMap (run? numbers) ↔
      ∃ k, (k, beginRun run.2) ∈ counted n calls ∧ run.1 = numbers.of k := by
  rw [List.mem_filterMap]
  constructor
  · rintro ⟨⟨k, call⟩, listed, same⟩
    cases call with
    | beginRun module =>
      obtain rfl := Option.some.inj same
      exact ⟨k, listed, rfl⟩
    | report v => cases same
  · rintro ⟨k, listed, number⟩
    exact ⟨_, listed, by rw [run?, ← number]⟩

theorem map_rows (n : Nat) (calls : List StoreCall) :
    ((counted n calls).filterMap (row? numbers)).map (·.2) = calls.filterMap reported? := by
  induction calls generalizing n with
  | nil => rfl
  | cons call calls ih => cases call <;> simp [counted, List.filterMap_cons, row?, reported?, ih]

/-- The findings under a number, without the numbers. -/
def under (number : Nat) (rows : List (Nat × Violation)) : List Violation :=
  rows.filterMap fun row => if row.1 = number then some row.2 else none

/-- Under the number of a run there is nothing of the runs before or behind it. -/
theorem under_eq_nil (numbers : RunNumbers) {k : Nat} (apart : calls.foldl begun n < k ∨ k < n) :
    under (numbers.of k) ((counted n calls).filterMap (row? numbers)) = [] := by
  refine List.filterMap_eq_nil_iff.2 fun row member => if_neg ?_
  obtain ⟨other, number, bounds⟩ := exists_of_mem_rows member
  rw [number, numbers.rising.injective.eq_iff]
  omega

/-- The run under way gets what is reported until the next one begins. -/
theorem under_counted (numbers : RunNumbers) (n : Nat) (calls : List StoreCall) :
    under (numbers.of n) ((counted n calls).filterMap (row? numbers)) = untilNextRun calls := by
  induction calls with
  | nil => rfl
  | cons call calls ih =>
    cases call with
    | beginRun module => exact under_eq_nil numbers (n := n + 1) (.inr (Nat.lt_succ_self n))
    | report v =>
      rw [under] at ih
      simp [under, counted, begun, row?, untilNextRun, ih]

end StoreCall

namespace Store

open StoreCall (begun reported? counted run? row? under untilNextRun)

/-! ## Calls -/

def perform (numbers : RunNumbers) (s : Store) : StoreCall → Except StoreError Store
  | .beginRun module => s.beginRunAs (numbers.of (s.runs.length + 1)) module
  | .report v => .ok (s.report v)

def performAll (numbers : RunNumbers) (s : Store) (calls : List StoreCall) : Except StoreError Store :=
  calls.foldlM (perform numbers) s

/-- With its own numbers a store begins runs as it does by itself. -/
example (s : Store) (module : Text) : s.perform .consecutive (.beginRun module) = s.beginRun module := rfl

variable {numbers : RunNumbers}

theorem performAll_cons {s next : Store} {call : StoreCall} (done : s.perform numbers call = .ok next)
    (calls : List StoreCall) : s.performAll numbers (call :: calls) = next.performAll numbers calls := by
  rw [performAll, List.foldlM_cons, done]
  rfl

theorem asStored_of_known {v : Violation} (known : v.entity.kind ≠ .unknown) : asStored v = v := by
  obtain ⟨check, ⟨kind, name⟩, offset, detail⟩ := v
  have same : EntityKind.ofName kind.name = kind := by
    cases kind with
    | unknown => exact absurd rfl known
    | module | type | method => decide
  simp [asStored, same]

/-- The store works: it is open, has no error, and the run under way is the last that began. -/
structure Working (numbers : RunNumbers) (s : Store) : Prop where
  isOpen : s.isClosed = false
  error : s.error = none
  current : s.current = numbers.of s.runs.length

/-- A run begins. -/
theorem Working.beginRun {s : Store} (working : s.Working numbers) (module : Text) :
    ∃ next, s.perform numbers (.beginRun module) = .ok next ∧ next.Working numbers ∧
      next.runs = s.runs ++ [(numbers.of (s.runs.length + 1), module)] ∧ next.rows = s.rows := by
  let number := numbers.of (s.runs.length + 1)
  refine ⟨{ s with runs := s.runs ++ [(number, module)], current := number }, ?_,
    ⟨working.isOpen, working.error, ?_⟩, rfl, rfl⟩
  · simp [perform, beginRunAs, working.isOpen, number]
  · simp [number]

/-- A finding is taken in. -/
theorem Working.report {s : Store} (working : s.Working numbers) (started : s.runs ≠ []) {v : Violation}
    (known : v.entity.kind ≠ .unknown) :
    ∃ next, s.perform numbers (.report v) = .ok next ∧ next.Working numbers ∧ next.runs = s.runs ∧
      next.rows = s.rows ++ [(numbers.of s.runs.length, v)] := by
  refine ⟨{ s with rows := s.rows ++ [(numbers.of s.runs.length, v)] }, ?_,
    ⟨working.isOpen, working.error, working.current⟩, rfl, rfl⟩
  have under : numbers.of s.runs.length ≠ 0 := by
    rw [← numbers.none, numbers.rising.injective.ne_iff]
    exact fun empty => started (List.length_eq_zero_iff.1 empty)
  simp [perform, Store.report, working.error, working.current, under, working.isOpen, asStored_of_known known]

/-- **The account.** Calls on a working store add to its tables what they say, if none of them is a
finding before the first run. -/
theorem Working.performAll {s : Store} (working : s.Working numbers) {calls : List StoreCall}
    (started : s.runs ≠ [] ∨ ∀ v rest, calls ≠ .report v :: rest)
    (known : ∀ v, .report v ∈ calls → v.entity.kind ≠ .unknown) :
    ∃ last, s.performAll numbers calls = .ok last ∧ last.Working numbers ∧
      last.runs = s.runs ++ (counted s.runs.length calls).filterMap (run? numbers) ∧
      last.rows = s.rows ++ (counted s.runs.length calls).filterMap (row? numbers) := by
  -- Behind the first call a run has begun, so that findings are taken in from there on.
  induction calls generalizing s with
  | nil => exact ⟨s, rfl, working, by simp [counted], by simp [counted]⟩
  | cons call calls ih =>
    have later : ∀ v, .report v ∈ calls → v.entity.kind ≠ .unknown :=
      fun v member => known v (List.mem_cons_of_mem _ member)
    cases call with
    | beginRun module =>
      obtain ⟨next, done, works, runs, rows⟩ := working.beginRun module
      obtain ⟨last, rest, lastWorks, lastRuns, lastRows⟩ := ih works (.inl (by simp [runs])) later
      refine ⟨last, (performAll_cons done calls).trans rest, lastWorks, ?_, ?_⟩
      · simp [lastRuns, runs, counted, begun, run?]
      · simp [lastRows, rows, runs, counted, begun, List.filterMap_cons, row?]
    | report v =>
      have begun : s.runs ≠ [] := started.resolve_right fun other => other v calls rfl
      obtain ⟨next, done, works, runs, rows⟩ := working.report begun (known v List.mem_cons_self)
      obtain ⟨last, rest, lastWorks, lastRuns, lastRows⟩ := ih works (.inl (runs ▸ begun)) later
      refine ⟨last, (performAll_cons done calls).trans rest, lastWorks, ?_, ?_⟩
      · simp [lastRuns, runs, counted, StoreCall.begun, List.filterMap_cons, run?]
      · simp [lastRows, rows, runs, counted, StoreCall.begun, row?]

/-- A store with an error goes on beginning runs, and takes nothing in. -/
theorem performAll_of_error {s : Store} (isOpen : s.isClosed = false) {e : StoreError} (error : s.error = some e)
    (calls : List StoreCall) :
    ∃ last, s.performAll numbers calls = .ok last ∧ last.isClosed = false ∧ last.error = some e ∧
      last.rows = s.rows := by
  induction calls generalizing s with
  | nil => exact ⟨s, rfl, isOpen, error, rfl⟩
  | cons call calls ih =>
    cases call with
    | beginRun module =>
      let number := numbers.of (s.runs.length + 1)
      let next : Store := { s with runs := s.runs ++ [(number, module)], current := number }
      have done : s.perform numbers (.beginRun module) = .ok next := by simp [perform, beginRunAs, isOpen, next, number]
      obtain ⟨last, rest, kept⟩ := ih (s := next) isOpen error
      exact ⟨last, (performAll_cons done calls).trans rest, kept⟩
    | report v =>
      have done : s.perform numbers (.report v) = .ok s := by simp [perform, Store.report, error]
      obtain ⟨last, rest, kept⟩ := ih isOpen error
      exact ⟨last, (performAll_cons done calls).trans rest, kept⟩

/-! ## Questions -/

theorem latest?_eq_some_iff {s : Store} {module : Text} {number : Nat} :
    s.latest? module = some number ↔
      (number, module) ∈ s.runs ∧ ∀ other, (other, module) ∈ s.runs → other ≤ number := by
  have listed (n : Nat) : n ∈ s.runs.filterMap (fun run => if run.2 = module then some run.1 else none) ↔
      (n, module) ∈ s.runs := by
    simp only [List.mem_filterMap, Option.ite_none_right_eq_some, Option.some.injEq]
    constructor
    · rintro ⟨run, member, rfl, rfl⟩
      exact member
    · exact fun member => ⟨_, member, rfl, rfl⟩
  simp only [latest?, List.max?_eq_some_iff, listed]

theorem latest?_eq_none {s : Store} {module : Text} (never : ∀ number, (number, module) ∉ s.runs) :
    s.latest? module = none := by
  rw [Option.eq_none_iff_forall_ne_some]
  exact fun number latest => never number (latest?_eq_some_iff.1 latest).1

theorem violations_eq_under {s : Store} (isOpen : s.isClosed = false) {module : Text} {number : Nat}
    (latest : s.latest? module = some number) : s.violations module = .ok (under number s.rows) := by
  simp [violations, isOpen, latest, under, eq_comm]

theorem violations_eq_nil {s : Store} (isOpen : s.isClosed = false) {module : Text}
    (nothing : s.latest? module = none ∨ s.rows = []) : s.violations module = .ok [] := by
  rcases nothing with never | empty
  · simp [violations, isOpen, never]
  · simp [violations, isOpen, empty]

/-- The counts are those of the checks that have findings. -/
theorem counts_eq {s : Store} (isOpen : s.isClosed = false) :
    ∃ counts, s.counts = .ok counts ∧
      ∀ c n, (c, n) ∈ counts ↔ n = (s.rows.map (·.2)).countP (·.check = c) ∧ 0 < n := by
  refine ⟨_, by simp only [counts, isOpen]; rfl, fun c n => ?_⟩
  have count : (s.rows.map (·.2.check)).count c = (s.rows.map (·.2)).countP (·.check = c) := by
    rw [List.count, List.countP_map, List.countP_map]
    exact List.countP_congr (by simp)
  simp only [List.mem_map, List.mem_eraseDups, Text.sort, List.mem_mergeSort, Prod.mk.injEq]
  rw [← count]
  constructor
  · rintro ⟨c, has, rfl, rfl⟩
    exact ⟨rfl, List.count_pos_iff.2 (List.mem_map.2 has)⟩
  · rintro ⟨rfl, some⟩
    exact ⟨c, List.mem_map.1 (List.count_pos_iff.1 some), rfl, rfl⟩

/-- The last run of a module that begins has the largest number. -/
theorem latest?_of_last {s : Store} {module : Text} {before after : List StoreCall}
    (runs : s.runs = (counted 0 (before ++ .beginRun module :: after)).filterMap (run? numbers))
    (last : .beginRun module ∉ after) : s.latest? module = some (numbers.of (before.foldl begun 0 + 1)) := by
  simp only [latest?_eq_some_iff, runs, StoreCall.mem_runs]
  simp only [StoreCall.counted_append, List.mem_append, counted, begun, List.mem_cons]
  constructor
  · exact ⟨_, .inr (.inl rfl), rfl⟩
  · rintro _ ⟨k, earlier | same | later, rfl⟩
    · have bound := (StoreCall.bounds_of_counted earlier).2
      exact numbers.rising.monotone (Nat.le_succ_of_le bound)
    · rw [(Prod.mk.inj same).1]
    · exact absurd (StoreCall.mem_of_counted later) last

/-- What is stored for the latest run of a module is what was reported to it. -/
theorem violations_of_latest {s : Store} (isOpen : s.isClosed = false) {module : Text} {before after : List StoreCall}
    (runs : s.runs = (counted 0 (before ++ .beginRun module :: after)).filterMap (run? numbers))
    (rows : s.rows = (counted 0 (before ++ .beginRun module :: after)).filterMap (row? numbers))
    (last : .beginRun module ∉ after) : s.violations module = .ok (untilNextRun after) := by
  have earlier := StoreCall.under_eq_nil numbers (n := 0) (.inl (Nat.lt_succ_self (before.foldl begun 0)))
  have later := StoreCall.under_counted numbers (before.foldl begun 0 + 1) after
  rw [violations_eq_under isOpen (latest?_of_last runs last), rows, StoreCall.counted_append, List.filterMap_append,
    under, List.filterMap_append, ← under, ← under, earlier, List.nil_append]
  exact congrArg _ later

/-- **The latest run is what comes back.** Take any calls, with findings on modules, types and methods,
and any numbers for the runs. If the first call is not a finding, no finding comes before a run: all go
well, and then the findings of a module are those reported between the begin of its last run and that of
the next run of any module, in their order and unchanged; each check is counted as often as it was
reported in all. If the first call is a finding, it is the error from then on, and nothing is ever
stored. -/
theorem performAll_latest (numbers : RunNumbers) (calls : List StoreCall)
    (known : ∀ v, .report v ∈ calls → v.entity.kind ≠ .unknown) :
    ((∀ v rest, calls ≠ .report v :: rest) →
      ∃ s, performAll numbers {} calls = .ok s ∧ s.error = none ∧
        (∀ module before after, calls = before ++ .beginRun module :: after → .beginRun module ∉ after →
          s.violations module = .ok (untilNextRun after)) ∧
        (∀ module, .beginRun module ∉ calls → s.violations module = .ok []) ∧
        ∃ counts, s.counts = .ok counts ∧
          ∀ c n, (c, n) ∈ counts ↔ n = (calls.filterMap reported?).countP (·.check = c) ∧ 0 < n) ∧
    ∀ v rest, calls = .report v :: rest →
      ∃ s, performAll numbers {} calls = .ok s ∧ s.error = some (.noRunStarted v.check) ∧ s.rows = [] ∧
        (∀ module, s.violations module = .ok []) ∧ s.counts = .ok [] := by
  constructor
  · intro first
    have fresh : Working numbers {} := ⟨rfl, rfl, numbers.none.symm⟩
    obtain ⟨s, done, working, runs, rows⟩ := fresh.performAll (.inr first) known
    refine ⟨s, done, working.error, ?_, ?_, ?_⟩
    · rintro module before after rfl last
      exact violations_of_latest working.isOpen runs rows last
    · intro module never
      have absent (number : Nat) : (number, module) ∉ s.runs := by
        intro member
        rw [runs] at member
        obtain ⟨k, listed, -⟩ := StoreCall.mem_runs.1 member
        exact never (StoreCall.mem_of_counted listed)
      exact violations_eq_nil working.isOpen (.inl (latest?_eq_none absent))
    · have reported : s.rows.map (·.2) = calls.filterMap reported? := by
        rw [rows]
        exact StoreCall.map_rows 0 calls
      exact reported ▸ counts_eq working.isOpen
  · rintro v rest rfl
    have failed : Store.perform numbers {} (.report v) = .ok { error := some (.noRunStarted v.check) } := rfl
    obtain ⟨s, done, isOpen, error, rows⟩ :=
      performAll_of_error (s := { error := some (.noRunStarted v.check) }) rfl rfl rest
    refine ⟨s, (performAll_cons failed rest).trans done, error, rows,
      fun module => violations_eq_nil isOpen (.inr rows), ?_⟩
    simp [counts, isOpen, rows, Text.sort]

/-- A finding in a method, and one on a type. -/
def slip : Violation := ⟨"R1", ⟨.method, "C::M()"⟩, 4, "slip"⟩
def flaw : Violation := ⟨"D2", ⟨.type, "C"⟩, -1, []⟩

/-- Two runs of a module, and one of another between them. -/
def rounds : List StoreCall :=
  [.beginRun "A", .report slip, .beginRun "B", .report slip, .report flaw, .beginRun "A", .report flaw]

/-- Numbers with gaps. -/
def sparse : RunNumbers := ⟨(7 * ·), rfl, fun _ _ less => Nat.mul_lt_mul_of_pos_left less (by decide)⟩

/-- The second run of the module hides the first, but all count, whatever the numbers. With a finding too early,
nothing does. -/
theorem performAll_latest_rounds :
    (∀ numbers ∈ [RunNumbers.consecutive, sparse],
      ∃ s, performAll numbers {} rounds = .ok s ∧ s.error = none ∧ s.violations "A" = .ok [flaw] ∧
        s.violations "B" = .ok [slip, flaw] ∧ s.violations "C" = .ok [] ∧
        ∃ counts, s.counts = .ok counts ∧ (Text.ofString "R1", 2) ∈ counts ∧ (Text.ofString "D2", 2) ∈ counts) ∧
    (performAll sparse {} rounds).toOption.map (·.runs) =
      some [(7, Text.ofString "A"), (14, Text.ofString "B"), (21, Text.ofString "A")] ∧
    ∃ s, performAll .consecutive {} (.report slip :: rounds) = .ok s ∧ s.error = some (.noRunStarted "R1") ∧
      s.violations "A" = .ok [] := by
  have known : ∀ v, .report v ∈ .report slip :: rounds → v.entity.kind ≠ .unknown := by
    intro v member
    simp only [rounds, List.mem_cons, StoreCall.report.injEq, reduceCtorEq, List.not_mem_nil, or_false,
      false_or] at member
    rcases member with rfl | rfl | rfl | rfl | rfl <;> decide
  refine ⟨fun numbers _ => ?_, by decide +kernel, ?_⟩
  · obtain ⟨s, done, error, latest, never, counts, counted, entries⟩ :=
      (performAll_latest numbers rounds fun v member => known v (List.mem_cons_of_mem _ member)).1 nofun
    refine ⟨s, done, error, latest _ (rounds.take 5) _ rfl (by decide), latest _ (rounds.take 2) _ rfl (by decide),
      never _ (by decide), counts, counted, (entries _ _).2 (by decide), (entries _ _).2 (by decide)⟩
  · obtain ⟨s, done, error, -, nothing, -⟩ :=
      (performAll_latest .consecutive (.report slip :: rounds) known).2 slip rounds rfl
    exact ⟨s, done, error, nothing "A"⟩

end Store

end CilAudit
