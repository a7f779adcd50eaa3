import CilAudit.Search
import Mathlib.Data.Nat.Size

/-!
# Runs of the search by halving

Each round of the search looks at the middle of a window and goes on with one half of it. In whatever
order things stand, the search stays inside the window it started with, and it ends after no more
rounds than the width has binary digits. Where all that come before what is sought stand in front of the
rest, it ends at the border between the two.
-/

set_option autoImplicit false

namespace CilAudit

/-- A run over the window from `lo` to `hi`: it looks at the indexes `probes` one after the other, finds
something at each of them, and ends at a place. -/
inductive Halving (before : Nat → Option Bool) : (lo hi : Nat) → (probes : List Nat) → (place : Nat) → Prop where
  | done (i : Nat) : Halving before i i [] i
  | right {lo hi place : Nat} {probes : List Nat} (wide : lo < hi) (told : before ((lo + hi) / 2) = some true)
      (rest : Halving before ((lo + hi) / 2 + 1) hi probes place) :
      Halving before lo hi ((lo + hi) / 2 :: probes) place
  | left {lo hi place : Nat} {probes : List Nat} (wide : lo < hi) (told : before ((lo + hi) / 2) = some false)
      (rest : Halving before lo ((lo + hi) / 2) probes place) :
      Halving before lo hi ((lo + hi) / 2 :: probes) place

variable {before : Nat → Option Bool} {lo hi : Nat}

/-- The search runs to its end if something stands at every index of the window. -/
theorem exists_halving (le : lo ≤ hi) (there : ∀ i < hi, ∃ answer, before i = some answer) :
    ∃ probes, Halving before lo hi probes (halve before lo hi) := by
  fun_induction halve before lo hi with
  | case1 lo hi wide mid told ih =>
    obtain ⟨probes, rest⟩ := ih (by omega) there
    exact ⟨mid :: probes, .right wide told rest⟩
  | case2 lo hi wide mid told ih =>
    obtain ⟨probes, rest⟩ := ih (by omega) fun i less => there i (by omega)
    exact ⟨mid :: probes, .left wide told rest⟩
  | case3 lo hi wide mid absent =>
    obtain ⟨answer, told⟩ := there mid (by omega)
    rw [absent] at told
    cases told
  | case4 lo hi closed =>
    obtain rfl : lo = hi := by omega
    exact ⟨[], .done lo⟩

namespace Halving

variable {probes : List Nat} {place : Nat}

/-- A run neither looks nor ends outside its window. -/
theorem within (run : Halving before lo hi probes place) :
    lo ≤ place ∧ place ≤ hi ∧ ∀ p ∈ probes, lo ≤ p ∧ p < hi := by
  induction run with
  | done i => simp
  | right wide told rest ih =>
    obtain ⟨low, high, inside⟩ := ih
    refine ⟨by omega, high, List.forall_mem_cons.2 ⟨by omega, fun p member => ?_⟩⟩
    have := inside p member
    omega
  | left wide told rest ih =>
    obtain ⟨low, high, inside⟩ := ih
    refine ⟨low, by omega, List.forall_mem_cons.2 ⟨by omega, fun p member => ?_⟩⟩
    have := inside p member
    omega

/-- One round more than half the width allows is no more than the width allows. -/
theorem succ_le_size {rounds width half : Nat} (le : rounds ≤ half.size) (halved : 2 * half ≤ width)
    (wide : 0 < width) : rounds + 1 ≤ width.size := by
  apply Nat.lt_size.2
  cases rounds with
  | zero => exact wide
  | succ rounds =>
    have doubled : 2 ^ rounds ≤ half := Nat.lt_size.1 le
    rw [Nat.pow_succ]
    omega

/-- A run has at most as many rounds as the width of its window has binary digits. -/
theorem length_probes_le (run : Halving before lo hi probes place) : probes.length ≤ (hi - lo).size := by
  induction run with
  | done i => simp
  | right wide told rest ih =>
    apply succ_le_size ih <;> omega
  | left wide told rest ih =>
    apply succ_le_size ih <;> omega

end Halving

/-- The search ends at the border between what comes before and what does not. -/
theorem halve_eq {i : Nat} (low : lo ≤ i) (high : i ≤ hi) (front : ∀ j < i, before j = some true)
    (back : ∀ j, i ≤ j → j < hi → before j = some false) : halve before lo hi = i := by
  fun_induction halve before lo hi with
  | case1 lo hi wide mid told ih =>
    rcases Nat.lt_or_ge mid i with ahead | past
    · exact ih ahead high back
    · have rest := back mid past (by omega)
      rw [told] at rest
      cases rest
  | case2 lo hi wide mid told ih =>
    rcases Nat.lt_or_ge mid i with ahead | past
    · have rest := front mid ahead
      rw [told] at rest
      cases rest
    · apply ih low past
      intro j behind less
      exact back j behind (by omega)
  | case3 lo hi wide mid absent =>
    rcases Nat.lt_or_ge mid i with ahead | past
    · rw [front mid ahead] at absent
      cases absent
    · rw [back mid past (by omega)] at absent
      cases absent
  | case4 lo hi closed => omega

end CilAudit
