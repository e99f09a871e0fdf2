import Mathlib.Tactic.Common

/-! The bottleneck that the performance analyser exports. `BottleneckTracker` exports a window's
winner once it has won `HYSTERESIS_WINDOWS` windows in a row. How a winner is found, from latencies
in floating point, is left out. -/

namespace IscsiS3.Bottleneck

inductive Component where
  | s3Read
  | s3Write
  | readCache
  | writeCache
  | writeBuffer
  | iscsi
  deriving DecidableEq, Repr

def hysteresisWindows : Nat := 2

structure BottleneckTracker where
  pending : Option Component
  streak : Nat
  lit : Option Component
  deriving DecidableEq, Repr

namespace BottleneckTracker

def new : BottleneckTracker := ⟨none, 0, none⟩

/-- `winner` is this window's raw decision.  Returns the component to export. -/
def observe (t : BottleneckTracker) (winner : Option Component) :
    Option Component × BottleneckTracker :=
  if winner = t.lit then
    (t.lit, { t with pending := none, streak := 0 })
  else
    let t :=
      if t.pending = winner then
        -- the streak is an 8-bit counter that saturates
        { t with streak := min (t.streak + 1) 255 }
      else
        { t with pending := winner, streak := 1 }
    let t :=
      if t.streak ≥ hysteresisWindows then
        { t with lit := winner, pending := none, streak := 0 }
      else t
    (t.lit, t)

/-- A new tracker after `n` windows; window `n` was won by `winner n`, for `n` from `1`. -/
def after (winner : Nat → Option Component) : Nat → BottleneckTracker
  | 0 => new
  | n + 1 => ((after winner n).observe (winner (n + 1))).2

def exported (winner : Nat → Option Component) : Nat → Option Component
  | 0 => new.lit
  | n + 1 => ((after winner n).observe (winner (n + 1))).1

end BottleneckTracker

open BottleneckTracker

variable {last : Option Component} {t : BottleneckTracker}

/-- The tracker after a window that `last` won: either `last` is exported and there is no candidate,
or `last` is the candidate and has won once. The candidate may be that there is no bottleneck. -/
def Tracks (last : Option Component) (t : BottleneckTracker) : Prop :=
  (t.pending = none ∧ t.streak = 0 ∧ t.lit = last) ∨
    (t.pending = last ∧ t.streak = 1 ∧ t.lit ≠ last)

theorem tracks_new : Tracks none new := .inl ⟨rfl, rfl, rfl⟩

theorem lit_observe (t : BottleneckTracker) (winner : Option Component) :
    (t.observe winner).2.lit = (t.observe winner).1 := by
  unfold observe
  split <;> rfl

theorem observe_fst (h : Tracks last t) (winner : Option Component) :
    (t.observe winner).1 = if winner = last then winner else t.lit := by
  unfold observe
  by_cases hlit : winner = t.lit
  · simp [hlit]
  · rw [if_neg hlit]
    rcases h with ⟨-, hstreak, rfl⟩ | ⟨rfl, hstreak, -⟩
    · -- the winner is new, so this is its first window
      rw [if_neg hlit]
      by_cases hnone : t.pending = winner <;> simp [hnone, hstreak, hysteresisWindows]
    · by_cases hsame : winner = t.pending
      · simp [hsame, hstreak, hysteresisWindows]
      · simp [hsame, Ne.symm hsame, hysteresisWindows]

theorem Tracks.observe (h : Tracks last t) (winner : Option Component) :
    Tracks winner (t.observe winner).2 := by
  unfold BottleneckTracker.observe
  by_cases hlit : winner = t.lit
  · rw [if_pos hlit]
    exact .inl ⟨rfl, rfl, hlit.symm⟩
  · rw [if_neg hlit]
    rcases h with ⟨-, hstreak, -⟩ | ⟨-, hstreak, -⟩
    · by_cases hnone : t.pending = winner
      · simp [Tracks, hnone, hstreak, hysteresisWindows, Ne.symm hlit]
      · simp [Tracks, hnone, hysteresisWindows, Ne.symm hlit]
    · by_cases hsame : t.pending = winner
      · simp [Tracks, hsame, hstreak, hysteresisWindows]
      · simp [Tracks, hsame, hysteresisWindows, Ne.symm hlit]

variable {winner : Nat → Option Component}

theorem tracks_after (h : winner 0 = none) (n : Nat) : Tracks (winner n) (after winner n) := by
  induction n with
  | zero => simpa [h, after] using tracks_new
  | succ n ih => exact ih.observe (winner (n + 1))

theorem lit_after (n : Nat) : (after winner n).lit = exported winner n := by
  cases n with
  | zero => rfl
  | succ n => exact lit_observe (after winner n) (winner (n + 1))

/-- A winner that won the window before as well is exported, and otherwise nothing changes. -/
theorem exports_two_in_a_row (winner : Nat → Option Component) (h : winner 0 = none) (n : Nat) :
    exported winner (n + 1) =
        (if winner (n + 1) = winner n then winner (n + 1) else exported winner n) ∧
      (exported winner (n + 1) ≠ exported winner n →
        0 < n ∧ winner n = exported winner (n + 1) ∧
          winner (n + 1) = exported winner (n + 1)) := by
  have rule : exported winner (n + 1) =
      if winner (n + 1) = winner n then winner (n + 1) else exported winner n := by
    rw [← lit_after n]
    exact observe_fst (tracks_after h n) (winner (n + 1))
  refine ⟨rule, fun hchange => ?_⟩
  by_cases hsame : winner (n + 1) = winner n
  · rw [if_pos hsame] at rule
    refine ⟨?_, by rw [rule, hsame], rule.symm⟩
    -- the first window shows nothing new: no window comes before it
    apply Nat.pos_of_ne_zero
    rintro rfl
    apply hchange
    rw [rule, hsame, h]
    rfl
  · rw [if_neg hsame] at rule
    exact absurd rule hchange

def someWinners (n : Nat) : Option Component :=
  if n = 1 ∨ n = 2 then some .s3Read
  else if 5 ≤ n ∧ n % 2 = 1 then some .iscsi
  else none

theorem exports_two_in_a_row_some :
    someWinners 0 = none ∧
      (List.range 8).map (exported someWinners) =
        [none, none, some .s3Read, some .s3Read, none, none, none, none] ∧
      exported someWinners 2 = some .s3Read ∧
      (exported someWinners 2 ≠ exported someWinners 1 →
        0 < 1 ∧ someWinners 1 = exported someWinners 2 ∧ someWinners 2 = exported someWinners 2) :=
  ⟨rfl, by decide, by decide, (exports_two_in_a_row someWinners rfl 1).2⟩

end IscsiS3.Bottleneck
