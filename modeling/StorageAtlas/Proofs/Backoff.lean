import Mathlib.Algebra.BigOperators.Group.Finset.Basic
import Mathlib.Data.Nat.Find
import Mathlib.Order.Bounds.Basic
import StorageAtlas.Fetch.Reading

/-!
# The schedule of attempts

An attempt is the last one when it succeeds, when it fails for another reason than the transport, or
when no retry is left (`LastAttempt`). The pause behind an attempt is twice the one before, up to a
longest one (`backoffAfter_eq`). `withRetries_schedule`: whatever the outcomes of attempts are, they
are made up to the first that is the last one, with the pauses of the schedule between them.

Attempts are counted in 32 bits, and pauses are spans of time; `countedRetries` is the loop with
these, and ends with nothing where one of them runs over. It never does (`countedRetries_eq`).
-/

namespace StorageAtlas

variable {Q : Type} {A : Q → Type} {α σ : Type}

/-- Whether an outcome is worth another attempt. -/
def isTransientFailure : Except Error α → Bool
  | .ok _ => false
  | .error e => e.isTransient

theorem isTransientFailure_eq_false_iff {outcome : Except Error α} :
    isTransientFailure outcome = false ↔
      (∃ a, outcome = .ok a) ∨ ∃ e, outcome = .error e ∧ ∀ fault, e ≠ .transport fault := by
  cases outcome with
  | ok a => exact ⟨fun _ => .inl ⟨a, rfl⟩, fun _ => rfl⟩
  | error e =>
    cases e with
    | transport fault =>
      refine iff_of_false nofun ?_
      rintro (⟨a, ha⟩ | ⟨e, he, hother⟩)
      · cases ha
      · exact hother fault (Except.error.inj he).symm
    | _ => exact ⟨fun _ => .inr ⟨_, rfl, nofun⟩, fun _ => rfl⟩

/-! ## Pauses -/

/-- The pause behind attempt `n`, counted from zero, if the first pause is `backoff`. -/
def backoffAfter (longest : Nat) : (n backoff : Nat) → Nat
  | 0, backoff => backoff
  | n + 1, backoff => backoffAfter longest n (min (backoff * 2) longest)

/-- **Pauses double up to the longest one.** -/
theorem backoffAfter_eq {longest : Nat} : ∀ {n backoff : Nat}, backoff ≤ longest →
    backoffAfter longest n backoff = min (backoff * 2 ^ n) longest := by
  intro n
  induction n with
  | zero =>
    intro backoff h
    rw [backoffAfter, Nat.pow_zero, Nat.mul_one, Nat.min_eq_left h]
  | succ n ih =>
    intro backoff _
    have hcap : longest ≤ longest * 2 ^ n := Nat.le_mul_of_pos_right longest (Nat.two_pow_pos n)
    rw [backoffAfter, ih (Nat.min_le_right _ _), ← Nat.mul_min_mul_right, Nat.min_assoc,
      Nat.min_eq_right hcap, Nat.pow_succ', Nat.mul_assoc]

/-! ## Attempts -/

section Run

variable {w : Answerer Q A σ} {attempt : Dialogue Q A (Except Error α)} {longest : Nat}

theorem withRetries_succ (retries backoff : Nat) :
    withRetries longest attempt (retries + 1) backoff = attempt.bind fun outcome =>
      if isTransientFailure outcome then
        .pause backoff (withRetries longest attempt retries (min (backoff * 2) longest))
      else .done outcome := by
  rw [withRetries]
  refine congrArg attempt.bind (funext fun outcome => ?_)
  cases outcome with
  | ok a => rfl
  | error e => rfl

/-- The state in which attempt `n` is made, counted from zero, if it comes to that. -/
def stateBefore (w : Answerer Q A σ) (attempt : Dialogue Q A (Except Error α)) (longest : Nat) :
    (n backoff : Nat) → σ → σ
  | 0, _, s => s
  | n + 1, backoff, s =>
    stateBefore w attempt longest n (min (backoff * 2) longest)
      (w.pause (attempt.run w s).2 backoff)

/-- **Attempts end** with the first that is not worth another one, or that has none left. -/
theorem run_withRetries : ∀ {n retries backoff : Nat} {s : σ},
    (∀ m < n, isTransientFailure
      (attempt.run w (stateBefore w attempt longest m backoff s)).1) → n ≤ retries →
    (isTransientFailure (attempt.run w (stateBefore w attempt longest n backoff s)).1 = false ∨
      n = retries) →
    (withRetries longest attempt retries backoff).run w s =
      attempt.run w (stateBefore w attempt longest n backoff s) := by
  intro n
  induction n with
  | zero =>
    intro retries backoff s _ _ hlast
    cases retries with
    | zero => rfl
    | succ retries =>
      have hfinal : isTransientFailure (attempt.run w s).1 = false := by
        rcases hlast with hfinal | hnone
        · exact hfinal
        · cases hnone
      rw [withRetries_succ, Dialogue.run_bind, hfinal]
      rfl
  | succ n ih =>
    intro retries backoff s hbefore hle hlast
    obtain ⟨retries, rfl⟩ : ∃ rest, retries = rest + 1 := Nat.exists_eq_add_one.2 (by omega)
    have hfirst : isTransientFailure (attempt.run w s).1 := hbefore 0 (Nat.succ_pos n)
    rw [withRetries_succ, Dialogue.run_bind, if_pos hfirst]
    exact ih (fun m hm => hbefore (m + 1) (Nat.succ_lt_succ hm)) (Nat.le_of_succ_le_succ hle)
      (hlast.imp_right Nat.succ.inj)

end Run

/-! ## Counts and spans of machine size -/

section Counted

variable {attempt : Dialogue Q A (Except Error α)}

/-- One past the longest span of time, in milliseconds: its seconds are a number of 64 bits. -/
def spanLimitMs : Nat := UInt64.size * 1000

/-- Makes an attempt after `made` failed ones. Nothing comes of it where the count of attempts, or
the double of a pause, runs over. -/
def countedRetries (retries : UInt32) (longest : Nat) (attempt : Dialogue Q A (Except Error α))
    (made : UInt32) (backoff : Nat) : Dialogue Q A (Option (Except Error α)) :=
  attempt.bind fun outcome =>
    if _h : made < retries ∧ isTransientFailure outcome then
      if _hcount : made.toNat + 1 < UInt32.size then
        .pause backoff <|
          if backoff * 2 < spanLimitMs then
            countedRetries retries longest attempt (made + 1) (min (backoff * 2) longest)
          else .done none
      else .done none
    else .done (some outcome)
termination_by retries.toNat - made.toNat
decreasing_by
  have hlt : made.toNat < retries.toNat := UInt32.lt_iff_toNat_lt.1 _h.1
  rw [UInt32.toNat_add, UInt32.toNat_one, Nat.mod_eq_of_lt _hcount]
  omega

/-- **Nothing runs over**: counted attempts are those without a count. -/
theorem countedRetries_eq {retries : UInt32} {longest : Nat} (hlongest : longest < UInt64.size) :
    ∀ {rest : Nat} {made : UInt32} {backoff : Nat}, made.toNat + rest = retries.toNat →
      backoff ≤ longest →
      countedRetries retries longest attempt made backoff =
        (withRetries longest attempt rest backoff).map some := by
  intro rest
  induction rest with
  | zero =>
    intro made backoff hmade _
    have hend : ¬made < retries := by
      rw [UInt32.lt_iff_toNat_lt]
      omega
    rw [countedRetries, withRetries, Dialogue.map]
    refine congrArg attempt.bind (funext fun outcome => ?_)
    rw [dif_neg fun h => hend h.1]
  | succ rest ih =>
    intro made backoff hmade hbackoff
    have hmore : made < retries := by
      rw [UInt32.lt_iff_toNat_lt]
      omega
    have hcount : made.toNat + 1 < UInt32.size := by
      have := retries.toNat_lt_size
      omega
    have hnext : (made + 1).toNat = made.toNat + 1 := by
      rw [UInt32.toNat_add, UInt32.toNat_one, Nat.mod_eq_of_lt hcount]
    have hspan : backoff * 2 < spanLimitMs := by
      rw [spanLimitMs]
      omega
    rw [countedRetries, withRetries_succ, Dialogue.map, Dialogue.bind_assoc]
    refine congrArg attempt.bind (funext fun outcome => ?_)
    by_cases hagain : isTransientFailure outcome
    · rw [dif_pos ⟨hmore, hagain⟩, dif_pos hcount, if_pos hspan, if_pos hagain,
        Dialogue.pause_bind, ih (by omega) (Nat.min_le_right _ _), Dialogue.map]
    · rw [dif_neg fun h => hagain h.2, if_neg hagain, Dialogue.done_bind]

end Counted

/-! ## The schedule -/

/-- What attempts have come to: how many were made, and the pauses between them. -/
structure AttemptLog where
  made : Nat := 0
  pauses : List Nat := []
deriving DecidableEq

namespace AttemptLog

def slept (l : AttemptLog) : Nat := l.pauses.foldr (· + ·) 0

/-- Gives attempts their outcomes, counted from one, and takes down what happens. -/
def answerer (outcomes : Nat → Except Error α) :
    Answerer Unit (fun _ => Except Error α) AttemptLog where
  answer l _ := (outcomes (l.made + 1), { l with made := l.made + 1 })
  pause l ms := { l with pauses := l.pauses ++ [ms] }

variable {outcomes : Nat → Except Error α}

theorem run_attempt (l : AttemptLog) :
    (Dialogue.question ()).run (answerer outcomes) l =
      (outcomes (l.made + 1), { l with made := l.made + 1 }) := rfl

theorem stateBefore_eq {longest : Nat} : ∀ {n backoff : Nat} {l : AttemptLog},
    stateBefore (answerer outcomes) (.question ()) longest n backoff l =
      ⟨l.made + n, l.pauses ++ (List.range n).map fun j => backoffAfter longest j backoff⟩ := by
  intro n
  induction n with
  | zero =>
    intro backoff l
    rw [List.range_zero, List.map_nil, List.append_nil]
    rfl
  | succ n ih =>
    intro backoff l
    rw [stateBefore, run_attempt, ih, List.range_succ_eq_map, List.map_cons, List.map_map]
    simp only [answerer, List.append_assoc, List.singleton_append, Nat.add_assoc, Nat.add_comm 1]
    rfl

end AttemptLog

/-- Whether no attempt follows on attempt `n`, counted from one: it succeeds, it fails for another
reason than the transport, or all retries are made. -/
def LastAttempt (retries : Nat) (outcomes : Nat → Except Error α) (n : Nat) : Prop :=
  1 ≤ n ∧ ((∃ a, outcomes n = .ok a) ∨
    (∃ e, outcomes n = .error e ∧ ∀ fault, e ≠ .transport fault) ∨ n = retries + 1)

theorem lastAttempt_succ_iff {retries n : Nat} {outcomes : Nat → Except Error α} :
    LastAttempt retries outcomes (n + 1) ↔
      isTransientFailure (outcomes (n + 1)) = false ∨ n = retries := by
  rw [LastAttempt, and_iff_right (Nat.le_add_left 1 n), ← or_assoc,
    ← isTransientFailure_eq_false_iff, Nat.succ_inj]

/-- Attempts end, if only because no retry is left. -/
theorem exists_isLeast_lastAttempt (retries : Nat) (outcomes : Nat → Except Error α) :
    ∃ n ≤ retries, IsLeast {n | LastAttempt retries outcomes n} (n + 1) := by
  classical
  have hends : LastAttempt retries outcomes (retries + 1) := lastAttempt_succ_iff.2 (.inr rfl)
  obtain ⟨k, hk⟩ : ∃ k, IsLeast {n | LastAttempt retries outcomes n} k :=
    ⟨_, Nat.find_spec ⟨_, hends⟩, fun _ => Nat.find_min' ⟨_, hends⟩⟩
  obtain ⟨n, rfl⟩ : ∃ n, k = n + 1 := Nat.exists_eq_add_one.2 hk.1.1
  exact ⟨n, Nat.le_of_succ_le_succ (hk.2 hends), hk⟩

/-- Attempts with given outcomes are made up to the last one. -/
theorem run_outcomes {retries longest initial n : Nat} {outcomes : Nat → Except Error α}
    (hinitial : initial ≤ longest) (hretries : n ≤ retries)
    (hn : IsLeast {n | LastAttempt retries outcomes n} (n + 1)) :
    (withRetries longest (.question ()) retries initial).run (AttemptLog.answerer outcomes) {} =
      (outcomes (n + 1), ⟨n + 1, (List.range n).map fun j => min (initial * 2 ^ j) longest⟩) := by
  have hstate (m : Nat) :
      stateBefore (AttemptLog.answerer outcomes) (.question ()) longest m initial {} =
        ⟨m, (List.range m).map fun j => min (initial * 2 ^ j) longest⟩ := by
    simp only [AttemptLog.stateBefore_eq, backoffAfter_eq hinitial, Nat.zero_add,
      List.nil_append]
  have hearlier (m : Nat) (hm : m < n) : isTransientFailure (outcomes (m + 1)) := by
    by_contra hfinal
    have hle := hn.2 (lastAttempt_succ_iff.2 (.inl (Bool.eq_false_iff.2 hfinal)))
    omega
  rw [run_withRetries (fun m hm => ?_) hretries ?_, hstate, AttemptLog.run_attempt]
  · rw [hstate]
    exact lastAttempt_succ_iff.1 hn.1
  · rw [hstate]
    exact hearlier m hm

/-- **Attempts follow the schedule**: they end with the first that succeeds, that fails for another
reason than the transport, or that has no retry left, and its outcome is the outcome of all. The
pauses between them double up to the longest one. Neither the count nor a pause runs over. -/
theorem withRetries_schedule (retries : UInt32) (initial longest : UInt64)
    (hinitial : initial ≤ longest) (outcomes : Nat → Except Error α) :
    ∃ k, IsLeast {n | LastAttempt retries.toNat outcomes n} k ∧
      ∃ log : AttemptLog,
        (withRetries longest.toNat (.question ()) retries.toNat initial.toNat).run
          (AttemptLog.answerer outcomes) {} = (outcomes k, log) ∧
        log.made = k ∧
        log.pauses = (List.range (k - 1)).map (fun j =>
          min (initial.toNat * 2 ^ j) longest.toNat) ∧
        log.slept = ∑ j ∈ Finset.range (k - 1), min (initial.toNat * 2 ^ j) longest.toNat ∧
        (countedRetries retries longest.toNat (.question ()) 0 initial.toNat).run
          (AttemptLog.answerer outcomes) {} = (some (outcomes k), log) := by
  have hle : initial.toNat ≤ longest.toNat := UInt64.le_iff_toNat_le.1 hinitial
  obtain ⟨n, hretries, hn⟩ := exists_isLeast_lastAttempt retries.toNat outcomes
  have hrun := run_outcomes hle hretries hn
  refine ⟨n + 1, hn, _, hrun, rfl, rfl, rfl, ?_⟩
  rw [countedRetries_eq longest.toNat_lt_size (Nat.zero_add _) hle, Dialogue.run_map, hrun]

namespace Sample

/-- Failures of the transport, and a success with the third attempt. -/
def thirdTime : Nat → Except Error String
  | 0 | 1 | 2 => .error (.transport .noWord)
  | _ => .ok "done"

end Sample

/-- The third attempt succeeds; the pause before it would double beyond the longest one. -/
theorem withRetries_schedule_capped :
    (200 : UInt64) ≤ 300 ∧ IsLeast {n | LastAttempt 5 Sample.thirdTime n} 3 ∧
      ∃ log : AttemptLog,
        (withRetries 300 (.question ()) 5 200).run (AttemptLog.answerer Sample.thirdTime) {} =
          (.ok "done", log) ∧
        log.made = 3 ∧ log.pauses = [200, 300] ∧ log.slept = 500 := by
  obtain ⟨k, hk, log, hrun, hmade, hpauses, hslept, -⟩ :=
    withRetries_schedule 5 200 300 (by decide) Sample.thirdTime
  have hthird : IsLeast {n | LastAttempt 5 Sample.thirdTime n} 3 := by
    refine ⟨lastAttempt_succ_iff.2 (.inl rfl), fun n hn => ?_⟩
    match n, hn with
    | 0, hn => exact nomatch hn.1
    | 1, hn => exact absurd (lastAttempt_succ_iff.1 hn) (by decide)
    | 2, hn => exact absurd (lastAttempt_succ_iff.1 hn) (by decide)
    | n + 3, _ => exact Nat.le_add_left 3 n
  obtain rfl : k = 3 := hk.unique hthird
  exact ⟨by decide, hthird, log, hrun, hmade, hpauses, hslept⟩

end StorageAtlas
