/-
`telemetry/policy.rs`: what the page does with each answer from the ingest. Every bound is an
induction over `Decision`; the length of a losing run needs a rank.
-/
import SovereignConfig.Lib.Rounding
import SovereignConfig.Lib.Word

namespace SovereignConfig.Web.Telemetry

open Lib List

/-! ## The policy -/

inductive Outcome where
  | Accepted (rejected : ℕ)
  | Status (status : ℕ) (retry_after_seconds : Option ℕ)
  | Unreachable
deriving DecidableEq

inductive Next where
  | Done
  | RetryAfter (milliseconds : ℕ)
  | RefreshThenRetry
  | Drop
  | Stop
deriving DecidableEq

inductive Transition where
  | FirstFailure (outcome : Outcome)
  | Recovered
  | PartiallyRejected (rejected : ℕ)
  | GaveUp (outcome : Outcome)
deriving DecidableEq

def MAX_RETRIES : ℕ := 3

def MAX_ABANDONED_BATCHES : ℕ := 3

def BASE_DELAY_MS : ℕ := 1000

def MAX_DELAY_MS : ℕ := 30000

def MAX_RETRY_AFTER_SECONDS : ℕ := 60

inductive Health where
  | Working
  | Failing
  | Stopped
deriving DecidableEq

structure Policy where
  health : Health
  refreshed_after_401 : Bool
  retries : ℕ
  abandoned : ℕ
  reported_partial : Bool
deriving DecidableEq

/-- `x as u32`: towards zero, and to the nearest bound when out of range. -/
def as_u32 (x : ℚ) : ℕ := min ⌊x⌋₊ (2 ^ 32 - 1)

/-- Exponential from one second, capped at thirty, then jittered down to between half and all
of it. `round` is the rounding of `f64`. -/
def backoff (round : ℚ → ℚ) (retry : ℕ) (jitter : ℚ) : Option ℕ :=
  (Word.shl 32 1 (min (retry - 1) 16)).map fun doublings =>
    let full := min (min (BASE_DELAY_MS * doublings) (2 ^ 32 - 1)) MAX_DELAY_MS
    let factor := round (1 / 2 + round (max 0 (min jitter 1) / 2))
    as_u32 (round (full * factor))

namespace Policy

def default : Policy where
  health := .Working
  refreshed_after_401 := false
  retries := 0
  abandoned := 0
  reported_partial := false

def first_failure (self : Policy) (outcome : Outcome) : Option Transition :=
  if self.health = .Working then some (.FirstFailure outcome) else none

def fail (self : Policy) (next : Next) (outcome : Outcome) :
    Policy × Next × Option Transition :=
  ({ self with health := .Failing }, next, self.first_failure outcome)

def stop (self : Policy) (outcome : Outcome) : Policy × Next × Option Transition :=
  ({ self with health := .Stopped }, .Stop, some (.GaveUp outcome))

def abandon (self : Policy) (outcome : Outcome) : Option (Policy × Next × Option Transition) :=
  (Word.checked 32 (self.abandoned + 1)).map fun abandoned =>
    if abandoned ≥ MAX_ABANDONED_BATCHES then
      stop { self with retries := 0, abandoned := abandoned } outcome
    else fail { self with retries := 0, abandoned := abandoned } .Drop outcome

def retry (round : ℚ → ℚ) (self : Policy) (outcome : Outcome)
    (retry_after_seconds : Option ℕ) (jitter : ℚ) : Option (Policy × Next × Option Transition) :=
  if self.retries ≥ MAX_RETRIES then self.abandon outcome
  else
    (Word.checked 32 (self.retries + 1)).bind fun retries =>
    (match retry_after_seconds with
      | none => backoff round retries jitter
      | some seconds => Word.checked 32 (min seconds MAX_RETRY_AFTER_SECONDS * 1000)).map
        fun delay => fail { self with retries := retries } (.RetryAfter delay) outcome

def accept (self : Policy) (rejected : ℕ) : Policy × Next × Option Transition :=
  let after := { default with reported_partial := self.reported_partial }
  if self.health = .Failing then (after, .Done, some .Recovered)
  else if rejected > 0 ∧ self.reported_partial = false then
    ({ after with reported_partial := true }, .Done, some (.PartiallyRejected rejected))
  else (after, .Done, none)

def decide (round : ℚ → ℚ) (self : Policy) (outcome : Outcome) (jitter : ℚ) :
    Option (Policy × Next × Option Transition) :=
  if self.health = .Stopped then some (self, .Stop, none)
  else
    match outcome with
    | .Accepted rejected => some (self.accept rejected)
    | .Status status retry_after_seconds =>
      if status = 401 then
        if self.refreshed_after_401 then some (self.stop outcome)
        else some (fail { self with refreshed_after_401 := true } .RefreshThenRetry outcome)
      else if status = 429 ∨ status = 502 ∨ status = 503 ∨ status = 504 then
        self.retry round outcome retry_after_seconds jitter
      else self.abandon outcome
    | .Unreachable => self.retry round outcome none jitter

end Policy

/-- The rounding of `f64`, down to its least positive number. -/
abbrev F64Dyadic (round : ℚ → ℚ) : Prop := DyadicRounding 53 1074 round

variable {round : ℚ → ℚ}

/-- **A backoff is at most its cap**: each rounding keeps below what it would be at the
largest jitter, where every step is exact. -/
theorem backoff_returns (hrou : F64Dyadic round) (retry : ℕ) (jitter : ℚ) :
    ∃ delay, backoff round retry jitter = some delay ∧ delay ≤ MAX_DELAY_MS := by
  have hshi : min (retry - 1) 16 < 32 := by omega
  refine ⟨_, by rw [backoff, Word.shl_of_lt hshi, Option.map_some], ?_⟩
  -- The undivided delay, whatever the retry.
  generalize hful : min (min (BASE_DELAY_MS * (1 * 2 ^ min (retry - 1) 16 % 2 ^ 32)) (2 ^ 32 - 1))
    MAX_DELAY_MS = full
  have hcap : full ≤ MAX_DELAY_MS := hful ▸ min_le_right _ _
  have hhal : round (max 0 (min jitter 1) / 2) ≤ ((1 : ℤ) : ℚ) / 2 ^ 1 := by
    refine hrou.le_of_le (by norm_num) (by norm_num) ?_
    have : max 0 (min jitter 1) ≤ 1 := max_le zero_le_one (min_le_right _ _)
    norm_num
    linarith
  have hfac : round (1 / 2 + round (max 0 (min jitter 1) / 2)) ≤ ((1 : ℤ) : ℚ) / 2 ^ 0 := by
    refine hrou.le_of_le (by norm_num) (by norm_num) ?_
    norm_num at hhal ⊢
    linarith
  have hdel : round (full * round (1 / 2 + round (max 0 (min jitter 1) / 2)))
      ≤ ((full : ℤ) : ℚ) / 2 ^ 0 := by
    refine hrou.le_of_le ?_ (by norm_num) ?_
    · rw [Nat.abs_cast]
      have hsma : full ≤ 2 ^ 53 := hcap.trans (by norm_num [MAX_DELAY_MS])
      exact_mod_cast hsma
    · have hnon : (0 : ℚ) ≤ full := Nat.cast_nonneg full
      norm_num at hfac ⊢
      nlinarith
  refine (min_le_left _ _).trans (le_trans ?_ hcap)
  refine Nat.floor_le_of_le ?_
  simpa using hdel

/-! ## What a decision can be -/

structure Answer where
  outcome : Outcome
  next : Next
  transition : Option Transition
deriving DecidableEq

def Outcome.accepted : Outcome → Bool
  | .Accepted _ => true
  | _ => false

def Policy.Bounded (self : Policy) : Prop :=
  self.health ≠ .Stopped →
    self.retries ≤ MAX_RETRIES ∧ self.abandoned < MAX_ABANDONED_BATCHES

inductive Attempt (self : Policy) : Next → Policy → Prop
  | refresh : self.refreshed_after_401 = false →
      Attempt self .RefreshThenRetry { self with refreshed_after_401 := true, health := .Failing }
  | retry {delay : ℕ} : self.retries < MAX_RETRIES →
      delay ≤ MAX_RETRY_AFTER_SECONDS * 1000 →
      Attempt self (.RetryAfter delay) { self with retries := self.retries + 1, health := .Failing }
  | drop : self.abandoned + 1 < MAX_ABANDONED_BATCHES →
      Attempt self .Drop
        { self with retries := 0, abandoned := self.abandoned + 1, health := .Failing }

inductive Decision (self : Policy) : Answer → Policy → Prop
  | stopped {outcome : Outcome} : self.health = .Stopped →
      Decision self ⟨outcome, .Stop, none⟩ self
  | recovered {rejected : ℕ} : self.health = .Failing →
      Decision self ⟨.Accepted rejected, .Done, some .Recovered⟩
        { Policy.default with reported_partial := self.reported_partial }
  | partially_rejected {rejected : ℕ} : self.health = .Working → self.reported_partial = false →
      Decision self ⟨.Accepted rejected, .Done, some (.PartiallyRejected rejected)⟩
        { Policy.default with reported_partial := true }
  | done {rejected : ℕ} : self.health = .Working →
      Decision self ⟨.Accepted rejected, .Done, none⟩
        { Policy.default with reported_partial := self.reported_partial }
  | failed {outcome : Outcome} {next : Next} {after : Policy} : self.health ≠ .Stopped →
      outcome.accepted = false → Attempt self next after →
      Decision self ⟨outcome, next, self.first_failure outcome⟩ after
  | gave_up {outcome : Outcome} {after : Policy} : self.health ≠ .Stopped →
      after.health = .Stopped → after.reported_partial = self.reported_partial →
      Decision self ⟨outcome, .Stop, some (.GaveUp outcome)⟩ after

def Decides (self : Policy) (outcome : Outcome)
    (result : Option (Policy × Next × Option Transition)) : Prop :=
  ∃ after next transition, result = some (after, next, transition) ∧
    Decision self ⟨outcome, next, transition⟩ after

section

variable {self : Policy} {outcome : Outcome}

theorem abandon_decides (hbou : self.Bounded) (hwor : self.health ≠ .Stopped)
    (href : outcome.accepted = false) : Decides self outcome (self.abandon outcome) := by
  have hcou := (hbou hwor).2
  have hfit : self.abandoned + 1 < 2 ^ 32 := by
    unfold MAX_ABANDONED_BATCHES at hcou
    omega
  rw [Policy.abandon, Word.checked_of_lt hfit, Option.map_some]
  by_cases hlas : self.abandoned + 1 ≥ MAX_ABANDONED_BATCHES
  · rw [if_pos hlas]
    exact ⟨_, _, _, rfl, .gave_up hwor rfl rfl⟩
  · rw [if_neg hlas]
    exact ⟨_, _, _, rfl, .failed hwor href (.drop (not_le.mp hlas))⟩

theorem retry_decides (hrou : F64Dyadic round) (hbou : self.Bounded)
    (hwor : self.health ≠ .Stopped) (href : outcome.accepted = false)
    (retry_after_seconds : Option ℕ) (jitter : ℚ) :
    Decides self outcome (self.retry round outcome retry_after_seconds jitter) := by
  unfold Policy.retry
  by_cases hmos : self.retries ≥ MAX_RETRIES
  · rw [if_pos hmos]
    exact abandon_decides hbou hwor href
  · rw [if_neg hmos]
    have hfew : self.retries < MAX_RETRIES := not_le.mp hmos
    have hfit : self.retries + 1 < 2 ^ 32 := by
      unfold MAX_RETRIES at hfew
      omega
    rw [Word.checked_of_lt hfit, Option.bind_some]
    cases retry_after_seconds with
    | none =>
      obtain ⟨delay, hdel, hcap⟩ := backoff_returns hrou (self.retries + 1) jitter
      refine ⟨_, _, _, congrArg (Option.map _) hdel, .failed hwor href (.retry hfew ?_)⟩
      exact hcap.trans (by decide)
    | some seconds =>
      have hmin : min seconds MAX_RETRY_AFTER_SECONDS * 1000 ≤ MAX_RETRY_AFTER_SECONDS * 1000 :=
        Nat.mul_le_mul_right 1000 (min_le_right _ _)
      have hword := Word.checked_of_lt (w := 32) (lt_of_le_of_lt hmin (by decide))
      exact ⟨_, _, _, congrArg (Option.map _) hword,
        .failed hwor href (.retry hfew hmin)⟩

theorem accept_decides (hwork : self.health ≠ .Stopped) (rejected : ℕ) :
    Decides self (.Accepted rejected) (some (self.accept rejected)) := by
  unfold Policy.accept
  by_cases hfai : self.health = .Failing
  · rw [if_pos hfai]
    exact ⟨_, _, _, rfl, .recovered hfai⟩
  · have hwor : self.health = .Working := by
      cases hhea : self.health with
      | Working => rfl
      | Failing => exact absurd hhea hfai
      | Stopped => exact absurd hhea hwork
    rw [if_neg hfai]
    by_cases hpar : rejected > 0 ∧ self.reported_partial = false
    · rw [if_pos hpar]
      exact ⟨_, _, _, rfl, .partially_rejected hwor hpar.2⟩
    · rw [if_neg hpar]
      exact ⟨_, _, _, rfl, .done hwor⟩

theorem decide_decides (hrou : F64Dyadic round) (hbou : self.Bounded) (outcome : Outcome)
    (jitter : ℚ) : Decides self outcome (self.decide round outcome jitter) := by
  unfold Policy.decide
  by_cases hsto : self.health = .Stopped
  · rw [if_pos hsto]
    exact ⟨_, _, _, rfl, .stopped hsto⟩
  · rw [if_neg hsto]
    cases outcome with
    | Accepted rejected => exact accept_decides hsto rejected
    | Unreachable => exact retry_decides hrou hbou hsto rfl none jitter
    | Status status retry_after_seconds =>
      by_cases huna : status = 401
      · simp only [if_pos huna]
        by_cases href : self.refreshed_after_401 = true
        · rw [if_pos href]
          exact ⟨_, _, _, rfl, .gave_up hsto rfl rfl⟩
        · rw [if_neg href]
          exact ⟨_, _, _, rfl, .failed hsto rfl (.refresh (by simpa using href))⟩
      · simp only [if_neg huna]
        by_cases hbus : status = 429 ∨ status = 502 ∨ status = 503 ∨ status = 504
        · rw [if_pos hbus]
          exact retry_decides hrou hbou hsto rfl retry_after_seconds jitter
        · rw [if_neg hbus]
          exact abandon_decides hbou hsto rfl

end

variable {after self : Policy} {next : Next} {answer : Answer} {answers : List Answer}

theorem Attempt.bounded (h : Attempt self next after)
    (hbou : self.retries ≤ MAX_RETRIES ∧ self.abandoned < MAX_ABANDONED_BATCHES) :
    after.Bounded := by
  intro _
  cases h with
  | refresh => exact hbou
  | retry hfew => exact ⟨hfew, hbou.2⟩
  | drop hfew => exact ⟨Nat.zero_le _, hfew⟩

theorem Decision.bounded (h : Decision self answer after) (hbou : self.Bounded) :
    after.Bounded := by
  have hzer : 0 < MAX_ABANDONED_BATCHES := by decide
  have hdef : ∀ reported, ({ Policy.default with reported_partial := reported }).Bounded :=
    fun _ _ => ⟨Nat.zero_le _, hzer⟩
  cases h with
  | stopped => exact hbou
  | recovered => exact hdef _
  | partially_rejected => exact hdef _
  | done => exact hdef _
  | failed hwor _ hatt => exact hatt.bounded (hbou hwor)
  | gave_up _ hsto => exact fun hwor => absurd hsto hwor

/-! ## Whole runs -/

def Policy.run (round : ℚ → ℚ) : Policy → List (Outcome × ℚ) → Option (List Answer)
  | _, [] => some []
  | self, (outcome, jitter) :: rest =>
    (self.decide round outcome jitter).bind fun (after, next, transition) =>
      (Policy.run round after rest).map (⟨outcome, next, transition⟩ :: ·)

inductive Decisions : Policy → List Answer → Prop
  | nil {self : Policy} : Decisions self []
  | cons {self after : Policy} {answer : Answer} {rest : List Answer} :
      Decision self answer after → Decisions after rest → Decisions self (answer :: rest)

theorem run_decisions (hrou : F64Dyadic round) (hbou : self.Bounded)
    (inputs : List (Outcome × ℚ)) :
    ∃ answers, self.run round inputs = some answers ∧
      answers.map (·.outcome) = inputs.map (·.1) ∧ Decisions self answers := by
  induction inputs generalizing self with
  | nil => exact ⟨[], rfl, rfl, .nil⟩
  | cons input rest ih =>
    obtain ⟨outcome, jitter⟩ := input
    obtain ⟨after, next, transition, hdecid, hdec⟩ :=
      decide_decides hrou hbou outcome jitter
    obtain ⟨answers, hrun, hout, hdeci⟩ := ih (hdec.bounded hbou)
    refine ⟨⟨outcome, next, transition⟩ :: answers, ?_, congrArg (outcome :: ·) hout,
      .cons hdec hdeci⟩
    rw [Policy.run, hdecid]
    exact congrArg (Option.map _) hrun

theorem Decisions.stretch {before middle after : List Answer}
    (h : Decisions self (before ++ middle ++ after)) (hbou : self.Bounded) :
    ∃ from_policy : Policy, from_policy.Bounded ∧ Decisions from_policy middle := by
  induction before generalizing self with
  | cons answer rest ih =>
    cases h with
    | cons hdec hres => exact ih hres (hdec.bounded hbou)
  | nil =>
    refine ⟨self, hbou, ?_⟩
    clear hbou
    rw [nil_append] at h
    induction middle generalizing self with
    | nil => exact .nil
    | cons answer rest ih =>
      cases h with
      | cons hdec hres => exact .cons hdec (ih hres)

theorem Decisions.of_stopped (h : Decisions self answers) (hsto : self.health = .Stopped) :
    ∀ answer ∈ answers, answer.next = .Stop ∧ answer.transition = none := by
  induction h with
  | nil => simp
  | cons hdec _ ih =>
    rw [forall_mem_cons]
    cases hdec with
    | stopped => exact ⟨⟨rfl, rfl⟩, ih hsto⟩
    | recovered hfai => exact absurd (hsto.symm.trans hfai) (by decide)
    | partially_rejected hwor => exact absurd (hsto.symm.trans hwor) (by decide)
    | done hwor => exact absurd (hsto.symm.trans hwor) (by decide)
    | failed hwork => exact absurd hsto hwork
    | gave_up hwork => exact absurd hsto hwork

theorem Attempt.works (h : Attempt self next after) : after.health ≠ .Stopped := by
  cases h <;> exact nofun

theorem Attempt.next_ne_stop (h : Attempt self next after) : next ≠ .Stop := by
  cases h <;> exact nofun

theorem Decision.stops (h : Decision self answer after) (hstop : answer.next = .Stop) :
    after.health = .Stopped := by
  cases h with
  | stopped hsto => exact hsto
  | recovered => exact absurd hstop nofun
  | partially_rejected => exact absurd hstop nofun
  | done => exact absurd hstop nofun
  | failed _ _ hatt => exact absurd hstop hatt.next_ne_stop
  | gave_up _ hsto => exact hsto

theorem Decisions.after_stop {after : List Answer} (h : Decisions self (answer :: after))
    (hsto : answer.next = .Stop) :
    ∀ later ∈ after, later.next = .Stop ∧ later.transition = none := by
  cases h with
  | cons hdec hres => exact hres.of_stopped (hdec.stops hsto)

def Next.settles : Next → Bool
  | .Done | .Drop | .Stop => true
  | .RetryAfter _ | .RefreshThenRetry => false

def Next.retries : Next → Bool
  | .RetryAfter _ => true
  | _ => false

theorem Decision.attempt (h : Decision self answer after) (hgoe : answer.next ≠ .Stop)
    (href : answer.next ≠ .Done ∨ answer.outcome.accepted = false) :
    Attempt self answer.next after := by
  have hdon : ∀ rejected transition,
      ¬ ((⟨.Accepted rejected, .Done, transition⟩ : Answer).next ≠ .Done ∨
        (⟨.Accepted rejected, .Done, transition⟩ : Answer).outcome.accepted = false) := by
    simp [Outcome.accepted]
  cases h with
  | stopped => exact absurd rfl hgoe
  | recovered => exact absurd href (hdon _ _)
  | partially_rejected => exact absurd href (hdon _ _)
  | done => exact absurd href (hdon _ _)
  | failed _ _ hatt => exact hatt
  | gave_up => exact absurd rfl hgoe

theorem Decisions.attempts (h : Decisions self answers)
    (hope : ∀ answer ∈ answers, answer.next.settles = false) :
    answers.countP (·.next.retries) ≤ MAX_RETRIES - self.retries ∧
      answers.countP (·.next = .RefreshThenRetry) ≤ if self.refreshed_after_401 then 0 else 1 := by
  induction h with
  | nil => exact ⟨Nat.zero_le _, Nat.zero_le _⟩
  | @cons self after answer rest hdec _ ih =>
    rw [forall_mem_cons] at hope
    obtain ⟨hfir, hres⟩ := hope
    obtain ⟨hret, href⟩ := ih hres
    have hatt : Attempt self answer.next after := by
      refine hdec.attempt (fun hnex => ?_) (.inl fun hnex => ?_)
      · rw [hnex] at hfir
        exact nomatch hfir
      · rw [hnex] at hfir
        exact nomatch hfir
    rw [countP_cons, countP_cons]
    generalize answer.next = next at hatt hfir
    cases hatt with
    | refresh hnev =>
      rw [hnev]
      exact ⟨hret, Nat.add_le_add_right href 1⟩
    | retry hfew =>
      refine ⟨?_, href⟩
      show rest.countP (·.next.retries) + 1 ≤ _
      have : rest.countP (·.next.retries) ≤ MAX_RETRIES - (self.retries + 1) := hret
      omega
    | drop => exact nomatch hfir

def Policy.rank (self : Policy) : ℕ :=
  (MAX_ABANDONED_BATCHES - self.abandoned) * (MAX_RETRIES + 1) - self.retries
    + if self.refreshed_after_401 then 0 else 1

theorem Policy.Bounded.rank_pos (h : self.Bounded) (hwor : self.health ≠ .Stopped) :
    0 < self.rank := by
  obtain ⟨hret, haba⟩ := h hwor
  unfold Policy.rank MAX_ABANDONED_BATCHES at *
  unfold MAX_RETRIES at *
  omega

theorem Policy.rank_le (self : Policy) :
    self.rank ≤ MAX_ABANDONED_BATCHES * (MAX_RETRIES + 1) + 1 := by
  unfold Policy.rank MAX_ABANDONED_BATCHES MAX_RETRIES
  split <;> omega

theorem Attempt.rank_lt (h : Attempt self next after)
    (hbou : self.retries ≤ MAX_RETRIES ∧ self.abandoned < MAX_ABANDONED_BATCHES) :
    after.rank < self.rank := by
  obtain ⟨hret, haba⟩ := hbou
  cases h with
  | refresh hnev =>
    simp only [Policy.rank, hnev, if_true, Bool.false_eq_true, if_false]
    omega
  | retry hfew =>
    simp only [Policy.rank, MAX_ABANDONED_BATCHES, MAX_RETRIES] at *
    omega
  | drop hfew =>
    simp only [Policy.rank, MAX_ABANDONED_BATCHES, MAX_RETRIES] at *
    omega

theorem Decisions.losing (h : Decisions self answers) (hbou : self.Bounded)
    (hwor : self.health ≠ .Stopped)
    (hlos : ∀ answer ∈ answers, answer.outcome.accepted = false ∧ answer.next ≠ .Stop) :
    answers.length < self.rank := by
  induction h with
  | nil => exact hbou.rank_pos hwor
  | cons hdec _ ih =>
    rw [forall_mem_cons] at hlos
    obtain ⟨⟨href, hgoe⟩, hres⟩ := hlos
    have hatt := hdec.attempt hgoe (.inr href)
    have hcos := hatt.rank_lt (hbou hwor)
    have hsho := ih (hdec.bounded hbou) hatt.works hres
    rw [length_cons]
    omega

theorem Decisions.delay_le (h : Decisions self answers) :
    ∀ answer ∈ answers, ∀ delay, answer.next = .RetryAfter delay →
      delay ≤ MAX_RETRY_AFTER_SECONDS * 1000 := by
  induction h with
  | nil => simp
  | @cons self after answer rest hdec _ ih =>
    rw [forall_mem_cons]
    refine ⟨fun delay hdel => ?_, ih⟩
    have hatt : Attempt self answer.next after := by
      refine hdec.attempt ?_ (.inl ?_)
      · rw [hdel]
        exact nofun
      · rw [hdel]
        exact nofun
    rw [hdel] at hatt
    cases hatt with
    | retry _ hcap => exact hcap

/-! ### Transitions -/

def transitions (answers : List Answer) : List Transition := answers.filterMap (·.transition)

/-- First failures and recoveries take turns; `failing` says whether a first failure came
last. -/
def Alternate : Bool → List Transition → Prop
  | _, [] => True
  | failing, .FirstFailure _ :: rest => failing = false ∧ Alternate true rest
  | failing, .Recovered :: rest => failing = true ∧ Alternate false rest
  | failing, .PartiallyRejected _ :: rest => Alternate failing rest
  | failing, .GaveUp _ :: rest => Alternate failing rest

def Transition.gave_up : Transition → Bool
  | .GaveUp _ => true
  | _ => false

def Transition.partially_rejected : Transition → Bool
  | .PartiallyRejected _ => true
  | _ => false

def Policy.failing (self : Policy) : Bool := self.health = .Failing

theorem transitions_cons_some {transition : Transition} (h : answer.transition = some transition)
    (rest : List Answer) :
    transitions (answer :: rest) = transition :: transitions rest :=
  filterMap_cons_some h

theorem transitions_cons_none (h : answer.transition = none) (rest : List Answer) :
    transitions (answer :: rest) = transitions rest :=
  filterMap_cons_none h

theorem Decisions.transitions_of_stopped (h : Decisions self answers)
    (hsto : self.health = .Stopped) : transitions answers = [] :=
  filterMap_eq_nil_iff.mpr fun answer hans => (h.of_stopped hsto answer hans).2

theorem Attempt.keeps (h : Attempt self next after) :
    after.health = .Failing ∧ after.reported_partial = self.reported_partial := by
  cases h <;> exact ⟨rfl, rfl⟩

theorem transitions_failed (hwor : self.health ≠ .Stopped) (outcome : Outcome) (next : Next)
    (rest : List Answer) :
    (self.health = .Working ∧ transitions (⟨outcome, next, self.first_failure outcome⟩ :: rest)
        = .FirstFailure outcome :: transitions rest) ∨
      (self.health = .Failing ∧ transitions (⟨outcome, next, self.first_failure outcome⟩ :: rest)
        = transitions rest) := by
  cases hhea : self.health with
  | Working => exact .inl ⟨rfl, transitions_cons_some (if_pos hhea) rest⟩
  | Failing => exact .inr ⟨rfl, transitions_cons_none (if_neg (by simp [hhea])) rest⟩
  | Stopped => exact absurd hhea hwor

theorem Decisions.alternate (h : Decisions self answers) :
    Alternate self.failing (transitions answers) := by
  induction h with
  | nil => trivial
  | @cons self after answer rest hdec hres ih =>
    cases hdec with
    | stopped => exact ih
    | recovered hfai => exact ⟨by simp [Policy.failing, hfai], ih⟩
    | partially_rejected hwor =>
      have hnot : self.failing = false := by simp [Policy.failing, hwor]
      rw [hnot]
      exact ih
    | done hwor =>
      have hnot : self.failing = false := by simp [Policy.failing, hwor]
      rw [hnot]
      exact ih
    | @failed outcome next _ hwork _ hatt =>
      have hfail : after.failing = true := by simp [Policy.failing, hatt.keeps.1]
      rw [hfail] at ih
      rcases transitions_failed hwork outcome next rest with ⟨hhea, heq⟩ | ⟨hhea, heq⟩
      · rw [heq]
        exact ⟨by simp [Policy.failing, hhea], ih⟩
      · have hfai : self.failing = true := by simp [Policy.failing, hhea]
        rw [heq, hfai]
        exact ih
    | gave_up _ hsto =>
      show Alternate self.failing (_ :: transitions rest)
      rw [hres.transitions_of_stopped hsto]
      trivial

theorem Decisions.once (h : Decisions self answers) :
    (transitions answers).countP (·.gave_up) ≤ 1 ∧
      (transitions answers).countP (·.partially_rejected)
        ≤ if self.reported_partial then 0 else 1 := by
  induction h with
  | nil => exact ⟨Nat.zero_le _, Nat.zero_le _⟩
  | @cons self after answer rest hdec hres ih =>
    cases hdec with
    | stopped => exact ih
    | recovered => exact ih
    | partially_rejected _ hnev =>
      rw [hnev, transitions_cons_some rfl, countP_cons, countP_cons]
      exact ⟨ih.1, Nat.add_le_add_right ih.2 1⟩
    | done => exact ih
    | @failed outcome next _ hwor _ hatt =>
      rw [hatt.keeps.2] at ih
      rcases transitions_failed hwor outcome next rest with ⟨-, heq⟩ | ⟨-, heq⟩
      · rw [heq, countP_cons, countP_cons]
        exact ih
      · rw [heq]
        exact ih
    | gave_up _ hsto =>
      rw [transitions_cons_some rfl, hres.transitions_of_stopped hsto]
      exact ⟨le_rfl, Nat.zero_le _⟩

/-- **The export policy is bounded.** -/
theorem export_policy_is_bounded (hround : F64Dyadic round) (inputs : List (Outcome × ℚ)) :
    ∃ answers, Policy.default.run round inputs = some answers ∧
      answers.map (·.outcome) = inputs.map (·.1) ∧
      (∀ before answer after, answers = before ++ answer :: after → answer.next = .Stop →
        ∀ later ∈ after, later.next = .Stop ∧ later.transition = none) ∧
      (∀ before middle after, answers = before ++ middle ++ after →
        (∀ answer ∈ middle, answer.next.settles = false) →
        middle.countP (·.next.retries) ≤ MAX_RETRIES ∧
          middle.countP (·.next = .RefreshThenRetry) ≤ 1) ∧
      (∀ before middle after, answers = before ++ middle ++ after →
        (∀ answer ∈ middle, answer.outcome.accepted = false ∧ answer.next ≠ .Stop) →
        middle.length < MAX_ABANDONED_BATCHES * (MAX_RETRIES + 1) + 1) ∧
      (∀ answer ∈ answers, ∀ delay, answer.next = .RetryAfter delay → delay ≤ 60000) ∧
      Alternate false (transitions answers) ∧
      (transitions answers).countP (·.gave_up) ≤ 1 ∧
      (transitions answers).countP (·.partially_rejected) ≤ 1 := by
  have hbou : Policy.default.Bounded := fun _ => ⟨Nat.zero_le _, by decide⟩
  obtain ⟨answers, hrun, hout, hdec⟩ := run_decisions hround hbou inputs
  refine ⟨answers, hrun, hout, ?_, ?_, ?_, hdec.delay_le, hdec.alternate,
    hdec.once⟩
  · intro before answer after heq
    subst heq
    rw [← append_nil (answer :: after), ← append_assoc] at hdec
    obtain ⟨self, -, hstr⟩ := hdec.stretch hbou
    exact hstr.after_stop
  · intro before middle after heq hope
    subst heq
    obtain ⟨self, -, hstr⟩ := hdec.stretch hbou
    obtain ⟨hret, href⟩ := hstr.attempts hope
    refine ⟨hret.trans (Nat.sub_le _ _), href.trans ?_⟩
    split <;> decide
  · intro before middle after heq hlos
    subst heq
    obtain ⟨self, hsel, hstr⟩ := hdec.stretch hbou
    by_cases hsto : self.health = .Stopped
    · -- Nothing follows from a policy that has stopped but `Stop`.
      cases middle with
      | nil => decide
      | cons answer rest =>
        have hstop := hstr.of_stopped hsto answer mem_cons_self
        exact absurd hstop.1 (hlos answer mem_cons_self).2
    · exact (hstr.losing hsel hsto hlos).trans_le self.rank_le

/-- A page that was not answered, then was: one failure and one recovery on the console. -/
theorem recovers_after_unreachable :
    ∃ answers, Policy.default.run id [(.Unreachable, 0), (.Accepted 0, 0)] = some answers ∧
      answers = [⟨.Unreachable, .RetryAfter 500, some (.FirstFailure .Unreachable)⟩,
        ⟨.Accepted 0, .Done, some .Recovered⟩] ∧
      Alternate false (transitions answers) := by
  obtain ⟨answers, hrun, -, -, -, -, -, halt, -⟩ :=
    export_policy_is_bounded (DyadicRounding.id 53 1074) [(.Unreachable, 0), (.Accepted 0, 0)]
  have hans : Policy.default.run id [(.Unreachable, 0), (.Accepted 0, 0)]
      = some [⟨.Unreachable, .RetryAfter 500, some (.FirstFailure .Unreachable)⟩,
        ⟨.Accepted 0, .Done, some .Recovered⟩] := by decide +kernel
  exact ⟨answers, hrun, Option.some.inj (hrun.symm.trans hans), halt⟩

/-- The bound on a losing run is reached: a refused token, then an ingest that is down. -/
example : (Policy.default.run id
      ((.Status 401 none, 0) :: List.replicate 12 (.Unreachable, 0))).map
    (fun answers => answers.findIdx (·.next = .Stop)) = some 12 := by decide +kernel

end SovereignConfig.Web.Telemetry
