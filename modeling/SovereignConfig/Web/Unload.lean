/-
`telemetry/mod.rs`: the exporter's two buffers, its parked batch and the page-hide flush.
`take_batch` always moves one record, so the test before it keeps the budget. The ledger is no part
of the code.
-/
import SovereignConfig.Lib.Ledger
import SovereignConfig.Web.Buffer

namespace SovereignConfig.Web.Telemetry

open Lib Text List Ledger

/-! ## The exporter -/

inductive Signal where
  | Logs
  | Traces
deriving DecidableEq

def Signal.ALL : List Signal := [.Logs, .Traces]

def MAX_BUFFERED_ITEMS : ℕ := 500

def MAX_BUFFERED_BYTES : ℕ := 256 * 1024

def MAX_BATCH_ITEMS : ℕ := 100

def MAX_UNLOAD_BATCH_BYTES : ℕ := 48 * 1024

abbrev Batches : Type := List (Signal × List Text)

structure Exporter where
  logs : Buffer
  traces : Buffer
  /-- a batch that has been tried and is waiting to be tried again -/
  pending : Option (Signal × List Text)
deriving DecidableEq

namespace Exporter

def with_bounds (max_records max_bytes : Signal → ℕ) : Exporter where
  logs := Buffer.new (max_records .Logs) (max_bytes .Logs)
  traces := Buffer.new (max_records .Traces) (max_bytes .Traces)
  pending := none

def new : Exporter := with_bounds (fun _ => MAX_BUFFERED_ITEMS) fun _ => MAX_BUFFERED_BYTES

def buffer (self : Exporter) : Signal → Buffer
  | .Logs => self.logs
  | .Traces => self.traces

def set_buffer (self : Exporter) (signal : Signal) (buffer : Buffer) : Exporter :=
  match signal with
  | .Logs => { self with logs := buffer }
  | .Traces => { self with traces := buffer }

def clear (self : Exporter) : Exporter where
  logs := self.logs.clear
  traces := self.traces.clear
  pending := none

theorem buffer_set_buffer (self : Exporter) (signal other : Signal) (buffer : Buffer) :
    (self.set_buffer signal buffer).buffer other
      = if other = signal then buffer else self.buffer other := by
  cases signal <;> cases other <;> rfl

theorem pending_set_buffer (self : Exporter) (signal : Signal) (buffer : Buffer) :
    (self.set_buffer signal buffer).pending = self.pending := by
  cases signal <;> rfl

theorem buffer_with_bounds (max_records max_bytes : Signal → ℕ) (signal : Signal) :
    (with_bounds max_records max_bytes).buffer signal
      = Buffer.new (max_records signal) (max_bytes signal) := by
  cases signal <;> rfl

theorem buffer_clear (self : Exporter) (signal : Signal) :
    self.clear.buffer signal = (self.buffer signal).clear := by
  cases signal <;> rfl

end Exporter

/-! ## The page-hide flush (`unload_batches`) -/

structure Unload where
  exporter : Exporter
  budget : ℕ
  batches : Batches

def unload_pending (exporter : Exporter) : Option Unload :=
  match exporter.pending with
  | some (signal, pending) =>
    if total pending ≤ MAX_UNLOAD_BATCH_BYTES then
      (usize_sub MAX_UNLOAD_BATCH_BYTES (total pending)).map fun budget =>
        ⟨{ exporter with pending := none }, budget, [(signal, pending)]⟩
    else some ⟨exporter, MAX_UNLOAD_BATCH_BYTES, []⟩
  | none => some ⟨exporter, MAX_UNLOAD_BATCH_BYTES, []⟩

def already (batches : Batches) (signal : Signal) : ℕ :=
  ((batches.filter (·.1 = signal)).map (·.2.length)).sum

def queue_batch (signal : Signal) (batch : List Text) : Batches → Batches
  | [] => [(signal, batch)]
  | (queued, records) :: rest =>
    if queued = signal then (queued, records ++ batch) :: rest
    else (queued, records) :: queue_batch signal batch rest

def unload_signal (self : Unload) (signal : Signal) : Option Unload :=
  if self.budget = 0 ∨ already self.batches signal ≥ MAX_BATCH_ITEMS then some self
  else if ((self.exporter.buffer signal).front_len).any (· ≤ self.budget) then
    (usize_sub MAX_BATCH_ITEMS (already self.batches signal)).bind fun limit =>
    ((self.exporter.buffer signal).take_batch limit self.budget).bind fun (batch, buffer) =>
    (usize_sub self.budget (total batch)).map fun budget =>
      ⟨self.exporter.set_buffer signal buffer, budget, queue_batch signal batch self.batches⟩
  else some self

def unload_batches (exporter : Exporter) : Option (Batches × Exporter) :=
  (unload_pending exporter).bind fun start =>
    (Signal.ALL.foldlM unload_signal start).map fun state => (state.batches, state.exporter)

/-! ## What the flush returns -/

def returned (batches : Batches) (signal : Signal) : List Text :=
  (batches.filter (·.1 = signal)).flatMap (·.2)

def spent (batches : Batches) : ℕ := (batches.map fun batch => total batch.2).sum

theorem already_eq (batches : Batches) (signal : Signal) :
    already batches signal = (returned batches signal).length := by
  simp [already, returned, length_flatMap]

theorem length_le_returned {batches : Batches} {batch : Signal × List Text}
    (h : batch ∈ batches) : batch.2.length ≤ (returned batches batch.1).length := by
  have hmem : batch.2 ∈ (batches.filter (·.1 = batch.1)).map (·.2) :=
    mem_map_of_mem (mem_filter.mpr ⟨h, by simp⟩)
  exact (sublist_flatten_of_mem hmem).length_le

theorem returned_cons (batch : Signal × List Text) (batches : Batches) (signal : Signal) :
    returned (batch :: batches) signal
      = (if batch.1 = signal then batch.2 else []) ++ returned batches signal := by
  by_cases h : batch.1 = signal
  · simp [returned, h]
  · simp [returned, h]

variable {signal : Signal} {before : Exporter} {state : Unload}

theorem returned_eq_nil {batches : Batches} (h : signal ∉ batches.map (·.1)) :
    returned batches signal = [] := by
  induction batches with
  | nil => rfl
  | cons batch rest ih =>
    rw [map_cons, mem_cons, not_or] at h
    rw [returned_cons, if_neg (Ne.symm h.1), ih h.2, nil_append]

theorem mem_queue_batch (signal : Signal) (batch : List Text) (batches : Batches)
    (other : Signal) :
    other ∈ (queue_batch signal batch batches).map (·.1)
      ↔ other = signal ∨ other ∈ batches.map (·.1) := by
  induction batches with
  | nil => simp [queue_batch]
  | cons first rest ih =>
    obtain ⟨queued, records⟩ := first
    by_cases h : queued = signal
    · subst h
      simp [queue_batch]
    · rw [queue_batch, if_neg h, map_cons, mem_cons, ih, map_cons, mem_cons]
      tauto

theorem nodup_queue_batch (signal : Signal) (batch : List Text) {batches : Batches}
    (h : (batches.map (·.1)).Nodup) : ((queue_batch signal batch batches).map (·.1)).Nodup := by
  induction batches with
  | nil => simp [queue_batch]
  | cons first rest ih =>
    obtain ⟨queued, records⟩ := first
    rw [map_cons, nodup_cons] at h
    by_cases hque : queued = signal
    · rw [queue_batch, if_pos hque, map_cons, nodup_cons]
      exact h
    · rw [queue_batch, if_neg hque, map_cons, nodup_cons]
      refine ⟨fun hmem => ?_, ih h.2⟩
      rcases (mem_queue_batch signal batch rest queued).mp hmem with heq | hres
      · exact hque heq
      · exact h.1 hres

theorem returned_queue_batch (signal : Signal) (batch : List Text) {batches : Batches}
    (h : (batches.map (·.1)).Nodup) (other : Signal) :
    returned (queue_batch signal batch batches) other
      = returned batches other ++ if signal = other then batch else [] := by
  induction batches with
  | nil =>
    rw [queue_batch, returned_cons]
    exact append_nil _
  | cons first rest ih =>
    obtain ⟨queued, records⟩ := first
    rw [map_cons, nodup_cons] at h
    by_cases hque : queued = signal
    · subst hque
      rw [queue_batch, if_pos rfl, returned_cons, returned_cons]
      by_cases hoth : queued = other
      · subst hoth
        -- No other batch is for this signal, so the records it gains are its last.
        simp [returned_eq_nil h.1]
      · simp [hoth]
    · rw [queue_batch, if_neg hque, returned_cons, returned_cons, ih h.2, append_assoc]

theorem spent_queue_batch (signal : Signal) (batch : List Text) (batches : Batches) :
    spent (queue_batch signal batch batches) = spent batches + total batch := by
  induction batches with
  | nil => simp [queue_batch, spent]
  | cons first rest ih =>
    obtain ⟨queued, records⟩ := first
    by_cases hque : queued = signal
    · simp only [queue_batch, if_pos hque, spent, map_cons, sum_cons, total_append]
      omega
    · simp only [queue_batch, if_neg hque, spent, map_cons, sum_cons] at ih ⊢
      omega

def Exporter.parked (self : Exporter) (signal : Signal) : List Text :=
  match self.pending with
  | some (of, batch) => if of = signal then batch else []
  | none => []

def unparked (before after : Exporter) (signal : Signal) : List Text :=
  if after.pending = none then before.parked signal else []

/-- What `unload_batches` has done with `before` when it has returned `batches` and left
`after`: it takes a parked batch whole or leaves it, and takes records from the front of the
buffers. -/
structure Unloaded (before after : Exporter) (batches : Batches) : Prop where
  signals : (batches.map (·.1)).Nodup
  few : ∀ signal, (returned batches signal).length ≤ MAX_BATCH_ITEMS
  parked : after.pending = none ∨ after.pending = before.pending
  moved : ∀ signal, ∃ taken, returned batches signal = unparked before after signal ++ taken ∧
    (before.buffer signal).records = taken ++ (after.buffer signal).records
  bounds : ∀ signal, (after.buffer signal).max_records = (before.buffer signal).max_records ∧
    (after.buffer signal).max_bytes = (before.buffer signal).max_bytes ∧
    (after.buffer signal).dropped = (before.buffer signal).dropped

structure Unloading (before : Exporter) (state : Unload) : Prop where
  kept : ∀ signal, (state.exporter.buffer signal).Kept
  within : spent state.batches + state.budget = MAX_UNLOAD_BATCH_BYTES
  unloaded : Unloaded before state.exporter state.batches

theorem parked_length {exporter : Exporter}
    (h : ∀ signal batch, exporter.pending = some (signal, batch) → batch.length ≤ MAX_BATCH_ITEMS)
    (signal : Signal) : (exporter.parked signal).length ≤ MAX_BATCH_ITEMS := by
  unfold Exporter.parked
  split
  · rename_i of batch hpen
    split
    · exact h of batch hpen
    · exact Nat.zero_le _
  · exact Nat.zero_le _

theorem unloading_start {exporter : Exporter} (hkep : ∀ signal, (exporter.buffer signal).Kept)
    (hnone : ∀ signal, unparked exporter exporter signal = []) :
    Unloading exporter ⟨exporter, MAX_UNLOAD_BATCH_BYTES, []⟩ where
  kept := hkep
  within := Nat.zero_add _
  unloaded :=
    { signals := nodup_nil
      few := fun _ => Nat.zero_le _
      parked := .inr rfl
      moved := fun signal => ⟨[], by rw [hnone]; rfl, rfl⟩
      bounds := fun _ => ⟨rfl, rfl, rfl⟩ }

theorem unload_pending_returns {exporter : Exporter}
    (hkep : ∀ signal, (exporter.buffer signal).Kept)
    (hpen : ∀ signal batch, exporter.pending = some (signal, batch) →
      batch.length ≤ MAX_BATCH_ITEMS) :
    ∃ state, unload_pending exporter = some state ∧ Unloading exporter state := by
  obtain ⟨logs, traces, pending⟩ := exporter
  cases pending with
  | none => exact ⟨_, rfl, unloading_start hkep fun _ => rfl⟩
  | some parked =>
    obtain ⟨signal, batch⟩ := parked
    by_cases hfit : total batch ≤ MAX_UNLOAD_BATCH_BYTES
    · have hsub : usize_sub MAX_UNLOAD_BATCH_BYTES (total batch)
          = some (MAX_UNLOAD_BATCH_BYTES - total batch) := if_pos hfit
      refine ⟨⟨⟨logs, traces, none⟩, MAX_UNLOAD_BATCH_BYTES - total batch, [(signal, batch)]⟩, ?_,
        ?_⟩
      · simp only [unload_pending, if_pos hfit, hsub, Option.map_some]
      · have hret : ∀ other, returned [(signal, batch)] other
            = (⟨logs, traces, some (signal, batch)⟩ : Exporter).parked other :=
          fun other => (returned_cons _ _ _).trans (append_nil _)
        refine ⟨hkep, ?_, ⟨by simp, ?_, .inl rfl, ?_, fun _ => ⟨rfl, rfl, rfl⟩⟩⟩
        · show total batch + 0 + (MAX_UNLOAD_BATCH_BYTES - total batch) = _
          omega
        · intro other
          rw [hret]
          exact parked_length hpen other
        · exact fun other => ⟨[], by rw [hret, append_nil]; rfl, rfl⟩
    · refine ⟨_, ?_, unloading_start hkep fun _ => rfl⟩
      simp only [unload_pending, if_neg hfit]

theorem Unloading.take (h : Unloading before state) {batch : List Text} {buffer : Buffer}
    (hmov : (state.exporter.buffer signal).records = batch ++ buffer.records)
    (hkep : buffer.Kept)
    (hbou : buffer.max_records = (state.exporter.buffer signal).max_records ∧
      buffer.max_bytes = (state.exporter.buffer signal).max_bytes ∧
      buffer.dropped = (state.exporter.buffer signal).dropped)
    (hcou : (returned state.batches signal).length + batch.length ≤ MAX_BATCH_ITEMS)
    (hsiz : total batch ≤ state.budget) :
    Unloading before ⟨state.exporter.set_buffer signal buffer, state.budget - total batch,
      queue_batch signal batch state.batches⟩ := by
  have hret := returned_queue_batch signal batch h.unloaded.signals
  refine ⟨?_, ?_, nodup_queue_batch signal batch h.unloaded.signals, ?_, ?_, ?_, ?_⟩
  · intro other
    rw [Exporter.buffer_set_buffer]
    split
    · exact hkep
    · exact h.kept other
  · have := h.within
    show spent (queue_batch signal batch state.batches) + (state.budget - total batch) = _
    rw [spent_queue_batch]
    omega
  · intro other
    rw [hret, length_append]
    split
    · subst other
      exact hcou
    · exact h.unloaded.few other
  · rw [Exporter.pending_set_buffer]
    exact h.unloaded.parked
  · intro other
    obtain ⟨taken, hout, hres⟩ := h.unloaded.moved other
    have hunp : unparked before (state.exporter.set_buffer signal buffer) other
        = unparked before state.exporter other := by
      rw [unparked, Exporter.pending_set_buffer, unparked]
    rw [hret, Exporter.buffer_set_buffer, hunp, hout]
    by_cases hoth : signal = other
    · subst hoth
      refine ⟨taken ++ batch, ?_, ?_⟩
      · rw [if_pos rfl, append_assoc]
      · rw [if_pos rfl, hres, hmov, append_assoc]
    · refine ⟨taken, ?_, ?_⟩
      · rw [if_neg hoth, append_nil]
      · rw [if_neg (Ne.symm hoth), hres]
  · intro other
    rw [Exporter.buffer_set_buffer]
    by_cases hoth : other = signal
    · subst hoth
      rw [if_pos rfl, hbou.1, hbou.2.1, hbou.2.2]
      exact h.unloaded.bounds other
    · rw [if_neg hoth]
      exact h.unloaded.bounds other

/-- **A round keeps to the budget**: it takes nothing, or records from the front of one
buffer that fit what is left of both limits. -/
theorem unload_signal_returns (h : Unloading before state) (signal : Signal) :
    ∃ after, unload_signal state signal = some after ∧ Unloading before after := by
  unfold unload_signal
  by_cases hful : state.budget = 0 ∨ already state.batches signal ≥ MAX_BATCH_ITEMS
  · exact ⟨state, if_pos hful, h⟩
  rw [if_neg hful]
  by_cases hfit : ((state.exporter.buffer signal).front_len).any (· ≤ state.budget) = true
  swap
  · exact ⟨state, if_neg hfit, h⟩
  rw [if_pos hfit]
  rw [not_or, not_le] at hful
  have hlim : usize_sub MAX_BATCH_ITEMS (already state.batches signal)
      = some (MAX_BATCH_ITEMS - already state.batches signal) := if_pos hful.2.le
  obtain ⟨batch, buffer, htak, hmov, hkep, hrec, hbytes, hdro, hcou, hsiz⟩ :=
    Buffer.take_batch_returns (h.kept signal) (MAX_BATCH_ITEMS - already state.batches signal)
      state.budget
  -- The guard: the record that `take_batch` moves whatever its limit fits the budget.
  have hwit : total batch ≤ state.budget := by
    refine hsiz fun len hlen => ?_
    rw [Option.mem_def.mp hlen] at hfit
    exact of_decide_eq_true hfit
  have hbud : usize_sub state.budget (total batch) = some (state.budget - total batch) :=
    if_pos hwit
  refine ⟨_, ?_, h.take hmov hkep ⟨hrec, hbytes, hdro⟩ ?_ hwit⟩
  · simp only [hlim, htak, hbud, Option.bind_some, Option.map_some]
  · rw [already_eq] at hcou hful
    omega

theorem unload_batches_returns {exporter : Exporter}
    (hkep : ∀ signal, (exporter.buffer signal).Kept)
    (hpen : ∀ signal batch, exporter.pending = some (signal, batch) →
      batch.length ≤ MAX_BATCH_ITEMS) :
    ∃ batches after, unload_batches exporter = some (batches, after) ∧
      (∀ signal, (after.buffer signal).Kept) ∧ spent batches ≤ MAX_UNLOAD_BATCH_BYTES ∧
      Unloaded exporter after batches := by
  obtain ⟨start, hsta, hunl⟩ := unload_pending_returns hkep hpen
  have hloo : ∀ (signals : List Signal) (state : Unload), Unloading exporter state →
      ∃ final, signals.foldlM unload_signal state = some final ∧ Unloading exporter final := by
    intro signals
    induction signals with
    | nil => exact fun state h => ⟨state, rfl, h⟩
    | cons signal rest ih =>
      intro state h
      obtain ⟨next, hnex, hkee⟩ := unload_signal_returns h signal
      obtain ⟨final, hfin, hdon⟩ := ih next hkee
      refine ⟨final, ?_, hdon⟩
      rw [foldlM_cons, hnex]
      exact hfin
  obtain ⟨final, hfin, hdon⟩ := hloo Signal.ALL start hunl
  refine ⟨final.batches, final.exporter, ?_, hdon.kept, ?_, hdon.unloaded⟩
  · rw [unload_batches, hsta, Option.bind_some, hfin, Option.map_some]
  · have := hdon.within
    omega

/-! ## Whole runs -/

structure TakenBatch where
  records : List Text
  taken : ∃ (buffer after : Buffer) (max_bytes : ℕ),
    buffer.take_batch MAX_BATCH_ITEMS max_bytes = some (records, after)

/-- What happens to an exporter. A flush takes a batch, the parked one first, and while it is
sent anything else may happen; if it has to be sent again it is parked. -/
inductive Op where
  | push (signal : Signal) (record : Text)
  | take_batch (signal : Signal) (max_records max_bytes : ℕ)
  | take_pending
  | park (signal : Signal) (batch : TakenBatch)
  | clear_buffer (signal : Signal)
  | clear
  | unload_batches

inductive Fate where
  | taken
  | dropped
  | cleared
deriving DecidableEq

def Op.pushed (signal : Signal) : Op → Option Text
  | .push into record => if into = signal then some record else none
  | _ => none

structure Account where
  exporter : Exporter
  ledger : Signal → Ledger Text Fate

namespace Account

def fresh (max_records max_bytes : Signal → ℕ) : Account where
  exporter := Exporter.with_bounds max_records max_bytes
  ledger := fun _ => Ledger.empty

def write (self : Account) (signal : Signal) (buffer : Buffer)
    (entry : Ledger Text Fate → Ledger Text Fate) : Account where
  exporter := self.exporter.set_buffer signal buffer
  ledger := fun other => if other = signal then entry (self.ledger other) else self.ledger other

def push_entry (record : Text) (before after : Buffer) (ledger : Ledger Text Fate) :
    Ledger Text Fate :=
  if byte_len record > before.max_bytes then ledger.refuse record
  else (ledger.enter record).depart .dropped (gone (before.records ++ [record]) after.records)

def step (self : Account) : Op → Option Account
  | .push signal record =>
    ((self.exporter.buffer signal).push record).map fun after =>
      self.write signal after (push_entry record (self.exporter.buffer signal) after)
  | .take_batch signal max_records max_bytes =>
    ((self.exporter.buffer signal).take_batch max_records max_bytes).map fun (batch, after) =>
      self.write signal after (·.depart .taken batch)
  | .take_pending => some { self with exporter := { self.exporter with pending := none } }
  | .park signal batch =>
    some { self with exporter := { self.exporter with pending := some (signal, batch.records) } }
  | .clear_buffer signal =>
    some (self.write signal (self.exporter.buffer signal).clear
      (·.depart .cleared (self.exporter.buffer signal).records))
  | .clear => some
    { exporter := self.exporter.clear
      ledger := fun signal =>
        (self.ledger signal).depart .cleared (self.exporter.buffer signal).records }
  | .unload_batches => (unload_batches self.exporter).map fun (_, after) =>
    { exporter := after
      ledger := fun signal => (self.ledger signal).depart .taken
        (gone (self.exporter.buffer signal).records (after.buffer signal).records) }

def run (self : Account) (ops : List Op) : Option Account := ops.foldlM step self

end Account

structure Accounted (buffer : Buffer) (ledger : Ledger Text Fate) : Prop where
  kept : buffer.Kept
  balanced : ledger.Balanced buffer.records
  dropped : buffer.dropped = ledger.refused.length + (ledger.by_fate .dropped).length

theorem accounted_new (max_records max_bytes : ℕ) :
    Accounted (Buffer.new max_records max_bytes) Ledger.empty where
  kept := Buffer.kept_new max_records max_bytes
  balanced := balanced_empty
  dropped := rfl

theorem Accounted.depart {before after : Buffer} {ledger : Ledger Text Fate}
    (h : Accounted before ledger) {moved : List Text} {fate : Fate} (hfat : fate ≠ .dropped)
    (hmov : before.records = moved ++ after.records) (hkep : after.Kept)
    (hdro : after.dropped = before.dropped) : Accounted after (ledger.depart fate moved) where
  kept := hkep
  balanced := Ledger.Balanced.depart (hmov ▸ h.balanced) fate
  dropped := by
    rw [hdro, h.dropped, refused_depart, by_fate_depart, if_neg hfat,
      append_nil]

theorem Accounted.push {before : Buffer} {ledger : Ledger Text Fate}
    (h : Accounted before ledger) (record : Text) :
    ∃ after, before.push record = some after ∧
      Accounted after (Account.push_entry record before after ledger) ∧
      after.max_records = before.max_records ∧ after.max_bytes = before.max_bytes := by
  obtain ⟨after, hrun, hkep, hrec, hbytes, hmov⟩ := Buffer.push_returns h.kept record
  refine ⟨after, hrun _ le_rfl, ?_, hrec, hbytes⟩
  unfold Account.push_entry
  split at hmov
  · rename_i hlar
    rw [if_pos hlar]
    refine ⟨hkep, hmov.1 ▸ h.balanced.refuse record, ?_⟩
    rw [refused_refuse, length_append, hmov.2, h.dropped]
    exact Nat.add_right_comm _ _ _
  · rename_i hsma
    obtain ⟨evicted, heq, hdro⟩ := hmov
    rw [if_neg hsma, heq, gone_append]
    refine ⟨hkep, Ledger.Balanced.depart (heq ▸ h.balanced.enter record) .dropped, ?_⟩
    rw [refused_depart, refused_enter, by_fate_depart, if_pos rfl,
      length_append, hdro, h.dropped]
    exact Nat.add_assoc _ _ _

theorem arrived_push_entry (record : Text) (before after : Buffer) (ledger : Ledger Text Fate) :
    (Account.push_entry record before after ledger).arrived.map (·.1)
      = ledger.arrived.map (·.1) ++ [record] := by
  unfold Account.push_entry
  split <;> simp [Ledger.refuse, Ledger.enter]

structure Sound (max_records max_bytes : Signal → ℕ) (account : Account) : Prop where
  accounted : ∀ signal, Accounted (account.exporter.buffer signal) (account.ledger signal)
  bounds : ∀ signal, (account.exporter.buffer signal).max_records = max_records signal ∧
    (account.exporter.buffer signal).max_bytes = max_bytes signal
  pending : ∀ signal batch, account.exporter.pending = some (signal, batch) →
    batch.length ≤ MAX_BATCH_ITEMS

/-- `after` is sound, and `op` is the only arrival since `before`. -/
def Follows (max_records max_bytes : Signal → ℕ) (before : Account) (op : Op) (after : Account) :
    Prop :=
  Sound max_records max_bytes after ∧ ∀ signal, (after.ledger signal).arrived.map (·.1)
    = (before.ledger signal).arrived.map (·.1) ++ (op.pushed signal).toList

section

variable {max_records max_bytes : Signal → ℕ} {account : Account}

theorem sound_fresh (max_records max_bytes : Signal → ℕ) :
    Sound max_records max_bytes (Account.fresh max_records max_bytes) where
  accounted signal := by
    rw [show (Account.fresh max_records max_bytes).exporter.buffer signal = _ from
      Exporter.buffer_with_bounds max_records max_bytes signal]
    exact accounted_new (max_records signal) (max_bytes signal)
  bounds signal := by cases signal <;> exact ⟨rfl, rfl⟩
  pending _ _ h := nomatch h

variable {signal : Signal} {op : Op}

section Sound

variable (h : Sound max_records max_bytes account)
include h

theorem Sound.write {buffer : Buffer}
    {entry : Ledger Text Fate → Ledger Text Fate}
    (hacc : Accounted buffer (entry (account.ledger signal)))
    (hrec : buffer.max_records = (account.exporter.buffer signal).max_records)
    (hbytes : buffer.max_bytes = (account.exporter.buffer signal).max_bytes) :
    Sound max_records max_bytes (account.write signal buffer entry) := by
  refine ⟨fun other => ?_, fun other => ?_, fun of batch hpen => ?_⟩
  · show Accounted ((account.exporter.set_buffer signal buffer).buffer other)
      (if other = signal then entry (account.ledger other) else account.ledger other)
    rw [Exporter.buffer_set_buffer]
    by_cases hoth : other = signal
    · rw [if_pos hoth, if_pos hoth, hoth]
      exact hacc
    · rw [if_neg hoth, if_neg hoth]
      exact h.accounted other
  · show ((account.exporter.set_buffer signal buffer).buffer other).max_records = _ ∧
      ((account.exporter.set_buffer signal buffer).buffer other).max_bytes = _
    rw [Exporter.buffer_set_buffer]
    by_cases hoth : other = signal
    · rw [if_pos hoth, hrec, hbytes, hoth]
      exact h.bounds signal
    · rw [if_neg hoth]
      exact h.bounds other
  · have hsam := Exporter.pending_set_buffer account.exporter signal buffer
    exact h.pending of batch (hsam.symm.trans hpen)

theorem Sound.write_depart {buffer : Buffer}
    {moved : List Text} {fate : Fate} (hop : ∀ other, op.pushed other = none)
    (hfat : fate ≠ .dropped)
    (hmov : (account.exporter.buffer signal).records = moved ++ buffer.records)
    (hkep : buffer.Kept) (hdro : buffer.dropped = (account.exporter.buffer signal).dropped)
    (hrec : buffer.max_records = (account.exporter.buffer signal).max_records)
    (hbytes : buffer.max_bytes = (account.exporter.buffer signal).max_bytes) :
    Follows max_records max_bytes account op
      (account.write signal buffer (·.depart fate moved)) := by
  refine ⟨h.write ((h.accounted signal).depart hfat hmov hkep hdro) hrec hbytes,
    fun other => ?_⟩
  rw [hop, Option.toList_none, append_nil]
  show (if other = signal then (account.ledger other).depart fate moved
    else account.ledger other).arrived.map (·.1) = _
  split <;> rfl

theorem Sound.set_pending
    (hop : ∀ other, op.pushed other = none) {pending : Option (Signal × List Text)}
    (hpen : ∀ signal batch, pending = some (signal, batch) → batch.length ≤ MAX_BATCH_ITEMS) :
    Follows max_records max_bytes account op
      { account with exporter := { account.exporter with pending := pending } } := by
  refine ⟨⟨fun signal => ?_, fun signal => ?_, hpen⟩, fun signal => ?_⟩
  · cases signal
    · exact h.accounted .Logs
    · exact h.accounted .Traces
  · cases signal
    · exact h.bounds .Logs
    · exact h.bounds .Traces
  · rw [hop, Option.toList_none, append_nil]

end Sound

theorem TakenBatch.length_le (batch : TakenBatch) : batch.records.length ≤ MAX_BATCH_ITEMS := by
  obtain ⟨buffer, after, max_bytes, htak⟩ := batch.taken
  exact Buffer.take_batch_length htak

section Sound

variable (h : Sound max_records max_bytes account)
include h

theorem Sound.push (signal : Signal) (record : Text) :
    ∃ after, account.step (.push signal record) = some after ∧
      Follows max_records max_bytes account (.push signal record) after := by
  obtain ⟨buffer, hpus, hacc, hrec, hbytes⟩ := (h.accounted signal).push record
  refine ⟨_, congrArg (Option.map _) hpus, h.write hacc hrec hbytes, fun other => ?_⟩
  show (if other = signal then Account.push_entry record _ buffer (account.ledger other)
    else account.ledger other).arrived.map (·.1)
      = _ ++ (if signal = other then some record else none).toList
  by_cases hoth : other = signal
  · subst hoth
    rw [if_pos rfl, if_pos rfl, arrived_push_entry, Option.toList_some]
  · rw [if_neg hoth, if_neg (Ne.symm hoth), Option.toList_none, append_nil]

theorem Sound.unload :
    ∃ after, account.step .unload_batches = some after ∧
      Follows max_records max_bytes account .unload_batches after := by
  obtain ⟨batches, after, hrun, hkep, -, hunl⟩ :=
    unload_batches_returns (fun signal => (h.accounted signal).kept) h.pending
  refine ⟨_, congrArg (Option.map _) hrun, ⟨fun signal => ?_, fun signal => ?_, ?_⟩,
    fun signal => (append_nil _).symm⟩
  · obtain ⟨taken, -, hmov⟩ := hunl.moved signal
    show Accounted (after.buffer signal) ((account.ledger signal).depart .taken
      (gone (account.exporter.buffer signal).records (after.buffer signal).records))
    rw [hmov, gone_append]
    exact (h.accounted signal).depart (by decide) hmov (hkep signal)
      (hunl.bounds signal).2.2
  · obtain ⟨hrec, hbytes, -⟩ := hunl.bounds signal
    exact ⟨hrec.trans (h.bounds signal).1, hbytes.trans (h.bounds signal).2⟩
  · intro signal batch hpen
    rcases hunl.parked with hnone | hsam
    · exact absurd (hnone.symm.trans hpen) nofun
    · exact h.pending signal batch (hsam.symm.trans hpen)

theorem Sound.step (op : Op) :
    ∃ after, account.step op = some after ∧ Follows max_records max_bytes account op after := by
  cases op with
  | push signal record => exact h.push signal record
  | take_batch signal records bytes =>
    obtain ⟨batch, buffer, htak, hmov, hkep, hrec, hbytes, hdro, -, -⟩ :=
      Buffer.take_batch_returns (h.accounted signal).kept records bytes
    exact ⟨_, congrArg (Option.map _) htak,
      h.write_depart (fun _ => rfl) (by decide) hmov hkep hdro hrec hbytes⟩
  | take_pending => exact ⟨_, rfl, h.set_pending (fun _ => rfl) fun _ _ hnone => nomatch hnone⟩
  | park signal batch =>
    refine ⟨_, rfl, h.set_pending (fun _ => rfl) fun of records hpar => ?_⟩
    cases hpar
    exact batch.length_le
  | clear_buffer signal =>
    exact ⟨_, rfl, h.write_depart (fun _ => rfl) (by decide) (append_nil _).symm
      (Buffer.kept_clear _) rfl rfl rfl⟩
  | clear =>
    refine ⟨_, rfl, ⟨fun signal => ?_, fun signal => ?_, fun _ _ hnone => nomatch hnone⟩,
      fun signal => (append_nil _).symm⟩
    · rw [Exporter.buffer_clear]
      exact (h.accounted signal).depart (by decide) (append_nil _).symm
        (Buffer.kept_clear _) rfl
    · rw [Exporter.buffer_clear]
      exact h.bounds signal
  | unload_batches => exact h.unload

theorem Sound.run (ops : List Op) :
    ∃ after, account.run ops = some after ∧ Sound max_records max_bytes after ∧
      ∀ signal, (after.ledger signal).arrived.map (·.1)
        = (account.ledger signal).arrived.map (·.1) ++ ops.filterMap (·.pushed signal) := by
  induction ops generalizing account with
  | nil => exact ⟨account, rfl, h, fun signal => (append_nil _).symm⟩
  | cons op rest ih =>
    obtain ⟨next, hste, hsou, harr⟩ := h.step op
    obtain ⟨after, hrun, haft, hres⟩ := ih hsou
    refine ⟨after, ?_, haft, fun signal => ?_⟩
    · rw [Account.run, foldlM_cons, hste]
      exact hrun
    · rw [hres signal, harr signal, append_assoc, filterMap_cons]
      cases op.pushed signal <;> rfl

end Sound

end

/-- **Every record is accounted for, and a flush keeps to its budget.** -/
theorem every_record_is_accounted_for (max_records max_bytes : Signal → ℕ) (ops : List Op) :
    ∃ account, (Account.fresh max_records max_bytes).run ops = some account ∧
      (∀ signal,
        (account.exporter.buffer signal).bytes = total (account.exporter.buffer signal).records ∧
        (account.exporter.buffer signal).records.length ≤ max_records signal ∧
        (account.exporter.buffer signal).bytes ≤ max_bytes signal ∧
        (account.ledger signal).arrived.map (·.1) = ops.filterMap (·.pushed signal) ∧
        (account.ledger signal).entered = (account.ledger signal).departed.map (·.2)
          ++ (account.exporter.buffer signal).records ∧
        (account.exporter.buffer signal).dropped = (account.ledger signal).refused.length
          + ((account.ledger signal).by_fate .dropped).length ∧
        ∀ record, ∃ after, ∀ rounds, (account.exporter.buffer signal).records.length + 2 ≤ rounds →
          (account.exporter.buffer signal).push_in rounds record = some after) ∧
      ∃ batches after, unload_batches account.exporter = some (batches, after) ∧
        (batches.map (·.1)).Nodup ∧ (∀ batch ∈ batches, batch.2.length ≤ MAX_BATCH_ITEMS) ∧
        spent batches ≤ MAX_UNLOAD_BATCH_BYTES ∧
        (after.pending = none ∨ after.pending = account.exporter.pending) ∧
        ∀ signal, ∃ taken,
          returned batches signal = unparked account.exporter after signal ++ taken ∧
          (account.exporter.buffer signal).records = taken ++ (after.buffer signal).records := by
  obtain ⟨account, hrun, hsou, harr⟩ := (sound_fresh max_records max_bytes).run ops
  refine ⟨account, hrun, fun signal => ?_, ?_⟩
  · have hbuf := hsou.accounted signal
    obtain ⟨hrec, hbytes⟩ := hsou.bounds signal
    refine ⟨hbuf.kept.counted, hrec ▸ hbuf.kept.few, hbytes ▸ hbuf.kept.small,
      harr signal, hbuf.balanced, hbuf.dropped, fun record => ?_⟩
    obtain ⟨after, hpus, -⟩ := Buffer.push_returns hbuf.kept record
    exact ⟨after, hpus⟩
  · obtain ⟨batches, after, hunlo, -, hspe, hunl⟩ :=
      unload_batches_returns (fun signal => (hsou.accounted signal).kept) hsou.pending
    refine ⟨batches, after, hunlo, hunl.signals, fun batch hbat => ?_, hspe,
      hunl.parked, hunl.moved⟩
    exact (length_le_returned hbat).trans (hunl.few batch.1)

/-- With room for two records a third pushes the first out, and a flush takes the other two. -/
theorem oldest_record_is_dropped :
    ∃ account, (Account.fresh (fun _ => 2) fun _ => 8).run
        [.push .Logs ['a'], .push .Logs ['b'], .push .Logs ['c'], .unload_batches]
        = some account ∧
      (account.exporter.buffer .Logs).bytes = total (account.exporter.buffer .Logs).records ∧
      (account.ledger .Logs).departed = [(.dropped, ['a']), (.taken, ['b']), (.taken, ['c'])] := by
  obtain ⟨account, hrun, hbuf, -⟩ := every_record_is_accounted_for (fun _ => 2) (fun _ => 8)
    [.push .Logs ['a'], .push .Logs ['b'], .push .Logs ['c'], .unload_batches]
  have hdep : ((Account.fresh (fun _ => 2) fun _ => 8).run
        [.push .Logs ['a'], .push .Logs ['b'], .push .Logs ['c'], .unload_batches]).map
        (fun account => (account.ledger .Logs).departed)
      = some [(.dropped, ['a']), (.taken, ['b']), (.taken, ['c'])] := by decide +kernel
  rw [hrun] at hdep
  exact ⟨account, hrun, (hbuf .Logs).1, Option.some.inj hdep⟩

end SovereignConfig.Web.Telemetry
