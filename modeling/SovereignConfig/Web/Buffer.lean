/-
`telemetry/buffer.rs`: records waiting to be sent. The byte counter never falls behind, so no
subtraction underflows (`none` here) and the loop that makes room ends.
-/
import SovereignConfig.Text

namespace SovereignConfig.Web.Telemetry

open Text List

structure Buffer where
  records : List Text
  bytes : ℕ
  max_records : ℕ
  max_bytes : ℕ
  dropped : ℕ
deriving DecidableEq

/-- `records.iter().map(String::len).sum()`. -/
def total (records : List Text) : ℕ := (records.map byte_len).sum

/-- A `usize` subtraction; `none` where it underflows. -/
def usize_sub (a b : ℕ) : Option ℕ := if b ≤ a then some (a - b) else none

namespace Buffer

def new (max_records max_bytes : ℕ) : Buffer where
  records := []
  bytes := 0
  max_records := max_records
  max_bytes := max_bytes
  dropped := 0

/-- The loop at the end of `push`, in at most `rounds` rounds. A round on an empty buffer
changes nothing: nothing in the code keeps it from going round for ever. -/
def evict : ℕ → Buffer → Option Buffer
  | 0, _ => none
  | rounds + 1, self =>
    if self.records.length > self.max_records ∨ self.bytes > self.max_bytes then
      match self.records with
      | [] => evict rounds self
      | oldest :: rest =>
        (usize_sub self.bytes (byte_len oldest)).bind fun bytes =>
          evict rounds { self with records := rest, bytes := bytes, dropped := self.dropped + 1 }
    else some self

def push_in (rounds : ℕ) (self : Buffer) (record : Text) : Option Buffer :=
  if byte_len record > self.max_bytes then some { self with dropped := self.dropped + 1 }
  else
    evict rounds
      { self with bytes := self.bytes + byte_len record, records := self.records ++ [record] }

/-- `push`, with as many rounds as it can need (`push_returns`). -/
def push (self : Buffer) (record : Text) : Option Buffer :=
  self.push_in (self.records.length + 2) record

def take_loop (max_records max_bytes : ℕ) :
    List Text → ℕ → List Text → ℕ → Option (List Text × List Text × ℕ)
  | [], bytes, batch, _ => some (batch, [], bytes)
  | next :: rest, bytes, batch, size =>
    if batch.length = max_records ∨ (batch ≠ [] ∧ size + byte_len next > max_bytes) then
      some (batch, next :: rest, bytes)
    else
      (usize_sub bytes (byte_len next)).bind fun bytes =>
        take_loop max_records max_bytes rest bytes (batch ++ [next]) (size + byte_len next)

def take_batch (self : Buffer) (max_records max_bytes : ℕ) : Option (List Text × Buffer) :=
  (take_loop max_records max_bytes self.records self.bytes [] 0).map
    fun (batch, records, bytes) => (batch, { self with records := records, bytes := bytes })

def front_len (self : Buffer) : Option ℕ := self.records.head?.map byte_len

def clear (self : Buffer) : Buffer := { self with records := [], bytes := 0 }

end Buffer

@[simp]
theorem total_nil : total [] = 0 := rfl

@[simp]
theorem total_cons (record : Text) (records : List Text) :
    total (record :: records) = byte_len record + total records := rfl

@[simp]
theorem total_append (front rest : List Text) :
    total (front ++ rest) = total front + total rest := by
  simp [total]

theorem usize_sub_add (a b : ℕ) : usize_sub (a + b) a = some b := by
  rw [usize_sub, if_pos (Nat.le_add_right a b), Nat.add_sub_cancel_left]

namespace Buffer

structure Kept (buffer : Buffer) : Prop where
  counted : buffer.bytes = total buffer.records
  few : buffer.records.length ≤ buffer.max_records
  small : buffer.bytes ≤ buffer.max_bytes

theorem kept_new (max_records max_bytes : ℕ) : (new max_records max_bytes).Kept where
  counted := rfl
  few := Nat.zero_le _
  small := Nat.zero_le _

variable {self : Buffer} {batch : List Text} {max_bytes max_records : ℕ}

theorem evict_oldest {oldest : Text} {rest : List Text} (hrec : self.records = oldest :: rest)
    (hcou : self.bytes = total self.records)
    (hove : self.records.length > self.max_records ∨ self.bytes > self.max_bytes) (rounds : ℕ) :
    evict (rounds + 1) self = evict rounds
      { self with records := rest, bytes := total rest, dropped := self.dropped + 1 } := by
  have hsub : usize_sub self.bytes (byte_len oldest) = some (total rest) := by
    rw [hcou, hrec, total_cons, usize_sub_add]
  rw [evict, if_pos hove, hrec]
  show (usize_sub self.bytes (byte_len oldest)).bind _ = _
  rw [hsub, Option.bind_some]

theorem evict_within
    (hwit : ¬ (self.records.length > self.max_records ∨ self.bytes > self.max_bytes))
    {rounds : ℕ} (hrou : 0 < rounds) : evict rounds self = some self := by
  obtain ⟨n, rfl⟩ := Nat.exists_eq_add_of_lt hrou
  rw [evict, if_neg hwit]

/-- **The loop of `push` ends** within one round more than there are records: it drops from
the front until both bounds hold. -/
theorem evict_returns (self : Buffer) (hcou : self.bytes = total self.records) :
    ∃ evicted after, (∀ rounds, self.records.length + 1 ≤ rounds → evict rounds self = some after) ∧
      self.records = evicted ++ after.records ∧ after.Kept ∧
      after.max_records = self.max_records ∧ after.max_bytes = self.max_bytes ∧
      after.dropped = self.dropped + evicted.length := by
  obtain ⟨records, bytes, max_records, max_bytes, dropped⟩ := self
  -- The loop takes one record off the front a round, so the induction is on the records.
  induction records generalizing bytes dropped with
  | nil =>
    obtain rfl : bytes = 0 := hcou
    refine ⟨[], ⟨[], 0, max_records, max_bytes, dropped⟩, fun rounds hrou => ?_, rfl, ?_, rfl, rfl,
      rfl⟩
    · exact evict_within (by simp) hrou
    · exact ⟨rfl, Nat.zero_le _, Nat.zero_le _⟩
  | cons oldest rest ih =>
    by_cases hove : (oldest :: rest).length > max_records ∨ bytes > max_bytes
    · obtain ⟨evicted, after, hrun, hmov, hkep, hrec, hbytes, hdro⟩ :=
        ih (total rest) (dropped + 1) rfl
      refine ⟨oldest :: evicted, after, ?_, ?_, hkep, hrec, hbytes, ?_⟩
      · intro rounds hrou
        obtain ⟨n, rfl⟩ : ∃ n, rounds = n + 1 := ⟨rounds - 1, by omega⟩
        rw [evict_oldest rfl hcou hove]
        exact hrun n (by simpa using hrou)
      · exact congrArg (oldest :: ·) hmov
      · rw [hdro, length_cons]
        exact Nat.add_right_comm dropped 1 evicted.length
    · refine ⟨[], ⟨oldest :: rest, bytes, max_records, max_bytes, dropped⟩, fun rounds hrou => ?_,
        rfl, ?_, rfl, rfl, rfl⟩
      · exact evict_within hove (Nat.lt_of_lt_of_le (Nat.succ_pos _) hrou)
      · rw [not_or, not_lt, not_lt] at hove
        exact ⟨hcou, hove.1, hove.2⟩

/-- **`push` returns**, with both bounds kept, and more rounds change nothing. A record above
the whole byte bound is dropped itself; any other is buffered and the oldest are dropped. -/
theorem push_returns (h : self.Kept) (record : Text) :
    ∃ after, (∀ rounds, self.records.length + 2 ≤ rounds →
        self.push_in rounds record = some after) ∧
      after.Kept ∧ after.max_records = self.max_records ∧ after.max_bytes = self.max_bytes ∧
      if byte_len record > self.max_bytes then
        after.records = self.records ∧ after.dropped = self.dropped + 1
      else
        ∃ evicted, self.records ++ [record] = evicted ++ after.records ∧
          after.dropped = self.dropped + evicted.length := by
  by_cases hlar : byte_len record > self.max_bytes
  · refine ⟨{ self with dropped := self.dropped + 1 }, ?_, ⟨h.counted, h.few, h.small⟩, rfl, rfl,
      ?_⟩
    · intro rounds _
      rw [push_in, if_pos hlar]
    · rw [if_pos hlar]
      exact ⟨rfl, rfl⟩
  · obtain ⟨evicted, after, hrun, hmov, hkep, hrec, hbytes, hdro⟩ := evict_returns
      { self with bytes := self.bytes + byte_len record, records := self.records ++ [record] }
      (by simp [h.counted])
    refine ⟨after, ?_, hkep, hrec, hbytes, ?_⟩
    · intro rounds hrou
      rw [push_in, if_neg hlar]
      exact hrun rounds (by rw [length_append, length_singleton]; omega)
    · rw [if_neg hlar]
      exact ⟨evicted, hmov, hdro⟩

/-- The loop of `take_batch` moves records from the front to the end of the batch, and keeps to
the record limit. It keeps to the byte limit if the first record it moves does. -/
theorem take_loop_returns (max_records max_bytes : ℕ) (records batch : List Text)
    (hfew : batch.length ≤ max_records) :
    ∃ taken rest, take_loop max_records max_bytes records (total records) batch (total batch)
        = some (batch ++ taken, rest, total rest) ∧
      records = taken ++ rest ∧ (batch ++ taken).length ≤ max_records ∧
      (total batch ≤ max_bytes → (batch = [] → ∀ next ∈ records.head?, byte_len next ≤ max_bytes) →
        total (batch ++ taken) ≤ max_bytes) := by
  induction records generalizing batch with
  | nil =>
    refine ⟨[], [], ?_, rfl, by simpa using hfew, ?_⟩
    · rw [take_loop, append_nil]
    · intro hsiz _
      rwa [append_nil]
  | cons next rest ih =>
    by_cases hsto : batch.length = max_records ∨
        (batch ≠ [] ∧ total batch + byte_len next > max_bytes)
    · refine ⟨[], next :: rest, ?_, rfl, by simpa using hfew, ?_⟩
      · rw [take_loop, if_pos hsto, append_nil]
      · intro hsiz _
        rwa [append_nil]
    · rw [not_or, not_and, not_lt] at hsto
      have hmor : (batch ++ [next]).length ≤ max_records := by
        rw [length_append, length_singleton]
        exact Nat.lt_of_le_of_ne hfew hsto.1
      obtain ⟨taken, left, hrun, hmov, hcou, hsiz⟩ := ih (batch ++ [next]) hmor
      rw [append_assoc, singleton_append] at hrun hcou hsiz
      refine ⟨next :: taken, left, ?_, congrArg (next :: ·) hmov, hcou, ?_⟩
      · rw [take_loop, if_neg (by rw [not_or, not_and, not_lt]; exact hsto), total_cons,
          usize_sub_add, Option.bind_some, ← hrun, total_append]
        rfl
      · intro _ hfir
        refine hsiz ?_ fun hnil => absurd hnil (by simp)
        rw [total_append, total_cons, total_nil, Nat.add_zero]
        by_cases hemp : batch = []
        · subst hemp
          simpa using hfir rfl
        · exact hsto.2 hemp

theorem take_loop_length {records : List Text} {bytes size : ℕ}
    {result : List Text × List Text × ℕ} (hfew : batch.length ≤ max_records)
    (h : take_loop max_records max_bytes records bytes batch size = some result) :
    result.1.length ≤ max_records := by
  induction records generalizing batch bytes size with
  | nil =>
    cases h
    exact hfew
  | cons next rest ih =>
    rw [take_loop] at h
    split at h
    · cases h
      exact hfew
    · rename_i hmor
      rw [not_or] at hmor
      obtain ⟨left, -, hres⟩ := Option.bind_eq_some_iff.mp h
      refine ih ?_ hres
      rw [length_append, length_singleton]
      exact Nat.lt_of_le_of_ne hfew hmor.1

theorem take_batch_length {after : Buffer}
    (h : self.take_batch max_records max_bytes = some (batch, after)) :
    batch.length ≤ max_records := by
  obtain ⟨result, hloo, heq⟩ := Option.map_eq_some_iff.mp h
  obtain rfl : result.1 = batch := congrArg Prod.fst heq
  exact take_loop_length (Nat.zero_le _) hloo

/-- **`take_batch` returns the oldest records**, at most `max_records` of them, and at most
`max_bytes` bytes if the oldest is. -/
theorem take_batch_returns (h : self.Kept) (max_records max_bytes : ℕ) :
    ∃ batch after, self.take_batch max_records max_bytes = some (batch, after) ∧
      self.records = batch ++ after.records ∧ after.Kept ∧
      after.max_records = self.max_records ∧ after.max_bytes = self.max_bytes ∧
      after.dropped = self.dropped ∧ batch.length ≤ max_records ∧
      ((∀ len ∈ self.front_len, len ≤ max_bytes) → total batch ≤ max_bytes) := by
  obtain ⟨taken, rest, hrun, hmov, hcou, hsiz⟩ :=
    take_loop_returns max_records max_bytes self.records [] (Nat.zero_le _)
  rw [nil_append] at hrun hcou hsiz
  have hbytes : total self.records = total taken + total rest := by rw [hmov, total_append]
  refine ⟨taken, { self with records := rest, bytes := total rest }, ?_, hmov, ?_, rfl, rfl, rfl,
    hcou, ?_⟩
  · rw [take_batch, h.counted]
    exact congrArg (Option.map _) hrun
  · have hlength : self.records.length = taken.length + rest.length := by
      rw [hmov, length_append]
    refine ⟨rfl, ?_, ?_⟩
    · have := h.few
      show rest.length ≤ self.max_records
      omega
    · have hsma := h.small
      rw [h.counted] at hsma
      show total rest ≤ self.max_bytes
      omega
  · intro hfro
    refine hsiz (Nat.zero_le _) fun _ next hnex => hfro _ ?_
    rw [front_len, Option.mem_def.mp hnex]
    rfl

theorem kept_clear (self : Buffer) : self.clear.Kept where
  counted := rfl
  few := Nat.zero_le _
  small := Nat.zero_le _

end Buffer

end SovereignConfig.Web.Telemetry
