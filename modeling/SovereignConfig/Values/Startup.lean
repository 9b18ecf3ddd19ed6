/-
`values/startup.rs`: sealing what is stored in plaintext, at startup. Whether the key is the
database's is decided at the end; if not, the transaction is dropped. A statement that fails has no
effect.
-/
import SovereignConfig.Values.Sealed

namespace SovereignConfig.Values

open Lib Text List Call

/-! ## Statements -/

def ContentRow.reseal (sealing : ℕ → Option Text) (c : ContentRow) : ContentRow :=
  match sealing c.id with
  | some sealed => { c with value := sealed }
  | none => c

@[simp] theorem ContentRow.reseal_id (sealing : ℕ → Option Text) (c : ContentRow) :
    (c.reseal sealing).id = c.id := by
  unfold ContentRow.reseal
  split <;> rfl

theorem ContentRow.reseal_times (sealing : ℕ → Option Text) (c : ContentRow) :
    (c.reseal sealing).created_at = c.created_at ∧
      (c.reseal sealing).updated_at = c.updated_at := by
  unfold ContentRow.reseal
  split <;> exact ⟨rfl, rfl⟩

namespace Tables

def reseal (t : Tables) (sealing : ℕ → Option Text) : Tables :=
  { t with
    contents := t.contents.map (ContentRow.reseal sealing)
    unique_content := nodup_update_key t.unique_content (ContentRow.reseal_id sealing)
    content_times := by
      intro row hrow
      obtain ⟨c, hc, rfl⟩ := mem_map.mp hrow
      rw [(c.reseal_times sealing).1, (c.reseal_times sealing).2]
      exact t.content_times c hc
    content_exists := by
      intro row hrow
      obtain ⟨c, hc, hid⟩ := t.content_exists row hrow
      exact ⟨_, mem_map_of_mem hc, by rw [ContentRow.reseal_id, hid]⟩ }

def reseal_secret (t : Tables) (content_id : ℕ) (sealed : Text) : Tables :=
  t.reseal fun id => if id = content_id then some sealed else none

end Tables

structure StoredSecretRow where
  id : ℕ
  value : Text
deriving DecidableEq

/-- `SELECT id, value … WHERE classification = 'secret' ORDER BY id`. -/
def Tables.stored_secrets (t : Tables) : List StoredSecretRow :=
  (order_by ContentRow.id (t.contents.filter fun c => c.classification = .SECRET)).map fun c =>
    ⟨c.id, c.value⟩

inductive PassRequest where
  | begin
  | lock_encryption_pass
  | stored_secrets
  | fill_nonce
  | reseal_secret (content_id : ℕ) (sealed : Text)
  | commit

def PassRequest.Row : PassRequest → Type
  | stored_secrets => List StoredSecretRow
  | fill_nonce => XNonce
  | _ => Unit

abbrev PassRequest.Answer (q : PassRequest) : Type := Except Unit q.Row

/-- Which of the requests, in the order they are made, succeed, and the bytes `getrandom` fills
in. -/
structure PassEnv where
  works : ℕ → Bool
  nonce : ℕ → XNonce

structure PassWorld where
  db : Db
  asked : ℕ

def PassRequest.outcome (env : PassEnv) (n : ℕ) : (q : PassRequest) → Db → q.Row × Db
  | begin, db => ((), { db with working := db.committed })
  | lock_encryption_pass, db => ((), db)
  | stored_secrets, db => (db.working.stored_secrets, db)
  | fill_nonce, db => (env.nonce n, db)
  | reseal_secret content_id sealed, db =>
      ((), { db with working := db.working.reseal_secret content_id sealed })
  | commit, db => ((), { db with committed := db.working })

def serve_pass (env : PassEnv) (q : PassRequest) (w : PassWorld) : q.Answer × PassWorld :=
  if env.works w.asked then
    (.ok (q.outcome env w.asked w.db).1, ⟨(q.outcome env w.asked w.db).2, w.asked + 1⟩)
  else (.error (), { w with asked := w.asked + 1 })

/-! ## The pass -/

abbrev Pass (α : Type) := Call PassRequest PassRequest.Answer Text α

def statement (q : PassRequest) (context : Text) : Pass q.Row :=
  .ask q fun answer => .done (answer.mapError fun _ => context)

namespace startup

def begin : Pass Unit :=
  statement .begin "unable to begin the configuration secret encryption pass".toList

def lock_encryption_pass : Pass Unit :=
  statement .lock_encryption_pass "unable to lock configuration secrets for encryption".toList

def stored_secrets : Pass (List StoredSecretRow) :=
  statement .stored_secrets "unable to read configuration secrets for encryption".toList

def reseal_secret (content_id : ℕ) (sealed : Text) : Pass Unit :=
  statement (.reseal_secret content_id sealed)
    "unable to encrypt a stored configuration secret".toList

def commit : Pass Unit :=
  statement .commit "unable to commit encrypted configuration secrets".toList

end startup

def is_envelope (stored : Text) : Bool := starts_with stored ENVELOPE_PREFIX

structure Progress where
  encrypted : ℕ
  sealed_on_entry : ℕ
  unreadable : List ℕ

def seal_stored (cipher : ValueCipher) (row : StoredSecretRow) : Pass Text :=
  .ask .fill_nonce fun nonce => .done (ok_or
    (cipher.encrypt nonce.toOption row.id .SECRET row.value)
    ("configuration secret ".toList ++ format_int row.id ++ ": value could not be encrypted".toList))

def pass_row (cipher : ValueCipher) (progress : Progress) (row : StoredSecretRow) : Pass Progress :=
  if is_envelope row.value then
    match cipher.decrypt row.id .SECRET row.value with
    | .error _ => return { progress with
        sealed_on_entry := progress.sealed_on_entry + 1
        unreadable := progress.unreadable ++ [row.id] }
    | .ok _ => return { progress with sealed_on_entry := progress.sealed_on_entry + 1 }
  else do
    let sealed ← seal_stored cipher row
    startup.reseal_secret row.id sealed
    return { progress with encrypted := progress.encrypted + 1 }

def wrong_key (unreadable sealed_on_entry : ℕ) : Bool :=
  decide (unreadable > 0) && unreadable == sealed_on_entry

def key_mismatch (sealed_on_entry : ℕ) : Text :=
  "every stored configuration secret is unreadable (".toList ++ format_int sealed_on_entry ++
    " rows); the configured value encryption key does not match this database".toList

def encrypt_stored_secrets (cipher : ValueCipher) : Pass Unit := do
  startup.begin
  startup.lock_encryption_pass
  let stored ← startup.stored_secrets
  let progress ← stored.foldlM (pass_row cipher) ⟨0, 0, []⟩
  if wrong_key progress.unreadable.length progress.sealed_on_entry then
    .fail (key_mismatch progress.sealed_on_entry)
  else startup.commit

/-! ## What the statements add up to -/

namespace Tables

variable {t : Tables}

theorem reseal_none (t : Tables) : t.reseal (fun _ => none) = t := by
  refine Tables.ext rfl ?_ rfl
  exact map_id' t.contents

theorem reseal_reseal (t : Tables) (earlier later : ℕ → Option Text) :
    (t.reseal earlier).reseal later = t.reseal fun id => (later id).or (earlier id) := by
  refine Tables.ext rfl ?_ rfl
  show (t.contents.map _).map _ = _
  rw [map_map]
  refine map_congr_left fun c _ => ?_
  rw [Function.comp_apply, ContentRow.reseal, ContentRow.reseal_id]
  cases hlat : later c.id with
  | none => simp [ContentRow.reseal, hlat]
  | some sealed =>
    cases hear : earlier c.id with
    | none => simp [ContentRow.reseal, hlat, hear]
    | some text => simp [ContentRow.reseal, hlat, hear]

theorem mem_stored_secrets {row : StoredSecretRow} :
    row ∈ t.stored_secrets ↔
      ∃ c ∈ t.contents, c.classification = .SECRET ∧ row = ⟨c.id, c.value⟩ := by
  simp only [stored_secrets, mem_map, mem_order_by, mem_filter, decide_eq_true_eq,
    and_assoc, eq_comm (b := row)]

theorem stored_secrets_nodup (t : Tables) : (t.stored_secrets.map StoredSecretRow.id).Nodup := by
  have hids : ((order_by ContentRow.id
      (t.contents.filter fun c => c.classification = .SECRET)).map ContentRow.id).Nodup :=
    ((order_by_perm _).map ContentRow.id).nodup_iff.mpr (nodup_filter_key t.unique_content _)
  rwa [stored_secrets, map_map]

end Tables

section Pass

variable {cipher : ValueCipher} {env : PassEnv}

def unreadable (cipher : ValueCipher) (row : StoredSecretRow) : Bool :=
  is_envelope row.value && !(cipher.decrypt row.id .SECRET row.value).isOk

structure Resealed (cipher : ValueCipher) (rows : List StoredSecretRow)
    (sealing : ℕ → Option Text) : Prop where
  sealed : ∀ row ∈ rows, is_envelope row.value = false → ∃ nonce text,
    sealing row.id = some text ∧ cipher.encrypt (some nonce) row.id .SECRET row.value = some text
  others : ∀ id, (∀ row ∈ rows, row.id = id → is_envelope row.value = true) → sealing id = none

theorem run_statement (hwor : ∀ n, env.works n = true) (q : PassRequest) (context : Text)
    (w : PassWorld) : (statement q context).run (serve_pass env) w
      = (.ok (q.outcome env w.asked w.db).1, ⟨(q.outcome env w.asked w.db).2, w.asked + 1⟩) := by
  rw [statement, run_ask, serve_pass, if_pos (hwor _)]
  rfl

theorem run_statement_error {q : PassRequest} {context e : Text} {w w' : PassWorld}
    (h : (statement q context).run (serve_pass env) w = (.error e, w')) : w'.db = w.db := by
  rw [statement, run_ask, serve_pass] at h
  split_ifs at h
  · cases h
  · cases h
    rfl

section Works

variable (hwor : ∀ n, env.works n = true)
include hwor

theorem run_begin (w : PassWorld) :
    startup.begin.run (serve_pass env) w
      = (.ok (), ⟨{ w.db with working := w.db.committed }, w.asked + 1⟩) :=
  run_statement hwor ..

theorem run_lock_encryption_pass (w : PassWorld) :
    startup.lock_encryption_pass.run (serve_pass env) w = (.ok (), ⟨w.db, w.asked + 1⟩) :=
  run_statement hwor ..

theorem run_stored_secrets (w : PassWorld) :
    startup.stored_secrets.run (serve_pass env) w
      = (.ok w.db.working.stored_secrets, ⟨w.db, w.asked + 1⟩) :=
  run_statement hwor ..

theorem run_reseal_secret (content_id : ℕ) (sealed : Text)
    (w : PassWorld) : (startup.reseal_secret content_id sealed).run (serve_pass env) w
      = (.ok (), ⟨{ w.db with working := w.db.working.reseal_secret content_id sealed },
          w.asked + 1⟩) :=
  run_statement hwor ..

theorem run_commit (w : PassWorld) :
    startup.commit.run (serve_pass env) w
      = (.ok (), ⟨{ w.db with committed := w.db.working }, w.asked + 1⟩) :=
  run_statement hwor ..

theorem run_pass_row
    (hseal : ∀ nonce aad msg, ∃ sealed, cipher.cipher.encrypt nonce aad msg = some sealed)
    (progress : Progress) (row : StoredSecretRow) (w : PassWorld) :
    ∃ progress' sealing n,
      (pass_row cipher progress row).run (serve_pass env) w
        = (.ok progress', ⟨{ w.db with working := w.db.working.reseal sealing }, n⟩) ∧
      Resealed cipher [row] sealing ∧
      progress'.sealed_on_entry
        = progress.sealed_on_entry + (if is_envelope row.value then 1 else 0) ∧
      progress'.unreadable.length
        = progress.unreadable.length + (if unreadable cipher row then 1 else 0) := by
  unfold pass_row unreadable
  by_cases henv : is_envelope row.value = true
  · have hnone : Resealed cipher [row] fun _ => none :=
      ⟨fun r hr hpla => by
        rw [mem_singleton.mp hr, henv] at hpla
        exact absurd hpla (by decide), fun _ _ => rfl⟩
    rw [if_pos henv]
    cases hope : cipher.decrypt row.id .SECRET row.value with
    | error e =>
      refine ⟨{ progress with
          sealed_on_entry := progress.sealed_on_entry + 1
          unreadable := progress.unreadable ++ [row.id] }, fun _ => none, w.asked, ?_, hnone, ?_, ?_⟩
      · rw [Tables.reseal_none]
        rfl
      · simp [henv]
      · simp [henv, Except.isOk, Except.toBool]
    | ok text =>
      refine ⟨{ progress with sealed_on_entry := progress.sealed_on_entry + 1 }, fun _ => none,
        w.asked, ?_, hnone, ?_, ?_⟩
      · rw [Tables.reseal_none]
        rfl
      · simp [henv]
      · simp [Except.isOk, Except.toBool]
  · rw [if_neg henv]
    obtain ⟨ciphertext, hcip⟩ := hseal (env.nonce w.asked).toList
      (as_bytes (associated_data row.id .SECRET)) (as_bytes row.value)
    have hsea : cipher.encrypt (some (env.nonce w.asked)) row.id .SECRET row.value
        = some (ENVELOPE_PREFIX ++ cipher.engine.encode ((env.nonce w.asked).toList ++ ciphertext))
        := by
      simp [ValueCipher.encrypt, hcip]
    generalize ENVELOPE_PREFIX ++ cipher.engine.encode ((env.nonce w.asked).toList ++ ciphertext)
      = sealed at hsea
    have hrun : (seal_stored cipher row).run (serve_pass env) w
        = (.ok sealed, ⟨w.db, w.asked + 1⟩) := by
      rw [seal_stored, run_ask, serve_pass, if_pos (hwor _)]
      show (ok_or (cipher.encrypt (some (env.nonce w.asked)) row.id .SECRET row.value) _, _) = _
      rw [hsea]
      rfl
    refine ⟨{ progress with encrypted := progress.encrypted + 1 },
      fun id => if id = row.id then some sealed else none, w.asked + 1 + 1, ?_, ⟨?_, ?_⟩, ?_, ?_⟩
    · rw [bind_eq, run_bind, hrun]
      simp only
      rw [bind_eq, run_bind, run_reseal_secret hwor]
      rfl
    · intro r hr _
      rw [mem_singleton.mp hr]
      exact ⟨_, sealed, if_pos rfl, hsea⟩
    · intro id hid
      exact if_neg fun heq => henv (hid row (mem_singleton.mpr rfl) heq.symm)
    · simp [henv]
    · simp [henv]

theorem run_rows
    (hseal : ∀ nonce aad msg, ∃ sealed, cipher.cipher.encrypt nonce aad msg = some sealed)
    {rows : List StoredSecretRow} (hids : (rows.map StoredSecretRow.id).Nodup)
    (progress : Progress) (w : PassWorld) :
    ∃ progress' sealing n,
      (rows.foldlM (pass_row cipher) progress).run (serve_pass env) w
        = (.ok progress', ⟨{ w.db with working := w.db.working.reseal sealing }, n⟩) ∧
      Resealed cipher rows sealing ∧
      progress'.sealed_on_entry
        = progress.sealed_on_entry + rows.countP (fun row => is_envelope row.value) ∧
      progress'.unreadable.length
        = progress.unreadable.length + rows.countP (unreadable cipher) := by
  induction rows generalizing progress w with
  | nil =>
    refine ⟨progress, fun _ => none, w.asked, ?_, ⟨fun _ h => (nomatch h), fun _ _ => rfl⟩, rfl, rfl⟩
    rw [Tables.reseal_none]
    rfl
  | cons row rows ih =>
    obtain ⟨hnew, hres⟩ := nodup_cons.mp hids
    obtain ⟨progress₁, first, n₁, hrun₁, hfir, hent₁, hunr₁⟩ :=
      run_pass_row hwor hseal progress row w
    obtain ⟨progress', later, n, hrun, hlat, hent, hunr⟩ :=
      ih hres progress₁ ⟨{ w.db with working := w.db.working.reseal first }, n₁⟩
    refine ⟨progress', fun id => (later id).or (first id), n, ?_, ⟨?_, ?_⟩, ?_, ?_⟩
    · rw [foldlM_cons, bind_eq, run_bind, hrun₁]
      simp only
      rw [hrun]
      simp only [Tables.reseal_reseal]
    · intro r hr hpla
      rcases mem_cons.mp hr with rfl | hr
      · -- No later row has this row's id.
        have hnone : later r.id = none := hlat.others r.id fun other hoth heq =>
          absurd (heq ▸ mem_map_of_mem hoth) hnew
        rw [hnone]
        exact hfir.sealed r (mem_singleton.mpr rfl) hpla
      · obtain ⟨nonce, text, hsom, hsea⟩ := hlat.sealed r hr hpla
        exact ⟨nonce, text, by rw [hsom]; rfl, hsea⟩
    · intro id hid
      rw [hlat.others id fun r hr => hid r (mem_cons_of_mem row hr),
        hfir.others id fun r hr => hid r (mem_singleton.mp hr ▸ mem_cons_self)]
      rfl
    · rw [hent, hent₁, countP_cons]
      omega
    · rw [hunr, hunr₁, countP_cons]
      omega

theorem run_pass
    (hseal : ∀ nonce aad msg, ∃ sealed, cipher.cipher.encrypt nonce aad msg = some sealed)
    (w : PassWorld) : ∃ sealing, Resealed cipher w.db.committed.stored_secrets sealing ∧
      if wrong_key (w.db.committed.stored_secrets.countP (unreadable cipher))
          (w.db.committed.stored_secrets.countP fun row => is_envelope row.value) then
        (∃ e, ((encrypt_stored_secrets cipher).run (serve_pass env) w).1 = .error e) ∧
          ((encrypt_stored_secrets cipher).run (serve_pass env) w).2.db.committed = w.db.committed
      else
        ((encrypt_stored_secrets cipher).run (serve_pass env) w).1 = .ok () ∧
          ((encrypt_stored_secrets cipher).run (serve_pass env) w).2.db.committed
            = w.db.committed.reseal sealing := by
  obtain ⟨progress, sealing, n, hrun, hsea, hent, hunr⟩ := run_rows hwor hseal
    w.db.committed.stored_secrets_nodup ⟨0, 0, []⟩
    ⟨{ w.db with working := w.db.committed }, w.asked + 1 + 1 + 1⟩
  have hall : (encrypt_stored_secrets cipher).run (serve_pass env) w
      = (if wrong_key progress.unreadable.length progress.sealed_on_entry then
          Call.fail (key_mismatch progress.sealed_on_entry) else startup.commit : Pass Unit).run
            (serve_pass env) ⟨{ w.db with working := w.db.committed.reseal sealing }, n⟩ := by
    rw [encrypt_stored_secrets, bind_eq, run_bind, run_begin hwor]
    simp only
    rw [bind_eq, run_bind, run_lock_encryption_pass hwor]
    simp only
    rw [bind_eq, run_bind, run_stored_secrets hwor]
    simp only
    rw [bind_eq, run_bind, hrun]
  rw [length_nil, Nat.zero_add] at hunr
  rw [Nat.zero_add] at hent
  refine ⟨sealing, hsea, ?_⟩
  rw [hall, hunr, hent]
  split_ifs with hwro
  · exact ⟨⟨_, rfl⟩, rfl⟩
  · rw [run_commit hwor]
    exact ⟨rfl, rfl⟩

end Works

/-- **A pass that fails changes nothing,** whatever failed. -/
theorem failed_pass_unchanged {w w' : PassWorld} {e : Text}
    (h : (encrypt_stored_secrets cipher).run (serve_pass env) w = (.error e, w')) :
    w'.db.committed = w.db.committed := by
  have hkee : ∀ (q : PassRequest) (w₁ : PassWorld), q ≠ .commit →
      w₁.db.committed = w.db.committed → (serve_pass env q w₁).2.db.committed = w.db.committed := by
    intro q w₁ hq hsam
    unfold serve_pass
    split_ifs
    · cases q with
      | commit => exact absurd rfl hq
      | _ => exact hsam
    · exact hsam
  have hrow : ∀ progress row, (pass_row cipher progress row).Asks (· ≠ .commit) := by
    intro progress row
    unfold pass_row
    split_ifs
    · split <;> trivial
    · exact Call.Asks.bind ⟨by simp, fun _ => trivial⟩ fun _ =>
        Call.Asks.bind ⟨by simp, fun _ => trivial⟩ fun _ => trivial
  have hbef : (startup.begin.bind fun _ => startup.lock_encryption_pass.bind fun _ =>
      startup.stored_secrets.bind fun stored =>
        stored.foldlM (pass_row cipher) ⟨0, 0, []⟩).Asks (· ≠ .commit) :=
    Call.Asks.bind ⟨by simp, fun _ => trivial⟩ fun _ =>
      Call.Asks.bind ⟨by simp, fun _ => trivial⟩ fun _ =>
        Call.Asks.bind ⟨by simp, fun _ => trivial⟩ fun stored => Call.Asks.foldlM hrow stored _
  have hkep := run_invariant hkee _ w hbef rfl
  have hspl : encrypt_stored_secrets cipher = (startup.begin.bind fun _ =>
      startup.lock_encryption_pass.bind fun _ => startup.stored_secrets.bind fun stored =>
        stored.foldlM (pass_row cipher) ⟨0, 0, []⟩).bind fun progress =>
      if wrong_key progress.unreadable.length progress.sealed_on_entry then
        .fail (key_mismatch progress.sealed_on_entry)
      else startup.commit := by
    simp only [bind_assoc]
    rfl
  rw [hspl, run_bind] at h
  split at h
  · rename_i progress w₁ hrun
    rw [hrun] at hkep
    split_ifs at h
    · cases h
      exact hkep
    · -- The commit itself failed.
      rw [run_statement_error h]
      exact hkep
  · rename_i e' w₁ hrun
    rw [hrun] at hkep
    cases h
    exact hkep

end Pass

/-- A store from before values were sealed, in use since: two secrets in plaintext, one sealed, and
a plain value. -/
def legacy_store : Db :=
  [(some, .put_value ['/', 'a'] (some (.Secret ['s']))),
    (some, .put_value ['/', 'b'] (some (.Secret ['t']))),
    (sample_cipher.encrypt (some zero_nonce) 3 .SECRET,
      .put_value ['/', 'c'] (some (.Secret ['u']))),
    (some, .put_value ['/', 'd'] (some (.Plain ['p'])))].foldl
    (fun db (sealing, mutation) =>
      (perform ⟨0, fun _ _ => sealing⟩ (Mutation.call operator mutation) db).2) .empty

def commit_refused : PassEnv := ⟨(· < 7), fun _ => zero_nonce⟩

/-- Both plaintext secrets are resealed, and then the commit is refused. -/
def refused_pass : Except Text Unit × PassWorld :=
  (encrypt_stored_secrets sample_cipher).run (serve_pass commit_refused) ⟨legacy_store, 0⟩

theorem refused_pass_unchanged :
    legacy_store.committed.contents.map (is_envelope ·.value) = [false, false, true, false] ∧
    ∃ w', refused_pass = (.error "unable to commit encrypted configuration secrets".toList, w') ∧
      w'.db.working.contents.map (is_envelope ·.value) = [true, true, true, false] ∧
      w'.db.committed = legacy_store.committed := by
  have hrun : refused_pass.1 = .error "unable to commit encrypted configuration secrets".toList := by
    decide +kernel
  refine ⟨by decide +kernel, refused_pass.2, Prod.ext hrun rfl, by decide +kernel, ?_⟩
  exact failed_pass_unchanged (Prod.ext hrun rfl)

/-! ## The contract -/

def ContentRow.Sealed (c : ContentRow) : Prop :=
  c.classification = .SECRET ∧ is_envelope c.value = true

def ContentRow.Plaintext (c : ContentRow) : Prop :=
  c.classification = .SECRET ∧ is_envelope c.value = false

def ContentRow.Opens (cipher : ValueCipher) (c : ContentRow) : Prop :=
  ∃ text, cipher.decrypt c.id .SECRET c.value = .ok text

/-- There are sealed secrets and the cipher opens none of them. -/
def Tables.WrongKey (cipher : ValueCipher) (t : Tables) : Prop :=
  (∃ c ∈ t.contents, c.Sealed) ∧ ∀ c ∈ t.contents, c.Sealed → ¬ c.Opens cipher

/-- Exactly the secrets stored in the clear were sealed, each so that it opens to its text. -/
structure Tables.Encrypted (cipher : ValueCipher) (t t' : Tables) : Prop where
  paths : t'.paths = t.paths
  audit : t'.audit = t.audit
  contents : List.Forall₂ (fun c c' : ContentRow =>
    (c.Plaintext → c' = { c with value := c'.value } ∧
      cipher.decrypt c.id .SECRET c'.value = .ok c.value) ∧
    (¬ c.Plaintext → c' = c)) t.contents t'.contents

section Contract

variable {cipher : ValueCipher} {t : Tables} {sealing : ℕ → Option Text}

theorem is_envelope_encrypt {nonce : Option XNonce} {id : ℕ} {value text : Text}
    (h : cipher.encrypt nonce id .SECRET value = some text) : is_envelope text = true := by
  obtain ⟨nonce_bytes, ciphertext, -, -, rfl⟩ := cipher.encrypt_eq_some h
  exact (starts_with_iff _ _).mpr (prefix_append ..)

theorem wrong_key_iff : wrong_key (t.stored_secrets.countP (unreadable cipher))
      (t.stored_secrets.countP fun row => is_envelope row.value) = true ↔ t.WrongKey cipher := by
  have hope : ∀ c : ContentRow, (cipher.decrypt c.id .SECRET c.value).isOk = true ↔
      c.Opens cipher := by
    intro c
    unfold ContentRow.Opens
    cases cipher.decrypt c.id .SECRET c.value with
    | error e => exact iff_of_false (by simp [Except.isOk, Except.toBool]) fun ⟨_, h⟩ => nomatch h
    | ok text => exact iff_of_true rfl ⟨text, rfl⟩
  have hcou : t.stored_secrets.countP (unreadable cipher)
      = t.stored_secrets.countP (fun row => is_envelope row.value) ↔
        ∀ c ∈ t.contents, c.Sealed → ¬ c.Opens cipher := by
    have hfil : t.stored_secrets.countP (unreadable cipher)
        = (t.stored_secrets.filter fun row => is_envelope row.value).countP fun row =>
            !(cipher.decrypt row.id .SECRET row.value).isOk := by
      rw [countP_filter]
      exact countP_congr fun row _ => by simp [unreadable, and_comm]
    have hlength : t.stored_secrets.countP (fun row => is_envelope row.value)
        = (t.stored_secrets.filter fun row => is_envelope row.value).length :=
      countP_eq_length_filter
    rw [hfil, hlength, countP_eq_length]
    simp only [mem_filter, Tables.mem_stored_secrets, Bool.not_eq_true', and_imp]
    constructor
    · intro h c hc hsea hopen
      have hfai := h ⟨c.id, c.value⟩ ⟨c, hc, hsea.1, rfl⟩ hsea.2
      rw [(hope c).mpr hopen] at hfai
      cases hfai
    · rintro h row ⟨c, hc, hsec, rfl⟩ henv
      rw [← Bool.not_eq_true]
      exact mt (hope c).mp (h c hc ⟨hsec, henv⟩)
  rw [wrong_key, Bool.and_eq_true, beq_iff_eq, decide_eq_true_eq, hcou, Tables.WrongKey]
  refine and_congr_left fun hnone => ?_
  rw [hcou.mpr hnone, gt_iff_lt, countP_pos_iff]
  constructor
  · rintro ⟨row, hrow, henv⟩
    obtain ⟨c, hc, hsec, rfl⟩ := Tables.mem_stored_secrets.mp hrow
    exact ⟨c, hc, hsec, henv⟩
  · rintro ⟨c, hc, hsec, henv⟩
    exact ⟨_, Tables.mem_stored_secrets.mpr ⟨c, hc, hsec, rfl⟩, henv⟩

variable {c : ContentRow}

theorem Resealed.plaintext (h : Resealed cipher t.stored_secrets sealing) (hc : c ∈ t.contents)
    (hpla : c.Plaintext) : ∃ nonce text,
      c.reseal sealing = { c with value := text } ∧
      cipher.encrypt (some nonce) c.id .SECRET c.value = some text := by
  obtain ⟨nonce, text, hsom, hsea⟩ := h.sealed ⟨c.id, c.value⟩
    (Tables.mem_stored_secrets.mpr ⟨c, hc, hpla.1, rfl⟩) hpla.2
  exact ⟨nonce, text, by rw [ContentRow.reseal, hsom], hsea⟩

theorem Resealed.other (h : Resealed cipher t.stored_secrets sealing) (hc : c ∈ t.contents)
    (hoth : ¬ c.Plaintext) : c.reseal sealing = c := by
  have hnone : sealing c.id = none := by
    refine h.others c.id fun row hrow hid => ?_
    obtain ⟨c', hc', hsec, rfl⟩ := Tables.mem_stored_secrets.mp hrow
    obtain rfl := inj_on_of_nodup_map t.unique_content hc' hc hid
    by_contra henv
    exact hoth ⟨hsec, Bool.not_eq_true _ ▸ henv⟩
  rw [ContentRow.reseal, hnone]

theorem Resealed.encrypted (h : Resealed cipher t.stored_secrets sealing) :
    t.Encrypted cipher (t.reseal sealing) := by
  refine ⟨rfl, rfl, ?_⟩
  show List.Forall₂ _ t.contents (t.contents.map _)
  rw [forall₂_map_right_iff, forall₂_same]
  refine fun c hc => ⟨fun hpla => ?_, h.other hc⟩
  obtain ⟨nonce, text, hres, hsea⟩ := h.plaintext hc hpla
  rw [hres]
  exact ⟨rfl, ValueCipher.decrypt_encrypt hsea⟩

theorem reseal_sealed {t' : Tables} (hsea : ∀ c ∈ t'.contents, ¬ c.Plaintext)
    (h : Resealed cipher t'.stored_secrets sealing) : t'.reseal sealing = t' := by
  refine Tables.ext rfl ?_ rfl
  show t'.contents.map _ = _
  conv_rhs => rw [← map_id' t'.contents]
  exact map_congr_left fun c hc => h.other hc (hsea c hc)

theorem Resealed.settled (h : Resealed cipher t.stored_secrets sealing)
    (hkey : ¬ t.WrongKey cipher) : (∀ c ∈ (t.reseal sealing).contents, ¬ c.Plaintext) ∧
      ¬ (t.reseal sealing).WrongKey cipher := by
  have hrow : ∀ {c'}, c' ∈ (t.reseal sealing).contents ↔ ∃ c ∈ t.contents,
      c.reseal sealing = c' := mem_map
  constructor
  · intro c' hc' hpla'
    obtain ⟨c, hc, rfl⟩ := hrow.mp hc'
    by_cases hpla : c.Plaintext
    · obtain ⟨nonce, text, hres, hsea⟩ := h.plaintext hc hpla
      rw [hres] at hpla'
      have henv := is_envelope_encrypt hsea
      rw [show is_envelope text = false from hpla'.2] at henv
      cases henv
    · rw [h.other hc hpla] at hpla'
      exact hpla hpla'
  · rintro ⟨⟨c', hc', hsea'⟩, hnone⟩
    -- A plaintext secret opens now; without one the tables are the old ones.
    have hno : ∀ c ∈ t.contents, ¬ c.Plaintext := by
      intro c hc hpla
      obtain ⟨nonce, text, hres, hsea⟩ := h.plaintext hc hpla
      refine hnone _ (hrow.mpr ⟨c, hc, hres⟩) ⟨hpla.1, is_envelope_encrypt hsea⟩ ?_
      exact ⟨c.value, ValueCipher.decrypt_encrypt hsea⟩
    rw [reseal_sealed hno h] at hc' hnone
    exact hkey ⟨⟨c', hc', hsea'⟩, hnone⟩

end Contract

/-- **The encryption pass.** When something is sealed and none of it opens, the pass fails and
changes nothing. -/
theorem stored_secrets_encrypted {cipher : ValueCipher} {env : PassEnv}
    (hseals : ∀ nonce aad msg, ∃ sealed, cipher.cipher.encrypt nonce aad msg = some sealed)
    (hworks : ∀ n, env.works n = true) (w : PassWorld) :
    (w.db.committed.WrongKey cipher →
      (∃ e, ((encrypt_stored_secrets cipher).run (serve_pass env) w).1 = .error e) ∧
      ((encrypt_stored_secrets cipher).run (serve_pass env) w).2.db.committed = w.db.committed) ∧
    (¬ w.db.committed.WrongKey cipher →
      ((encrypt_stored_secrets cipher).run (serve_pass env) w).1 = .ok () ∧
      w.db.committed.Encrypted cipher
        ((encrypt_stored_secrets cipher).run (serve_pass env) w).2.db.committed ∧
      ∀ (env' : PassEnv) (w' : PassWorld), (∀ n, env'.works n = true) →
        w'.db.committed = ((encrypt_stored_secrets cipher).run (serve_pass env) w).2.db.committed →
        ((encrypt_stored_secrets cipher).run (serve_pass env') w').1 = .ok () ∧
        ((encrypt_stored_secrets cipher).run (serve_pass env') w').2.db.committed
          = w'.db.committed) := by
  obtain ⟨sealing, hsea, hpas⟩ := run_pass hworks hseals w
  constructor
  · intro hkey
    rwa [if_pos (wrong_key_iff.mpr hkey)] at hpas
  · intro hkey
    rw [if_neg (mt wrong_key_iff.mp hkey)] at hpas
    obtain ⟨hok, hcom⟩ := hpas
    refine ⟨hok, hcom ▸ hsea.encrypted, fun env' w' hworks' hsam => ?_⟩
    obtain ⟨hpla, hkey'⟩ := hsea.settled hkey
    rw [← hcom, ← hsam] at hpla hkey'
    obtain ⟨sealing', hsea', haga⟩ := run_pass hworks' hseals w'
    rw [if_neg (mt wrong_key_iff.mp hkey'), reseal_sealed hpla hsea'] at haga
    exact haga

def steady : PassEnv := ⟨fun _ => true, fun _ => zero_nonce⟩

theorem legacy_store_encrypted :
    ¬ legacy_store.committed.WrongKey sample_cipher ∧
    ((encrypt_stored_secrets sample_cipher).run (serve_pass steady) ⟨legacy_store, 0⟩).1 = .ok () ∧
    legacy_store.committed.Encrypted sample_cipher
      ((encrypt_stored_secrets sample_cipher).run (serve_pass steady)
        ⟨legacy_store, 0⟩).2.db.committed := by
  have hkey : ¬ legacy_store.committed.WrongKey sample_cipher := by
    rintro ⟨-, hnone⟩
    -- The sealed secret opens.
    have hc : legacy_store.committed.contents.get ⟨2, by decide +kernel⟩ ∈
        legacy_store.committed.contents := get_mem _ _
    exact hnone _ hc ⟨by decide +kernel, by decide +kernel⟩ ⟨['u'], by decide +kernel⟩
  have hsea : ∀ nonce aad msg, ∃ sealed, sample_cipher.cipher.encrypt nonce aad msg = some sealed :=
    fun _ _ _ => ⟨_, rfl⟩
  have hwor : ∀ n, steady.works n = true := fun _ => rfl
  obtain ⟨hok, henc, -⟩ := (stored_secrets_encrypted hsea hwor ⟨legacy_store, 0⟩).2 hkey
  exact ⟨hkey, hok, henc⟩

end SovereignConfig.Values
