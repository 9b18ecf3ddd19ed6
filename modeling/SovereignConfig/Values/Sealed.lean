/-
Secrets at rest, and what revealing them returns. A `Ledger` says what was last written to each
content, from the callers' requests alone; `Kept` connects it to the store.
-/
import SovereignConfig.Values.Reads
import SovereignConfig.Values.ReplaceEffect

namespace SovereignConfig.Values

open Lib Text Base64 List Call Tables

abbrev Ledger := ℕ → Option (Classification × Text)

def Mutation.writes (context : CallContext) (t : Tables) :
    Mutation → List (Text × Classification × Text)
  | put_value path written =>
    match authorize context path [.Write] false, put_content written with
    | .ok p, .ok (value, classification) => [(p.fold, classification, value)]
    | _, _ => []
  | replace_sub_tree path values =>
    match authorize context path [.Write, .Manage] true with
    | .ok root =>
      match normalize root values with
      | .ok n => (plain_writes (t.settled root n)).map fun write => (write.1, .PLAIN, write.2)
      | .error _ => []
    | .error _ => []
  | delete_values _ _ => []
  | add_value_path _ => []

def Ledger.write (ledger : Ledger) (t : Tables) (writes : List (Text × Classification × Text)) :
    Ledger := fun id =>
  ((writes.find? fun write => t.stored_id write.1 == some id).map Prod.snd).or (ledger id)

/-- The databases calls lead to from the empty one, each with what was written on the way. Every
call seals with the server's cipher and a nonce of its own; calls that fail write nothing. -/
inductive History (cipher : ValueCipher) : Db → Ledger → Prop
  | empty : History cipher .empty fun _ => none
  | step {db db' : Db} {ledger : Ledger} {now : OffsetDateTime}
      {nonce : Option XNonce} {context : CallContext} {mutation : Mutation}
      {reply : Reply} :
      History cipher db ledger →
      perform ⟨now, cipher.encrypt nonce⟩ (mutation.call context) db = (.ok reply, db') →
      History cipher db' (ledger.write db'.committed (mutation.writes context db.committed))
  | failed {db db' : Db} {ledger : Ledger} {now : OffsetDateTime}
      {nonce : Option XNonce} {context : CallContext} {mutation : Mutation}
      {e : Status} :
      History cipher db ledger →
      perform ⟨now, cipher.encrypt nonce⟩ (mutation.call context) db = (.error e, db') →
      History cipher db' ledger

def Stores (cipher : ValueCipher) (c : ContentRow) (text : Text) : Prop :=
  match c.classification with
  | .SECRET => cipher.decrypt c.id .SECRET c.value = .ok text
  | .PLAIN => c.value = text

def Kept (cipher : ValueCipher) (t : Tables) (ledger : Ledger) : Prop :=
  ∀ c ∈ t.contents, ∃ text, ledger c.id = some (c.classification, text) ∧ Stores cipher c text

/-! ## Every call keeps it -/

section Step

variable {cipher : ValueCipher} {now : OffsetDateTime} {nonce : Option XNonce}
  {db db' : Db} {ledger : Ledger} {t : Tables}

variable {id : ℕ} {fold stored value path : Text} {classification : Classification}
  {context : CallContext}

theorem Ledger.write_of_not_mem {writes : List (Text × Classification × Text)}
    (h : ∀ write ∈ writes, t.stored_id write.1 ≠ some id) :
    ledger.write t writes id = ledger id := by
  have hnone : (writes.find? fun write => t.stored_id write.1 == some id) = none := by
    rw [find?_eq_none]
    intro write hw
    simpa using h write hw
  rw [Ledger.write, hnone]
  rfl

theorem Ledger.write_cases (ledger : Ledger) (t : Tables)
    (writes : List (Text × Classification × Text)) (id : ℕ) :
    (∃ write ∈ writes, t.stored_id write.1 = some id ∧ ledger.write t writes id = some write.2) ∨
    ((∀ write ∈ writes, t.stored_id write.1 ≠ some id) ∧
      ledger.write t writes id = ledger id) := by
  by_cases hnone : ∀ write ∈ writes, t.stored_id write.1 ≠ some id
  · exact Or.inr ⟨hnone, Ledger.write_of_not_mem hnone⟩
  · left
    push Not at hnone
    obtain ⟨write, hw, hid⟩ := hnone
    have hsom : (writes.find? fun write => t.stored_id write.1 == some id).isSome = true :=
      find?_isSome.mpr ⟨write, hw, by simpa using hid⟩
    obtain ⟨found, hfou⟩ := Option.isSome_iff_exists.mp hsom
    refine ⟨found, mem_of_find?_eq_some hfou, by simpa using find?_some hfou, ?_⟩
    rw [Ledger.write, hfou]
    rfl

theorem Ledger.write_one {entry : Classification × Text} (h : t.stored_id fold = some id) :
    ledger.write t [(fold, entry)] id = some entry := by
  simp [Ledger.write, h]

theorem stored_id_eq_some :
    t.stored_id fold = some id ↔ ∃ row ∈ t.paths, row.lowercase_path = fold ∧ row.content_id = id := by
  simp only [Tables.stored_id, Option.map_eq_some_iff, path_row_eq_some, and_assoc]

theorem stores_of_storedAs {c : ContentRow} {text : Text}
    (h : StoredAs ⟨now, cipher.encrypt nonce⟩ c.id c.classification text c.value) :
    Stores cipher c text := by
  unfold StoredAs at h
  unfold Stores
  split at h
  · rename_i hsec
    rw [hsec] at h ⊢
    exact ValueCipher.decrypt_encrypt h
  · rename_i hpla
    cases hcla : c.classification with
    | SECRET => exact absurd hcla hpla
    | PLAIN => exact h

theorem Kept.subset {t' : Tables} (h : Kept cipher t ledger)
    (hsub : ∀ c ∈ t'.contents, c ∈ t.contents) : Kept cipher t' ledger :=
  fun c hc => h c (hsub c hc)

section Kept

variable (h : Kept cipher db.committed ledger)
include h

theorem Kept.overwrite {existing : PathContentClassRow}
    (hex : db.committed.content_class fold = some existing)
    (hsto : StoredAs ⟨now, cipher.encrypt nonce⟩ existing.content_id classification value stored)
    (hove : Overwrites ⟨now, cipher.encrypt nonce⟩ db.committed db'.committed existing stored
      classification) :
    Kept cipher db'.committed (ledger.write db'.committed [(fold, classification, value)]) := by
  have hid : db'.committed.stored_id fold = some existing.content_id := by
    simp only [Tables.content_class, Option.bind_eq_bind, Option.bind_eq_some_iff, Option.pure_def,
      Option.some.injEq] at hex
    obtain ⟨row, hrow, c, _, rfl⟩ := hex
    obtain ⟨hmem, hfol⟩ := path_row_eq_some.mp hrow
    exact stored_id_eq_some.mpr ⟨row, hove.paths ▸ hmem, hfol, rfl⟩
  intro c hc
  rw [hove.contents] at hc
  obtain ⟨old, hold, rfl⟩ := mem_map.mp hc
  by_cases heq : old.id = existing.content_id
  · -- The content behind the path: the write is its ledger entry.
    have hrow : old.overwrite existing.content_id stored classification now =
        { old with value := stored, classification := classification, updated_at := now } :=
      if_pos heq
    rw [← heq] at hsto hid
    rw [hrow]
    exact ⟨value, Ledger.write_one hid, stores_of_storedAs hsto⟩
  · have hrow : old.overwrite existing.content_id stored classification now = old := if_neg heq
    rw [hrow, Ledger.write_of_not_mem]
    · exact h old hold
    · intro write hw hto
      rw [mem_singleton.mp hw, hid] at hto
      exact heq (Option.some.inj hto).symm

theorem Kept.create {path : ConfigPath}
    (hkep : WellKept db)
    (hsto : StoredAs ⟨now, cipher.encrypt nonce⟩ db.next_content_id classification value stored)
    (hcre : Creates ⟨now, cipher.encrypt nonce⟩ db.committed db'.committed path
      db.next_content_id stored classification) :
    Kept cipher db'.committed (ledger.write db'.committed [(path.fold, classification, value)]) := by
  have hid : db'.committed.stored_id path.fold = some db.next_content_id := by
    refine stored_id_eq_some.mpr ⟨⟨path.path, db.next_content_id, now, now⟩, ?_, rfl, rfl⟩
    rw [hcre.paths]
    exact mem_append_right _ (mem_singleton_self _)
  intro c hc
  rw [hcre.contents, mem_append, mem_singleton] at hc
  rcases hc with hold | rfl
  · -- The new id is ahead of every stored one, so the write is not this content's.
    rw [Ledger.write_of_not_mem]
    · exact h c hold
    · intro write hw hto
      rw [mem_singleton.mp hw, hid, Option.some.injEq] at hto
      exact absurd (hkep.ahead c hold) (by omega)
  · exact ⟨value, Ledger.write_one hid, stores_of_storedAs hsto⟩

theorem Kept.put {written : Option PutContent} {metadata : PutMetadata} (hkep : WellKept db)
    (hput : Call.Returns (exec ⟨now, cipher.encrypt nonce⟩) (put_value context path written) db
      metadata db') :
    Kept cipher db'.committed (ledger.write db'.committed
      ((Mutation.put_value path written).writes context db.committed)) := by
  obtain ⟨p, value, classification, stored, haut, hcon, hcas⟩ := put_value_returns hput
  rw [Mutation.writes, haut, hcon]
  rcases hcas with ⟨existing, hex, hsto, hove, _⟩ | ⟨hsto, hcre, _⟩
  · exact h.overwrite hex hsto hove
  · exact h.create hkep hsto hcre

theorem Kept.replace {values : List SubTreeEntry} {metadata : ReplaceMetadata}
    (hrepl : Call.Returns (exec ⟨now, cipher.encrypt nonce⟩)
      (replace_sub_tree context path values) db metadata db') :
    Kept cipher db'.committed (ledger.write db'.committed
      ((Mutation.replace_sub_tree path values).writes context db.committed)) := by
  obtain ⟨root, n, keep, writes, -, -, haut, hnor, -, hrep, -⟩ := replace_sub_tree_recorded hrepl
  have hn := normalize_ok hnor
  simp only [Mutation.writes, haut, hnor]
  intro c hc
  rcases Ledger.write_cases ledger db'.committed ((plain_writes (db.committed.settled root n)).map
    fun write => (write.1, .PLAIN, write.2)) c.id with ⟨write, hw, hto, hent⟩ | ⟨hnone, hent⟩
  · -- Some entry leads to this content, and every such entry is stored with its text.
    obtain ⟨⟨fold, text⟩, hpla, rfl⟩ := mem_map.mp hw
    obtain ⟨row, hrow, c', hc', hfol, hid, hcla, hval⟩ := hrep.writes_plain hn hpla
    obtain ⟨row', hrow', hfol', hid'⟩ := stored_id_eq_some.mp hto
    obtain rfl := inj_on_of_nodup_map db'.committed.unique_path hrow hrow'
      (hfol.trans hfol'.symm)
    obtain rfl := inj_on_of_nodup_map db'.committed.unique_content hc hc'
      (hid'.symm.trans hid.symm)
    refine ⟨text, by rw [hent, hcla], ?_⟩
    rw [Stores, hcla]
    exact hval
  · rw [hent]
    refine (h c ?_)
    rcases hrep.mem_contents.mp hc with ⟨old, hold, rfl⟩ | ⟨i, write, hget, rfl⟩
    · rcases hrep.overwritten old with ⟨write, hw, hto, _⟩ | ⟨_, hsam⟩
      · obtain ⟨row, hrow, hfol, hid⟩ := stored_id_eq_some.mp hto
        refine absurd (stored_id_eq_some.mpr ⟨row, hrep.kept_row hrow, hfol, ?_⟩)
          (hnone _ (mem_map_of_mem hw))
        rw [hid, ContentRow.overwrite_all_id]
      · rw [hsam]
        exact (mem_cleared_contents.mp hold).1
    · have hfre := mem_of_getElem? hget
      refine absurd (stored_id_eq_some.mpr ⟨_, hrep.fresh_row hget, ?_, rfl⟩)
        (hnone _ (mem_map_of_mem (hrep.mem_fresh.mp hfre).1))
      exact (hrep.fresh_fold hn hfre).1

theorem Kept.step {mutation : Mutation} {reply : Reply}
    (hkep : WellKept db)
    (hper : perform ⟨now, cipher.encrypt nonce⟩ (mutation.call context) db = (.ok reply, db')) :
    Kept cipher db'.committed
      (ledger.write db'.committed (mutation.writes context db.committed)) := by
  obtain ⟨db₁, hret, rfl⟩ := perform_returns.mp hper
  show Kept cipher db₁.committed (ledger.write db₁.committed _)
  cases mutation with
  | put_value path written =>
    obtain ⟨_, hput, _⟩ := returns_map.mp hret
    exact h.put hkep hput
  | replace_sub_tree path values =>
    obtain ⟨_, hrep, _⟩ := returns_map.mp hret
    exact h.replace hrep
  | delete_values path recurse =>
    obtain ⟨_, hdel, _⟩ := returns_map.mp hret
    obtain ⟨p, -, -, -, -, -, hcon, -⟩ := delete_values_recorded hdel
    refine h.subset (fun c hc => ?_)
    rw [hcon, Tables.pruned] at hc
    exact (mem_contents_prune.mp hc).1
  | add_value_path paths =>
    obtain ⟨_, hadd, _⟩ := returns_map.mp hret
    obtain ⟨_, _, _, _, _, _, _, _, _, hcon, _⟩ := add_value_path_returns hadd
    exact h.subset (fun c hc => hcon ▸ hc)

end Kept

theorem History.kept (h : History cipher db ledger) :
    WellKept db ∧ Kept cipher db.committed ledger := by
  induction h with
  | empty =>
    exact ⟨⟨fun c hc => absurd hc not_mem_nil, fun c hc => absurd hc not_mem_nil⟩,
      fun c hc => absurd hc not_mem_nil⟩
  | step _ hper ih => exact ⟨ih.1.step hper, ih.2.step ih.1 hper⟩
  | failed _ hper ih =>
    refine ⟨ih.1.step hper, ?_⟩
    rw [failed_mutation_changes_nothing hper]
    exact ih.2

end Step

/-! ## Revealing -/

def revealed (cipher : ValueCipher) (now : OffsetDateTime) (context : CallContext) (path : Text)
    (t : Tables) : Except Status Text :=
  ((reveal_secret context path).run (serve_read ⟨now, cipher.decrypt, true⟩) t).1

/-- The secret content that `fold` leads to. -/
def Tables.SecretContent (t : Tables) (fold : Text) (c : ContentRow) : Prop :=
  c ∈ t.contents ∧ t.stored_id fold = some c.id ∧ c.classification = .SECRET

section Reveal

variable {cipher : ValueCipher} {now : OffsetDateTime} {context : CallContext} {path : Text}
  {p : ConfigPath} {t : Tables}

theorem run_opened (id : ℕ) (classification : Classification) (stored : Text) (actor : Actor)
    (event : AuditEvent) :
    (Call.run (serve_read ⟨now, cipher.decrypt, true⟩)
      (do
        let value ← fetch_rows (.decrypt id classification stored)
        record actor event
        return value) t).1 =
      (cipher.decrypt id classification stored).mapError fun _ => decryption_failed := by
  rw [bind_eq, run_bind]
  simp only [fetch_rows, run_ask, serve_read, run_done]
  cases cipher.decrypt id classification stored with
  | error e => rfl
  | ok text => rfl

theorem revealed_eq (haut : authorize context path [.Read] false = .ok p) :
    revealed cipher now context path t =
      match t.revealed_row p.fold with
      | none => .error (.not_found "configuration value not found")
      | some row =>
        if row.classification ≠ .SECRET then
          .error (.invalid_argument "configuration value is not a secret")
        else (cipher.decrypt row.content_id row.classification row.value).mapError
          fun _ => decryption_failed := by
  obtain ⟨actor, hact⟩ := authorize_actor haut
  unfold revealed reveal_secret
  simp only [haut, hact, lift_eq]
  show (Call.run _ (Call.bind (fetch_rows (.revealed_row p.fold)) _) t).1 = _
  rw [run_bind]
  simp only [fetch_rows, run_ask, serve_read, run_done]
  cases t.revealed_row p.fold with
  | none => rfl
  | some row =>
    show (Call.run _ (if row.classification ≠ .SECRET then _ else _) t).1 =
      if row.classification ≠ .SECRET then _ else _
    by_cases hcla : row.classification ≠ .SECRET
    · rw [if_pos hcla]
      exact congrArg (fun x => (Call.run _ x t).1) (if_pos hcla)
    · rw [if_neg hcla]
      exact (congrArg (fun x => (Call.run _ x t).1) (if_neg hcla)).trans (run_opened _ _ _ _ _)

theorem revealed_row_eq_some {fold : Text} {row : RevealedRow} :
    t.revealed_row fold = some row ↔ ∃ c ∈ t.contents, t.stored_id fold = some c.id ∧
      row = ⟨c.id, c.value, c.classification⟩ := by
  simp only [Tables.revealed_row, Option.bind_eq_bind, Option.bind_eq_some_iff, Option.pure_def,
    Option.some.injEq, content_row_eq_some, path_row_eq_some, stored_id_eq_some]
  constructor
  · rintro ⟨p, ⟨hp, hfol⟩, c, ⟨hc, hid⟩, rfl⟩
    exact ⟨c, hc, ⟨p, hp, hfol, hid.symm⟩, by rw [hid]⟩
  · rintro ⟨c, hc, ⟨p, hp, hfol, hid⟩, rfl⟩
    exact ⟨p, ⟨hp, hfol⟩, c, ⟨hc, hid.symm⟩, by rw [hid]⟩

theorem revealed_secret (haut : authorize context path [.Read] false = .ok p) {c : ContentRow}
    (hc : t.SecretContent p.fold c) :
    revealed cipher now context path t =
      (cipher.decrypt c.id .SECRET c.value).mapError fun _ => decryption_failed := by
  obtain ⟨hmem, hid, hsec⟩ := hc
  rw [revealed_eq haut, revealed_row_eq_some.mpr ⟨c, hmem, hid, rfl⟩]
  simp [hsec]

theorem revealed_elsewhere (haut : authorize context path [.Read] false = .ok p)
    (hnone : ∀ c, ¬ t.SecretContent p.fold c) :
    ∃ e, revealed cipher now context path t = .error e := by
  rw [revealed_eq haut]
  cases hrow : t.revealed_row p.fold with
  | none => exact ⟨_, rfl⟩
  | some row =>
    obtain ⟨c, hc, hid, rfl⟩ := revealed_row_eq_some.mp hrow
    have hpla : c.classification ≠ .SECRET := fun hsec => hnone c ⟨hc, hid, hsec⟩
    simp [hpla]

end Reveal

/-- The stored text of one content was replaced, and nothing else. -/
structure Tampered (t t' : Tables) (id : ℕ) (value : Text) : Prop where
  paths : t'.paths = t.paths
  contents : t'.contents = t.contents.map fun c => if c.id = id then { c with value := value } else c

/-- **Secrets are sealed at rest, and a reveal returns what was last put.** -/
theorem secrets_sealed_and_revealed {cipher : ValueCipher} {db : Db} {ledger : Ledger}
    (h : History cipher db ledger) :
    (∀ c ∈ db.committed.contents, ∃ text, ledger c.id = some (c.classification, text) ∧
      (c.classification = .SECRET → cipher.decrypt c.id .SECRET c.value = .ok text) ∧
      (c.classification = .PLAIN → c.value = text)) ∧
    ∀ (now : OffsetDateTime) (context : CallContext) (path : Text) (p : ConfigPath),
      authorize context path [.Read] false = .ok p →
      (∀ c, db.committed.SecretContent p.fold c → ∃ text, ledger c.id = some (.SECRET, text) ∧
        revealed cipher now context path db.committed = .ok text) ∧
      ((∀ c, ¬ db.committed.SecretContent p.fold c) →
        ∃ e, revealed cipher now context path db.committed = .error e) ∧
      ∀ c, db.committed.SecretContent p.fold c → ∀ nonce other classification text envelope,
        other ≠ c.id → cipher.encrypt nonce other classification text = some envelope →
        ∀ t', Tampered db.committed t' c.id envelope →
          ∃ e, revealed cipher now context path t' = .error e := by
  obtain ⟨_, hkep⟩ := h.kept
  refine ⟨fun c hc => ?_, fun now context path p haut => ⟨fun c hc => ?_, ?_, ?_⟩⟩
  · obtain ⟨text, hent, hsto⟩ := hkep c hc
    refine ⟨text, hent, fun hcla => ?_, fun hcla => ?_⟩ <;>
    · rw [Stores, hcla] at hsto
      exact hsto
  · obtain ⟨text, hent, hsto⟩ := hkep c hc.1
    rw [Stores, hc.2.2] at hsto
    rw [hc.2.2] at hent
    refine ⟨text, hent, ?_⟩
    rw [revealed_secret haut hc, hsto]
    rfl
  · exact revealed_elsewhere haut
  · intro c hc nonce other classification text envelope hne hsea t' htam
    -- The path still leads to the content, which now stores the foreign envelope.
    have hc' : t'.SecretContent p.fold { c with value := envelope } := by
      refine ⟨?_, ?_, hc.2.2⟩
      · rw [htam.contents]
        exact mem_map.mpr ⟨c, hc.1, if_pos rfl⟩
      · obtain ⟨row, hrow, hfol, hid⟩ := stored_id_eq_some.mp hc.2.1
        exact stored_id_eq_some.mpr ⟨row, htam.paths ▸ hrow, hfol, hid⟩
    rw [revealed_secret haut hc', ValueCipher.decrypt_other hsea hne.symm]
    exact ⟨_, rfl⟩

/-! ### A cipher that meets the assumptions -/

/-- Associated data framed so that its end can be told: each byte behind a `1`, then a `0`. -/
def framed (aad : List UInt8) : List UInt8 := aad.flatMap (fun b => [1, b]) ++ [0]

theorem framed_bound {aad aad' msg msg' : List UInt8}
    (h : framed aad ++ msg = framed aad' ++ msg') : aad = aad' := by
  induction aad generalizing aad' with
  | nil =>
    cases aad' with
    | nil => rfl
    | cons b aad' => simp [framed] at h
  | cons a aad ih =>
    cases aad' with
    | nil => simp [framed] at h
    | cons b aad' =>
      simp only [framed, flatMap_cons, cons_append, nil_append,
        cons.injEq, true_and] at h
      rw [h.1, ih h.2]

/-- The framing, with its texts exchanged for others by a permutation. -/
def framing (texts : Equiv.Perm (List UInt8)) (hnil : texts [] = []) : Aead where
  encrypt _ aad msg := some (texts (framed aad ++ msg))
  decrypt _ aad ciphertext := (framed aad).isPrefixOf? (texts.symm ciphertext)
  opens_sealed _ aad msg ciphertext := by
    rw [isPrefixOf?_eq_some_iff_append_eq, Option.some.injEq, Equiv.eq_symm_apply]
  bound _ aad aad' msg msg' ciphertext h h' := by
    rw [← h', Option.some.injEq] at h
    exact framed_bound (texts.injective h)
  tagged _ aad msg ciphertext h := by
    rw [← Option.some.inj h, ← hnil]
    exact texts.injective.ne (by simp [framed])

/-- What XChaCha20-Poly1305 makes of `s`, `t` and `u`, as the secrets of contents 1, 2 and 3, under
the key of 32 bytes 7 and the nonce of 24 bytes 0. -/
def xchacha_texts : Equiv.Perm (List UInt8) :=
  Equiv.swap (framed (as_bytes (associated_data 1 .SECRET)) ++ as_bytes ['s'])
      [67, 148, 203, 46, 196, 164, 101, 156, 104, 3, 225, 24, 196, 55, 151, 124, 153] *
    Equiv.swap (framed (as_bytes (associated_data 2 .SECRET)) ++ as_bytes ['t'])
      [68, 235, 168, 157, 18, 136, 16, 96, 199, 143, 3, 252, 31, 217, 39, 225, 69] *
    Equiv.swap (framed (as_bytes (associated_data 3 .SECRET)) ++ as_bytes ['u'])
      [69, 61, 134, 12, 97, 107, 187, 35, 38, 28, 38, 223, 123, 122, 184, 69, 242]

theorem xchacha_texts_nil : xchacha_texts [] = [] := by decide +kernel

/-- A cipher that meets the assumptions and seals the samples as the crate does. -/
def sample_cipher : ValueCipher := ⟨framing xchacha_texts xchacha_texts_nil, STANDARD⟩

def zero_nonce : XNonce := Vector.replicate NONCE_LEN 0

example : sample_cipher.encrypt (some zero_nonce) 1 .SECRET ['s'] =
    some "enc:v1:AAAAAAAAAAAAAAAAAAAAAAAAAAAAAAAAQ5TLLsSkZZxoA+EYxDeXfJk=".toList := by
  decide +kernel

def secret_at_a : Mutation := .put_value "/a".toList (some (.Secret "s".toList))

def sealed_at_a : Db :=
  (perform ⟨0, sample_cipher.encrypt (some zero_nonce)⟩ (secret_at_a.call operator) .empty).2

theorem reveals_secret_at_a :
    revealed sample_cipher 0 operator "/a".toList sealed_at_a.committed = .ok "s".toList := by
  have hper : perform ⟨0, sample_cipher.encrypt (some zero_nonce)⟩
      (secret_at_a.call operator) .empty = (.ok (.put ⟨⟨0, 0⟩, ⟨0, 0⟩⟩), sealed_at_a) :=
    Prod.ext (by decide +kernel) rfl
  obtain ⟨c, hc⟩ : ∃ c, sealed_at_a.committed.SecretContent "/a".toList c :=
    ⟨sealed_at_a.committed.contents.head (by decide +kernel), by decide +kernel,
      by decide +kernel, by decide +kernel⟩
  obtain ⟨text, hent, hrev⟩ :=
    ((secrets_sealed_and_revealed (History.empty.step hper)).2 0 operator "/a".toList
      ⟨"/a".toList, by decide⟩ rfl).1 c hc
  have hwri : secret_at_a.writes operator .empty = [("/a".toList, .SECRET, "s".toList)] := by
    decide +kernel
  rw [show Db.empty.committed = .empty from rfl, hwri, Ledger.write_one hc.2.1] at hent
  rw [hrev, (Prod.mk.inj (Option.some.inj hent)).2]

end SovereignConfig.Values
