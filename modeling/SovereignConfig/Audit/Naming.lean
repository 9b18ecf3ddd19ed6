/-
Narratives and the names in them, over any run of upserts and renamings. The upsert keeps an old
name under a new narrative.
-/
import SovereignConfig.Audit.Recorder

namespace SovereignConfig.Audit

open Lib Text List

/-! ## Who wrote a narrative -/

inductive Written (actor : Actor) : AuditEvent → Prop
  | value_created (path : Text) (new : Recorded) : Written actor (.value_created actor path new)
  | value_updated (path : Text) (old new : Recorded) :
      Written actor (.value_updated actor path old new)
  | value_deleted (path : Text) (old : Recorded) : Written actor (.value_deleted actor path old)
  | path_added (source new_path : ConfigPath) {event : AuditEvent} :
      event ∈ AuditEvent.path_added actor source new_path → Written actor event
  | subtree_replaced (root : Text) (created updated deleted unrecorded : ℕ) :
      Written actor (.subtree_replaced actor root created updated deleted unrecorded)
  | subtree_deleted (root : Text) (deleted unrecorded : ℕ) :
      Written actor (.subtree_deleted actor root deleted unrecorded)
  | secret_revealed (path : Text) : Written actor (.secret_revealed actor path)
  | subtree_read (root : Text) (value_count : ℕ) :
      Written actor (.subtree_read actor root value_count)
  | values_listed (path : Text) (value_count : ℕ) :
      Written actor (.values_listed actor path value_count)
  | connection_created (connection : ConnectionSubject) (permissions : Text) :
      Written actor (.connection_created actor connection permissions)
  | connection_rotated (connection : ConnectionSubject) :
      Written actor (.connection_rotated actor connection)
  | connection_revoked (connection : ConnectionSubject) :
      Written actor (.connection_revoked actor connection)

def Begins (head text : Text) : Prop := ∃ rest, text = head ++ ' ' :: rest

variable {head text : Text}

theorem Begins.append (h : Begins head text) (more : Text) : Begins head (text ++ more) := by
  obtain ⟨rest, rfl⟩ := h
  exact ⟨rest ++ more, by simp⟩

theorem begins_iff : Begins head text ↔ starts_with text (head ++ [' ']) = true := by
  rw [starts_with_iff]
  constructor
  · rintro ⟨rest, rfl⟩
    exact ⟨rest, by simp⟩
  · rintro ⟨rest, rfl⟩
    exact ⟨rest, by simp⟩

theorem begins_verb (head rest : Text) : Begins head (head ++ ' ' :: rest) := ⟨rest, rfl⟩

theorem Written.begins {actor : Actor} {event : AuditEvent} (h : Written actor event) :
    Begins actor.shown event.narrative := by
  -- Every sentence is the actor, a verb that begins with a blank, and more.
  cases h with
  | value_created path new =>
    cases new <;> repeat' first | exact begins_verb _ _ | refine Begins.append ?_ _
  | value_updated path old new =>
    cases old <;> cases new <;> repeat' first | exact begins_verb _ _ | refine Begins.append ?_ _
  | value_deleted path old =>
    cases old <;> repeat' first | exact begins_verb _ _ | refine Begins.append ?_ _
  | path_added source new_path hmem =>
    rcases mem_cons.mp hmem with rfl | hmem
    · repeat' first | exact begins_verb _ _ | refine Begins.append ?_ _
    · obtain rfl := mem_singleton.mp hmem
      repeat' first | exact begins_verb _ _ | refine Begins.append ?_ _
  | _ => repeat' first | exact begins_verb _ _ | refine Begins.append ?_ _

/-! ## Renaming (`rename_actors`) -/

structure ActorRename where
  subject : Text
  name : Text
  superseded : Text
  superseded_marked : Text
deriving DecidableEq

/-- `COALESCE(actor_name, actor_subject)`. -/
def StoredEvent.shown (self : StoredEvent) : Text := self.actor_name.getD self.actor_subject

def StoredEvent.names_actor (self : StoredEvent) : Bool :=
  starts_with self.narrative (self.shown ++ [' '])

def ActorRename.concerns (self : ActorRename) (row : StoredEvent) : Bool :=
  row.actor_subject == self.subject && (row.actor_name.isNone ||
    row.actor_name == some self.superseded || row.actor_name == some self.superseded_marked)

/-- The `SET` of the statement. -/
def StoredEvent.renamed (self : StoredEvent) (rename : ActorRename) : StoredEvent :=
  { self with
    actor_name := some rename.name
    narrative := rename.name ++ self.narrative.drop self.shown.length
    recorded_actor_name :=
      if self.recorded_narrative = none then self.actor_name else self.recorded_actor_name
    recorded_narrative := self.recorded_narrative <|> some self.narrative }

def Renames (names : List ActorRename) (row row' : StoredEvent) : Prop :=
  (∃ rename ∈ names, rename.concerns row = true ∧ row.names_actor = true ∧
    row' = row.renamed rename) ∨
  ((∀ rename ∈ names, rename.concerns row = true → row.names_actor = false) ∧ row' = row)

/-- `rename_actors`, as a relation between the trail before it and after. -/
def Trail.Renamed (names : List ActorRename) (trail trail' : Trail) : Prop :=
  List.Forall₂ (Renames names) trail.rows trail'.rows

variable {names : List ActorRename} {row' row excluded : StoredEvent} {trail trail' : Trail}
  {occurrence : Occurrence} {rows : List StoredEvent} {record record' : Record}

theorem Trail.Renamed.mem (h : trail.Renamed names trail') (hrow' : row' ∈ trail'.rows) :
    ∃ row ∈ trail.rows, Renames names row row' := by
  obtain ⟨i, hi, rfl⟩ := mem_iff_getElem.mp hrow'
  obtain ⟨hlength, hget⟩ := forall₂_iff_get.mp h
  exact ⟨trail.rows[i], getElem_mem _, hget i (hlength ▸ hi) hi⟩

theorem names_actor_iff :
    row.names_actor = true ↔ Begins row.shown row.narrative := begins_iff.symm

theorem renamed_names_actor (rename : ActorRename) (h : row.names_actor = true) :
    (row.renamed rename).names_actor = true := by
  rw [names_actor_iff] at h ⊢
  obtain ⟨rest, hres⟩ := h
  refine ⟨rest, ?_⟩
  show rename.name ++ row.narrative.drop row.shown.length = rename.name ++ ' ' :: rest
  rw [hres, drop_left]

theorem Renames.names_actor (h : Renames names row row') (hrow : row.names_actor = true) :
    row'.names_actor = true := by
  rcases h with ⟨rename, -, -, -, rfl⟩ | ⟨-, rfl⟩
  · exact renamed_names_actor rename hrow
  · exact hrow

theorem Renames.keeps (h : Renames names row row') : row'.coalesce_digest = row.coalesce_digest ∧
      row'.actor_subject = row.actor_subject := by
  rcases h with ⟨rename, -, -, -, rfl⟩ | ⟨-, rfl⟩
  · exact ⟨rfl, rfl⟩
  · exact ⟨rfl, rfl⟩

theorem Renames.reaches (h : Renames names row row') (hrow : row.names_actor = true)
    {rename : ActorRename} (hren : rename ∈ names) (hcon : rename.concerns row = true) :
    ∃ rename ∈ names, rename.subject = row.actor_subject ∧ row'.actor_name = some rename.name := by
  rcases h with ⟨chosen, hcho, hmat, -, rfl⟩ | ⟨hnone, -⟩
  · simp only [ActorRename.concerns, Bool.and_eq_true, beq_iff_eq] at hmat
    exact ⟨chosen, hcho, hmat.1.symm, rfl⟩
  · exact absurd (hnone rename hren hcon) (by simp [hrow])

/-! ## Recording -/

theorem storable_append (a b : Text) : storable (a ++ b) = storable a ++ storable b :=
  filter_append ..

variable {sha256 : List UInt8 → List UInt8} {window : ℕ}

theorem excluded_names_actor (hexc : excluded_row sha256 window occurrence = some excluded)
    (hwri : Written occurrence.actor occurrence.event) :
    Begins excluded.shown excluded.narrative := by
  obtain ⟨-, -, -, -, -, hsub, hnam, -, hnar, -⟩ := excluded_row_eq hexc
  obtain ⟨rest, hres⟩ := hwri.begins
  have hsho : excluded.shown = storable occurrence.actor.shown := by
    unfold StoredEvent.shown Actor.shown
    rw [hsub, hnam]
    cases occurrence.actor.name <;> rfl
  refine ⟨storable rest, ?_⟩
  rw [hnar, hres, hsho, storable_append]
  rfl

/-- **A bumped row names its actor, unless the access has no name and the row has one** that its
narrative does not begin with. -/
theorem bumped_names_actor_iff (hexc : Begins excluded.shown excluded.narrative)
    (hsub : row.actor_subject = excluded.actor_subject) :
    (row.bumped excluded).names_actor = true ↔ (excluded.actor_name = none →
      ∀ name, row.actor_name = some name → Begins name excluded.narrative) := by
  rw [names_actor_iff]
  have hnar : (row.bumped excluded).narrative = excluded.narrative := rfl
  have hsho : (row.bumped excluded).shown =
      (excluded.actor_name <|> row.actor_name).getD row.actor_subject := rfl
  rw [hnar, hsho]
  unfold StoredEvent.shown at hexc
  cases hnam : excluded.actor_name with
  | some name =>
    rw [hnam] at hexc
    exact iff_of_true hexc fun h => absurd h (by simp)
  | none =>
    rw [hnam] at hexc
    cases hold : row.actor_name with
    | none => exact iff_of_true (hsub ▸ hexc) fun _ name h => absurd h (by simp)
    | some name => simp

variable (sha256 window) in
structure Record.Attributed (record : Record) : Prop where
  asked : ∀ landed ∈ record.history,
    excluded_row sha256 window landed.occurrence = some landed.excluded ∧
      admitted landed.excluded = true
  subjects : ∀ row ∈ record.trail.rows, row.coalesce_digest.isSome = true →
    ∃ landed ∈ record.history, landed.excluded.coalesce_digest = row.coalesce_digest ∧
      landed.excluded.actor_subject = row.actor_subject

theorem Record.Attributed.empty : Record.empty.Attributed sha256 window :=
  ⟨by simp [Record.empty], by simp [Record.empty, Trail.empty]⟩

theorem mem_insert_row (h : row ∈ insert_row rows excluded) :
    row ∈ rows ∨ row = excluded ∨
      ∃ old ∈ rows, conflicts old excluded = true ∧ row = old.bumped excluded := by
  unfold insert_row at h
  split at h
  · obtain ⟨old, hold, rfl⟩ := mem_map.mp h
    split
    · rename_i hcon
      exact Or.inr (Or.inr ⟨old, hold, hcon, rfl⟩)
    · exact Or.inl hold
  · rcases mem_append.mp h with h | h
    · exact Or.inl h
    · exact Or.inr (Or.inl (mem_singleton.mp h))

theorem bumped_mem_insert_row (hrow : row ∈ rows) (h : conflicts row excluded = true) :
    row.bumped excluded ∈ insert_row rows excluded := by
  rw [insert_row, if_pos (any_eq_true.mpr ⟨row, hrow, h⟩)]
  exact mem_map.mpr ⟨row, hrow, if_pos h⟩

theorem Record.Attributed.insert (h : record.Attributed sha256 window)
    (hins : record.insert sha256 window occurrence = some record') :
    record'.Attributed sha256 window := by
  obtain ⟨excluded, hexc, hadm, hrows, hhis⟩ := Record.insert_eq_some hins
  have hold : ∀ landed ∈ record.history, landed ∈ record'.history := fun landed hlan =>
    hhis ▸ mem_append_left _ hlan
  constructor
  · intro landed hlan
    rw [hhis] at hlan
    rcases mem_append.mp hlan with hlan | hlan
    · exact h.asked landed hlan
    · rw [mem_singleton.mp hlan]
      exact ⟨hexc, hadm⟩
  · intro row hrow hsom
    rw [hrows] at hrow
    rcases mem_insert_row hrow with hrow | rfl | ⟨old, hmem, -, rfl⟩
    · obtain ⟨landed, hlan, hsam⟩ := h.subjects row hrow hsom
      exact ⟨landed, hold landed hlan, hsam⟩
    · refine ⟨_, hhis ▸ mem_append_right _ (mem_singleton.mpr rfl), rfl, rfl⟩
    · obtain ⟨landed, hlan, hsam⟩ := h.subjects old hmem hsom
      exact ⟨landed, hold landed hlan, hsam⟩

theorem Record.Attributed.renamed (h : record.Attributed sha256 window)
    (hren : record.trail.Renamed names trail) :
    Record.Attributed sha256 window ⟨trail, record.history⟩ := by
  refine ⟨h.asked, fun row' hrow' hsom => ?_⟩
  obtain ⟨row, hrow, hrena⟩ := hren.mem hrow'
  obtain ⟨hdig, hsub⟩ := hrena.keeps
  rw [hdig] at hsom ⊢
  rw [hsub]
  exact h.subjects row hrow hsom

theorem Record.Attributed.same_subject (h : record.Attributed sha256 window)
    (h' : record'.Attributed sha256 window) (hfre : CollisionFree sha256 window record'.history)
    (hhis : ∃ landed, record'.history = record.history ++ [landed] ∧
      landed.excluded = excluded ∧ landed.occurrence = occurrence)
    (hrow : row ∈ record.trail.rows) (hcon : conflicts row excluded = true) :
    row.actor_subject = excluded.actor_subject := by
  obtain ⟨new, hhis, rfl, rfl⟩ := hhis
  simp only [conflicts, Bool.and_eq_true, beq_iff_eq] at hcon
  obtain ⟨hsom, hdig⟩ := hcon
  obtain ⟨landed, hlande, hland, hlan⟩ :=
    h.subjects row hrow (hdig ▸ hsom)
  have hmem : landed ∈ record'.history := hhis ▸ mem_append_left _ hlande
  have hnew : new ∈ record'.history :=
    hhis ▸ mem_append_right _ (mem_singleton.mpr rfl)
  obtain ⟨hask, hadm⟩ := h'.asked landed hmem
  obtain ⟨hask', hadm'⟩ := h'.asked new hnew
  obtain ⟨-, -, -, -, -, hsub, -, -, -, hof⟩ := excluded_row_eq hask
  obtain ⟨-, -, -, -, -, hsub', -, -, -, hof'⟩ := excluded_row_eq hask'
  have hsam := (digest_eq_iff hfre hmem hnew (plain_of_admitted hask hadm)
    (plain_of_admitted hask' hadm')).mp ?_
  · obtain ⟨-, -, -, -, -, heq, -⟩ := hsam
    rw [← hlan, hsub, hsub', heq]
  · rw [← hof, ← hof', hland, hdig]
    exact ⟨hsom, rfl⟩

/-- Every row names its actor. -/
def Trail.Named (self : Trail) : Prop := ∀ row ∈ self.rows, row.names_actor = true

variable (sha256 window) in
def Attributable (trail : Trail) (occurrence : Occurrence) : Prop :=
  occurrence.actor.name = none → ∀ row ∈ trail.rows, row.coalesce_digest.isSome = true →
    row.coalesce_digest = digest_of sha256 window occurrence →
    ∀ name, row.actor_name = some name →
      starts_with (storable occurrence.event.narrative) (name ++ [' ']) = true

theorem insert_named_iff (hatt : record.Attributed sha256 window)
    (hname : record.trail.Named) (hwri : Written occurrence.actor occurrence.event)
    (hins : record.insert sha256 window occurrence = some record')
    (hfre : CollisionFree sha256 window record'.history) :
    record'.trail.Named ↔ Attributable sha256 window record.trail occurrence := by
  have hatt' := hatt.insert hins
  obtain ⟨excluded, hexc, hadm, hrows, hhis⟩ := Record.insert_eq_some hins
  obtain ⟨-, -, -, -, -, -, hnam, -, hnar, hdig⟩ := excluded_row_eq hexc
  have hbeg := excluded_names_actor hexc hwri
  have hbum : ∀ row ∈ record.trail.rows, conflicts row excluded = true →
      ((row.bumped excluded).names_actor = true ↔ (excluded.actor_name = none →
        ∀ name, row.actor_name = some name → Begins name excluded.narrative)) :=
    fun row hrow hcon => bumped_names_actor_iff hbeg
      (hatt.same_subject hatt' hfre ⟨_, hhis, rfl, rfl⟩ hrow hcon)
  constructor
  · intro haft hnone row hrow hsom hwin name hrow_n
    have hcon : conflicts row excluded = true := by
      simp [conflicts, hdig, ← hwin, hsom]
    have hmem := bumped_mem_insert_row hrow hcon
    rw [← begins_iff, ← hnar]
    exact (hbum row hrow hcon).mp (haft _ (hrows ▸ hmem)) (by rw [hnam, hnone]; rfl) name
      hrow_n
  · intro hattr row' hrow'
    rw [hrows] at hrow'
    rcases mem_insert_row hrow' with hold | rfl | ⟨row, hrow, hcon, rfl⟩
    · exact hname row' hold
    · exact names_actor_iff.mpr hbeg
    · refine (hbum row hrow hcon).mpr fun hnone name hrow_n => ?_
      have hact : occurrence.actor.name = none := by
        rw [hnam] at hnone
        exact Option.map_eq_none_iff.mp hnone
      simp only [conflicts, Bool.and_eq_true, beq_iff_eq] at hcon
      rw [begins_iff, hnar]
      exact hattr hact row hrow (hcon.2 ▸ hcon.1)
        (hcon.2.trans hdig) name hrow_n

/-! ## Runs -/

inductive Action where
  | recorded (occurrence : Occurrence)
  | renamed (names : List ActorRename)

variable (sha256 window)

inductive Taken : Record → Action → Record → Prop
  | recorded {record record' : Record} {occurrence : Occurrence} :
      Written occurrence.actor occurrence.event →
      record.insert sha256 window occurrence = some record' →
      Taken record (.recorded occurrence) record'
  | renamed {record : Record} {names : List ActorRename} {trail : Trail} :
      record.trail.Renamed names trail → Taken record (.renamed names) ⟨trail, record.history⟩

/-- Recordings and renames, one after another. -/
def Run : Record → List (Action × Record) → Prop
  | _, [] => True
  | record, (action, record') :: later => Taken sha256 window record action record' ∧ Run record' later

def AllAttributable : Record → List (Action × Record) → Prop
  | _, [] => True
  | record, (.recorded occurrence, record') :: later =>
    Attributable sha256 window record.trail occurrence ∧ AllAttributable record' later
  | _, (.renamed _, record') :: later => AllAttributable record' later

variable {sha256 window}

theorem renamed_named (h : trail.Renamed names trail') (hnam : trail.Named) : trail'.Named := by
  intro row' hrow'
  obtain ⟨row, hrow, hren⟩ := h.mem hrow'
  exact hren.names_actor (hnam row hrow)

theorem run_named_iff {run : List (Action × Record)}
    (hatt : record.Attributed sha256 window) (hnam : record.trail.Named)
    (hrun : Run sha256 window record run)
    (hfre : ∀ step ∈ run, CollisionFree sha256 window step.2.history) :
    (∀ step ∈ run, step.2.trail.Named) ↔ AllAttributable sha256 window record run := by
  induction run generalizing record with
  | nil => exact iff_of_true (by simp) trivial
  | cons step later ih =>
    obtain ⟨action, record'⟩ := step
    obtain ⟨htak, hlat⟩ := hrun
    have hfre' : ∀ step ∈ later, CollisionFree sha256 window step.2.history :=
      fun step hste => hfre step (mem_cons_of_mem _ hste)
    rw [forall_mem_cons]
    cases htak with
    | recorded hwri hins =>
      have hste := insert_named_iff hatt hnam hwri hins
        (hfre _ mem_cons_self)
      rw [AllAttributable, hste]
      exact and_congr_right fun hattr =>
        ih (hatt.insert hins) (hste.mpr hattr) hlat hfre'
    | renamed hren =>
      have hnam' := renamed_named hren hnam
      rw [AllAttributable, ← ih (hatt.renamed hren) hnam' hlat hfre']
      exact and_iff_right hnam'

/-- **Narratives name their actors, in every trail of a run, exactly when every access of the run is
attributable.** -/
theorem narratives_name_actors_iff (sha256 : List UInt8 → List UInt8) (window : ℕ)
    (run : List (Action × Record)) (hrun : Run sha256 window Record.empty run)
    (hfree : ∀ step ∈ run, CollisionFree sha256 window step.2.history) :
    ((∀ step ∈ run, step.2.trail.Named) ↔ AllAttributable sha256 window Record.empty run) ∧
    ∀ step ∈ run, step.2.trail.Named → ∀ names trail', step.2.trail.Renamed names trail' →
      List.Forall₂ (fun row row' => ∀ rename ∈ names, rename.concerns row = true →
        ∃ rename ∈ names, rename.subject = row.actor_subject ∧
          row'.actor_name = some rename.name) step.2.trail.rows trail'.rows := by
  have hemp : Record.empty.trail.Named := fun row hrow => absurd hrow not_mem_nil
  refine ⟨run_named_iff Record.Attributed.empty hemp hrun hfree, ?_⟩
  intro step _ hnam names trail' hren
  obtain ⟨hlength, hget⟩ := forall₂_iff_get.mp hren
  refine forall₂_iff_get.mpr ⟨hlength, fun i hi hi' rename hrena hcon => ?_⟩
  exact (hget i hi hi').reaches (hnam _ (getElem_mem _)) hrena hcon

def nameless : Actor := ⟨"s".toList, none, "v5".toList⟩
def named : Actor := ⟨"s".toList, some "n".toList, "v5".toList⟩

def revealed_by (id : ℤ) (actor : Actor) (time : OffsetDateTime) : Occurrence :=
  ⟨id, actor, time, .secret_revealed actor "/a".toList⟩

def two_accesses (first second : Actor) : Option (Record × Record) := do
  let before ← Record.empty.insert id (86400 * 1000000000) (revealed_by 1 first 0)
  let after ← before.insert id (86400 * 1000000000) (revealed_by 2 second 1000)
  some (before, after)

/-- A window that is given a name by its second access. -/
theorem named_later : ∃ before after, two_accesses nameless named = some (before, after) ∧
    before.trail.Named ∧ after.trail.Named := by
  have hsom : (two_accesses nameless named).isSome = true := by decide +kernel
  obtain ⟨⟨before, after⟩, hbot⟩ := Option.isSome_iff_exists.mp hsom
  refine ⟨before, after, hbot, ?_⟩
  simp only [two_accesses, Option.bind_eq_bind, Option.bind_eq_some_iff, Option.some.injEq,
    Prod.mk.injEq] at hbot
  obtain ⟨_, hbef, _, haft, rfl, rfl⟩ := hbot
  have hnam := (narratives_name_actors_iff id (86400 * 1000000000)
    [(.recorded (revealed_by 1 nameless 0), _), (.recorded (revealed_by 2 named 1000), _)]
    ⟨.recorded (.secret_revealed _) hbef, .recorded (.secret_revealed _) haft, trivial⟩
    fun _ _ _ _ _ _ h => h).1.mpr
    ⟨fun _ row hrow => absurd hrow not_mem_nil, fun h => absurd h (by simp [revealed_by, named]),
      trivial⟩
  exact ⟨hnam _ mem_cons_self, hnam _ (mem_cons_of_mem _ mem_cons_self)⟩

/-- The second access has no name: the row keeps the first one's name and tells the subject. -/
theorem name_kept_under_subject :
    (two_accesses named nameless).map (fun records => records.2.trail.rows.map fun row =>
      (row.actor_name, row.actor_subject, row.narrative, row.names_actor)) =
      some [(some "n".toList, "s".toList, "s revealed secret /a".toList, false)] := by
  decide +kernel

end SovereignConfig.Audit
